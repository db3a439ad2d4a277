import Famicom.Codec.Format

/-!
# Checksums

SipHash with one round for each word and three at the end, under the key zero.
-/

namespace Famicom

/-- The four lanes of a running checksum. -/
structure Checksum where
  v0 : UInt64
  v1 : UInt64
  v2 : UInt64
  v3 : UInt64

namespace Checksum

def start : Checksum where
  v0 := 0x736F6D6570736575
  v1 := 0x646F72616E646F6D
  v2 := 0x6C7967656E657261
  v3 := 0x7465646279746573

@[inline] def rotate (n v : UInt64) : UInt64 := (v <<< n) ||| (v >>> (64 - n))

def round (s : Checksum) : Checksum :=
  let v0 := s.v0 + s.v1
  let v1 := rotate 13 s.v1 ^^^ v0
  let v2 := s.v2 + s.v3
  let v3 := rotate 16 s.v3 ^^^ v2
  let sum := rotate 32 v0 + v3
  let cross := v2 + v1
  ⟨sum, rotate 17 v1 ^^^ cross, rotate 32 cross, rotate 21 v3 ^^^ sum⟩

def absorb (s : Checksum) (word : UInt64) : Checksum :=
  let mixed := round { s with v3 := s.v3 ^^^ word }
  { mixed with v0 := mixed.v0 ^^^ word }

def word (bytes : List UInt8) : UInt64 := UInt64.ofNat (Codec.ofLittleEndian bytes)

/-- Absorbs eight bytes at a time and answers those that are left. -/
def absorbWords (s : Checksum) : List UInt8 → Checksum × List UInt8
  | a :: b :: c :: d :: e :: f :: g :: h :: rest =>
    absorbWords (s.absorb (word [a, b, c, d, e, f, g, h])) rest
  | rest => (s, rest)

/-- The last word holds the bytes that are left, and the length in its top byte. -/
def finish (s : Checksum) (length : Nat) (rest : List UInt8) : UInt64 :=
  let last := s.absorb (word rest ||| UInt64.ofNat length <<< 56)
  let s := round (round (round { last with v2 := last.v2 ^^^ 0xFF }))
  s.v0 ^^^ s.v1 ^^^ s.v2 ^^^ s.v3

def ofBytes (bytes : List UInt8) : UInt64 :=
  match absorbWords start bytes with
  | (s, rest) => s.finish bytes.length rest

/-- A sequence is its length in eight bytes and then the bytes of its elements. -/
def ofSequence {α : Type} (encode : α → List UInt8) (elements : List α) : UInt64 :=
  ofBytes (Codec.littleEndian 8 elements.length ++ elements.flatMap encode)

end Checksum

end Famicom
