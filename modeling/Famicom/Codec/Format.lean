import Famicom.Fault

/-!
# Formats of single values

A state buffer is a list of bytes without tags. Integers are little-endian with a fixed width, a
truth value is one byte, a byte sequence stands behind its length in eight bytes.
-/

namespace Famicom.Codec

/-- The low `width` bytes of a number, lowest first. -/
def littleEndian : Nat → Nat → List UInt8
  | 0, _ => []
  | width + 1, n => UInt8.ofNat n :: littleEndian width (n / 256)

def ofLittleEndian : List UInt8 → Nat
  | [] => 0
  | b :: bs => b.toNat + 256 * ofLittleEndian bs

/-- A reader eats the front of a buffer. What it ate before it failed stays eaten. -/
abbrev Reader := EStateM DecodeError (List UInt8)

/-- Eats `n` bytes, or none when fewer are left. -/
def take (n : Nat) : Reader (Vector UInt8 n) := fun buffer =>
  if h : n ≤ buffer.length then
    .ok ⟨(buffer.take n).toArray, by simp [h]⟩ (buffer.drop n)
  else
    .error (.truncated n buffer.length) buffer

def readNat (width : Nat) : Reader Nat := do
  return ofLittleEndian (← take width).toList

/-- How the values of a type lie in a buffer. -/
structure Format (α : Type) where
  write : α → List UInt8
  read : Reader α

namespace Format

def u8 : Format UInt8 where
  write v := littleEndian 1 v.toNat
  read := return UInt8.ofNat (← readNat 1)

def u16 : Format UInt16 where
  write v := littleEndian 2 v.toNat
  read := return UInt16.ofNat (← readNat 2)

def u32 : Format UInt32 where
  write v := littleEndian 4 v.toNat
  read := return UInt32.ofNat (← readNat 4)

def u64 : Format UInt64 where
  write v := littleEndian 8 v.toNat
  read := return UInt64.ofNat (← readNat 8)

/-- Signed integers are written in two's complement. -/
def i8 : Format Int8 where
  write v := u8.write v.toUInt8
  read := return (← u8.read).toInt8

def i16 : Format Int16 where
  write v := u16.write v.toUInt16
  read := return (← u16.read).toInt16

def i32 : Format Int32 where
  write v := u32.write v.toUInt32
  read := return (← u32.read).toInt32

def i64 : Format Int64 where
  write v := u64.write v.toUInt64
  read := return (← u64.read).toInt64

/-- Every byte but zero reads as true. -/
def bool : Format Bool where
  write v := u8.write (if v then 1 else 0)
  read := return (← u8.read) != 0

def bytes : Format (Array UInt8) where
  write v := littleEndian 8 v.size ++ v.toList
  read := do
    let size ← readNat 8
    return (← take size).toArray

/-- A memory of `n` bytes: a sequence whose stored length must be `n`. -/
def memory (n : Nat) : Format (Vector UInt8 n) where
  write v := bytes.write v.toArray
  read := do
    let size ← readNat 8
    if size = n then take n else throw (.wrongLength size n)

end Format

/-- The types that a buffer can hold. A size is an address-wide count, stored in eight bytes. -/
inductive FieldType
  | u8 | u16 | u32 | u64
  | i8 | i16 | i32 | i64
  | size
  | bool
  | bytes
  | memory (n : Nat)
deriving DecidableEq, Repr

def FieldType.Value : FieldType → Type
  | u8 => UInt8
  | u16 => UInt16
  | u32 => UInt32
  | u64 | size => UInt64
  | i8 => Int8
  | i16 => Int16
  | i32 => Int32
  | i64 => Int64
  | bool => Bool
  | bytes => Array UInt8
  | memory n => Vector UInt8 n

def FieldType.format : (t : FieldType) → Format t.Value
  | u8 => Format.u8
  | u16 => Format.u16
  | u32 => Format.u32
  | u64 | size => Format.u64
  | i8 => Format.i8
  | i16 => Format.i16
  | i32 => Format.i32
  | i64 => Format.i64
  | bool => Format.bool
  | bytes => Format.bytes
  | memory n => Format.memory n

end Famicom.Codec
