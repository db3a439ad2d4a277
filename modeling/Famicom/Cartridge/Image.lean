import Famicom.Cartridge

/-!
# Cartridge images

An image is a header of sixteen bytes, an optional trainer, the program banks and the pattern banks.
Bytes behind the last bank are ignored.
-/

namespace Famicom

inductive ImageError
  | notAnImage
  | noProgram
  | unsupportedVersion (version : UInt8)
  | truncated (expected found : Nat)
deriving DecidableEq, Repr

def ImageError.message : ImageError → String
  | notAnImage => "Not an iNES file"
  | noProgram => "ROM has no PRG banks"
  | unsupportedVersion version => s!"Unsupported ROM version: v{version}"
  | truncated expected found =>
    s!"ROM image truncated: expected {expected} bytes, found {found}"

namespace Image

def headerSize : Nat := 16
def trainerSize : Nat := 512
def programBankSize : Nat := 0x4000
def patternBankSize : Nat := 0x2000

/-- The four bytes that open every image. -/
def magic : List UInt8 := [0x4E, 0x45, 0x53, 0x1A]

/-- What the header says. -/
structure Header where
  programBanks : UInt8
  patternBanks : UInt8
  flags6 : UInt8
  flags7 : UInt8
deriving DecidableEq, Repr

namespace Header

def ofImage? (raw : ByteArray) : Option Header :=
  if h : headerSize ≤ raw.size then
    have size : 16 ≤ raw.size := h
    if [raw[0], raw[1], raw[2], raw[3]] = magic then
      some ⟨raw[4], raw[5], raw[6], raw[7]⟩
    else
      none
  else
    none

/-- 0 for the first format and 2 for its successor; 1 and 3 are neither. -/
def version (header : Header) : UInt8 := header.flags7 / 4 % 4

def board (header : Header) : UInt8 := (header.flags7 &&& 0xF0) ||| header.flags6 / 16

def hasTrainer (header : Header) : Bool := header.flags6 &&& 0x04 != 0

def extendedRam (header : Header) : Bool := header.flags6 &&& 0x02 != 0

/-- The four-screen bit wins over the arrangement bit. -/
def mirroring (header : Header) : Mirroring :=
  if header.flags6 &&& 0x08 != 0 then .fourScreen
  else if header.flags6 &&& 0x01 != 0 then .vertical
  else .horizontal

def programStart (header : Header) : Nat :=
  headerSize + if header.hasTrainer then trainerSize else 0

def patternStart (header : Header) : Nat :=
  header.programStart + header.programBanks.toNat * programBankSize

def imageEnd (header : Header) : Nat :=
  header.patternStart + header.patternBanks.toNat * patternBankSize

end Header

end Image

/-- Reads an image. A short image is reported before an empty program. -/
def Cartridge.ofImage (raw : ByteArray) : Except ImageError Cartridge :=
  match Image.Header.ofImage? raw with
  | none => .error .notAnImage
  | some header =>
    if header.version = 1 ∨ header.version = 3 then
      .error (.unsupportedVersion header.version)
    else if raw.size < header.imageEnd then
      .error (.truncated header.imageEnd raw.size)
    else if header.programBanks = 0 then
      .error .noProgram
    else
      .ok {
        program := raw.extract header.programStart header.patternStart
        patterns := raw.extract header.patternStart header.imageEnd
        board := header.board
        mirroring := header.mirroring
        extendedRam := header.extendedRam }

end Famicom
