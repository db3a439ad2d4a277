import Famicom.Cartridge.Image

/-!
# Images of cartridges

Every cartridge of whole banks has an image, and that image is read back as the cartridge. What
follows the banks does not matter.
-/

namespace Famicom.Image

/-- The sixteen bytes of a header, the last eight of which mean nothing. -/
def Header.bytes (header : Header) : ByteArray :=
  ⟨#[0x4E, 0x45, 0x53, 0x1A, header.programBanks, header.patternBanks, header.flags6,
    header.flags7, 0, 0, 0, 0, 0, 0, 0, 0]⟩

theorem Header.ofImage?_bytes (header : Header) (rest : ByteArray) :
    ofImage? (header.bytes ++ rest) = some header := by
  have hsize : headerSize ≤ (header.bytes ++ rest).size := by
    rw [ByteArray.size_append]
    exact Nat.le_add_right 16 _
  have get : ∀ i (h : i < 16) (h' : i < (header.bytes ++ rest).size),
      (header.bytes ++ rest)[i] = header.bytes[i] := fun i h _ =>
    ByteArray.getElem_append_left h
  unfold ofImage?
  rw [dif_pos hsize]
  dsimp only
  rw [get 0 (by decide), get 1 (by decide), get 2 (by decide), get 3 (by decide),
    get 4 (by decide), get 5 (by decide), get 6 (by decide), get 7 (by decide)]
  exact if_pos rfl

/-- The cartridge that a header finds in an image. -/
def Header.cartridge (header : Header) (raw : ByteArray) : Cartridge where
  program := raw.extract header.programStart header.patternStart
  patterns := raw.extract header.patternStart header.imageEnd
  board := header.board
  mirroring := header.mirroring
  extendedRam := header.extendedRam

/-- An image that is accepted has passed every check. -/
theorem of_ofImage_ok {raw : ByteArray} {cartridge : Cartridge}
    (h : Cartridge.ofImage raw = .ok cartridge) :
    ∃ header, Header.ofImage? raw = some header ∧ (header.version ≠ 1 ∧ header.version ≠ 3) ∧
      header.imageEnd ≤ raw.size ∧ header.programBanks ≠ 0 ∧ cartridge = header.cartridge raw := by
  unfold Cartridge.ofImage at h
  cases hh : Header.ofImage? raw with
  | none =>
    rw [hh] at h
    cases h
  | some header =>
    simp only [hh] at h
    split at h
    · cases h
    split at h
    · cases h
    split at h
    · cases h
    · cases h
      exact ⟨header, rfl, not_or.1 ‹_›, Nat.not_lt.1 ‹_›, ‹_›, rfl⟩

/-- The banks that a header counts are complete in an image that is long enough. -/
theorem Header.cartridge_sizes {header : Header} {raw : ByteArray}
    (h : header.imageEnd ≤ raw.size) :
    (header.cartridge raw).program.size = header.programBanks.toNat * programBankSize ∧
      (header.cartridge raw).patterns.size = header.patternBanks.toNat * patternBankSize := by
  have ends : header.patternStart ≤ header.imageEnd := Nat.le_add_right _ _
  constructor
  · show (raw.extract _ _).size = _
    rw [ByteArray.size_extract, Nat.min_eq_left (Nat.le_trans ends h), patternStart,
      Nat.add_sub_cancel_left]
  · show (raw.extract _ _).size = _
    rw [ByteArray.size_extract, Nat.min_eq_left h, imageEnd, Nat.add_sub_cancel_left]

/-- What a header and the banks behind it make up. -/
structure Parts (header : Header) (trainer program patterns : ByteArray) : Prop where
  version : header.version ≠ 1 ∧ header.version ≠ 3
  banks : header.programBanks ≠ 0
  trainer : trainer.size = if header.hasTrainer then trainerSize else 0
  program : program.size = header.programBanks.toNat * programBankSize
  patterns : patterns.size = header.patternBanks.toNat * patternBankSize

/-- Whatever sixteen bytes stand in front, if they are read as the header. -/
theorem Parts.ofImage_front {header : Header} {front trainer program patterns : ByteArray}
    (h : Parts header trainer program patterns) (size : front.size = headerSize)
    (rest : ByteArray)
    (found : Header.ofImage? (front ++ trainer ++ program ++ patterns ++ rest) = some header) :
    Cartridge.ofImage (front ++ trainer ++ program ++ patterns ++ rest) = .ok {
      program := program
      patterns := patterns
      board := header.board
      mirroring := header.mirroring
      extendedRam := header.extendedRam } := by
  have hstart : (front ++ trainer).size = header.programStart := by
    rw [ByteArray.size_append, h.trainer, size]
    rfl
  have hpatterns : (front ++ trainer ++ program).size = header.patternStart := by
    rw [ByteArray.size_append, hstart, h.program]
    rfl
  have hend : (front ++ trainer ++ program ++ patterns).size = header.imageEnd := by
    rw [ByteArray.size_append, hpatterns, h.patterns]
    rfl
  have hroom : ¬(front ++ trainer ++ program ++ patterns ++ rest).size < header.imageEnd := by
    rw [ByteArray.size_append, hend]
    exact Nat.not_lt.2 (Nat.le_add_right _ _)
  have middle : ∀ {a b c : ByteArray}, (a ++ b ++ c).extract a.size (a ++ b).size = b := by
    intro a b c
    rw [ByteArray.extract_append_size_left]
    exact ByteArray.extract_append_eq_right rfl ByteArray.size_append
  have hprogram : (front ++ trainer ++ program ++ patterns ++ rest).extract
      header.programStart header.patternStart = program := by
    rw [ByteArray.append_assoc (b := patterns), ← hstart, ← hpatterns]
    exact middle
  have hpattern : (front ++ trainer ++ program ++ patterns ++ rest).extract
      header.patternStart header.imageEnd = patterns := by
    rw [← hpatterns, ← hend]
    exact middle
  unfold Cartridge.ofImage
  rw [found]
  dsimp only
  rw [if_neg (not_or.2 h.version), if_neg hroom, if_neg h.banks, hprogram, hpattern]

theorem Parts.ofImage {header : Header} {trainer program patterns : ByteArray}
    (h : Parts header trainer program patterns) (rest : ByteArray) :
    Cartridge.ofImage (header.bytes ++ trainer ++ program ++ patterns ++ rest) = .ok {
      program := program
      patterns := patterns
      board := header.board
      mirroring := header.mirroring
      extendedRam := header.extendedRam } := by
  apply h.ofImage_front rfl rest
  simp only [ByteArray.append_assoc]
  exact Header.ofImage?_bytes header _

/-! ## A cartridge that polls a controller -/

/-- Stores what the first controller answers at $10, writes it back to the strobe and stops. -/
def pollingByte : Nat → UInt8
  | 0x0000 => 0xAD  -- LDA $4016
  | 0x0001 => 0x16
  | 0x0002 => 0x40
  | 0x0003 => 0x85  -- STA $10
  | 0x0004 => 0x10
  | 0x0005 => 0x8D  -- STA $4016
  | 0x0006 => 0x16
  | 0x0007 => 0x40
  | 0x0008 => 0x4C  -- JMP $8008
  | 0x0009 => 0x08
  | 0x000A => 0x80
  | 0x3FFD => 0x80  -- the reset vector is $8000
  | _ => 0x00

def polling : Cartridge where
  program := ⟨Array.ofFn fun i : Fin programBankSize => pollingByte i⟩
  patterns := .empty
  board := 0
  mirroring := .horizontal
  extendedRam := false

def pollingHeader : Header := ⟨1, 0, 0, 0⟩

def pollingImage : ByteArray := pollingHeader.bytes ++ .empty ++ polling.program ++ .empty ++ .empty

theorem polling_size : polling.program.size = programBankSize := by
  simp only [polling, ByteArray.size, Array.size_ofFn]

theorem ofImage_pollingImage : Cartridge.ofImage pollingImage = .ok polling := by
  have parts : Parts pollingHeader .empty polling.program .empty := {
    version := by decide
    banks := by decide
    trainer := rfl
    program := by
      rw [polling_size]
      exact (Nat.one_mul _).symm
    patterns := (Nat.zero_mul _).symm }
  exact parts.ofImage .empty

end Famicom.Image
