import Famicom.Proofs.Bits
import Famicom.Proofs.Image

/-!
# The grammar of images

Everything that an image can hold, and that exactly the images put together from such contents are
accepted, with nothing lost. Every other input is refused for the first of its faults.
-/

namespace Famicom.Image

/-! ## Headers -/

/-- A byte of an input, zero behind its end. -/
def byteAt (raw : ByteArray) (i : Nat) : UInt8 := if h : i < raw.size then raw[i] else 0

/-- An input that opens with a whole header. -/
structure Opens (raw : ByteArray) : Prop where
  long : 16 ≤ raw.size
  magic : (List.range 4).map (byteAt raw) = [0x4E, 0x45, 0x53, 0x1A]

instance (raw : ByteArray) : Decidable (Opens raw) :=
  decidable_of_iff (16 ≤ raw.size ∧ (List.range 4).map (byteAt raw) = [0x4E, 0x45, 0x53, 0x1A])
    ⟨fun h => ⟨h.1, h.2⟩, fun h => ⟨h.long, h.magic⟩⟩

def headerAt (raw : ByteArray) : Header :=
  ⟨byteAt raw 4, byteAt raw 5, byteAt raw 6, byteAt raw 7⟩

theorem byteAt_append {a b : ByteArray} {i : Nat} (h : i < a.size) :
    byteAt (a ++ b) i = byteAt a i := by
  have inside : i < (a ++ b).size := by
    rw [ByteArray.size_append]
    omega
  rw [byteAt, byteAt, dif_pos inside, dif_pos h, ByteArray.getElem_append_left h]

theorem ofImage?_eq (raw : ByteArray) :
    Header.ofImage? raw = if Opens raw then some (headerAt raw) else none := by
  by_cases long : headerSize ≤ raw.size
  · have here : ∀ i (h : i < raw.size), raw[i] = byteAt raw i := fun i h => (dif_pos h).symm
    have opens : (Opens raw ↔ [byteAt raw 0, byteAt raw 1, byteAt raw 2, byteAt raw 3] = magic) :=
      ⟨fun h => h.magic, fun h => ⟨long, h⟩⟩
    simp only [Header.ofImage?, dif_pos long, here, opens, headerAt]
  · have shut : ¬Opens raw := fun h => long h.long
    rw [Header.ofImage?, dif_neg long, if_neg shut]

namespace Header

variable (header : Header)

/-- The bytes of an image up to its last bank. -/
def fullSize : Nat :=
  16 + (if header.flags6.toNat.testBit 2 then 512 else 0) + 16384 * header.programBanks.toNat +
    8192 * header.patternBanks.toNat

/-- Of one of the two formats. -/
def Current : Prop := header.flags7.toNat / 4 % 4 ≠ 1 ∧ header.flags7.toNat / 4 % 4 ≠ 3

theorem version_toNat : header.version.toNat = header.flags7.toNat / 4 % 4 := by
  rw [version, UInt8.toNat_mod, UInt8.toNat_div]
  rfl

theorem current_iff : header.Current ↔ ¬(header.version = 1 ∨ header.version = 3) := by
  rw [Current, ← version_toNat, not_or, ← UInt8.toNat_inj, ← UInt8.toNat_inj]
  rfl

theorem hasTrainer_eq : header.hasTrainer = header.flags6.toNat.testBit 2 :=
  and_bit_ne_zero header.flags6 rfl

theorem extendedRam_eq : header.extendedRam = header.flags6.toNat.testBit 1 :=
  and_bit_ne_zero header.flags6 rfl

theorem mirroring_eq : header.mirroring = if header.flags6.toNat.testBit 3 then .fourScreen
    else if header.flags6.toNat.testBit 0 then .vertical else .horizontal := by
  have fourScreen : (header.flags6 &&& 0x08 != 0) = header.flags6.toNat.testBit 3 :=
    and_bit_ne_zero header.flags6 rfl
  have vertical : (header.flags6 &&& 0x01 != 0) = header.flags6.toNat.testBit 0 :=
    and_bit_ne_zero header.flags6 rfl
  rw [mirroring, fourScreen, vertical]

theorem board_toNat :
    header.board.toNat = header.flags7.toNat / 16 * 16 + header.flags6.toNat / 16 := by
  have high : header.flags7.toNat &&& 0xF0 = 2 ^ 4 * (header.flags7.toNat / 16) := by
    have field : header.flags7.toNat &&& 0xF0 = header.flags7.toNat / 16 % 16 * 16 :=
      and_field header.flags7.toNat 4 4
    have bound := header.flags7.toNat_lt
    omega
  have low : header.flags6.toNat / 16 < 2 ^ 4 := by
    have bound := header.flags6.toNat_lt
    omega
  rw [board, UInt8.toNat_or, UInt8.toNat_and, UInt8.toNat_div]
  show header.flags7.toNat &&& 0xF0 ||| header.flags6.toNat / 16 = _
  rw [high, ← Nat.two_pow_add_eq_or_of_lt low]
  omega

theorem imageEnd_eq : header.imageEnd = header.fullSize := by
  rw [imageEnd, patternStart, programStart, fullSize, hasTrainer_eq]
  simp only [headerSize, trainerSize, programBankSize, patternBankSize]
  omega

/-- The parts of an image stand in order. -/
theorem starts_le : headerSize ≤ header.programStart ∧
    header.programStart ≤ header.patternStart ∧ header.patternStart ≤ header.imageEnd :=
  ⟨Nat.le_add_right _ _, Nat.le_add_right _ _, Nat.le_add_right _ _⟩

/-- No sum of sizes overflows a word. -/
theorem fullSize_lt : header.fullSize < 2 ^ 32 := by
  have program := header.programBanks.toNat_lt
  have patterns := header.patternBanks.toNat_lt
  unfold fullSize
  split <;> omega

end Header

/-! ## Contents -/

/-- All that an image can hold. -/
structure Contents where
  programBanks : UInt8
  patternBanks : UInt8
  board : UInt8
  fourScreen : Bool
  vertical : Bool
  extendedRam : Bool
  /-- Whether the image is of the second format. -/
  second : Bool
  /-- The two bits below the version, which decide nothing. -/
  kind : Fin 4
  unused : Vector UInt8 8
  trainer : Option (Vector UInt8 512)
  program : ByteArray
  patterns : ByteArray
  trailing : ByteArray
  banks : programBanks ≠ 0
  program_size : program.size = 16384 * programBanks.toNat
  patterns_size : patterns.size = 8192 * patternBanks.toNat

namespace Contents

variable (contents : Contents)

def flags6 : UInt8 := UInt8.ofNat (contents.board.toNat % 16 * 16 + contents.fourScreen.toNat * 8 +
  contents.trainer.isSome.toNat * 4 + contents.extendedRam.toNat * 2 + contents.vertical.toNat)

def flags7 : UInt8 :=
  UInt8.ofNat (contents.board.toNat / 16 * 16 + contents.second.toNat * 8 + contents.kind)

def header : Header :=
  ⟨contents.programBanks, contents.patternBanks, contents.flags6, contents.flags7⟩

def opening : ByteArray :=
  ⟨#[0x4E, 0x45, 0x53, 0x1A, contents.programBanks, contents.patternBanks, contents.flags6,
    contents.flags7]⟩

def trainerBytes : ByteArray :=
  match contents.trainer with
  | some bytes => ⟨bytes.toArray⟩
  | none => .empty

def image : ByteArray :=
  contents.opening ++ ⟨contents.unused.toArray⟩ ++ contents.trainerBytes ++ contents.program ++
    contents.patterns ++ contents.trailing

def mirroring : Mirroring :=
  if contents.fourScreen then .fourScreen else if contents.vertical then .vertical else .horizontal

def cartridge : Cartridge where
  program := contents.program
  patterns := contents.patterns
  board := contents.board
  mirroring := contents.mirroring
  extendedRam := contents.extendedRam

theorem flags6_toNat : contents.flags6.toNat = contents.board.toNat % 16 * 16 +
    contents.fourScreen.toNat * 8 + contents.trainer.isSome.toNat * 4 +
    contents.extendedRam.toNat * 2 + contents.vertical.toNat := by
  have a := contents.fourScreen.toNat_lt
  have b := contents.trainer.isSome.toNat_lt
  have c := contents.extendedRam.toNat_lt
  have d := contents.vertical.toNat_lt
  rw [flags6, UInt8.toNat_ofNat']
  omega

theorem flags7_toNat : contents.flags7.toNat =
    contents.board.toNat / 16 * 16 + contents.second.toNat * 8 + contents.kind := by
  have a := contents.second.toNat_lt
  have b := contents.kind.isLt
  have c := contents.board.toNat_lt
  rw [flags7, UInt8.toNat_ofNat']
  omega

theorem header_current : contents.header.Current := by
  have a := contents.second.toNat_lt
  have b := contents.kind.isLt
  have flags : contents.header.flags7.toNat = _ := contents.flags7_toNat
  unfold Header.Current
  omega

theorem header_board : contents.header.board = contents.board := by
  have a := contents.second.toNat_lt
  have b := contents.kind.isLt
  have flags : contents.header.flags7.toNat = _ := contents.flags7_toNat
  have low : contents.header.flags6.toNat / 16 = _ := (bits_of_sum contents.flags6_toNat).1
  apply UInt8.toNat_inj.1
  rw [Header.board_toNat]
  omega

theorem header_hasTrainer : contents.header.hasTrainer = contents.trainer.isSome :=
  contents.header.hasTrainer_eq.trans (bits_of_sum contents.flags6_toNat).2.2.1

theorem header_extendedRam : contents.header.extendedRam = contents.extendedRam :=
  contents.header.extendedRam_eq.trans (bits_of_sum contents.flags6_toNat).2.2.2.1

theorem header_mirroring : contents.header.mirroring = contents.mirroring := by
  obtain ⟨-, fourScreen, -, -, vertical⟩ := bits_of_sum contents.flags6_toNat
  rw [Header.mirroring_eq]
  show (if contents.flags6.toNat.testBit 3 then _ else if contents.flags6.toNat.testBit 0 then _
    else _) = _
  rw [fourScreen, vertical, mirroring]

theorem front_size : (contents.opening ++ ⟨contents.unused.toArray⟩).size = headerSize := by
  rw [ByteArray.size_append]
  exact congrArg (8 + ·) contents.unused.size_toArray

theorem ofImage?_image : Header.ofImage? contents.image = some contents.header := by
  have opening : ∀ i, i < 8 → byteAt contents.image i = byteAt contents.opening i := by
    intro i inside
    simp only [image, ByteArray.append_assoc]
    exact byteAt_append inside
  have long : headerSize ≤ contents.image.size := by
    simp only [image, ByteArray.size_append, ← contents.front_size]
    omega
  have magic : (List.range 4).map (byteAt contents.image) = [0x4E, 0x45, 0x53, 0x1A] := by
    show [byteAt contents.image 0, byteAt contents.image 1, byteAt contents.image 2,
      byteAt contents.image 3] = _
    rw [opening 0 (by decide), opening 1 (by decide), opening 2 (by decide),
      opening 3 (by decide)]
    rfl
  rw [ofImage?_eq, if_pos ⟨long, magic⟩, headerAt, opening 4 (by decide), opening 5 (by decide),
    opening 6 (by decide), opening 7 (by decide)]
  rfl

theorem parts : Parts contents.header contents.trainerBytes contents.program contents.patterns where
  version := not_or.1 (contents.header.current_iff.1 contents.header_current)
  banks := contents.banks
  trainer := by
    rw [header_hasTrainer, trainerBytes]
    cases contents.trainer with
    | none => rfl
    | some bytes => exact bytes.size_toArray
  program := contents.program_size.trans (Nat.mul_comm _ _)
  patterns := contents.patterns_size.trans (Nat.mul_comm _ _)

/-- What is put together is read back. -/
theorem ofImage_image : Cartridge.ofImage contents.image = .ok contents.cartridge := by
  have read := contents.parts.ofImage_front contents.front_size contents.trailing
    contents.ofImage?_image
  rwa [header_board, header_mirroring, header_extendedRam] at read

end Contents

/-! ## Images taken apart -/

variable {raw : ByteArray}

theorem extract_join {a b c : Nat} (h : a ≤ b) (h' : b ≤ c) :
    raw.extract a b ++ raw.extract b c = raw.extract a c := by
  rw [ByteArray.extract_append_extract, Nat.min_eq_left h, Nat.max_eq_right h']

theorem trainer_size (room : (headerAt raw).imageEnd ≤ raw.size)
    (h : (headerAt raw).hasTrainer = true) :
    (raw.extract headerSize (headerAt raw).programStart).size = trainerSize := by
  obtain ⟨-, program, patterns⟩ := (headerAt raw).starts_le
  rw [ByteArray.size_extract, Nat.min_eq_left (program.trans (patterns.trans room)),
    Header.programStart, if_pos h, Nat.add_sub_cancel_left]

theorem unused_size (room : (headerAt raw).imageEnd ≤ raw.size) :
    (raw.extract 8 headerSize).size = 8 := by
  obtain ⟨front, program, patterns⟩ := (headerAt raw).starts_le
  rw [ByteArray.size_extract, Nat.min_eq_left (front.trans (program.trans (patterns.trans room)))]
  rfl

/-- The contents of an image that is long enough. -/
def contentsAt (raw : ByteArray) (room : (headerAt raw).imageEnd ≤ raw.size)
    (banks : (headerAt raw).programBanks ≠ 0) : Contents where
  programBanks := (headerAt raw).programBanks
  patternBanks := (headerAt raw).patternBanks
  board := (headerAt raw).board
  fourScreen := (headerAt raw).flags6.toNat.testBit 3
  vertical := (headerAt raw).flags6.toNat.testBit 0
  extendedRam := (headerAt raw).extendedRam
  second := (headerAt raw).flags7.toNat.testBit 3
  kind := Fin.ofNat 4 (headerAt raw).flags7.toNat
  unused := ⟨(raw.extract 8 headerSize).data, unused_size room⟩
  trainer :=
    if h : (headerAt raw).hasTrainer = true then
      some ⟨(raw.extract headerSize (headerAt raw).programStart).data, trainer_size room h⟩
    else none
  program := raw.extract (headerAt raw).programStart (headerAt raw).patternStart
  patterns := raw.extract (headerAt raw).patternStart (headerAt raw).imageEnd
  trailing := raw.extract (headerAt raw).imageEnd raw.size
  banks := banks
  program_size := (Header.cartridge_sizes room).1.trans (Nat.mul_comm _ _)
  patterns_size := (Header.cartridge_sizes room).2.trans (Nat.mul_comm _ _)

section
variable {room : (headerAt raw).imageEnd ≤ raw.size} {banks : (headerAt raw).programBanks ≠ 0}

theorem contentsAt_trainer : (contentsAt raw room banks).trainer.isSome =
    (headerAt raw).flags6.toNat.testBit 2 := by
  rw [← Header.hasTrainer_eq]
  by_cases h : (headerAt raw).hasTrainer = true
  · simp [contentsAt, h]
  · simp [contentsAt, h]

theorem contentsAt_flags6 : (contentsAt raw room banks).flags6 = (headerAt raw).flags6 := by
  have board : (contentsAt raw room banks).board.toNat = _ := (headerAt raw).board_toNat
  have ram : (contentsAt raw room banks).extendedRam = _ := (headerAt raw).extendedRam_eq
  have bits := sum_of_bits (headerAt raw).flags6.toNat
  have bound := (headerAt raw).flags6.toNat_lt
  apply UInt8.toNat_inj.1
  rw [Contents.flags6_toNat, board, contentsAt_trainer, ram]
  simp only [contentsAt]
  omega

theorem contentsAt_flags7 (current : (headerAt raw).Current) :
    (contentsAt raw room banks).flags7 = (headerAt raw).flags7 := by
  have board : (contentsAt raw room banks).board.toNat = _ := (headerAt raw).board_toNat
  have second : (contentsAt raw room banks).second.toNat = _ :=
    Nat.toNat_testBit (headerAt raw).flags7.toNat 3
  have kind : ((contentsAt raw room banks).kind : Nat) = (headerAt raw).flags7.toNat % 4 := rfl
  have bound := (headerAt raw).flags6.toNat_lt
  -- both formats leave bit 2 clear, so bit 3 alone tells them apart
  unfold Header.Current at current
  apply UInt8.toNat_inj.1
  rw [Contents.flags7_toNat, board, second, kind]
  omega

theorem contentsAt_opening (opens : Opens raw) (current : (headerAt raw).Current) :
    (contentsAt raw room banks).opening = raw.extract 0 8 := by
  have long := opens.long
  have magic : [byteAt raw 0, byteAt raw 1, byteAt raw 2, byteAt raw 3] =
    [0x4E, 0x45, 0x53, 0x1A] := opens.magic
  simp only [List.cons.injEq, and_true] at magic
  obtain ⟨first, second, third, fourth⟩ := magic
  have same : ∀ i, i < 8 → byteAt (contentsAt raw room banks).opening i = byteAt raw i := fun i h =>
    match i, h with
    | 0, _ => first.symm
    | 1, _ => second.symm
    | 2, _ => third.symm
    | 3, _ => fourth.symm
    | 4, _ => rfl
    | 5, _ => rfl
    | 6, _ => contentsAt_flags6
    | 7, _ => contentsAt_flags7 current
  apply ByteArray.ext_getElem
  · rw [ByteArray.size_extract, Nat.min_eq_left (by omega)]
    rfl
  · intro i hi hi'
    have inside : i < 8 := hi
    have left := same i inside
    rw [byteAt, byteAt, dif_pos hi, dif_pos (by omega)] at left
    rw [left, ByteArray.getElem_extract]
    simp only [Nat.zero_add]

theorem contentsAt_trainerBytes : (contentsAt raw room banks).trainerBytes =
    raw.extract headerSize (headerAt raw).programStart := by
  unfold Contents.trainerBytes
  by_cases h : (headerAt raw).hasTrainer = true
  · simp only [contentsAt, dif_pos h]
  · have start : (headerAt raw).programStart = headerSize := by
      rw [Header.programStart, if_neg h, Nat.add_zero]
    simp only [contentsAt, dif_neg h, start]
    exact (ByteArray.extract_eq_empty_iff.2 (Nat.min_le_left _ _)).symm

/-- Put together again, it is the image that was taken apart. -/
theorem contentsAt_image (opens : Opens raw) (current : (headerAt raw).Current) :
    (contentsAt raw room banks).image = raw := by
  obtain ⟨front, program, patterns⟩ := (headerAt raw).starts_le
  rw [Contents.image, contentsAt_opening opens current, contentsAt_trainerBytes]
  show raw.extract 0 8 ++ raw.extract 8 headerSize ++
    raw.extract headerSize (headerAt raw).programStart ++
    raw.extract (headerAt raw).programStart (headerAt raw).patternStart ++
    raw.extract (headerAt raw).patternStart (headerAt raw).imageEnd ++
    raw.extract (headerAt raw).imageEnd raw.size = raw
  -- each slice begins where the one before it ends
  rw [extract_join (by decide) (by decide), extract_join (by decide) front,
    extract_join (Nat.zero_le _) program, extract_join (Nat.zero_le _) patterns,
    extract_join (Nat.zero_le _) room, ByteArray.extract_zero_size]

theorem contentsAt_cartridge :
    (contentsAt raw room banks).cartridge = (headerAt raw).cartridge raw := by
  rw [Header.cartridge, Header.mirroring_eq]
  rfl

end

/-! ## Verdicts -/

theorem ofImage?_eq_some {header : Header} (h : Header.ofImage? raw = some header) :
    Opens raw ∧ header = headerAt raw := by
  rw [ofImage?_eq] at h
  split at h
  · cases h
    exact ⟨‹_›, rfl⟩
  · cases h

/-- Exactly what is put together from contents is accepted. -/
theorem ofImage_eq_ok {cartridge : Cartridge} : Cartridge.ofImage raw = .ok cartridge ↔
    ∃ contents : Contents, contents.image = raw ∧ contents.cartridge = cartridge := by
  constructor
  · intro h
    obtain ⟨header, found, version, room, banks, rfl⟩ := of_ofImage_ok h
    obtain ⟨opens, rfl⟩ := ofImage?_eq_some found
    have current := (headerAt raw).current_iff.2 (not_or.2 version)
    exact ⟨contentsAt raw room banks, contentsAt_image opens current, contentsAt_cartridge⟩
  · rintro ⟨contents, rfl, rfl⟩
    exact contents.ofImage_image

/-- How an input is judged. Only the first of several faults is reported. -/
structure Judged (raw : ByteArray) (answer : Except ImageError Cartridge) : Prop where
  notAnImage : answer = .error .notAnImage ↔ ¬Opens raw
  unsupportedVersion : ∀ version, answer = .error (.unsupportedVersion version) ↔
    Opens raw ∧ ¬(headerAt raw).Current ∧ version.toNat = (headerAt raw).flags7.toNat / 4 % 4
  truncated : ∀ expected found, answer = .error (.truncated expected found) ↔
    Opens raw ∧ (headerAt raw).Current ∧ raw.size < (headerAt raw).fullSize ∧
      expected = (headerAt raw).fullSize ∧ found = raw.size
  noProgram : answer = .error .noProgram ↔
    Opens raw ∧ (headerAt raw).Current ∧ (headerAt raw).fullSize ≤ raw.size ∧
      (headerAt raw).programBanks = 0
  accepted : (∃ cartridge, answer = .ok cartridge) ↔
    Opens raw ∧ (headerAt raw).Current ∧ (headerAt raw).fullSize ≤ raw.size ∧
      (headerAt raw).programBanks ≠ 0

theorem ofImage_judged (raw : ByteArray) : Judged raw (Cartridge.ofImage raw) := by
  have numbered : ∀ version, (headerAt raw).version = version ↔
      version.toNat = (headerAt raw).flags7.toNat / 4 % 4 := fun version => by
    rw [← UInt8.toNat_inj, Header.version_toNat, eq_comm]
  unfold Cartridge.ofImage
  rw [ofImage?_eq]
  by_cases opens : Opens raw
  · rw [if_pos opens]
    dsimp only
    rw [Header.imageEnd_eq]
    by_cases current : (headerAt raw).Current
    · rw [if_neg ((headerAt raw).current_iff.1 current)]
      by_cases short : raw.size < (headerAt raw).fullSize
      · rw [if_pos short]
        constructor <;> simp [opens, current, short, eq_comm]
      · rw [if_neg short]
        have room := Nat.not_lt.1 short
        by_cases banks : (headerAt raw).programBanks = 0
        · rw [if_pos banks]
          constructor <;> simp [opens, current, room, banks]
        · rw [if_neg banks]
          constructor <;> simp [opens, current, room, banks]
    · rw [if_pos (Decidable.not_not.1 (mt (headerAt raw).current_iff.2 current))]
      constructor <;> simp [opens, current, numbered]
  · rw [if_neg opens]
    constructor <;> simp [opens]

/-- Every input is judged, images that are put together from contents are accepted as these, and no
others are. -/
theorem images_parsed (raw : ByteArray) :
    Judged raw (Cartridge.ofImage raw) ∧
    (∀ cartridge, Cartridge.ofImage raw = .ok cartridge ↔
      ∃ contents : Contents, contents.image = raw ∧ contents.cartridge = cartridge) ∧
    (headerAt raw).fullSize < 2 ^ 32 ∧
    ImageError.notAnImage.message = "Not an iNES file" ∧
    ImageError.noProgram.message = "ROM has no PRG banks" :=
  ⟨ofImage_judged raw, fun _ => ofImage_eq_ok, (headerAt raw).fullSize_lt, rfl, rfl⟩

end Famicom.Image
