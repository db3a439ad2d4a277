import Famicom.Proofs.Bits
import Famicom.Proofs.Image
import Famicom.Proofs.Layout

/-!
# Banks

What the windows of a board show behind any writes. A bank register selects a whole bank, whatever it
holds and however many banks there are; pattern RAM gives back what was written to it last; and a state
that is stored and loaded again brings both along.
-/

namespace Famicom

namespace Cartridge

variable {cartridge : Cartridge}

def programBanks (cartridge : Cartridge) : Nat :=
  cartridge.program.size / Image.programBankSize

def patternBanks (cartridge : Cartridge) : Nat :=
  cartridge.patterns.size / Image.patternBankSize

/-- A cartridge of whole banks, with a program. -/
structure Whole (cartridge : Cartridge) : Prop where
  program : cartridge.program.size = cartridge.programBanks * Image.programBankSize
  patterns : cartridge.patterns.size = cartridge.patternBanks * Image.patternBankSize
  banks : 1 ≤ cartridge.programBanks

theorem ofImage_whole {raw : ByteArray} (h : ofImage raw = .ok cartridge) : cartridge.Whole := by
  obtain ⟨header, -, -, room, banks, rfl⟩ := Image.of_ofImage_ok h
  obtain ⟨program, patterns⟩ := Image.Header.cartridge_sizes room
  have counted : (header.cartridge raw).programBanks = header.programBanks.toNat := by
    rw [programBanks, program, Nat.mul_div_cancel _ (by decide)]
  have patterned : (header.cartridge raw).patternBanks = header.patternBanks.toNat := by
    rw [patternBanks, patterns, Nat.mul_div_cancel _ (by decide)]
  refine ⟨by rw [counted, program], by rw [patterned, patterns], ?_⟩
  rw [counted]
  exact Nat.pos_of_ne_zero fun zero => banks (UInt8.toNat_inj.1 zero)

theorem Whole.noPatterns (h : cartridge.Whole) :
    cartridge.patternBanks = 0 ↔ cartridge.patterns.size = 0 := by
  have size := h.patterns
  simp only [Image.patternBankSize] at size
  omega

end Cartridge

/-- An answer that is the byte at a place of a ROM, which reaches so far. -/
def IsByte (rom : ByteArray) (place : Nat) (answer : Except Fault UInt8) : Prop :=
  ∃ inside : place < rom.size, answer = .ok rom[place]

/-- A bank number beyond the last one selects a whole bank too. -/
theorem bank_wraps (bank count : Nat) {size offset : Nat} (h : offset < size) (positive : 0 < count) :
    (bank * size + offset) % (count * size) = bank % count * size + offset := by
  have whole : bank * size + offset =
      (bank % count * size + offset) + count * size * (bank / count) := by
    conv_lhs => rw [← Nat.mod_add_div bank count, Nat.add_mul, Nat.mul_right_comm]
    omega
  have inside : bank % count * size + offset < count * size := by
    have below : bank % count + 1 ≤ count := Nat.mod_lt bank positive
    calc bank % count * size + offset < bank % count * size + size := Nat.add_lt_add_left h _
      _ = (bank % count + 1) * size := (Nat.succ_mul _ _).symm
      _ ≤ count * size := Nat.mul_le_mul_right size below
  rw [whole, Nat.add_mul_mod_self_left, Nat.mod_eq_of_lt inside]

namespace Board

variable {cartridge : Cartridge} {board next : Board}

theorem fetchRom_isByte {rom : ByteArray} {index place : Nat} (positive : 0 < rom.size)
    (h : index % rom.size = place) : IsByte rom place (fetchRom rom index) := by
  subst h
  exact ⟨Nat.mod_lt index positive, dif_pos positive⟩

theorem programOffset_eq (address : UInt16) : (address &&& 0x3FFF).toNat = address.toNat % 0x4000 :=
  toNat_and_low address 14 rfl

theorem windowOffset_eq (address : UInt16) : (address &&& 0x7FFF).toNat = address.toNat % 0x8000 :=
  toNat_and_low address 15 rfl

theorem patternIndex_eq (address : UInt16) : (address &&& 0x1FFF).toNat = address.toNat % 0x2000 :=
  toNat_and_low address 13 rfl

theorem programOffset_lt (address : UInt16) : (address &&& 0x3FFF).toNat < 0x4000 := by
  rw [programOffset_eq]
  exact Nat.mod_lt _ (by decide)

/-! ## Writes -/

/-- A write to a board, into the program of the processor or the patterns of the picture unit. -/
inductive Write
  | program (address : UInt16) (value : UInt8)
  | pattern (address : UInt16) (value : UInt8)
deriving DecidableEq, Repr

/-- The byte that a write gives the bank register. -/
def Write.selects? : Write → Option UInt8
  | program _ value => some value
  | pattern _ _ => none

/-- The byte that a write leaves at a place of pattern RAM. -/
def Write.leaves? (place : Nat) : Write → Option UInt8
  | program _ _ => none
  | pattern address value => if (address &&& 0x1FFF).toNat = place then some value else none

/-- What was written to program space last. The writes are given newest first. -/
def selected (writes : List Write) : UInt8 := (writes.findSome? Write.selects?).getD 0

/-- What was written to a place of pattern RAM last. -/
def drawn (place : Nat) (writes : List Write) : UInt8 :=
  (writes.findSome? (Write.leaves? place)).getD 0

/-- The boards that a cartridge comes to have, and the writes behind each, the newest first. A stored
state may be loaded into any board of the cartridge, whatever was written to that; a copy of a board is
the board itself. -/
inductive Written (cartridge : Cartridge) : List Write → Board → Prop
  | fresh {board : Board} : ofCartridge? cartridge = some board → Written cartridge [] board
  | program {writes : List Write} {board : Board} (address : UInt16) (value : UInt8) :
      Written cartridge writes board →
      Written cartridge (.program address value :: writes) (board.writeProgram value)
  | pattern {writes : List Write} {board next : Board} {address : UInt16} {value : UInt8} :
      Written cartridge writes board → board.writePattern address value = .ok next →
      Written cartridge (.pattern address value :: writes) next
  | stored {writes others : List Write} {board target next : Board} {rest left : List UInt8} :
      Written cartridge writes board → Written cartridge others target →
      target.layout.load (board.layout.encode board ++ rest) target = .ok left next →
      Written cartridge writes next

/-- Pattern RAM as writes leave it. -/
def RamHolds (writes : List Write) (ram : Array UInt8) : Prop :=
  ∀ place (inside : place < ram.size), ram[place] = drawn place writes

/-- The registers and the pattern RAM of a circuit as writes leave them. -/
def CircuitHolds (writes : List Write) : Circuit → Prop
  | .nrom state => RamHolds writes state.patternRam
  | .uxrom state => state.bank = selected writes ∧ RamHolds writes state.patternRam
  | .cnrom state => state.bank = selected writes &&& 0x03

structure Holds (cartridge : Cartridge) (writes : List Write) (board : Board) : Prop where
  fits : board.Fits cartridge
  circuit : CircuitHolds writes board.circuit

theorem drawn_pattern (place : Nat) (address : UInt16) (value : UInt8) (writes : List Write) :
    drawn place (.pattern address value :: writes) =
      if (address &&& 0x1FFF).toNat = place then value else drawn place writes := by
  rw [drawn, List.findSome?_cons]
  by_cases here : (address &&& 0x1FFF).toNat = place
  · simp only [Write.leaves?, here, if_true, Option.getD_some]
  · simp only [Write.leaves?, here, if_false, drawn]

theorem freshPatternRam_holds (cartridge : Cartridge) :
    RamHolds [] (freshPatternRam cartridge) := by
  intro place inside
  unfold freshPatternRam at inside ⊢
  split
  · exact Array.getElem_replicate _
  · rename_i rom
    simp [rom] at inside

theorem Holds.fresh (h : ofCartridge? cartridge = some board) : Holds cartridge [] board := by
  refine ⟨ofCartridge?_fits h, ?_⟩
  unfold ofCartridge? at h
  split at h
  · cases h
    exact freshPatternRam_holds cartridge
  split at h
  · cases h
    exact ⟨rfl, freshPatternRam_holds cartridge⟩
  split at h
  · cases h
    rfl
  · cases h

variable {writes : List Write}

theorem Holds.program (h : Holds cartridge writes board) (address : UInt16) (value : UInt8) :
    Holds cartridge (.program address value :: writes) (board.writeProgram value) := by
  refine ⟨writeProgram_fits h.fits value, ?_⟩
  have held := h.circuit
  obtain ⟨_, circuit⟩ := board
  cases circuit with
  | nrom state => exact held
  | uxrom state => exact ⟨rfl, held.2⟩
  | cnrom state => rfl

theorem RamHolds.store {ram stored : Array UInt8} {address : UInt16} {value : UInt8}
    (h : RamHolds writes ram) (hs : storeRam ram (address &&& 0x1FFF).toNat value = .ok stored) :
    RamHolds (.pattern address value :: writes) stored := by
  unfold storeRam at hs
  split at hs <;> cases hs
  intro place inside
  rw [drawn_pattern, Array.getElem_set]
  split
  · rfl
  · exact h place (by rwa [Array.size_set] at inside)

/-- A board that is made behind a store is made of what was stored. -/
theorem of_store {ram : Array UInt8} {place : Nat} {value : UInt8} {make : Array UInt8 → Board}
    (h : (do let stored ← storeRam ram place value; return make stored) = .ok next) :
    ∃ stored, storeRam ram place value = .ok stored ∧ make stored = next := by
  cases hs : storeRam ram place value with
  | error fault =>
    rw [hs] at h
    cases h
  | ok stored =>
    rw [hs] at h
    exact ⟨stored, rfl, Except.ok.inj h⟩

/-- Where there is no pattern RAM, no byte of it is lost. -/
theorem RamHolds.absent {ram : Array UInt8} (h : ram.size = 0) : RamHolds writes ram :=
  fun place inside => absurd inside (by omega)

theorem freshPatternRam_absent (h : (cartridge.patterns.size == 0) = false) :
    (freshPatternRam cartridge).size = 0 := by
  have rom : ¬cartridge.patterns.size = 0 := by simpa using h
  rw [freshPatternRam, if_neg rom]
  rfl

theorem Holds.pattern {address : UInt16} {value : UInt8} (h : Holds cartridge writes board)
    (hw : board.writePattern address value = .ok next) :
    Holds cartridge (.pattern address value :: writes) next := by
  obtain ⟨written, hw', fits⟩ := writePattern_ok h.fits address value
  rw [hw'] at hw
  cases hw
  refine ⟨fits, ?_⟩
  obtain ⟨hfits, held⟩ := h
  obtain ⟨inserted, circuit⟩ := board
  obtain ⟨rfl, hc⟩ := hfits
  -- with pattern ROM there is no RAM to hold anything, so only two of the circuits store
  rcases circuit with ⟨oneBank, _ | _, ram⟩ | ⟨_ | _, lastBank, bank, ram⟩ | state
  case nrom.false =>
    cases hw'
    exact .absent (hc.2.2.2.trans (freshPatternRam_absent hc.2.2.1.symm))
  case nrom.true =>
    obtain ⟨stored, hs, rfl⟩ := of_store hw'
    exact held.store hs
  case uxrom.false =>
    cases hw'
    exact ⟨held.1, .absent (hc.2.2.2.trans (freshPatternRam_absent hc.2.2.1.symm))⟩
  case uxrom.true =>
    obtain ⟨stored, hs, rfl⟩ := of_store hw'
    exact ⟨held.1, held.2.store hs⟩
  case cnrom =>
    cases hw'
    exact held

/-- The bytes of a board take any other of its cartridge to its state. -/
theorem load_encode {target : Board} (h : board.Fits cartridge) (ht : target.Fits cartridge)
    (rest : List UInt8) :
    target.layout.load (board.layout.encode board ++ rest) target = .ok rest board := by
  have kind := ht.circuit.sameKind h.circuit
  have same : target.layout = board.layout := by
    unfold layout
    rw [kind.layout_eq]
  have carried : board.layout.Adopts board fun n target =>
      { target with circuit := target.circuit.adopt board.circuit n } :=
    (Circuit.layout_adopts h.circuit.storable).within rfl rfl fun _ _ => rfl
  have whole : board.layout.length = board.circuit.layout.length := List.length_map _
  rw [same, carried.all.load, whole, kind.adopt_all, ht.inserted, ← h.inserted]

/-- Whatever is written, and stored and loaded, a board holds it. -/
theorem Written.holds (h : Written cartridge writes board) : Holds cartridge writes board := by
  induction h with
  | fresh h => exact .fresh h
  | program address value _ ih => exact ih.program address value
  | pattern _ hw ih => exact ih.pattern hw
  | stored _ _ hl ih iht =>
    rw [load_encode ih.fits iht.fits] at hl
    cases hl
    exact ih

/-! ## Windows -/

/-- A single bank answers where two banks would. -/
theorem fixedProgramIndex_wraps {size : Nat} (address : UInt16) :
    fixedProgramIndex (size == 0x4000) address % size = (address &&& 0x7FFF).toNat % size := by
  unfold fixedProgramIndex
  split
  · rename_i single
    rw [beq_iff_eq.1 single, programOffset_eq, windowOffset_eq]
    omega
  · rfl

theorem Holds.fixedProgram (h : Holds cartridge writes board) (sound : cartridge.Sound)
    (fixed : cartridge.board = 0 ∨ cartridge.board = 3) (address : UInt16) :
    IsByte cartridge.program ((address &&& 0x7FFF).toNat % cartridge.program.size)
      (board.readProgram address) := by
  obtain ⟨⟨inserted, hc⟩, -⟩ := h
  obtain ⟨_, circuit⟩ := board
  subst inserted
  cases circuit with
  | nrom state =>
    refine fetchRom_isByte sound.program_pos ?_
    rw [hc.2.1, fixedProgramIndex_wraps]
  | uxrom state =>
    rw [hc.1] at fixed
    exact absurd fixed (by decide)
  | cnrom state =>
    refine fetchRom_isByte sound.program_pos ?_
    rw [hc.2, fixedProgramIndex_wraps]

theorem Holds.uxrom (h : Holds cartridge writes board) (number : cartridge.board = 2) :
    ∃ state, board = ⟨cartridge, .uxrom state⟩ ∧
      state.lastBank = UInt64.ofNat (cartridge.program.size - 0x4000) ∧
      state.bank = selected writes := by
  obtain ⟨⟨inserted, hc⟩, held⟩ := h
  obtain ⟨_, circuit⟩ := board
  subst inserted
  cases circuit with
  | uxrom state => exact ⟨state, rfl, hc.2.1, held.1⟩
  | nrom state => exact absurd (number.symm.trans hc.1) (by decide)
  | cnrom state => exact absurd (number.symm.trans hc.1) (by decide)

theorem Holds.cnrom (h : Holds cartridge writes board) (number : cartridge.board = 3) :
    ∃ state, board = ⟨cartridge, .cnrom state⟩ ∧ state.bank = selected writes &&& 0x03 := by
  obtain ⟨⟨inserted, hc⟩, held⟩ := h
  obtain ⟨_, circuit⟩ := board
  subst inserted
  cases circuit with
  | cnrom state => exact ⟨state, rfl, held⟩
  | nrom state => exact absurd (number.symm.trans hc.1) (by decide)
  | uxrom state => exact absurd (number.symm.trans hc.1) (by decide)

theorem Holds.switchedProgram (h : Holds cartridge writes board) (whole : cartridge.Whole)
    (number : cartridge.board = 2) {address : UInt16} (low : address < 0xC000) :
    IsByte cartridge.program ((selected writes).toNat % cartridge.programBanks *
      Image.programBankSize + (address &&& 0x3FFF).toNat) (board.readProgram address) := by
  obtain ⟨state, rfl, -, bank⟩ := h.uxrom number
  simp only [readProgram, if_pos low, bank]
  refine fetchRom_isByte ?_ ?_
  · rw [whole.program]
    exact Nat.mul_pos whole.banks (by decide)
  · rw [whole.program]
    exact bank_wraps _ _ (programOffset_lt address) whole.banks

theorem Holds.lastProgram (h : Holds cartridge writes board) (sound : cartridge.Sound)
    (whole : cartridge.Whole) (number : cartridge.board = 2) {address : UInt16}
    (high : 0xC000 ≤ address) :
    IsByte cartridge.program ((cartridge.programBanks - 1) * Image.programBankSize +
      (address &&& 0x3FFF).toNat) (board.readProgram address) := by
  obtain ⟨state, rfl, last, -⟩ := h.uxrom number
  have banks := whole.banks
  have start : state.lastBank.toNat = (cartridge.programBanks - 1) * Image.programBankSize := by
    have small := sound.program_lt
    rw [last, UInt64.toNat_ofNat_of_lt' (by simp only [UInt64.size]; omega), whole.program,
      Nat.sub_mul, Nat.one_mul]
    rfl
  have counted : state.lastBank.toNat + (address &&& 0x3FFF).toNat < UInt64.size := by
    have small := sound.program_lt
    have offset := programOffset_lt address
    rw [last, UInt64.toNat_ofNat']
    simp only [UInt64.size]
    omega
  simp only [readProgram, if_neg (UInt16.not_lt.2 high), if_pos counted]
  refine fetchRom_isByte sound.program_pos ?_
  rw [start, whole.program]
  refine (bank_wraps _ _ (programOffset_lt address) banks).trans ?_
  rw [Nat.mod_eq_of_lt (by omega), Image.programBankSize]

theorem Holds.switchedPatterns (h : Holds cartridge writes board) (whole : cartridge.Whole)
    (number : cartridge.board = 3) (rom : cartridge.patternBanks ≠ 0) (address : UInt16) :
    IsByte cartridge.patterns ((selected writes &&& 0x03).toNat % cartridge.patternBanks *
      Image.patternBankSize + (address &&& 0x1FFF).toNat) (board.readPattern address) := by
  obtain ⟨state, rfl, bank⟩ := h.cnrom number
  have positive : 0 < cartridge.patternBanks := Nat.pos_of_ne_zero rom
  have size : 0 < cartridge.patterns.size := by
    rw [whole.patterns]
    exact Nat.mul_pos positive (by decide)
  simp only [readPattern, if_neg (Nat.ne_of_gt size), bank]
  refine fetchRom_isByte size ?_
  rw [whole.patterns]
  exact bank_wraps _ _ (patternIndex_lt address) positive

theorem Holds.noPatterns (h : Holds cartridge writes board) (whole : cartridge.Whole)
    (number : cartridge.board = 3) (empty : cartridge.patternBanks = 0) (address : UInt16) :
    board.readPattern address = .ok 0 := by
  obtain ⟨state, rfl, -⟩ := h.cnrom number
  exact if_pos (whole.noPatterns.1 empty)

/-- Boards that never switch their patterns answer from ROM or, if there is none, from RAM. -/
theorem Holds.readFixedPattern (h : Holds cartridge writes board)
    (fixed : cartridge.board = 0 ∨ cartridge.board = 2) :
    ∃ ram : Array UInt8, ram.size = (freshPatternRam cartridge).size ∧ RamHolds writes ram ∧
      ∀ address, board.readPattern address =
        Board.readFixedPattern cartridge.patterns (cartridge.patterns.size == 0) ram address := by
  obtain ⟨⟨inserted, hc⟩, held⟩ := h
  obtain ⟨_, circuit⟩ := board
  subst inserted
  cases circuit with
  | nrom state =>
    refine ⟨state.patternRam, hc.2.2.2, held, fun address => ?_⟩
    simp only [readPattern, hc.2.2.1]
  | uxrom state =>
    refine ⟨state.patternRam, hc.2.2.2, held.2, fun address => ?_⟩
    simp only [readPattern, hc.2.2.1]
  | cnrom state =>
    rw [hc.1] at fixed
    exact absurd fixed (by decide)

theorem Holds.fixedPatterns (h : Holds cartridge writes board) (whole : cartridge.Whole)
    (fixed : cartridge.board = 0 ∨ cartridge.board = 2) (rom : cartridge.patternBanks ≠ 0)
    (address : UInt16) :
    IsByte cartridge.patterns (address &&& 0x1FFF).toNat (board.readPattern address) := by
  obtain ⟨ram, -, -, answer⟩ := h.readFixedPattern fixed
  have present : ¬(cartridge.patterns.size == 0) = true := by
    rw [beq_iff_eq]
    exact fun empty => rom (whole.noPatterns.2 empty)
  have positive : 0 < cartridge.patternBanks := Nat.pos_of_ne_zero rom
  rw [answer, Board.readFixedPattern, if_neg present]
  refine fetchRom_isByte ?_ ?_
  · rw [whole.patterns]
    exact Nat.mul_pos positive (by decide)
  · have first := bank_wraps 0 _ (patternIndex_lt address) positive
    rw [Nat.zero_mul, Nat.zero_add, Nat.zero_mod, Nat.zero_mul, Nat.zero_add] at first
    rw [whole.patterns]
    exact first

theorem Holds.patternRam (h : Holds cartridge writes board) (whole : cartridge.Whole)
    (fixed : cartridge.board = 0 ∨ cartridge.board = 2) (empty : cartridge.patternBanks = 0)
    (address : UInt16) :
    board.readPattern address = .ok (drawn (address &&& 0x1FFF).toNat writes) := by
  obtain ⟨ram, size, held, answer⟩ := h.readFixedPattern fixed
  have absent : (cartridge.patterns.size == 0) = true := beq_iff_eq.2 (whole.noPatterns.1 empty)
  have inside : (address &&& 0x1FFF).toNat < ram.size := by
    rw [size, freshPatternRam_size absent]
    exact patternIndex_lt address
  rw [answer, Board.readFixedPattern, if_pos absent, fetchRam, dif_pos inside, held]

/-- What the windows of a board show behind writes. -/
structure Banked (cartridge : Cartridge) (writes : List Write) (board : Board) : Prop where
  whole : cartridge.Whole
  /-- Boards 0 and 3 repeat a program that does not fill their window. -/
  fixedProgram : cartridge.board = 0 ∨ cartridge.board = 3 → ∀ address,
    IsByte cartridge.program
      ((address &&& 0x7FFF).toNat % (cartridge.programBanks * Image.programBankSize))
      (board.readProgram address)
  switchedProgram : cartridge.board = 2 → ∀ address, 0x8000 ≤ address → address < 0xC000 →
    IsByte cartridge.program ((selected writes).toNat % cartridge.programBanks *
      Image.programBankSize + (address &&& 0x3FFF).toNat) (board.readProgram address)
  lastProgram : cartridge.board = 2 → ∀ address, 0xC000 ≤ address →
    IsByte cartridge.program ((cartridge.programBanks - 1) * Image.programBankSize +
      (address &&& 0x3FFF).toNat) (board.readProgram address)
  switchedPatterns : cartridge.board = 3 → cartridge.patternBanks ≠ 0 → ∀ address,
    IsByte cartridge.patterns ((selected writes &&& 0x03).toNat % cartridge.patternBanks *
      Image.patternBankSize + (address &&& 0x1FFF).toNat) (board.readPattern address)
  noPatterns : cartridge.board = 3 → cartridge.patternBanks = 0 → ∀ address,
    board.readPattern address = .ok 0
  fixedPatterns : cartridge.board = 0 ∨ cartridge.board = 2 → cartridge.patternBanks ≠ 0 →
    ∀ address, IsByte cartridge.patterns (address &&& 0x1FFF).toNat (board.readPattern address)
  patternRam : cartridge.board = 0 ∨ cartridge.board = 2 → cartridge.patternBanks = 0 →
    ∀ address, board.readPattern address = .ok (drawn (address &&& 0x1FFF).toNat writes)
  readable : ∀ address, (∃ value, board.readProgram address = .ok value) ∧
    ∃ value, board.readPattern address = .ok value
  /-- Every write goes on from here, and every board of the cartridge loads this one. -/
  writable : ∀ address value, ∃ next, board.writePattern address value = .ok next
  loadable : ∀ {others : List Write} {target : Board}, Written cartridge others target →
    ∀ rest, target.layout.load (board.layout.encode board ++ rest) target = .ok rest board

/-- Every window shows what the writes say, whatever they were: the bank that was selected last, the
last bank or the only one, and pattern RAM as it was written. States that were taken over on the way
count as the writes that led to them. -/
theorem windows_follow {raw : ByteArray} (himage : Cartridge.ofImage raw = .ok cartridge)
    (h : Written cartridge writes board) : Banked cartridge writes board := by
  have sound := Cartridge.ofImage_sound himage
  have whole := Cartridge.ofImage_whole himage
  have held := h.holds
  constructor
  case whole => exact whole
  case fixedProgram =>
    intro fixed address
    rw [← whole.program]
    exact held.fixedProgram sound fixed address
  case switchedProgram => exact fun number _ _ low => held.switchedProgram whole number low
  case lastProgram => exact fun number _ high => held.lastProgram sound whole number high
  case switchedPatterns => exact held.switchedPatterns whole
  case noPatterns => exact held.noPatterns whole
  case fixedPatterns => exact held.fixedPatterns whole
  case patternRam => exact held.patternRam whole
  case readable =>
    exact fun address => ⟨readProgram_ok sound held.fits address, readPattern_ok held.fits address⟩
  case writable =>
    intro address value
    obtain ⟨next, written, -⟩ := writePattern_ok held.fits address value
    exact ⟨next, written⟩
  case loadable => exact fun ht rest => load_encode held.fits ht.holds.fits rest

/-- Three program banks, each filled with its number, and pattern RAM. -/
def numbered : Cartridge where
  program := ⟨Array.ofFn fun i : Fin (3 * Image.programBankSize) =>
    UInt8.ofNat (i / Image.programBankSize)⟩
  patterns := .empty
  board := 2
  mirroring := .horizontal
  extendedRam := false

theorem numbered_size : numbered.program.size = 3 * Image.programBankSize := by
  simp only [numbered, ByteArray.size, Array.size_ofFn]

theorem exists_numberedImage : ∃ raw, Cartridge.ofImage raw = .ok numbered := by
  have parts : Image.Parts ⟨3, 0, 0x20, 0⟩ .empty numbered.program .empty := {
    version := by decide
    banks := by decide
    trainer := rfl
    program := numbered_size
    patterns := rfl }
  exact ⟨_, parts.ofImage .empty⟩

/-- Of three banks, the sixth is the last. The state behind the writes is loaded into a fresh board. -/
theorem sixth_bank_wraps : ∃ raw board, Cartridge.ofImage raw = .ok numbered ∧
    Written numbered [.pattern 0x2001 7, .program 0x8000 5] board ∧
    board.readProgram 0x8123 = .ok 2 ∧ board.readPattern 0x0001 = .ok 7 := by
  obtain ⟨raw, himage⟩ := exists_numberedImage
  obtain ⟨fresh, hfresh⟩ := @ofCartridge?_isSome numbered (.inr (.inl rfl))
  have start : Written numbered [] fresh := .fresh hfresh
  have switched := start.program 0x8000 5
  obtain ⟨board, hw, -⟩ := writePattern_ok switched.holds.fits 0x2001 7
  have written := switched.pattern hw
  have loaded : Written numbered [.pattern 0x2001 7, .program 0x8000 5] board :=
    .stored written start (load_encode written.holds.fits start.holds.fits [])
  have banked := windows_follow himage loaded
  have banks : numbered.programBanks = 3 := by
    rw [Cartridge.programBanks, numbered_size]
    rfl
  obtain ⟨inside, found⟩ := banked.switchedProgram rfl 0x8123 (by decide) (by decide)
  refine ⟨raw, board, himage, loaded, ?_, banked.patternRam (.inr rfl) rfl 0x0001⟩
  simp only [banks] at found
  rw [found]
  simp only [numbered, ByteArray.getElem_eq_getElem_data, Array.getElem_ofFn]
  rfl

end Board

end Famicom
