import Famicom.MainMemory
import Famicom.PictureMemory
import Famicom.Proofs.Image

/-!
# Parts that fit their cartridge

What the cartridge decides about the board and the two memories, and that every access to parts
that fit it finds its place.
-/

namespace Famicom

/-- A cell behind a store. -/
theorem set_get {α : Type} {n : Nat} (cells : Vector α n) (i j : Fin n) (value : α) :
    (cells.set i value).get j = if i = j then value else cells.get j := by
  show (cells.set i value)[j.val] = if i = j then value else cells[j.val]
  simp only [Vector.getElem_set, Fin.ext_iff]

/-- What every image that is accepted has. -/
structure Cartridge.Sound (cartridge : Cartridge) : Prop where
  program_pos : 0 < cartridge.program.size
  program_lt : cartridge.program.size < 0x400000

theorem Cartridge.ofImage_sound {raw : ByteArray} {cartridge : Cartridge}
    (h : Cartridge.ofImage raw = .ok cartridge) : cartridge.Sound := by
  obtain ⟨header, -, -, room, banks, rfl⟩ := Image.of_ofImage_ok h
  obtain ⟨program, -⟩ := Image.Header.cartridge_sizes room
  have banked : header.programBanks.toNat ≠ 0 := fun zero => banks (UInt8.toNat_inj.1 zero)
  have bound := header.programBanks.toNat_lt
  rw [Image.programBankSize] at program
  constructor
  · rw [program]
    omega
  · rw [program]
    omega

/-! ## Boards -/

namespace Board

variable {cartridge : Cartridge}

/-- A circuit as the cartridge makes it, but for its bank and the bytes of its pattern RAM. -/
def CircuitFits (cartridge : Cartridge) : Circuit → Prop
  | .nrom state => cartridge.board = 0 ∧ state.oneBank = (cartridge.program.size == 0x4000) ∧
    state.hasPatternRam = (cartridge.patterns.size == 0) ∧
    state.patternRam.size = (freshPatternRam cartridge).size
  | .uxrom state => cartridge.board = 2 ∧
    state.lastBank = UInt64.ofNat (cartridge.program.size - 0x4000) ∧
    state.hasPatternRam = (cartridge.patterns.size == 0) ∧
    state.patternRam.size = (freshPatternRam cartridge).size
  | .cnrom state => cartridge.board = 3 ∧ state.oneBank = (cartridge.program.size == 0x4000)

structure Fits (cartridge : Cartridge) (board : Board) : Prop where
  inserted : board.cartridge = cartridge
  circuit : CircuitFits cartridge board.circuit

theorem ofCartridge?_fits {board : Board} (h : ofCartridge? cartridge = some board) :
    board.Fits cartridge := by
  unfold ofCartridge? at h
  split at h
  · cases h
    exact ⟨rfl, ‹_›, rfl, rfl, rfl⟩
  split at h
  · cases h
    exact ⟨rfl, ‹_›, rfl, rfl, rfl⟩
  split at h
  · cases h
    exact ⟨rfl, ‹_›, rfl⟩
  · cases h

theorem ofCartridge?_isSome (h : cartridge.board = 0 ∨ cartridge.board = 2 ∨
    cartridge.board = 3) : ∃ board, ofCartridge? cartridge = some board := by
  unfold ofCartridge?
  rcases h with h | h | h <;> rw [h] <;> exact ⟨_, rfl⟩

theorem freshPatternRam_size (h : (cartridge.patterns.size == 0) = true) :
    (freshPatternRam cartridge).size = 0x2000 := by
  rw [freshPatternRam, if_pos (by simpa using h), Array.size_replicate, patternRamSize]

theorem fetchRom_ok {rom : ByteArray} (h : 0 < rom.size) (index : Nat) :
    ∃ value, fetchRom rom index = .ok value :=
  ⟨_, dif_pos h⟩

theorem patternIndex_lt (address : UInt16) : (address &&& 0x1FFF).toNat < 0x2000 := by
  rw [UInt16.toNat_and]
  exact Nat.and_lt_two_pow _ (by decide : (0x1FFF : Nat) < 2 ^ 13)

theorem readProgram_ok {board : Board} (sound : cartridge.Sound) (h : board.Fits cartridge)
    (address : UInt16) : ∃ value, board.readProgram address = .ok value := by
  obtain ⟨inserted, circuit⟩ := board
  obtain ⟨rfl, hc⟩ := h
  cases circuit with
  | nrom state => exact fetchRom_ok sound.program_pos _
  | cnrom state => exact fetchRom_ok sound.program_pos _
  | uxrom state =>
    simp only [readProgram]
    split
    · exact fetchRom_ok sound.program_pos _
    · have hlast : state.lastBank.toNat + (address &&& 0x3FFF).toNat < UInt64.size := by
        have : inserted.program.size < 0x400000 := sound.program_lt
        have := (address &&& 0x3FFF).toNat_lt
        rw [hc.2.1, UInt64.toNat_ofNat']
        simp only [UInt64.size]
        omega
      rw [if_pos hlast]
      exact fetchRom_ok sound.program_pos _

theorem readFixedPattern_ok {ram : Array UInt8}
    (h : ram.size = (freshPatternRam cartridge).size) (address : UInt16) :
    ∃ value, readFixedPattern cartridge.patterns (cartridge.patterns.size == 0) ram address =
      .ok value := by
  unfold readFixedPattern
  split
  · rename_i hram
    refine ⟨_, dif_pos ?_⟩
    rw [h, freshPatternRam_size hram]
    exact patternIndex_lt address
  · rename_i hrom
    exact fetchRom_ok (Nat.pos_of_ne_zero (by simpa using hrom)) _

theorem readPattern_ok {board : Board} (h : board.Fits cartridge) (address : UInt16) :
    ∃ value, board.readPattern address = .ok value := by
  obtain ⟨_, circuit⟩ := board
  obtain ⟨rfl, hc⟩ := h
  cases circuit with
  | nrom state =>
    obtain ⟨_, _, hram, hsize⟩ := hc
    simp only [readPattern, hram]
    exact readFixedPattern_ok hsize address
  | uxrom state =>
    obtain ⟨_, _, hram, hsize⟩ := hc
    simp only [readPattern, hram]
    exact readFixedPattern_ok hsize address
  | cnrom state =>
    simp only [readPattern]
    split
    · exact ⟨_, rfl⟩
    · exact fetchRom_ok (Nat.pos_of_ne_zero ‹_›) _

theorem writeProgram_fits {board : Board} (h : board.Fits cartridge) (value : UInt8) :
    (board.writeProgram value).Fits cartridge := by
  obtain ⟨_, circuit⟩ := board
  cases circuit <;> exact ⟨h.inserted, h.circuit⟩

theorem writePattern_ok {board : Board} (h : board.Fits cartridge) (address : UInt16)
    (value : UInt8) :
    ∃ written, board.writePattern address value = .ok written ∧ written.Fits cartridge := by
  have place : ∀ ram : Array UInt8, ram.size = (freshPatternRam cartridge).size →
      true = (cartridge.patterns.size == 0) →
      ∃ stored, storeRam ram (address &&& 0x1FFF).toNat value = .ok stored ∧
        stored.size = (freshPatternRam cartridge).size := by
    intro ram hsize hram
    have hlt : (address &&& 0x1FFF).toNat < ram.size := by
      rw [hsize, freshPatternRam_size hram.symm]
      exact patternIndex_lt address
    exact ⟨_, dif_pos hlt, (Array.size_set _).trans hsize⟩
  obtain ⟨inserted, circuit⟩ := board
  obtain ⟨rfl, hc⟩ := h
  rcases circuit with ⟨oneBank, _ | _, ram⟩ | ⟨_ | _, lastBank, bank, ram⟩ | state
  case nrom.true =>
    obtain ⟨hn, hbank, hram, hsize⟩ := hc
    obtain ⟨stored, hs, hss⟩ := place ram hsize hram
    refine ⟨⟨inserted, .nrom ⟨oneBank, true, stored⟩⟩, ?_, rfl, hn, hbank, hram, hss⟩
    simp only [writePattern, hs]
    rfl
  case uxrom.true =>
    obtain ⟨hn, hbank, hram, hsize⟩ := hc
    obtain ⟨stored, hs, hss⟩ := place ram hsize hram
    refine ⟨⟨inserted, .uxrom ⟨true, lastBank, bank, stored⟩⟩, ?_, rfl, hn, hbank, hram, hss⟩
    simp only [writePattern, hs]
    rfl
  all_goals exact ⟨_, rfl, rfl, hc⟩

end Board

/-! ## Picture memory -/

namespace PictureMemory

/-- Name tables as the cartridge arranges them. -/
def Fits (cartridge : Cartridge) (memory : PictureMemory) : Prop :=
  memory.tables = .ofMirroring cartridge.mirroring

variable {cartridge : Cartridge} {memory : PictureMemory}

theorem start_le (h : memory.Fits cartridge) (address : UInt16) :
    (memory.tables.start address).toNat ≤ 0x400 := by
  rw [h]
  unfold NameTables.start
  cases cartridge.mirroring <;> (split <;> split) <;> decide

theorem cell_lt (h : memory.Fits cartridge) (address : UInt16) : memory.cell address < 0x800 := by
  have := start_le h address
  unfold cell
  omega

theorem read_ok {board : Board} (h : memory.Fits cartridge) (hb : board.Fits cartridge)
    (address : UInt16) : ∃ value, memory.read board address = .ok value := by
  dsimp only [read]
  split
  · exact Board.readPattern_ok hb _
  split
  · exact ⟨_, dif_pos (cell_lt h _)⟩
  · exact ⟨_, rfl⟩

theorem writeTable_ok (h : memory.Fits cartridge) (address : UInt16) (value : UInt8) :
    ∃ written, memory.writeTable address value = .ok written ∧ written.Fits cartridge :=
  ⟨_, dif_pos (cell_lt h address), h⟩

theorem write_ok {board : Board} (h : memory.Fits cartridge) (hb : board.Fits cartridge)
    (address : UInt16) (value : UInt8) :
    ∃ written board', memory.write board address value = .ok (written, board') ∧
      written.Fits cartridge ∧ board'.Fits cartridge := by
  dsimp only [write]
  split
  · obtain ⟨board', hw, hb'⟩ := Board.writePattern_ok hb (address &&& 0x3FFF) value
    exact ⟨memory, board', by simp only [hw]; rfl, h, hb'⟩
  split
  · obtain ⟨written, hw, hf⟩ := writeTable_ok h (address &&& 0x3FFF) value
    exact ⟨written, board, by simp only [hw]; rfl, hf, hb⟩
  · exact ⟨_, board, rfl, h, hb⟩

end PictureMemory

/-! ## Main memory -/

namespace MainMemory

/-- RAM at $6000 when the cartridge has it, and every register bound to its handler. -/
structure Fits (cartridge : Cartridge) (memory : MainMemory) : Prop where
  mapped : memory.hasExtendedRam = cartridge.extendedRam
  size : memory.extendedRam.size = if cartridge.extendedRam then extendedRamSize else 0
  wired : memory.bindings = .wired

variable {cartridge : Cartridge} {memory : MainMemory}

theorem Fits.size_eq (h : memory.Fits cartridge) (mapped : memory.hasExtendedRam = true) :
    memory.extendedRam.size = 0x2000 := by
  rw [h.size, ← h.mapped, if_pos mapped, extendedRamSize]

/-- A cell of the RAM at $6000. -/
theorem extendedCell_lt {address : UInt16} (low : 0x6000 ≤ address) (high : ¬0x8000 ≤ address) :
    (address - 0x6000).toNat < 0x2000 := by
  rw [UInt16.toNat_sub_of_le _ _ low]
  have := UInt16.lt_iff_toNat_lt.1 (UInt16.not_le.1 high)
  simp only [UInt16.reduceToNat] at this ⊢
  omega

theorem source_ok (h : memory.Fits cartridge) (address : UInt16) :
    ∃ source, memory.source address = .ok source := by
  unfold source
  split
  · exact ⟨_, rfl⟩
  split
  · exact ⟨_, rfl⟩
  rename_i high
  split
  · exact ⟨_, rfl⟩
  split
  · exact ⟨_, rfl⟩
  split
  · exact ⟨_, rfl⟩
  rename_i low
  unfold readExtended
  split
  · have hlt : (address - 0x6000).toNat < memory.extendedRam.size := by
      rw [h.size_eq ‹_›]
      exact extendedCell_lt (UInt16.not_lt.1 low) high
    simp only [hlt, dif_pos]
    exact ⟨_, rfl⟩
  · exact ⟨_, rfl⟩

theorem sink_extendedRam (h : memory.Fits cartridge) {address : UInt16} {cell : Nat}
    (hs : memory.sink address = .extendedRam cell) : cell < memory.extendedRam.size := by
  unfold sink at hs
  split at hs
  · cases hs
  split at hs
  · cases hs
  rename_i high
  split at hs
  · cases hw : memory.bindings.writer? (portLocation address) <;> simp [hw] at hs
  split at hs
  · cases hw : memory.bindings.writer? address <;> simp [hw] at hs
  split at hs
  · rename_i low
    obtain ⟨low, mapped⟩ := Bool.and_eq_true_iff.1 low
    cases hs
    rw [h.size_eq mapped]
    exact extendedCell_lt (of_decide_eq_true low) high
  · cases hs

theorem storeRam_fits (h : memory.Fits cartridge) (cell : Fin 0x800) (value : UInt8) :
    (memory.storeRam cell value).Fits cartridge :=
  ⟨h.mapped, h.size, h.wired⟩

theorem storeExtended_ok (h : memory.Fits cartridge) {cell : Nat}
    (hc : cell < memory.extendedRam.size) (value : UInt8) :
    ∃ stored, memory.storeExtended cell value = .ok stored ∧ stored.Fits cartridge :=
  ⟨_, dif_pos hc, h.mapped, (Array.size_set hc).trans h.size, h.wired⟩

theorem page?_ok (h : memory.Fits cartridge) (page : UInt8) :
    ∃ bytes, memory.page? page = .ok bytes := by
  unfold page?
  split
  · exact ⟨_, rfl⟩
  split
  · rename_i hp
    simp only [Bool.and_eq_true, decide_eq_true_eq] at hp
    obtain ⟨⟨low, high⟩, mapped⟩ := hp
    have hend : (page - 0x60).toNat * 0x100 + 0x100 ≤ memory.extendedRam.size := by
      rw [h.size_eq mapped, UInt8.toNat_sub_of_le _ _ low]
      have := UInt8.lt_iff_toNat_lt.1 high
      simp only [UInt8.reduceToNat] at this ⊢
      omega
    exact ⟨_, if_pos hend⟩
  · exact ⟨_, rfl⟩

end MainMemory

end Famicom
