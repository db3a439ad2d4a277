import Famicom.Proofs.Banks

/-!
# What picture memory retains

Addresses of the picture unit that share a cell: name tables that lie in one half of the RAM, and the
repetitions of the palette. A cell gives back what was written last to any address that reaches it, and
nothing else disturbs it.
-/

namespace Famicom

/-- Whether a logical name table lies in the upper half of the RAM. -/
def Mirroring.upper (mirroring : Mirroring) (table : Nat) : Bool :=
  match mirroring with
  | horizontal => 2 ≤ table
  | vertical => table % 2 = 1
  | oneScreenLower | fourScreen => false
  | oneScreenHigher => true

namespace PictureMemory

/-- The fourteen bits of an address that picture memory sees. -/
def place (address : UInt16) : Nat := address.toNat % 0x4000

inductive Region
  | patterns
  | tables
  | palette
deriving DecidableEq, Repr

def region (address : UInt16) : Region :=
  if place address < 0x2000 then .patterns
  else if place address < 0x3F00 then .tables
  else .palette

/-- The logical name table of an address. -/
def table (address : UInt16) : Nat := address.toNat / 0x400 % 4

/-- Whether a read gives what a write to the first address left. Entry $10 of the palette is written
to entry $00 as well, but not the other way round. -/
def reaches (mirroring : Mirroring) (written read : UInt16) : Bool :=
  region written = region read && match region read with
    | .patterns => place written = place read
    | .tables => mirroring.upper (table written) = mirroring.upper (table read) &&
      written.toNat % 0x400 = read.toNat % 0x400
    | .palette => written.toNat % 0x20 = read.toNat % 0x20 ||
      (written.toNat % 0x20 = 0x10 && read.toNat % 0x20 = 0)

end PictureMemory

open PictureMemory (place region table reaches Region)

/-- A write into the memory of the picture unit, or one of the processor to the board behind it. -/
inductive PictureWrite
  | store (address : UInt16) (value : UInt8)
  | select (address : UInt16) (value : UInt8)
deriving DecidableEq, Repr

namespace PictureWrite

def perform : PictureWrite → PictureMemory × Board → Except Fault (PictureMemory × Board)
  | store address value, (memory, board) => memory.write board address value
  | select _ value, (memory, board) => .ok (memory, board.writeProgram value)

/-- What a write leaves in the cell of an address. -/
def leaves? (mirroring : Mirroring) (address : UInt16) : PictureWrite → Option UInt8
  | store written value => if reaches mirroring written address then some value else none
  | select _ _ => none

/-- What the board sees of a write. -/
def onBoard? : PictureWrite → Option Board.Write
  | store address value =>
    if region address = .patterns then some (.pattern (address &&& 0x3FFF) value) else none
  | select address value => some (.program address value)

/-- What is in the cell of an address behind writes, which come newest first. -/
def held (mirroring : Mirroring) (writes : List PictureWrite) (address : UInt16) : UInt8 :=
  (writes.findSome? (leaves? mirroring address)).getD 0

def onBoard (writes : List PictureWrite) : List Board.Write := writes.filterMap onBoard?

/-- All writes, which come newest first. -/
def performAll (writes : List PictureWrite) (start : PictureMemory × Board) :
    Except Fault (PictureMemory × Board) :=
  writes.foldrM perform start

variable {mirroring : Mirroring} {address written : UInt16} {value : UInt8}
variable {writes : List PictureWrite}

theorem held_store (mirroring : Mirroring) (written address : UInt16) (value : UInt8)
    (writes : List PictureWrite) : held mirroring (.store written value :: writes) address =
      if reaches mirroring written address then value else held mirroring writes address := by
  rw [held, List.findSome?_cons]
  by_cases seen : reaches mirroring written address = true
  · simp only [leaves?, seen, if_true, Option.getD_some]
  · simp only [leaves?, seen, Bool.false_eq_true, if_false, held]

end PictureWrite

namespace PictureMemory

variable {mirroring : Mirroring} {memory : PictureMemory} {board : Board} {a b : UInt16}

theorem masked_toNat (address : UInt16) : (address &&& 0x3FFF).toNat = place address :=
  toNat_and_low address 14 rfl

theorem masked_lt (address bound : UInt16) :
    address &&& 0x3FFF < bound ↔ place address < bound.toNat := by
  rw [UInt16.lt_iff_toNat_lt, masked_toNat]

/-- The cell of an address among the name tables. -/
def tableCell (mirroring : Mirroring) (address : UInt16) : Fin 0x800 :=
  ⟨(if mirroring.upper (table address) then 0x400 else 0) + address.toNat % 0x400, by
    split <;> omega⟩

/-- The entry of an address in the palette. -/
def entry (address : UInt16) : Fin 0x20 := Fin.ofNat 0x20 address.toNat

theorem entry_inj : entry b = entry a ↔ b.toNat % 0x20 = a.toNat % 0x20 := Fin.ext_iff

theorem entry_zero : 0 = entry a ↔ a.toNat % 0x20 = 0 := Fin.ext_iff.trans eq_comm

theorem tableCell_inj : tableCell mirroring a = tableCell mirroring b ↔
    mirroring.upper (table a) = mirroring.upper (table b) ∧
      a.toNat % 0x400 = b.toNat % 0x400 := by
  rw [← Fin.val_inj]
  simp only [tableCell]
  cases mirroring.upper (table a) <;> cases mirroring.upper (table b) <;> simp <;> omega

theorem start_toNat (mirroring : Mirroring) (address : UInt16) :
    ((NameTables.ofMirroring mirroring).start (address &&& 0x3FFF)).toNat =
      if mirroring.upper (table address) then 0x400 else 0 := by
  have right : (address &&& 0x3FFF &&& 0x0400 == 0) = decide (table address % 2 = 0) := by
    rw [and_bit_eq_zero _ 10 rfl, masked_toNat, place, table, decide_eq_decide]
    omega
  have lower : (address &&& 0x3FFF &&& 0x0800 == 0) = decide (table address < 2) := by
    rw [and_bit_eq_zero _ 11 rfl, masked_toNat, place, table, decide_eq_decide]
    omega
  have four : table address < 4 := Nat.mod_lt _ (by decide)
  simp only [NameTables.start, right, lower, decide_eq_true_eq]
  generalize table address = number at four
  obtain rfl | rfl | rfl | rfl : number = 0 ∨ number = 1 ∨ number = 2 ∨ number = 3 := by omega
  all_goals cases mirroring <;> rfl

theorem cell_eq (h : memory.tables = .ofMirroring mirroring) (address : UInt16) :
    memory.cell (address &&& 0x3FFF) = tableCell mirroring address := by
  have low : place address % 0x400 = address.toNat % 0x400 := by
    simp only [place]
    omega
  rw [cell, h, start_toNat, masked_toNat, low]
  rfl

/-! ## Regions -/

theorem region_patterns : region a = .patterns ↔ place a < 0x2000 := by
  grind [region]

theorem region_tables : region a = .tables ↔ 0x2000 ≤ place a ∧ place a < 0x3F00 := by
  grind [region]

theorem region_palette : region a = .palette ↔ 0x3F00 ≤ place a := by
  grind [region]

theorem reaches_apart (mirroring : Mirroring) (h : region b ≠ region a) :
    reaches mirroring b a = false := by
  simp [reaches, h]

theorem reaches_patterns (hb : region b = .patterns) (ha : region a = .patterns) :
    reaches mirroring b a = decide (place b = place a) := by
  simp [reaches, ha, hb]

theorem reaches_tables (hb : region b = .tables) (ha : region a = .tables) :
    reaches mirroring b a = decide (tableCell mirroring b = tableCell mirroring a) := by
  simp [reaches, ha, hb, tableCell_inj]

theorem reaches_palette (hb : region b = .palette) (ha : region a = .palette) :
    reaches mirroring b a = decide (b.toNat % 0x20 = a.toNat % 0x20 ∨
      b.toNat % 0x20 = 0x10 ∧ a.toNat % 0x20 = 0) := by
  simp [reaches, ha, hb]

theorem read_patterns (h : region a = .patterns) :
    memory.read board a = board.readPattern (a &&& 0x3FFF) :=
  if_pos ((masked_lt a 0x2000).2 (region_patterns.1 h))

theorem tables_place (h : region a = .tables) : ¬a &&& 0x3FFF < 0x2000 ∧ a &&& 0x3FFF < 0x3F00 := by
  obtain ⟨low, high⟩ := region_tables.1 h
  exact ⟨fun lt => Nat.not_lt.2 low ((masked_lt a 0x2000).1 lt), (masked_lt a 0x3F00).2 high⟩

theorem read_table (h : region a = .tables) :
    memory.read board a = memory.readTable (a &&& 0x3FFF) := by
  obtain ⟨first, second⟩ := tables_place h
  unfold read
  rw [if_neg first, if_pos second]

theorem read_tables (hm : memory.tables = .ofMirroring mirroring) (h : region a = .tables) :
    memory.read board a = .ok (memory.ram.get (tableCell mirroring a)) := by
  rw [read_table h]
  simp only [readTable, cell_eq hm, (tableCell mirroring a).isLt, dif_pos]
  rfl

theorem palette_place (h : region a = .palette) :
    ¬a &&& 0x3FFF < 0x2000 ∧ ¬a &&& 0x3FFF < 0x3F00 := by
  have high := region_palette.1 h
  rw [masked_lt, masked_lt]
  simp only [UInt16.reduceToNat]
  omega

theorem masked_entry (address : UInt16) : (address &&& 0x3FFF).toNat % 0x20 = address.toNat % 0x20 := by
  rw [masked_toNat, place]
  omega

theorem read_palette (h : region a = .palette) :
    memory.read board a = .ok (memory.palette.get (entry a)) := by
  obtain ⟨first, second⟩ := palette_place h
  unfold read
  rw [if_neg first, if_neg second]
  simp only [masked_entry]
  rfl

/-! ## Writes -/

theorem write_patterns (h : region b = .patterns) {value : UInt8} {next : Board}
    (hw : board.writePattern (b &&& 0x3FFF) value = .ok next) :
    memory.write board b value = .ok (memory, next) := by
  unfold write
  rw [if_pos ((masked_lt b 0x2000).2 (region_patterns.1 h)), hw]
  rfl

theorem write_table (h : region b = .tables) {value : UInt8} {written : PictureMemory}
    (hw : memory.writeTable (b &&& 0x3FFF) value = .ok written) :
    memory.write board b value = .ok (written, board) := by
  obtain ⟨first, second⟩ := tables_place h
  unfold write
  rw [if_neg first, if_pos second, hw]
  rfl

theorem write_tables (hm : memory.tables = .ofMirroring mirroring) (h : region b = .tables)
    (value : UInt8) : memory.write board b value =
      .ok ({ memory with ram := memory.ram.set (tableCell mirroring b) value }, board) := by
  refine write_table h ?_
  simp only [writeTable, cell_eq hm, (tableCell mirroring b).isLt, dif_pos]

theorem write_palette (h : region b = .palette) (value : UInt8) :
    memory.write board b value = .ok (memory.writePalette (b &&& 0x3FFF) value, board) := by
  obtain ⟨first, second⟩ := palette_place h
  unfold write
  rw [if_neg first, if_neg second]
  rfl

/-- Only writes below the name tables reach the board. -/
theorem write_elsewhere (hm : memory.tables = .ofMirroring mirroring) (h : region b ≠ .patterns)
    (value : UInt8) : ∃ written, memory.write board b value = .ok (written, board) := by
  cases hb : region b with
  | patterns => exact absurd hb h
  | tables => exact ⟨_, write_tables hm hb value⟩
  | palette => exact ⟨_, write_palette hb value⟩

/-- An entry of the palette takes the values that are written to its number, and entry $00 those
written to entry $10 too. -/
theorem writePalette_get (memory : PictureMemory) (a b : UInt16) (value : UInt8) :
    (memory.writePalette (b &&& 0x3FFF) value).palette.get (entry a) =
      if b.toNat % 0x20 = a.toNat % 0x20 ∨ b.toNat % 0x20 = 0x10 ∧ a.toNat % 0x20 = 0 then value
      else memory.palette.get (entry a) := by
  have written : (memory.writePalette (b &&& 0x3FFF) value).palette =
      if b.toNat % 0x20 = 0x10 then (memory.palette.set (entry b) value).set (0 : Fin 0x20) value
      else memory.palette.set (entry b) value := by
    simp only [writePalette, masked_entry]
    rfl
  rw [written]
  by_cases doubled : b.toNat % 0x20 = 0x10
  · rw [if_pos doubled, set_get, set_get]
    simp only [entry_inj, entry_zero, doubled, true_and]
    by_cases first : a.toNat % 0x20 = 0
    · simp only [first, if_true, or_true]
    · simp only [first, if_false, or_false]
  · rw [if_neg doubled, set_get]
    simp only [entry_inj, doubled, false_and, or_false]

/-! ## Behind any writes -/

variable {cartridge : Cartridge} {writes : List PictureWrite}

open PictureWrite (held onBoard performAll held_store)

/-- Memory and board as writes leave them. -/
structure Holds (mirroring : Mirroring) (cartridge : Cartridge) (writes : List PictureWrite)
    (memory : PictureMemory) (board : Board) : Prop where
  tables : memory.tables = .ofMirroring mirroring
  board : Board.Holds cartridge (onBoard writes) board
  ram : ∀ a, region a = .tables → memory.ram.get (tableCell mirroring a) = held mirroring writes a
  palette : ∀ a, region a = .palette → memory.palette.get (entry a) = held mirroring writes a

theorem Holds.fresh (mirroring : Mirroring) (h : Board.ofCartridge? cartridge = some board) :
    Holds mirroring cartridge [] (fresh.setMirroring mirroring) board where
  tables := rfl
  board := .fresh h
  ram a _ := Vector.getElem_replicate (tableCell mirroring a).isLt
  palette a _ := Vector.getElem_replicate (entry a).isLt

theorem onBoard_store (h : region b = .patterns) (value : UInt8) (writes : List PictureWrite) :
    onBoard (.store b value :: writes) = .pattern (b &&& 0x3FFF) value :: onBoard writes := by
  simp [onBoard, PictureWrite.onBoard?, h]

theorem onBoard_elsewhere (h : region b ≠ .patterns) (value : UInt8)
    (writes : List PictureWrite) : onBoard (.store b value :: writes) = onBoard writes := by
  simp [onBoard, PictureWrite.onBoard?, h]

/-- A write to one region leaves what the others hold. -/
theorem held_apart (h : region b ≠ region a) (value : UInt8) (writes : List PictureWrite) :
    held mirroring (.store b value :: writes) a = held mirroring writes a := by
  rw [held_store, reaches_apart mirroring h]
  rfl

theorem Holds.store (h : Holds mirroring cartridge writes memory board) (b : UInt16)
    (value : UInt8) : ∃ written next, memory.write board b value = .ok (written, next) ∧
      Holds mirroring cartridge (.store b value :: writes) written next := by
  -- the write lands in the region of its address; what the others hold is `held_apart`
  cases hb : region b with
  | patterns =>
    obtain ⟨next, hw, -⟩ := Board.writePattern_ok h.board.fits (b &&& 0x3FFF) value
    refine ⟨memory, next, write_patterns hb hw, h.tables, ?_, fun a ha => ?_, fun a ha => ?_⟩
    · rw [onBoard_store hb]
      exact h.board.pattern hw
    · rw [held_apart (by simp [ha, hb]), h.ram a ha]
    · rw [held_apart (by simp [ha, hb]), h.palette a ha]
  | tables =>
    refine ⟨_, board, write_tables h.tables hb value, h.tables, ?_, fun a ha => ?_, fun a ha => ?_⟩
    · rw [onBoard_elsewhere (by simp [hb])]
      exact h.board
    · show (memory.ram.set (tableCell mirroring b) value).get (tableCell mirroring a) = _
      rw [set_get, held_store, reaches_tables hb ha, h.ram a ha]
      simp only [decide_eq_true_eq]
    · rw [held_apart (by simp [ha, hb]), ← h.palette a ha]
  | palette =>
    refine ⟨_, board, write_palette hb value, h.tables, ?_, fun a ha => ?_, fun a ha => ?_⟩
    · rw [onBoard_elsewhere (by simp [hb])]
      exact h.board
    · rw [held_apart (by simp [ha, hb]), ← h.ram a ha]
      rfl
    · rw [writePalette_get, held_store, reaches_palette hb ha, h.palette a ha]
      simp only [decide_eq_true_eq]

theorem Holds.perform (h : Holds mirroring cartridge writes memory board) (write : PictureWrite) :
    ∃ written next, write.perform (memory, board) = .ok (written, next) ∧
      Holds mirroring cartridge (write :: writes) written next := by
  cases write with
  | store address value => exact h.store address value
  | select address value =>
    exact ⟨memory, board.writeProgram value, rfl, h.tables, h.board.program address value, h.ram,
      h.palette⟩

/-- Every write is made, and behind all of them each cell holds what was written to it. -/
theorem performAll_holds (h : Board.ofCartridge? cartridge = some board) (mirroring : Mirroring)
    (writes : List PictureWrite) :
    ∃ memory next, performAll writes (fresh.setMirroring mirroring, board) = .ok (memory, next) ∧
      Holds mirroring cartridge writes memory next := by
  -- the head was written last, so the induction hypothesis is about everything before it
  induction writes with
  | nil => exact ⟨_, board, rfl, .fresh mirroring h⟩
  | cons write rest ih =>
    obtain ⟨memory, next, before, holds⟩ := ih
    obtain ⟨written, last, performed, holds⟩ := holds.perform write
    refine ⟨written, last, ?_, holds⟩
    rw [performAll, List.foldrM_cons]
    rw [performAll] at before
    rw [before]
    exact performed

/-! ## Reads -/

/-- A place of pattern RAM as the board sees it. -/
theorem masked_pattern (h : region a = .patterns) :
    (a &&& 0x3FFF &&& 0x1FFF).toNat = place a := by
  have low := region_patterns.1 h
  rw [Board.patternIndex_eq, masked_toNat, Nat.mod_eq_of_lt low]

theorem drawn_onBoard (h : region a = .patterns) (writes : List PictureWrite) :
    Board.drawn (place a) (onBoard writes) = held mirroring writes a := by
  induction writes with
  | nil => rfl
  | cons write rest ih =>
    cases write with
    | select address value => exact ih
    | store b value =>
      by_cases hb : region b = .patterns
      · rw [onBoard_store hb, Board.drawn_pattern, masked_pattern hb, held_store,
          reaches_patterns hb h, ih]
        simp only [decide_eq_true_eq]
      · rw [onBoard_elsewhere hb, held_apart (fun same => hb (same.trans h)), ih]

/-- What is read behind writes. -/
structure Stores (mirroring : Mirroring) (cartridge : Cartridge) (writes : List PictureWrite)
    (memory : PictureMemory) (board : Board) : Prop where
  patternRam : cartridge.board = 0 ∨ cartridge.board = 2 → cartridge.patternBanks = 0 →
    ∀ a, region a = .patterns → memory.read board a = .ok (held mirroring writes a)
  fixedPatterns : cartridge.board = 0 ∨ cartridge.board = 2 → cartridge.patternBanks ≠ 0 →
    ∀ a, region a = .patterns → IsByte cartridge.patterns (place a) (memory.read board a)
  switchedPatterns : cartridge.board = 3 → cartridge.patternBanks ≠ 0 →
    ∀ a, region a = .patterns → IsByte cartridge.patterns
      ((Board.selected (onBoard writes) &&& 0x03).toNat % cartridge.patternBanks *
        Image.patternBankSize + place a) (memory.read board a)
  noPatterns : cartridge.board = 3 → cartridge.patternBanks = 0 →
    ∀ a, region a = .patterns → memory.read board a = .ok 0
  tables : ∀ a, region a = .tables → memory.read board a = .ok (held mirroring writes a)
  repeats : ∀ a, 0x3000 ≤ place a → place a < 0x3F00 →
    memory.read board (a - 0x1000) = memory.read board a
  palette : ∀ a, region a = .palette → memory.read board a = .ok (held mirroring writes a)
  apart : ∀ a b value, region b ≠ region a → ∃ written next,
    memory.write board b value = .ok (written, next) ∧ written.read next a = memory.read board a

theorem Holds.repeats (h : Holds mirroring cartridge writes memory board) (low : 0x3000 ≤ place a)
    (high : place a < 0x3F00) : memory.read board (a - 0x1000) = memory.read board a := by
  have above : 0x1000 ≤ a := by
    rw [UInt16.le_iff_toNat_le]
    simp only [place, UInt16.reduceToNat] at low ⊢
    omega
  have back : (a - 0x1000).toNat = a.toNat - 0x1000 := UInt16.toNat_sub_of_le _ _ above
  have moved : place (a - 0x1000) = place a - 0x1000 := by
    simp only [place, back] at low ⊢
    omega
  have here : region a = .tables := region_tables.2 ⟨by omega, high⟩
  have there : region (a - 0x1000) = .tables := region_tables.2 ⟨by omega, by omega⟩
  have same : tableCell mirroring (a - 0x1000) = tableCell mirroring a := by
    have number : table (a - 0x1000) = table a := by
      simp only [table, back, place] at low ⊢
      omega
    refine tableCell_inj.2 ⟨by rw [number], ?_⟩
    simp only [back, place] at low ⊢
    omega
  rw [read_tables h.tables here, read_tables h.tables there, same]

theorem Holds.apart (h : Holds mirroring cartridge writes memory board) (value : UInt8)
    (other : region b ≠ region a) : ∃ written next,
      memory.write board b value = .ok (written, next) ∧ written.read next a = memory.read board a := by
  obtain ⟨written, next, hw, after⟩ := h.store b value
  refine ⟨written, next, hw, ?_⟩
  cases ha : region a with
  | patterns =>
    obtain ⟨_, kept⟩ := write_elsewhere h.tables (fun same => other (same.trans ha.symm)) value
    rw [kept] at hw
    cases hw
    rw [read_patterns ha, read_patterns ha]
  | tables =>
    rw [read_tables after.tables ha, read_tables h.tables ha, after.ram a ha, h.ram a ha,
      held_apart other]
  | palette =>
    rw [read_palette ha, read_palette ha, after.palette a ha, h.palette a ha, held_apart other]

/-- Whatever is written, each address gives back what was written last to a cell that it shares, under
any mirroring. Pattern ROM stays as it is, and no write reaches another region than its own. -/
theorem picture_space_stores {raw : ByteArray} (himage : Cartridge.ofImage raw = .ok cartridge)
    (hboard : Board.ofCartridge? cartridge = some board) (mirroring : Mirroring)
    (writes : List PictureWrite) :
    ∃ memory next, performAll writes (fresh.setMirroring mirroring, board) = .ok (memory, next) ∧
      Stores mirroring cartridge writes memory next := by
  have whole := Cartridge.ofImage_whole himage
  obtain ⟨memory, next, performed, holds⟩ := performAll_holds hboard mirroring writes
  have onPatterns := holds.board
  refine ⟨memory, next, performed, ?_⟩
  constructor
  case patternRam =>
    intro fixed none a ha
    rw [read_patterns ha, onPatterns.patternRam whole fixed none, masked_pattern ha,
      drawn_onBoard ha]
  case fixedPatterns =>
    intro fixed rom a ha
    rw [read_patterns ha, ← masked_pattern ha]
    exact onPatterns.fixedPatterns whole fixed rom _
  case switchedPatterns =>
    intro number rom a ha
    rw [read_patterns ha, ← masked_pattern ha]
    exact onPatterns.switchedPatterns whole number rom _
  case noPatterns =>
    intro number none a ha
    rw [read_patterns ha]
    exact onPatterns.noPatterns whole number none _
  case tables =>
    intro a ha
    rw [read_tables holds.tables ha, holds.ram a ha]
  case repeats => exact fun a low high => holds.repeats low high
  case palette =>
    intro a ha
    rw [read_palette ha, holds.palette a ha]
  case apart => exact fun a b value other => holds.apart value other

/-- With two name tables side by side, a cell is reached from the table below it and from $3000 on;
entry $10 of the palette keeps what was written to it before entry $00. -/
theorem shared_cells_stored :
    let writes : List PictureWrite := [.store 0x7F20 0x0F, .store 0x3F10 0x2A, .store 0x0005 0x66,
      .store 0x2405 0x44, .store 0x2005 0x33]
    ∃ board memory next, Cartridge.ofImage Image.pollingImage = .ok Image.polling ∧
      Board.ofCartridge? Image.polling = some board ∧
      performAll writes (fresh.setMirroring .vertical, board) = .ok (memory, next) ∧
      memory.read next 0x3805 = .ok 0x33 ∧ memory.read next 0xEC05 = .ok 0x44 ∧
      memory.read next 0x4005 = .ok 0x66 ∧ memory.read next 0x3FE0 = .ok 0x0F ∧
      memory.read next 0x3F30 = .ok 0x2A := by
  obtain ⟨board, hboard⟩ := @Board.ofCartridge?_isSome Image.polling (.inl rfl)
  obtain ⟨memory, next, performed, stores⟩ :=
    picture_space_stores Image.ofImage_pollingImage hboard .vertical
      [.store 0x7F20 0x0F, .store 0x3F10 0x2A, .store 0x0005 0x66, .store 0x2405 0x44,
        .store 0x2005 0x33]
  exact ⟨board, memory, next, Image.ofImage_pollingImage, hboard, performed,
    stores.tables 0x3805 (by decide), stores.tables 0xEC05 (by decide),
    stores.patternRam (.inl rfl) rfl 0x4005 (by decide), stores.palette 0x3FE0 (by decide),
    stores.palette 0x3F30 (by decide)⟩

end PictureMemory

end Famicom
