import Famicom.Proofs.PictureStore
import Famicom.Proofs.Ppu.WritePairs
import Famicom.Proofs.Transfer

/-!
# Blocks of picture memory

Bytes that a program writes through the data port of the picture unit, in a row or down a column, and
reads back. A write is made at once; a read gives what the read before it fetched, so that a block is
read back behind one byte that was in the buffer before.
-/

namespace Famicom

namespace Board

variable {board : Board} {ram : Array UInt8}

/-- The pattern RAM of a board that has some. -/
def patternRam? (board : Board) : Option (Array UInt8) :=
  match board.circuit with
  | .nrom state => if state.hasPatternRam then some state.patternRam else none
  | .uxrom state => if state.hasPatternRam then some state.patternRam else none
  | .cnrom _ => none

theorem readPattern_ram (h : board.patternRam? = some ram) (address : UInt16) :
    board.readPattern address = fetchRam ram (address &&& 0x1FFF).toNat := by
  obtain ⟨cartridge, ⟨oneBank, _ | _, ram⟩ | ⟨_ | _, lastBank, bank, ram⟩ | state⟩ := board
  case nrom.true | uxrom.true =>
    cases h
    rfl
  all_goals cases h

theorem writePattern_ram (h : board.patternRam? = some ram) {address : UInt16}
    (inside : (address &&& 0x1FFF).toNat < ram.size) (value : UInt8) :
    ∃ next, board.writePattern address value = .ok next ∧
      next.patternRam? = some (ram.set (address &&& 0x1FFF).toNat value) := by
  have stored : storeRam ram (address &&& 0x1FFF).toNat value = .ok (ram.set _ value) :=
    dif_pos inside
  obtain ⟨cartridge, ⟨oneBank, _ | _, ram⟩ | ⟨_ | _, lastBank, bank, ram⟩ | state⟩ := board
  case nrom.true =>
    cases h
    exact ⟨⟨cartridge, .nrom ⟨oneBank, true, _⟩⟩, by simp only [writePattern, stored]; rfl, rfl⟩
  case uxrom.true =>
    cases h
    exact ⟨⟨cartridge, .uxrom ⟨true, lastBank, bank, _⟩⟩, by simp only [writePattern, stored]; rfl,
      rfl⟩
  all_goals cases h

end Board

namespace PictureMemory

/-- A byte below the palette that programs can change. -/
inductive Cell
  | pattern (place : Nat)
  | table (place : Nat)
deriving DecidableEq, Repr

/-- The cell behind an address, where there is RAM. Mirrored name tables share theirs. -/
def cell? (memory : PictureMemory) (board : Board) (address : UInt16) : Option Cell :=
  match region address with
  | .patterns => board.patternRam?.bind fun ram =>
    if place address < ram.size then some (.pattern (place address)) else none
  | .tables =>
    if memory.cell (address &&& 0x3FFF) < 0x800 then
      some (.table (memory.cell (address &&& 0x3FFF)))
    else none
  | .palette => none

variable {memory written : PictureMemory} {board next : Board} {a b : UInt16} {cell : Cell}
variable {value : UInt8}

theorem read_masked (address : UInt16) :
    memory.read board (address &&& 0x3FFF) = memory.read board address := by
  simp only [read, UInt16.and_assoc, UInt16.and_self]

/-! ## Single cells -/

theorem cell?_patterns (h : region a = .patterns) : memory.cell? board a =
    board.patternRam?.bind fun ram =>
      if place a < ram.size then some (.pattern (place a)) else none := by
  simp only [cell?, h]

theorem cell?_tables (h : region a = .tables) : memory.cell? board a =
    if memory.cell (a &&& 0x3FFF) < 0x800 then some (.table (memory.cell (a &&& 0x3FFF)))
    else none := by
  simp only [cell?, h]

theorem cell?_palette (h : region a = .palette) : memory.cell? board a = none := by
  simp only [cell?, h]

/-- Picture memory behind a write to a cell. -/
structure Overwritten (memory : PictureMemory) (board : Board) (cell : Cell) (value : UInt8)
    (written : PictureMemory) (next : Board) : Prop where
  cells : ∀ b, written.cell? next b = memory.cell? board b
  reads : ∀ b, written.read next b =
    if memory.cell? board b = some cell then .ok value else memory.read board b

theorem write_pattern {ram : Array UInt8} (h : region a = .patterns)
    (hram : board.patternRam? = some ram) (inside : place a < ram.size) (value : UInt8) :
    ∃ written next, memory.write board a value = .ok (written, next) ∧
      Overwritten memory board (.pattern (place a)) value written next := by
  have index := masked_pattern h
  have within : (a &&& 0x3FFF &&& 0x1FFF).toNat < ram.size := by rwa [index]
  obtain ⟨next, hw, stored⟩ := Board.writePattern_ram hram within value
  refine ⟨memory, next, write_patterns h hw, fun b => ?_, fun b => ?_⟩
  · cases hb : region b with
    | patterns => simp only [cell?_patterns hb, hram, stored, Option.bind_some, Array.size_set]
    | tables => simp only [cell?_tables hb]
    | palette => simp only [cell?_palette hb]
  · cases hb : region b with
    | patterns =>
      rw [read_patterns hb, read_patterns hb, Board.readPattern_ram stored,
        Board.readPattern_ram hram, masked_pattern hb, cell?_patterns hb, hram]
      simp only [index, Option.bind_some, Board.fetchRam, Array.size_set, Array.getElem_set]
      by_cases here : place a = place b
      · simp [← here, inside]
      · by_cases room : place b < ram.size <;> simp [room, here, Ne.symm here]
    | tables =>
      have other : memory.cell? board b ≠ some (.pattern (place a)) := by
        rw [cell?_tables hb]
        split <;> simp
      rw [if_neg other, read_table hb, read_table hb]
    | palette => rw [if_neg (by simp [cell?_palette hb]), read_palette hb, read_palette hb]

theorem write_tableCell (h : region a = .tables) (inside : memory.cell (a &&& 0x3FFF) < 0x800)
    (value : UInt8) : ∃ written next, memory.write board a value = .ok (written, next) ∧
      Overwritten memory board (.table (memory.cell (a &&& 0x3FFF))) value written next := by
  have stored : memory.writeTable (a &&& 0x3FFF) value =
      .ok { memory with ram := memory.ram.set (memory.cell (a &&& 0x3FFF)) value } :=
    dif_pos inside
  refine ⟨_, board, write_table h stored, fun b => rfl, fun b => ?_⟩
  cases hb : region b with
  | patterns =>
    have other : memory.cell? board b ≠ some (.table (memory.cell (a &&& 0x3FFF))) := by
      rw [cell?_patterns hb]
      cases board.patternRam? <;> simp
    rw [if_neg other, read_patterns hb, read_patterns hb]
  | tables =>
    have cells : ∀ address, cell { memory with
        ram := memory.ram.set (memory.cell (a &&& 0x3FFF)) value } address =
      memory.cell address := fun _ => rfl
    rw [read_table hb, read_table hb, cell?_tables hb]
    simp only [readTable, cells, Vector.getElem_set]
    by_cases here : memory.cell (a &&& 0x3FFF) = memory.cell (b &&& 0x3FFF)
    · simp [← here, inside]
    · by_cases room : memory.cell (b &&& 0x3FFF) < 0x800 <;> simp [room, here, Ne.symm here]
  | palette => rw [if_neg (by simp [cell?_palette hb]), read_palette hb, read_palette hb]

/-- A write to a cell is always made, and is seen at every address of the cell and nowhere else. -/
theorem write_cell (h : memory.cell? board a = some cell) (value : UInt8) :
    ∃ written next, memory.write board a value = .ok (written, next) ∧
      Overwritten memory board cell value written next := by
  cases ha : region a with
  | patterns =>
    rw [cell?_patterns ha] at h
    obtain ⟨ram, hram, h⟩ := Option.bind_eq_some_iff.1 h
    obtain ⟨inside, same⟩ := Option.ite_none_right_eq_some.1 h
    cases same
    exact write_pattern ha hram inside value
  | tables =>
    rw [cell?_tables ha] at h
    obtain ⟨inside, same⟩ := Option.ite_none_right_eq_some.1 h
    cases same
    exact write_tableCell ha inside value
  | palette =>
    rw [cell?_palette ha] at h
    cases h

theorem read_cell (h : memory.cell? board a = some cell) :
    ∃ byte, memory.read board a = .ok byte := by
  cases ha : region a with
  | patterns =>
    rw [cell?_patterns ha] at h
    obtain ⟨ram, hram, h⟩ := Option.bind_eq_some_iff.1 h
    obtain ⟨inside, -⟩ := Option.ite_none_right_eq_some.1 h
    rw [← masked_pattern ha] at inside
    exact ⟨_, (read_patterns ha).trans ((Board.readPattern_ram hram _).trans (dif_pos inside))⟩
  | tables =>
    rw [cell?_tables ha] at h
    obtain ⟨inside, -⟩ := Option.ite_none_right_eq_some.1 h
    exact ⟨_, (read_table ha).trans (dif_pos inside)⟩
  | palette =>
    rw [cell?_palette ha] at h
    cases h

end PictureMemory

/-! ## Blocks -/

namespace Ppu

/-- How far an access to the data port moves the address. -/
def stride (ppu : Ppu) : Nat := if ppu.control.bits &&& 0x04 = 0 then 1 else 32

/-- The address behind so many accesses to the data port. -/
def addressAfter (ppu : Ppu) (start : UInt16) (accesses : Nat) : UInt16 :=
  .ofNat ((start.toNat + accesses * ppu.stride) % 0x8000)

/-- A picture unit whose address was set through its registers. -/
def pointed (ppu : Ppu) (start : UInt16) : Ppu :=
  { ppu with
    status := { ppu.status with vblank := false }
    address := start
    nextAddress := start
    firstWrite := true }

variable {ppu : Ppu} {start : UInt16}

theorem addressAfter_toNat (ppu : Ppu) (start : UInt16) (accesses : Nat) :
    (ppu.addressAfter start accesses).toNat = (start.toNat + accesses * ppu.stride) % 0x8000 := by
  rw [addressAfter, UInt16.toNat_ofNat']
  omega

theorem onwardAddress_after (ppu : Ppu) (start : UInt16) (accesses : Nat) :
    { ppu with address := ppu.addressAfter start accesses }.onwardAddress =
      ppu.addressAfter start (accesses + 1) := by
  apply UInt16.toNat_inj.1
  rw [addressAfter_toNat, onwardAddress, UInt16.toNat_ofNat', addressAfter_toNat, stride,
    Nat.succ_mul]
  dsimp only
  omega

/-- The addresses that accesses to the data port go through, one after the other. -/
structure Visits (ppu : Ppu) (spots : Nat → UInt16) : Prop where
  first : ppu.address = spots 0
  onward : ∀ i, { ppu with address := spots i }.onwardAddress = spots (i + 1)

theorem Visits.next {spots : Nat → UInt16} (h : Visits ppu spots) :
    ppu.onwardAddress = spots 1 := by
  have onward := h.onward 0
  rwa [← h.first] at onward

/-- Once the first address is behind, an access goes through the others. -/
theorem Visits.rest {spots : Nat → UInt16} {after : Ppu} (h : Visits ppu spots)
    (control : after.control = ppu.control) (address : after.address = spots 1) :
    Visits after fun i => spots (i + 1) where
  first := address
  onward i := by
    have onward := h.onward (i + 1)
    simp only [onwardAddress] at onward ⊢
    rw [control]
    exact onward

theorem pointed_visits (ppu : Ppu) {start : UInt16} (h : start < 0x4000) :
    Visits (ppu.pointed start) (ppu.addressAfter start) where
  first := by
    have small : start.toNat < 0x4000 := UInt16.lt_iff_toNat_lt.1 h
    apply UInt16.toNat_inj.1
    rw [addressAfter_toNat, Nat.zero_mul, Nat.add_zero]
    exact (Nat.mod_eq_of_lt (Nat.lt_trans small (by decide))).symm
  onward := onwardAddress_after (ppu.pointed start) start

end Ppu

namespace Devices

open PictureMemory (place)

variable {d : Devices}

/-- Reads of one address in a row. -/
def readAll (address : UInt16) : Nat → Action (List UInt8)
  | 0 => pure []
  | count + 1 => do
    let value ← read address
    let rest ← readAll address count
    return value :: rest

/-- Sets the address of the picture unit through its registers. -/
def point (address : UInt16) : Action Unit := do
  let _ ← read 0x2002
  write 0x2006 (address >>> 8).toUInt8
  write 0x2006 address.toUInt8

/-- The cell behind an address of the picture unit. -/
def cell? (d : Devices) (address : UInt16) : Option PictureMemory.Cell :=
  d.picture.cell? d.board address

/-! ## Single accesses -/

theorem write_data (wired : d.memory.bindings = .wired) {cell : PictureMemory.Cell}
    (h : d.cell? d.ppu.address = some cell) (value : UInt8) : ∃ picture board,
      write 0x2007 value d = .ok () { d with
        picture := picture, board := board
        ppu := { d.ppu with address := d.ppu.onwardAddress } } ∧
      PictureMemory.Overwritten d.picture d.board cell value picture board := by
  obtain ⟨picture, board, hw, changed⟩ := PictureMemory.write_cell h value
  refine ⟨picture, board, ?_, changed⟩
  have served : write 0x2007 value d = writePictureData value d :=
    write_handled wired .pictureData rfl value
  rw [served, ← Ppu.stepAddress_eq]
  simp only [writePictureData, hw]

theorem read_data (wired : d.memory.bindings = .wired) {byte : UInt8}
    (h : d.picture.read d.board d.ppu.address = .ok byte) :
    read 0x2007 d = .ok (if place d.ppu.address < 0x3F00 then d.ppu.readBuffer else byte) { d with
      ppu := { d.ppu with
        address := d.ppu.onwardAddress
        readBuffer := if place d.ppu.address < 0x3F00 then byte else d.ppu.readBuffer } } := by
  have low : d.ppu.address &&& 0x3FFF < 0x3F00 ↔ place d.ppu.address < 0x3F00 :=
    PictureMemory.masked_lt _ _
  have answered := readData_answers (Ppu.readData_eq ((PictureMemory.read_masked _).trans h))
  simp only [low] at answered
  exact (read_handled wired (.data ⟨by decide, by decide, rfl⟩)).trans answered

theorem point_ok (wired : d.memory.bindings = .wired) {start : UInt16} (h : start < 0x4000) :
    point start d = .ok () { d with ppu := d.ppu.pointed start } := by
  have wrote : ∀ (e : Devices) value, e.memory = d.memory →
      write 0x2006 value e = .ok () { e with ppu := e.ppu.writeAddress value } :=
    fun e value same => write_handled (same ▸ wired) .pictureAddress rfl value
  have read : read 0x2002 d = .ok d.ppu.readStatus.1 { d with ppu := d.ppu.readStatus.2 } :=
    read_handled wired (.status ⟨by decide, by decide, rfl⟩)
  have small := UInt16.lt_iff_toNat_lt.1 h
  have whole : Ppu.addressWord (start >>> 8).toUInt8 start.toUInt8 = start := by
    apply UInt16.toNat_inj.1
    rw [Ppu.addressWord_toNat]
    simp only [UInt16.toNat_toUInt8, UInt16.toNat_shiftRight, UInt16.reduceToNat,
      Nat.shiftRight_eq_div_pow, Nat.reduceMod, Nat.reducePow] at *
    omega
  have first := wrote { d with ppu := d.ppu.readStatus.2 } (start >>> 8).toUInt8 rfl
  have second := wrote
    { d with ppu := d.ppu.readStatus.2.writeAddress (start >>> 8).toUInt8 } start.toUInt8 rfl
  rw [Ppu.address_pair, whole] at second
  exact (bind_ok read).trans ((bind_ok first).trans second)

/-! ## Runs of accesses -/

/-- Picture memory with bytes in the cells of a block. -/
structure Stored (d : Devices) (spots : Nat → UInt16) (bytes : List UInt8)
    (picture : PictureMemory) (board : Board) : Prop where
  cells : ∀ address, picture.cell? board address = d.cell? address
  stored : ∀ i (h : i < bytes.length), picture.read board (spots i) = .ok bytes[i]
  kept : ∀ address, (∀ i < bytes.length, d.cell? (spots i) ≠ d.cell? address) →
    picture.read board address = d.picture.read d.board address

variable {spots : Nat → UInt16}

/-- Bytes written to different cells are all there afterwards. -/
theorem writeAll_block (wired : d.memory.bindings = .wired) (visits : d.ppu.Visits spots)
    (bytes : List UInt8) (cells : ∀ i < bytes.length, (d.cell? (spots i)).isSome)
    (apart : ∀ j < bytes.length, ∀ i < j, d.cell? (spots i) ≠ d.cell? (spots j)) :
    ∃ picture board, writeAll 0x2007 bytes d = .ok () { d with
        picture := picture, board := board
        ppu := { d.ppu with address := spots bytes.length } } ∧
      Stored d spots bytes picture board := by
  induction bytes generalizing d spots with
  | nil =>
    refine ⟨d.picture, d.board, ?_, fun _ => rfl, fun i h => absurd h (Nat.not_lt_zero i),
      fun _ _ => rfl⟩
    rw [List.length_nil, ← visits.first]
    rfl
  | cons value rest ih =>
    obtain ⟨cell, here⟩ := Option.isSome_iff_exists.1 (cells 0 (Nat.zero_lt_succ _))
    rw [← visits.first] at here
    obtain ⟨written, next, wrote, changed⟩ := write_data wired here value
    rw [visits.first] at here
    rw [visits.next] at wrote
    have same : ∀ address, written.cell? next address = d.cell? address := changed.cells
    have apartStill : ∀ a b, d.cell? a ≠ d.cell? b → written.cell? next a ≠ written.cell? next b := by
      intro a b apart
      rwa [same, same]
    obtain ⟨picture, board, run, later⟩ := ih (d := { d with
        picture := written, board := next, ppu := { d.ppu with address := spots 1 } })
      wired (visits.rest rfl rfl)
      (fun i h => by
        show (written.cell? next _).isSome
        rw [same]
        exact cells (i + 1) (Nat.succ_lt_succ h))
      (fun j h i less => apartStill _ _
        (apart (j + 1) (Nat.succ_lt_succ h) (i + 1) (Nat.succ_lt_succ less)))
    refine ⟨picture, board, (bind_ok wrote).trans run, fun address => ?_, fun i h => ?_,
      fun address untouched => ?_⟩
    · exact (later.cells address).trans (same address)
    · cases i with
      | zero =>
        -- No later byte of the block goes to the first cell.
        have kept := later.kept (spots 0) fun i h => apartStill _ _
          (apart (i + 1) (Nat.succ_lt_succ h) 0 (Nat.zero_lt_succ i)).symm
        exact kept.trans ((changed.reads (spots 0)).trans (if_pos here))
      | succ i => exact later.stored i (Nat.lt_of_succ_lt_succ h)
    · have kept := later.kept address fun i h => apartStill _ _
        (untouched (i + 1) (Nat.succ_lt_succ h))
      refine kept.trans ((changed.reads address).trans (if_neg fun met => ?_))
      exact untouched 0 (Nat.zero_lt_succ _) (here.trans met.symm)

/-- Below the palette the answers are the bytes, one read late. -/
theorem readAll_block (wired : d.memory.bindings = .wired) (visits : d.ppu.Visits spots)
    (bytes : List UInt8) (low : ∀ i < bytes.length, place (spots i) < 0x3F00)
    (stored : ∀ i (h : i < bytes.length), d.picture.read d.board (spots i) = .ok bytes[i]) :
    readAll 0x2007 bytes.length d = .ok (d.ppu.readBuffer :: bytes).dropLast { d with
      ppu := { d.ppu with
        address := spots bytes.length
        readBuffer := bytes.getLastD d.ppu.readBuffer } } := by
  induction bytes generalizing d spots with
  | nil =>
    rw [List.length_nil, ← visits.first]
    rfl
  | cons byte rest ih =>
    have found := stored 0 (Nat.zero_lt_succ _)
    rw [← visits.first] at found
    have answered := read_data wired found
    have below : place d.ppu.address < 0x3F00 := by
      rw [visits.first]
      exact low 0 (Nat.zero_lt_succ _)
    rw [if_pos below, if_pos below, visits.next] at answered
    have later := ih (d := { d with
        ppu := { d.ppu with address := spots 1, readBuffer := byte } })
      wired (visits.rest rfl rfl)
      (fun i h => low (i + 1) (Nat.succ_lt_succ h))
      (fun i h => stored (i + 1) (Nat.succ_lt_succ h))
    refine (bind_ok answered).trans ((bind_ok later).trans ?_)
    rw [List.getLastD_cons]
    rfl

/-- What goes through the data port. -/
structure RoundTrips (d : Devices) : Prop where
  block : ∀ (start : UInt16) (bytes : List UInt8), start < 0x4000 →
    (∀ i ≤ bytes.length, place (d.ppu.addressAfter start i) < 0x3F00) →
    (∀ i < bytes.length, (d.cell? (d.ppu.addressAfter start i)).isSome) →
    (∀ j < bytes.length, ∀ i < j,
      d.cell? (d.ppu.addressAfter start i) ≠ d.cell? (d.ppu.addressAfter start j)) →
    ∃ after,
      (do
        point start
        writeAll 0x2007 bytes
        point start
        readAll 0x2007 (bytes.length + 1) : Action (List UInt8)) d =
        .ok (d.ppu.readBuffer :: bytes) after ∧
      after.ppu.address.toNat = (start.toNat + (bytes.length + 1) * d.ppu.stride) % 0x8000
  palette : 0x3F00 ≤ place d.ppu.address → read 0x2007 d =
    .ok (d.picture.palette.get (PictureMemory.entry d.ppu.address))
      { d with ppu := { d.ppu with address := d.ppu.onwardAddress } }

/-- What is behind a block can be read as well, whether it lies in the block again or not. -/
theorem Stored.readable {bytes : List UInt8} {picture : PictureMemory} {board : Board}
    (h : Stored d spots bytes picture board)
    (cells : ∀ i < bytes.length, (d.cell? (spots i)).isSome)
    (present : ∀ address, ∃ byte, d.picture.read d.board address = .ok byte) (address : UInt16) :
    ∃ byte, picture.read board address = .ok byte := by
  by_cases inside : ∃ i < bytes.length, d.cell? (spots i) = d.cell? address
  · obtain ⟨i, hi, same⟩ := inside
    obtain ⟨cell, here⟩ := Option.isSome_iff_exists.1 (cells i hi)
    exact PictureMemory.read_cell ((h.cells address).trans (same.symm.trans here))
  · obtain ⟨byte, read⟩ := present address
    exact ⟨byte, (h.kept address fun i hi same => inside ⟨i, hi, same⟩).trans read⟩

/-- Where all of picture memory can be read, blocks come back from RAM as they were written, one read
late and across repeats and ends of the memory. The palette answers at once. -/
theorem data_round_trips (wired : d.memory.bindings = .wired)
    (present : ∀ address, ∃ byte, d.picture.read d.board address = .ok byte) : RoundTrips d where
  block start bytes inside low cells apart := by
    obtain ⟨picture, board, wrote, stored⟩ := writeAll_block
      (d := { d with ppu := d.ppu.pointed start }) wired (d.ppu.pointed_visits inside) bytes cells apart
    obtain ⟨behind, last⟩ := stored.readable cells present (d.ppu.addressAfter start bytes.length)
    have length : (bytes ++ [behind]).length = bytes.length + 1 := List.length_append
    have answered := readAll_block (d := { d with
        picture := picture, board := board, ppu := d.ppu.pointed start })
      wired (d.ppu.pointed_visits inside) (bytes ++ [behind])
      (fun i h => low i (Nat.le_of_lt_succ (Nat.lt_of_lt_of_eq h length))) (fun i h => by
        by_cases within : i < bytes.length
        · rw [List.getElem_append_left within]
          exact stored.stored i within
        · obtain rfl : i = bytes.length := by omega
          rw [List.getElem_concat_length rfl]
          exact last)
    rw [length, ← List.cons_append, List.dropLast_concat] at answered
    have back := point_ok (d := { d with
        picture := picture, board := board
        ppu := { d.ppu.pointed start with
          address := d.ppu.addressAfter start bytes.length } }) wired inside
    exact ⟨_, (bind_ok (point_ok wired inside)).trans
        ((bind_ok wrote).trans ((bind_ok back).trans answered)),
      d.ppu.addressAfter_toNat start (bytes.length + 1)⟩
  palette high := by
    have low : ¬place d.ppu.address < 0x3F00 := Nat.not_lt.2 high
    have found : d.picture.read d.board d.ppu.address = _ :=
      PictureMemory.read_palette (PictureMemory.region_palette.2 high)
    have answered := read_data wired found
    rwa [if_neg low, if_neg low] at answered

/-- Three bytes down a column, from the last row of one name table into the first rows of the next. -/
theorem column_round_trips :
    let tiled : Devices := { unused with
      picture := .setMirroring .fresh .horizontal
      ppu := { unused.ppu with control := ⟨0x04⟩, readBuffer := 0xFF } }
    tiled.memory.bindings = .wired ∧
      (∀ address, ∃ byte, tiled.picture.read tiled.board address = .ok byte) ∧
      ∃ after,
        (do
          point 0x23E0
          writeAll 0x2007 [0x11, 0x22, 0x33]
          point 0x23E0
          readAll 0x2007 4 : Action (List UInt8)) tiled = .ok [0xFF, 0x11, 0x22, 0x33] after ∧
        after.ppu.address.toNat = 0x2460 := by
  intro tiled
  have board : tiled.board.Fits Image.polling :=
    ⟨rfl, rfl, by rw [Image.polling_size]; rfl, rfl,
      Array.size_replicate.trans (Board.freshPatternRam_size rfl).symm⟩
  have picture : tiled.picture.Fits Image.polling := rfl
  have present := PictureMemory.read_ok picture board
  obtain ⟨after, answered, address⟩ := (data_round_trips (d := tiled) rfl present).block 0x23E0
    [0x11, 0x22, 0x33] (by decide) (by decide) (by decide) (by decide)
  exact ⟨rfl, present, after, answered, address.trans (by decide)⟩

end Devices

end Famicom
