import Famicom.Proofs.AddressSpace

/-!
# What RAM retains

RAM and RAM at $6000 give back what was written to them last. Every access is made, whether those before
it were answered or not, and nothing but a write to the same cell disturbs a cell.
-/

namespace Famicom

/-- An access of the processor. -/
inductive BusAccess
  | read (address : UInt16)
  | write (address : UInt16) (value : UInt8)

namespace BusAccess

/-- What an access writes to one of these addresses. -/
def written? (here : UInt16 → Bool) : BusAccess → Option UInt8
  | read _ => none
  | write address value => if here address then some value else none

/-- What an access leaves behind, answered or stopped. -/
def leaves (access : BusAccess) (d : Devices) : Devices :=
  match access with
  | read address => reached (Devices.read address) d
  | write address value => reached (Devices.write address value) d

end BusAccess

/-- What was last written to one of these addresses. The accesses are given oldest first. -/
def lastWritten? (here : UInt16 → Bool) (accesses : List BusAccess) : Option UInt8 :=
  accesses.reverse.findSome? (BusAccess.written? here)

theorem lastWritten?_cons (here : UInt16 → Bool) (access : BusAccess) (rest : List BusAccess)
    (initial : UInt8) : (lastWritten? here (access :: rest)).getD initial =
      (lastWritten? here rest).getD ((access.written? here).getD initial) := by
  unfold lastWritten?
  rw [List.reverse_cons, List.findSome?_append]
  cases rest.reverse.findSome? (BusAccess.written? here) with
  | none => simp
  | some value => rfl

/-- A cell that a write to an address reaches has its place from the address. -/
def Sink.PlacedAt (address : UInt16) : Sink → Prop
  | .ram cell => address < 0x2000 ∧ MainMemory.ramCell address = cell
  | .extendedRam cell => 0x6000 ≤ address ∧ address < 0x8000 ∧ (address - 0x6000).toNat = cell
  | .program | .handler _ | .nowhere => True

theorem Sink.handler_placed {address : UInt16} (writer : Option WriteHandler) :
    ((writer.map Sink.handler).getD .nowhere).PlacedAt address := by
  cases writer <;> trivial

namespace MainMemory

variable {memory : MainMemory} {address a b : UInt16} {initial : UInt8}

/-! ## Where a write goes -/

theorem sink_ram (memory : MainMemory) (h : address < 0x2000) :
    memory.sink address = .ram (ramCell address) :=
  if_pos h

theorem sink_register (memory : MainMemory) (low : 0x2000 ≤ address) (high : address < 0x4000) :
    memory.sink address =
      ((memory.bindings.writer? (portLocation address)).map .handler).getD .nowhere := by
  rw [sink, if_neg (by grind), if_neg (by grind), if_pos high]

theorem sink_extended (low : 0x6000 ≤ address) (high : address < 0x8000)
    (mapped : memory.hasExtendedRam = true) :
    memory.sink address = .extendedRam (address - 0x6000).toNat := by
  rw [sink, if_neg (by grind), if_neg (by grind), if_neg (by grind),
    if_neg (by simp only [Bool.and_eq_true, decide_eq_true_eq]; grind),
    if_pos (by simp only [Bool.and_eq_true, decide_eq_true_eq]; exact ⟨low, mapped⟩)]

theorem sink_placed (memory : MainMemory) (address : UInt16) :
    (memory.sink address).PlacedAt address := by
  unfold sink
  split
  · exact ⟨‹_›, rfl⟩
  split
  · trivial
  rename_i high
  split
  · exact Sink.handler_placed _
  split
  · exact Sink.handler_placed _
  split
  · rename_i extended
    simp only [Bool.and_eq_true, decide_eq_true_eq] at extended
    exact ⟨extended.1, UInt16.not_le.1 high, rfl⟩
  · trivial

/-! ## Aliases -/

theorem source_alias (memory : MainMemory) (h : Aliases a b) :
    memory.source a = memory.source b := by
  cases h with
  | ram ha hb same =>
    rw [source_ram memory ha, source_ram memory hb, ramCell_inj.2 same]
  | register ha hb same =>
    rw [source_register memory ha.1 ha.2, source_register memory hb.1 hb.2, portLocation,
      portLocation, same]

theorem sink_alias (memory : MainMemory) (h : Aliases a b) : memory.sink a = memory.sink b := by
  cases h with
  | ram ha hb same =>
    rw [sink_ram memory ha, sink_ram memory hb, ramCell_inj.2 same]
  | register ha hb same =>
    rw [sink_register memory ha.1 ha.2, sink_register memory hb.1 hb.2, portLocation,
      portLocation, same]

/-! ## What a write makes of a cell -/

/-- Main memory behind a write to an address. -/
def stored (memory : MainMemory) (address : UInt16) (value : UInt8) : MainMemory :=
  match memory.sink address with
  | .ram cell => memory.storeRam cell value
  | .extendedRam cell =>
    match memory.storeExtended cell value with
    | .ok memory => memory
    | .error _ => memory
  | _ => memory

/-- A write past the end of RAM at $6000 is stopped and stores nothing. -/
theorem stored_at_extended {cell : Nat} (h : memory.sink address = .extendedRam cell)
    (value : UInt8) : memory.stored address value =
      { memory with extendedRam := memory.extendedRam.setIfInBounds cell value } := by
  unfold stored Array.setIfInBounds
  simp only [h, storeExtended]
  by_cases inside : cell < memory.extendedRam.size
  · simp only [inside, dif_pos]
  · simp only [inside, dif_neg, not_false_eq_true]

theorem stored_wiring (memory : MainMemory) (address : UInt16) (value : UInt8) :
    (memory.stored address value).bindings = memory.bindings ∧
      (memory.stored address value).hasExtendedRam = memory.hasExtendedRam := by
  cases hs : memory.sink address with
  | extendedRam cell =>
    rw [stored_at_extended hs]
    exact ⟨rfl, rfl⟩
  | ram cell =>
    simp only [stored, hs]
    exact ⟨rfl, rfl⟩
  | program | handler | nowhere => simp only [stored, hs, and_self]

/-- A cell of RAM takes the values that are written to its address and to the repetitions of it. -/
theorem stored_ram (memory : MainMemory) (address place : UInt16) (value : UInt8) :
    (memory.stored address value).ram.get (ramCell place) =
      if address < 0x2000 ∧ address % 0x800 = place % 0x800 then value
      else memory.ram.get (ramCell place) := by
  by_cases low : address < 0x2000
  · simp only [stored, sink_ram memory low, storeRam, set_get, ramCell_inj, low, true_and]
  · rw [if_neg fun both => low both.1]
    cases hs : memory.sink address with
    | ram cell =>
      have placed := memory.sink_placed address
      rw [hs] at placed
      exact absurd placed.1 low
    | extendedRam cell => rw [stored_at_extended hs]
    | program | handler | nowhere => simp only [stored, hs]

/-- A cell of RAM at $6000 takes the values that are written to its address. -/
theorem stored_extended {place : UInt16} (low : 0x6000 ≤ place) (high : place < 0x8000)
    (mapped : memory.hasExtendedRam = true) (value : UInt8)
    (h : memory.extendedRam[(place - 0x6000).toNat]? = some initial) :
    (memory.stored address value).extendedRam[(place - 0x6000).toNat]? =
      some (if address = place then value else initial) := by
  by_cases hit : address = place
  · subst hit
    have inside := (Array.getElem?_eq_some_iff.1 h).1
    rw [if_pos rfl, stored_at_extended (sink_extended low high mapped)]
    exact Array.getElem?_setIfInBounds_self_of_lt inside
  · rw [if_neg hit]
    cases hs : memory.sink address with
    | extendedRam cell =>
      have placed := memory.sink_placed address
      rw [hs] at placed
      have other : cell ≠ (place - 0x6000).toNat := by
        rw [← placed.2.2]
        exact fun same => hit ((UInt16.sub_left_inj 0x6000).1 (UInt16.toNat_inj.1 same))
      rw [stored_at_extended hs]
      exact (Array.getElem?_setIfInBounds_ne other).trans h
    | ram | program | handler | nowhere =>
      simp only [stored, hs]
      exact h

end MainMemory

namespace Devices

variable {d : Devices} {address : UInt16} {initial : UInt8}

theorem readHandler_memory (handler : ReadHandler) (d : Devices) :
    (reached (readHandler handler) d).memory = d.memory := by
  cases handler with
  | pictureData =>
    unfold reached readHandler
    dsimp only
    cases d.ppu.readData d.picture d.board <;> rfl
  | pictureStatus | oamData | controller => rfl

theorem read_memory (address : UInt16) (d : Devices) :
    (reached (read address) d).memory = d.memory := by
  cases hs : d.memory.source address with
  | error fault =>
    have stopped : read address d = .error fault d := by simp only [read, hs]
    rw [reached_error stopped]
  | ok source =>
    cases source with
    | value value => rw [reached_ok (read_value hs)]
    | program place =>
      unfold reached
      simp only [read, hs]
      cases d.board.readProgram place <;> rfl
    | handler handler =>
      have served : read address d = readHandler handler d := by simp only [read, hs]
      unfold reached
      rw [served]
      exact readHandler_memory handler d

theorem writeHandler_memory (handler : WriteHandler) (value : UInt8) (d : Devices) :
    (reached (writeHandler handler value) d).memory = d.memory := by
  cases handler with
  | pictureData =>
    show (reached (writePictureData value) d).memory = d.memory
    unfold reached writePictureData
    dsimp only
    cases d.picture.write d.board d.ppu.address value <;> rfl
  | transfer =>
    show (reached (startTransfer value) d).memory = d.memory
    unfold reached startTransfer
    dsimp only
    split <;> rename_i hp <;> split at hp <;> cases hp <;> rfl
  | pictureControl | pictureMask | oamAddress | oamData | pictureScroll | pictureAddress
  | strobe => rfl

theorem write_memory (address : UInt16) (value : UInt8) (d : Devices) :
    (reached (write address value) d).memory = d.memory.stored address value := by
  unfold MainMemory.stored
  cases hs : d.memory.sink address with
  | handler handler =>
    unfold reached
    rw [write_served hs]
    exact writeHandler_memory handler value d
  | extendedRam cell =>
    unfold reached
    simp only [write, hs, modifyMemory]
    cases d.memory.storeExtended cell value <;> rfl
  | ram cell =>
    unfold reached
    simp only [write, hs]
    rfl
  | program | nowhere =>
    unfold reached
    simp only [write, hs]

/-! ## Runs of accesses -/

/-- Behind accesses, which come oldest first. -/
def afterAll (d : Devices) (accesses : List BusAccess) : Devices :=
  accesses.foldl (fun d access => access.leaves d) d

/-- A read leaves main memory alone. -/
theorem leaves_memory (access : BusAccess) (d : Devices) :
    (access.leaves d).memory = match access with
      | .read _ => d.memory
      | .write address value => d.memory.stored address value := by
  cases access with
  | read address => exact read_memory address d
  | write address value => exact write_memory address value d

theorem leaves_wiring (access : BusAccess) (d : Devices) :
    (access.leaves d).memory.bindings = d.memory.bindings ∧
      (access.leaves d).memory.hasExtendedRam = d.memory.hasExtendedRam := by
  rw [leaves_memory]
  cases access with
  | read address => exact ⟨rfl, rfl⟩
  | write address value => exact d.memory.stored_wiring address value

theorem afterAll_wiring (d : Devices) (accesses : List BusAccess) :
    (d.afterAll accesses).memory.bindings = d.memory.bindings ∧
      (d.afterAll accesses).memory.hasExtendedRam = d.memory.hasExtendedRam := by
  induction accesses generalizing d with
  | nil => exact ⟨rfl, rfl⟩
  | cons access rest ih =>
    obtain ⟨bindings, mapped⟩ := ih (access.leaves d)
    obtain ⟨first, second⟩ := leaves_wiring access d
    exact ⟨bindings.trans first, mapped.trans second⟩

/-- A cell that every write treats as its own holds what was last written to it. -/
theorem afterAll_cell (cell : MainMemory → Option UInt8) (here : UInt16 → Bool) {mapped : Bool}
    (step : ∀ (memory : MainMemory) (address : UInt16) (value initial : UInt8),
      memory.hasExtendedRam = mapped → cell memory = some initial →
        cell (memory.stored address value) = some (if here address then value else initial))
    (hm : d.memory.hasExtendedRam = mapped) (start : cell d.memory = some initial)
    (accesses : List BusAccess) :
    cell (d.afterAll accesses).memory = some ((lastWritten? here accesses).getD initial) := by
  induction accesses generalizing d initial with
  | nil => exact start
  | cons access rest ih =>
    have next : cell (access.leaves d).memory = some ((access.written? here).getD initial) := by
      rw [leaves_memory]
      cases access with
      | read address => exact start
      | write address value =>
        show cell (d.memory.stored address value) = _
        rw [step d.memory address value initial hm start, BusAccess.written?]
        split <;> rfl
    rw [lastWritten?_cons]
    exact ih ((leaves_wiring access d).2.trans hm) next

/-- What is read behind accesses to some devices. -/
structure Retains (d : Devices) (accesses : List BusAccess) (after : Devices) : Prop where
  aliases : ∀ a b, Aliases a b → read a after = read b after ∧
    ∀ value, write a value after = write b value after
  ram : ∀ a < 0x2000, read a after =
    .ok ((lastWritten? (fun b => b < 0x2000 ∧ b % 0x800 = a % 0x800) accesses).getD
      (d.memory.ram.get (MainMemory.ramCell a))) after
  extendedRam : d.memory.hasExtendedRam = true → ∀ a, 0x6000 ≤ a → a < 0x8000 →
    ∃ initial, d.memory.extendedRam[(a - 0x6000).toNat]? = some initial ∧
      read a after = .ok ((lastWritten? (fun b => b = a) accesses).getD initial) after
  absent : d.memory.hasExtendedRam = false → ∀ a, 0x6000 ≤ a → a < 0x8000 →
    read a after = .ok 0 after
  between : ∀ a, 0x4000 ≤ a → a < 0x6000 → a ≠ 0x4016 → a ≠ 0x4017 → read a after = .ok 0 after

/-- Whatever is read and written, each cell gives back what was last written to it, at each of its
addresses. Addresses that repeat one another read and write alike; where no memory is, zero is read. -/
theorem address_space_retains (wired : d.memory.bindings = .wired) (sized : d.memory.Sized)
    (accesses : List BusAccess) : Retains d accesses (d.afterAll accesses) where
  aliases a b h := by
    have source := (d.afterAll accesses).memory.source_alias h
    have sink := (d.afterAll accesses).memory.sink_alias h
    exact ⟨by simp only [read, source], fun value => by simp only [write, sink]⟩
  ram a low := by
    have held := afterAll_cell (d := d) (fun memory => some (memory.ram.get (MainMemory.ramCell a)))
      (fun b => b < 0x2000 ∧ b % 0x800 = a % 0x800)
      (fun memory address value initial _ start => by
        rw [memory.stored_ram, Option.some.inj start]
        simp only [decide_eq_true_eq]) rfl rfl accesses
    rw [← Option.some.inj held]
    exact read_value (MainMemory.source_ram _ low)
  extendedRam mapped a low high := by
    have inside : (a - 0x6000).toNat < d.memory.extendedRam.size := by
      rw [sized mapped]
      exact MainMemory.extendedCell_lt low (UInt16.not_le.2 high)
    refine ⟨_, Array.getElem?_eq_getElem inside, ?_⟩
    have start : d.memory.extendedRam[(a - 0x6000).toNat]? =
        some d.memory.extendedRam[(a - 0x6000).toNat] := Array.getElem?_eq_getElem inside
    have held := afterAll_cell (fun memory => memory.extendedRam[(a - 0x6000).toNat]?)
      (fun b => b = a)
      (fun memory address value initial mapped start => by
        simpa only [decide_eq_true_eq] using MainMemory.stored_extended low high mapped value start)
      mapped start accesses
    obtain ⟨inside, held⟩ := Array.getElem?_eq_some_iff.1 held
    have found : (d.afterAll accesses).memory.readExtended a = .ok
        ((lastWritten? (fun b => b = a) accesses).getD d.memory.extendedRam[(a - 0x6000).toNat]) := by
      unfold MainMemory.readExtended
      rw [if_pos ((d.afterAll_wiring accesses).2.trans mapped), dif_pos inside, held]
    refine read_value ?_
    rw [MainMemory.source_extended _ low high, found]
    rfl
  absent absent a low high := by
    have absent : (d.afterAll accesses).memory.hasExtendedRam = false :=
      (d.afterAll_wiring accesses).2.trans absent
    refine read_value ?_
    rw [MainMemory.source_extended _ low high, MainMemory.readExtended, absent]
    rfl
  between a low high first second :=
    read_value (MainMemory.source_between ((d.afterAll_wiring accesses).1.trans wired) low high first
      second)

/-- Writes to two repetitions of a cell of RAM, with others between and behind them. -/
def scribbles : List BusAccess :=
  [.write 0x0802 0x55, .write 0x6000 0x42, .write 0x2007 0x66, .write 0x1002 0x77, .read 0x4016,
    .write 0x8002 0x01, .write 0x7FFF 0x02, .write 0x4014 0x60]

theorem scribbles_retained : unused.memory.bindings = .wired ∧ unused.memory.Sized ∧
    read 0x0002 (unused.afterAll scribbles) = .ok 0x77 (unused.afterAll scribbles) ∧
    read 0x6000 (unused.afterAll scribbles) = .ok 0x42 (unused.afterAll scribbles) := by
  have sized : unused.memory.Sized := fun _ => Array.size_replicate
  have retained := address_space_retains rfl sized scribbles
  obtain ⟨initial, -, extended⟩ := retained.extendedRam rfl 0x6000 (by decide) (by decide)
  exact ⟨rfl, sized, retained.ram 0x0002 (by decide), extended⟩

end Devices

end Famicom
