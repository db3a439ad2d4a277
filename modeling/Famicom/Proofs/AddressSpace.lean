import Famicom.Proofs.Cpu.Moves
import Famicom.Proofs.Devices
import Famicom.Proofs.Image

/-!
# The address space of the processor

Who answers at which address. Reads change nothing but at four registers and their repetitions. RAM
repeats, and RAM at $6000 does not; a cell of either gives back what was written to it last, whatever
else the processor reads and writes.
-/

namespace Famicom

/-- The register of the picture unit at $2000-$2007, or one of its repetitions up to $4000. -/
def Repeats (register address : UInt16) : Prop :=
  0x2000 ≤ address ∧ address < 0x4000 ∧ address % 8 = register % 8

/-- Addresses that name the same cell of RAM or the same register of the picture unit. -/
inductive Aliases (a b : UInt16) : Prop
  | ram (ha : a < 0x2000) (hb : b < 0x2000) (same : a % 0x800 = b % 0x800)
  | register (ha : 0x2000 ≤ a ∧ a < 0x4000) (hb : 0x2000 ≤ b ∧ b < 0x4000) (same : a % 8 = b % 8)

/-- The addresses at which a wired console has a handler for reads. -/
inductive Handled : ReadHandler → UInt16 → Prop
  | status {address : UInt16} : Repeats 0x2002 address → Handled .pictureStatus address
  | oam {address : UInt16} : Repeats 0x2004 address → Handled .oamData address
  | data {address : UInt16} : Repeats 0x2007 address → Handled .pictureData address
  | firstPad : Handled (.controller 0) 0x4016
  | secondPad : Handled (.controller 1) 0x4017

/-- The readers of the first eight registers. -/
theorem wired_reader {place : UInt16} (h : place < 8) :
    Bindings.wired.reader? (0x2000 + place) = if place = 2 then some .pictureStatus
      else if place = 4 then some .oamData else if place = 7 then some .pictureData else none := by
  have each : ∀ i : Fin 8, Bindings.wired.reader? (0x2000 + UInt16.ofNat i) =
      if UInt16.ofNat i = 2 then some .pictureStatus
      else if UInt16.ofNat i = 4 then some .oamData
      else if UInt16.ofNat i = 7 then some .pictureData else none := by decide
  have found := each ⟨place.toNat, UInt16.lt_iff_toNat_lt.1 h⟩
  rwa [UInt16.ofNat_toNat] at found

namespace MainMemory

variable {memory : MainMemory} {address a b : UInt16}

/-- RAM at $6000 is complete when there is any, as it is where a cartridge is inserted
(`Fits.size_eq`). -/
def Sized (memory : MainMemory) : Prop :=
  memory.hasExtendedRam = true → memory.extendedRam.size = extendedRamSize

/-- The cell of RAM at an address or at a repetition of it. -/
def ramCell (address : UInt16) : Fin 0x800 := Fin.ofNat 0x800 address.toNat

theorem ramCell_inj : ramCell a = ramCell b ↔ a % 0x800 = b % 0x800 := by
  rw [← UInt16.toNat_inj, ← Fin.val_inj]
  rfl

/-! ## Where a read goes -/

theorem source_ram (memory : MainMemory) (h : address < 0x2000) :
    memory.source address = .ok (.value (memory.ram.get (ramCell address))) :=
  if_pos h

theorem source_register (memory : MainMemory) (low : 0x2000 ≤ address) (high : address < 0x4000) :
    memory.source address =
      .ok (((memory.bindings.reader? (portLocation address)).map .handler).getD (.value 0)) := by
  rw [source, if_neg (by grind), if_neg (by grind), if_pos high]

theorem source_extended (memory : MainMemory) (low : 0x6000 ≤ address) (high : address < 0x8000) :
    memory.source address = (memory.readExtended address).map .value := by
  rw [source, if_neg (by grind), if_neg (by grind), if_neg (by grind),
    if_neg (by simp only [Bool.and_eq_true, decide_eq_true_eq]; grind), if_neg (by grind)]
  cases memory.readExtended address <;> rfl

theorem source_program (memory : MainMemory) (h : 0x8000 ≤ address) :
    memory.source address = .ok (.program address) := by
  rw [source, if_neg (by grind), if_pos h]

/-- Nothing is read between the registers of the picture unit and $6000 but the controllers. -/
theorem source_between (wired : memory.bindings = .wired) (low : 0x4000 ≤ address)
    (high : address < 0x6000) (first : address ≠ 0x4016) (second : address ≠ 0x4017) :
    memory.source address = .ok (.value 0) := by
  rw [source, if_neg (by grind), if_neg (by grind), if_neg (by grind)]
  split
  · rename_i ports
    simp only [Bool.and_eq_true, decide_eq_true_eq] at ports
    obtain rfl | rfl : address = 0x4014 ∨ address = 0x4015 := by grind
    all_goals
      rw [wired]
      rfl
  · rfl

theorem source_handled {handler : ReadHandler} (wired : memory.bindings = .wired)
    (h : Handled handler address) : memory.source address = .ok (.handler handler) := by
  have port : ∀ place : UInt16, place < 8 → Repeats (0x2000 + place) address →
      memory.source address =
        .ok (((Bindings.wired.reader? (0x2000 + place)).map .handler).getD (.value 0)) := by
    intro place small ⟨low, high, same⟩
    have here : address % 8 = place := by grind
    rw [source_register memory low high, portLocation, here, wired]
  cases h with
  | status h => exact port 2 (by decide) h
  | oam h => exact port 4 (by decide) h
  | data h => exact port 7 (by decide) h
  | firstPad =>
    rw [source, wired]
    rfl
  | secondPad =>
    rw [source, wired]
    rfl

/-- A handler answers nowhere else. -/
theorem handled_of_source {handler : ReadHandler} (wired : memory.bindings = .wired)
    (h : memory.source address = .ok (.handler handler)) : Handled handler address := by
  by_cases ram : address < 0x2000
  · rw [source_ram memory ram] at h
    cases h
  by_cases port : address < 0x4000
  · have small : address % 8 < 8 := by grind
    have low : 0x2000 ≤ address := UInt16.not_lt.1 ram
    rw [source_register memory low port, portLocation, wired, wired_reader small] at h
    split at h
    · cases h
      exact .status ⟨low, port, ‹_›⟩
    split at h
    · cases h
      exact .oam ⟨low, port, ‹_›⟩
    split at h
    · cases h
      exact .data ⟨low, port, ‹_›⟩
    · cases h
  by_cases between : address < 0x6000
  · by_cases first : address = 0x4016
    · subst first
      rw [source_handled wired .firstPad] at h
      cases h
      exact .firstPad
    by_cases second : address = 0x4017
    · subst second
      rw [source_handled wired .secondPad] at h
      cases h
      exact .secondPad
    rw [source_between wired (UInt16.not_lt.1 port) between first second] at h
    cases h
  by_cases extended : address < 0x8000
  · rw [source_extended memory (UInt16.not_lt.1 between) extended] at h
    cases value : memory.readExtended address <;> rw [value] at h <;> cases h
  · rw [source_program memory (UInt16.not_lt.1 extended)] at h
    cases h

end MainMemory

theorem Devices.read_program {d : Devices} {address : UInt16} {value : UInt8}
    (high : 0x8000 ≤ address) (h : d.board.readProgram address = .ok value) :
    Devices.read address d = .ok value d := by
  simp only [Devices.read, MainMemory.source_program d.memory high, h]

namespace Ppu

variable {ppu : Ppu} {memory : PictureMemory} {board : Board}

/-- The next address, along a row or down a column; fifteen bits of it are kept. -/
def onwardAddress (ppu : Ppu) : UInt16 :=
  UInt16.ofNat ((ppu.address.toNat + if ppu.control.bits &&& 0x04 = 0 then 1 else 32) % 0x8000)

theorem stepAddress_eq (ppu : Ppu) :
    ppu.stepAddress = { ppu with address := ppu.onwardAddress } := by
  have step : ppu.control.addressStep.toNat = if ppu.control.bits &&& 0x04 = 0 then 1 else 32 := by
    by_cases h : ppu.control.bits &&& 0x04 = 0 <;> simp [Control.addressStep, h]
  have kept : (ppu.address + ppu.control.addressStep) &&& 0x7FFF = ppu.onwardAddress := by
    apply UInt16.toNat_inj.1
    have masked := Nat.and_two_pow_sub_one_eq_mod (ppu.address + ppu.control.addressStep).toNat 15
    rw [UInt16.toNat_and, onwardAddress, UInt16.toNat_ofNat', ← step]
    exact masked.trans (by rw [UInt16.toNat_add]; omega)
  unfold stepAddress
  rw [kept]

/-- Only below the palette does a read answer from the buffer and fill it. -/
theorem readData_eq {byte : UInt8} (h : memory.read board (ppu.address &&& 0x3FFF) = .ok byte) :
    ppu.readData memory board = .ok
      (if ppu.address &&& 0x3FFF < 0x3F00 then ppu.readBuffer else byte, { ppu with
        address := ppu.onwardAddress
        readBuffer := if ppu.address &&& 0x3FFF < 0x3F00 then byte else ppu.readBuffer }) := by
  unfold readData
  dsimp only
  rw [h]
  by_cases low : ppu.address &&& 0x3FFF < 0x3F00
  · refine (if_pos low).trans ?_
    rw [if_pos low, if_pos low, stepAddress_eq]
    rfl
  · refine (if_neg low).trans ?_
    rw [if_neg low, if_neg low, stepAddress_eq]
    rfl

end Ppu

namespace Devices

variable {d : Devices} {address : UInt16}

theorem read_value {value : UInt8} (h : d.memory.source address = .ok (.value value)) :
    read address d = .ok value d := by
  simp only [read, h]

theorem read_handled {handler : ReadHandler} (wired : d.memory.bindings = .wired)
    (h : Handled handler address) : read address d = readHandler handler d := by
  simp only [read, MainMemory.source_handled wired h]

theorem write_served {handler : WriteHandler} (h : d.memory.sink address = .handler handler)
    (value : UInt8) : write address value d = writeHandler handler value d := by
  simp only [write, h]

/-- The register behind an address takes what is written there, whatever else is in memory. -/
theorem write_handled (wired : d.memory.bindings = .wired) (handler : WriteHandler)
    (h : { d.memory with bindings := .wired }.sink address = .handler handler) (value : UInt8) :
    write address value d = writeHandler handler value d := by
  rw [← wired] at h
  exact write_served h value

/-- Where no register answers, a read changes nothing, whether it is answered or not. -/
theorem read_elsewhere (wired : d.memory.bindings = .wired) (status : ¬Repeats 0x2002 address)
    (data : ¬Repeats 0x2007 address) (first : address ≠ 0x4016) (second : address ≠ 0x4017) :
    reached (read address) d = d := by
  unfold reached
  cases hs : d.memory.source address with
  | error fault => simp only [read, hs]
  | ok source =>
    cases source with
    | value value => simp only [read_value hs]
    | program place =>
      simp only [read, hs]
      cases d.board.readProgram place <;> rfl
    | handler handler =>
      have handled := MainMemory.handled_of_source wired hs
      rw [read_handled wired handled]
      cases handled with
      | status h => exact absurd h status
      | oam h => rfl
      | data h => exact absurd h data
      | firstPad => exact absurd rfl first
      | secondPad => exact absurd rfl second

/-- What a read makes of devices, by its address. -/
structure Disturbs (d : Devices) (address : UInt16) (after : Devices) : Prop where
  elsewhere : ¬Repeats 0x2002 address → ¬Repeats 0x2007 address → address ≠ 0x4016 →
    address ≠ 0x4017 → after = d
  status : Repeats 0x2002 address → after = { d with ppu := { d.ppu with
    status := { d.ppu.status with vblank := false }
    firstWrite := true } }
  data : Repeats 0x2007 address →
    ∀ byte, d.picture.read d.board (d.ppu.address &&& 0x3FFF) = .ok byte →
      after = { d with ppu := { d.ppu with
        address := d.ppu.onwardAddress
        readBuffer := if d.ppu.address &&& 0x3FFF < 0x3F00 then byte else d.ppu.readBuffer } }
  /-- Picture memory that is not of the cartridge may have no byte there. -/
  stopped : Repeats 0x2007 address →
    ∀ fault, d.picture.read d.board (d.ppu.address &&& 0x3FFF) = .error fault → after = d
  firstPad : address = 0x4016 → after = { d with pads := { d.pads with first := { d.pads.first with
    shift := if d.pads.first.strobe then d.pads.first.shift else d.pads.first.shift >>> 1 } } }
  secondPad : address = 0x4017 → after = { d with pads := { d.pads with
    second := { d.pads.second with
      shift := if d.pads.second.strobe then d.pads.second.shift else d.pads.second.shift >>> 1 } } }

theorem readData_answers {value : UInt8} {ppu : Ppu}
    (h : d.ppu.readData d.picture d.board = .ok (value, ppu)) :
    readHandler .pictureData d = .ok value { d with ppu := ppu } := by
  simp only [readHandler, h]

theorem readData_stops {fault : Fault}
    (h : d.ppu.readData d.picture d.board = .error fault) :
    readHandler .pictureData d = .error fault d := by
  simp only [readHandler, h]

theorem readPad_effect (pad : Joypad) :
    pad.read.2 = { pad with shift := if pad.strobe then pad.shift else pad.shift >>> 1 } := by
  unfold Joypad.read
  split <;> rfl

/-- Reads have no effects but those of the registers that answer them: the status ends the vertical
blank and starts a new pair of writes, the data port steps its address and fills its buffer, and a
controller shifts on. All other addresses leave the devices as they are. -/
theorem reads_disturb (wired : d.memory.bindings = .wired) (address : UInt16) :
    Disturbs d address (reached (read address) d) where
  elsewhere := read_elsewhere wired
  status h := reached_ok ((read_handled wired (.status h)).trans rfl)
  data h byte found := by
    exact reached_ok
      ((read_handled wired (.data h)).trans (readData_answers (Ppu.readData_eq found)))
  stopped h fault missing := by
    have unanswered : d.ppu.readData d.picture d.board = .error fault := by
      unfold Ppu.readData
      dsimp only
      rw [missing]
      rfl
    exact reached_error ((read_handled wired (.data h)).trans (readData_stops unanswered))
  firstPad h := by
    subst h
    rw [← readPad_effect]
    exact reached_ok ((read_handled wired .firstPad).trans rfl)
  secondPad h := by
    subst h
    rw [← readPad_effect]
    exact reached_ok ((read_handled wired .secondPad).trans rfl)

/-- Devices with RAM at $6000 to which nothing was done. -/
def unused : Devices where
  memory := { MainMemory.fresh with
    hasExtendedRam := true
    extendedRam := Array.replicate 0x2000 0
    bindings := .wired }
  picture := .fresh
  board := ⟨Image.polling, .nrom ⟨true, true, Array.replicate 0x2000 0⟩⟩
  ppu := .powerOn .full
  pads := {}
  transferRequested := false

/-- In the middle of a pair of writes, a repetition of the status register starts a new pair; one of
the scroll register does not. -/
theorem half_written_reads :
    let half : Devices := { unused with ppu := { unused.ppu with firstWrite := false } }
    half.memory.bindings = .wired ∧ reached (read 0x3FFA) half = unused ∧
      reached (read 0x3FFD) half = half :=
  ⟨rfl, (reads_disturb rfl 0x3FFA).status ⟨by decide, by decide, by decide⟩,
    (reads_disturb rfl 0x3FFD).elsewhere (fun h => absurd h.2.2 (by decide))
      (fun h => absurd h.2.2 (by decide)) (by decide) (by decide)⟩

end Devices

end Famicom
