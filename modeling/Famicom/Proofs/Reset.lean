import Famicom.Proofs.Configured
import Famicom.Proofs.Rollback

/-!
# Reset

A reset takes the processor and the picture unit back to power-on and leaves everything else as it is.
The vector is read through the board, so the program starts where it started at first only because
every board keeps the same bank at the vector, whatever bank was selected since.
-/

namespace Famicom

variable {cartridge : Cartridge}

/-- The selected bank does not show from $C000 on. -/
theorem Board.readProgram_fixed {board other : Board} (h : board.Fits cartridge)
    (ho : other.Fits cartridge) {address : UInt16} (high : 0xC000 ≤ address) :
    board.readProgram address = other.readProgram address := by
  have kind := h.circuit.sameKind ho.circuit
  obtain ⟨_, circuit⟩ := board
  obtain ⟨_, circuit'⟩ := other
  obtain ⟨rfl, hc⟩ := h
  obtain ⟨rfl, hc'⟩ := ho
  cases circuit with
  | nrom state =>
    cases circuit' with
    | nrom state' => simp only [readProgram, hc.2.1, hc'.2.1]
    | uxrom | cnrom => exact kind.elim
  | uxrom state =>
    cases circuit' with
    | uxrom state' =>
      simp only [readProgram, if_neg (UInt16.not_lt.2 high), hc.2.1, hc'.2.1]
    | nrom | cnrom => exact kind.elim
  | cnrom state =>
    cases circuit' with
    | cnrom state' => simp only [readProgram, hc.2, hc'.2]
    | nrom | uxrom => exact kind.elim

namespace Machine

/-- The machine with its processor and its picture unit at power-on, about to run from a place. -/
def restart (m : Machine) (start : UInt16) : Machine :=
  { m with
    cpu := { Cpu.powerOn with pc := start }
    bus.ppu := m.bus.ppu.reset }

theorem reset_eq {m : Machine} {low high : UInt8}
    (hl : m.bus.board.readProgram Cpu.resetVector = .ok low)
    (hh : m.bus.board.readProgram (Cpu.resetVector + 1) = .ok high) :
    (do Cpu.reset; Console.resetPpu : Action Unit) m = .ok () (m.restart (Cpu.word low high)) := by
  obtain ⟨cpu, bus, trace⟩ := m
  have first : Cpu.Bus.read Cpu.resetVector bus = .ok low bus :=
    Devices.read_program (by decide) hl
  have second : Cpu.Bus.read (Cpu.resetVector + 1) bus = .ok high bus :=
    Devices.read_program (by decide) hh
  exact bind_ok (Cpu.reset_ok first second)

/-- All machines of a cartridge start at the same place. -/
theorem reset_restarts (sound : cartridge.Sound) {board : Board} (hb : board.Fits cartridge) :
    ∃ start, ∀ m : Machine, m.bus.board.Fits cartridge →
      (do Cpu.reset; Console.resetPpu : Action Unit) m = .ok () (m.restart start) := by
  obtain ⟨low, hl⟩ := Board.readProgram_ok sound hb Cpu.resetVector
  obtain ⟨high, hh⟩ := Board.readProgram_ok sound hb (Cpu.resetVector + 1)
  refine ⟨Cpu.word low high, fun m hm => ?_⟩
  apply reset_eq
  · rw [Board.readProgram_fixed hm hb (by decide), hl]
  · rw [Board.readProgram_fixed hm hb (by decide), hh]

end Machine

namespace Console

variable {c : Console}

/-- What a reset makes of a console, next to a fresh one of its cartridge. -/
structure Restarted (fresh c after : Console) : Prop where
  cpu : after.machine.cpu = fresh.machine.cpu
  /-- The picture unit keeps what it holds of sprites and what it shows. -/
  ppu : after.machine.bus.ppu = { fresh.machine.bus.ppu with
    variant := c.variant
    screen := c.screen
    oam := c.machine.bus.ppu.oam }
  /-- Memories, board, controllers, trace and backup are kept whole. -/
  kept : after = { c with
    machine.cpu := after.machine.cpu
    machine.bus.ppu := after.machine.bus.ppu }
  cpuBytes : Cpu.layout.encode after.machine.cpu = Cpu.layout.encode fresh.machine.cpu
  ppuBytes : Ppu.layout.encode after.machine.bus.ppu =
    Ppu.layout.encode { fresh.machine.bus.ppu with oam := c.machine.bus.ppu.oam }
  again : reset after = .ok () after

/-- Whatever a host did, a reset is answered, and takes the console back to where it was powered on:
processor and picture unit are those of a fresh console, but for sprite memory and the screen. All
else is kept, and another reset changes nothing more. -/
theorem reset_powers_on {raw : ByteArray} (himage : Cartridge.ofImage raw = .ok cartridge)
    (h : Reachable cartridge c) (variant : Ppu.Variant) :
    ∃ fresh after, insert cartridge variant = .ok fresh ∧ reset c = .ok () after ∧
      Restarted fresh c after := by
  have sound := Cartridge.ofImage_sound himage
  have fits := (h.sound sound).machine.devices.board
  obtain ⟨board, hboard, -⟩ := fits.wiring_eq
  have hfresh := Board.ofCartridge?_fits hboard
  -- one start for the fresh machine and for this one, whatever its board selected since
  obtain ⟨start, starts⟩ := Machine.reset_restarts sound hfresh
  have inserted := insert_eq hboard (starts (Machine.assemble board variant) hfresh)
  have reset : reset c = .ok () { c with machine := c.machine.restart start } :=
    onMachine_eq (starts c.machine fits)
  refine ⟨_, _, inserted, reset, ?_⟩
  constructor
  case cpu => rfl
  case ppu => rfl
  case kept => rfl
  case cpuBytes => rfl
  case ppuBytes => rfl
  case again => exact onMachine_eq (starts (c.machine.restart start) fits)

/-- A console that ran a frame on a copy of its state. -/
theorem polling_restarts : ∃ c d fresh after, insert Image.polling .full = .ok c ∧
    feed .frame c.backUp = .ok () d ∧ insert Image.polling .light = .ok fresh ∧
    reset d = .ok () after ∧ Restarted fresh d after := by
  obtain ⟨c, hc, polls, -⟩ := insert_polls
  obtain ⟨d, hd, -⟩ := polls.backUp.frame
  have reachable : Reachable Image.polling d := .feed .frame (.backUp (.insert hc)) hd
  obtain ⟨fresh, after, hfresh, hafter, restarted⟩ :=
    reset_powers_on Image.ofImage_pollingImage reachable .light
  exact ⟨c, d, fresh, after, hc, hd, hfresh, hafter, restarted⟩

end Console

end Famicom
