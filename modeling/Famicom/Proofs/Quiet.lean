import Famicom.Proofs.Ppu.Programmed
import Famicom.Proofs.Screens

/-!
# Cycles without an interrupt

While the frame interrupt is disabled a cycle is three dots, which the processor does not notice, and
a cycle of the processor.
-/

namespace Famicom.Machine

/-- The frame interrupt is disabled, and none waits. -/
structure Quiet (m : Machine) : Prop where
  disabled : m.bus.ppu.control.interruptEnabled = false
  calm : m.bus.ppu.interruptPending = false

/-- From one machine to the other only the beam has moved on. -/
structure Drifts (m n : Machine) : Prop where
  cpu : n.cpu = m.cpu
  bus : n.bus = { m.bus with ppu := n.bus.ppu }
  programmed : n.bus.ppu.programmed = m.bus.ppu.programmed
  quiet : n.Quiet

variable {m n k : Machine} {value : Unit}

theorem Drifts.refl (h : m.Quiet) : m.Drifts m := ⟨rfl, rfl, rfl, h⟩

theorem Drifts.trans (hm : m.Drifts n) (hn : n.Drifts k) : m.Drifts k where
  cpu := hn.cpu.trans hm.cpu
  bus := by rw [hn.bus, hm.bus]
  programmed := hn.programmed.trans hm.programmed
  quiet := hn.quiet

theorem dot_drifts (h : m.Quiet) (hd : dot m = .ok value n) : m.Drifts n := by
  obtain ⟨trace, heq⟩ := dot_eq m
  rw [heq] at hd
  split at hd
  · rename_i ppu ht
    cases hd
    obtain ⟨programmed, interrupt⟩ := Ppu.tick_held ht
    have control : ppu.control = m.bus.ppu.control := congrArg Ppu.Programmed.control programmed
    have silent : m.bus.ppu.raisesInterrupt = false := by
      rw [Ppu.raisesInterrupt, h.disabled, Bool.and_false]
    rw [h.calm, silent] at interrupt
    exact ⟨rfl, rfl, programmed, control ▸ h.disabled, interrupt⟩
  · cases hd

theorem dots_drift (h : m.Quiet) {dots : Nat} (hd : repeated dot dots m = .ok value n) :
    m.Drifts n := by
  induction dots generalizing m with
  | zero =>
    cases hd
    exact .refl h
  | succ dots ih =>
    obtain ⟨_, next, hdot, hd⟩ := of_bind_ok hd
    have first := dot_drifts h hdot
    exact first.trans (ih first.quiet hd)

theorem takeInterrupt_calm (h : m.bus.ppu.interruptPending = false) :
    takeInterrupt m = .ok false m := by
  obtain ⟨cpu, ⟨memory, picture, board, ppu, pads, requested⟩, trace⟩ := m
  cases ppu
  cases h
  rfl

theorem tick_quiet (h : m.Quiet) (ht : tick m = .ok value n) :
    ∃ k, m.Drifts k ∧ Cpu.cycle k = .ok value n := by
  obtain ⟨_, next, hdots, ht⟩ := of_bind_ok ht
  have drifts := dots_drift h hdots
  rw [bind_ok (takeInterrupt_calm drifts.quiet.calm)] at ht
  exact ⟨next, drifts, ht⟩

/-- A cycle of a sound machine only needs room for its dots. -/
theorem tick_ok {cartridge : Cartridge} (sound : cartridge.Sound) (h : m.Sound cartridge)
    (room : 3 * m.cpu.cycles.toNat + 3 < UInt64.size) :
    ∃ n, tick m = .ok () n ∧ n.Sound cartridge ∧
      n.cpu.cycles.toNat = m.cpu.cycles.toNat + 1 := by
  have alike := tick_coupled anyScreens_shown Devices.eq_padsAlike sound _ m m h.level
  generalize tick m = r at alike
  cases alike with
  | ok hl => exact ⟨_, rfl, hl.sound, hl.cycles⟩
  | error hf => exact absurd room (Nat.not_lt.2 hf.reached)

end Famicom.Machine
