import Famicom.Proofs.AddressSpace
import Famicom.Proofs.Cpu.Step
import Famicom.Proofs.Machine

/-!
# Entering the handler of the frame interrupt

What the interrupt that waits does to a machine: the program counter and the status go on the stack
and the program goes on where the vector says, with interrupts masked. Runs of cycles count how often
that happens.
-/

namespace Famicom.Machine

/-- The cell of RAM below the stack pointer. -/
def stackCell (sp : UInt8) : Fin 0x800 :=
  ⟨0x100 + sp.toNat, by
    have := sp.toNat_lt
    omega⟩

/-- The handler of the frame interrupt was entered. Three bytes were saved, bit 5 of the status with
them, and nothing else was written. -/
structure Enters (m n : Machine) : Prop where
  cpu : ∃ low high, m.bus.board.readProgram 0xFFFA = .ok low ∧
    m.bus.board.readProgram 0xFFFB = .ok high ∧
    n.cpu = { m.cpu with
      pc := high.toUInt16 * 0x100 + low.toUInt16
      sp := m.cpu.sp - 3
      status := { m.cpu.status with interruptDisable := true }
      pending := m.cpu.pending + 7 }
  bus : n.bus = { m.bus with
    memory := ((m.bus.memory.storeRam (stackCell m.cpu.sp) (m.cpu.pc >>> 8).toUInt8).storeRam
      (stackCell (m.cpu.sp - 1)) m.cpu.pc.toUInt8).storeRam
        (stackCell (m.cpu.sp - 2)) (m.cpu.status.toByte ||| 0x20)
    ppu := { m.bus.ppu with interruptPending := false } }

/-- Serves the interrupt that waits. -/
def serve : Action Unit := do
  if ← takeInterrupt then
    Cpu.interrupt .nmi

theorem behindDots_eq : behindDots = (do serve; Cpu.cycle) := by
  unfold behindDots serve
  rw [bind_assoc]
  congr 1
  funext pending
  cases pending <;> rfl

/-- A machine ran so many cycles, and entered the handler so many times on the way: in the cycles
whose dots left an interrupt that waited, and in no others. -/
inductive Entered (m : Machine) : Nat → Nat → Machine → Prop
  | start : Entered m 0 0 m
  | quiet {cycles entries : Nat} {k found n : Machine} : Entered m cycles entries k →
      repeated dot 3 k = .ok () found → found.bus.ppu.interruptPending = false →
      Cpu.cycle found = .ok () n → Entered m (cycles + 1) entries n
  | served {cycles entries : Nat} {k found left n : Machine} : Entered m cycles entries k →
      repeated dot 3 k = .ok () found → found.bus.ppu.interruptPending = true →
      serve found = .ok () left → Enters found left →
      Cpu.cycle left = .ok () n → Entered m (cycles + 1) (entries + 1) n

variable {m n k found : Machine} {cycles entries : Nat}

/-! ## One entry -/

theorem push_stores (value : UInt8) (m : Machine) : Cpu.push value m = .ok ()
    ⟨{ m.cpu with sp := m.cpu.sp - 1 },
      { m.bus with memory := m.bus.memory.storeRam (stackCell m.cpu.sp) value }, m.trace⟩ := by
  have place : m.bus.memory.sink (Cpu.stackStart + m.cpu.sp.toUInt16) =
      .ram (stackCell m.cpu.sp) := by
    have small := m.cpu.sp.toNat_lt
    have base : Cpu.stackStart.toNat = 0x100 := rfl
    have end_ : (0x2000 : UInt16).toNat = 0x2000 := rfl
    have sum : (Cpu.stackStart + m.cpu.sp.toUInt16).toNat = 0x100 + m.cpu.sp.toNat := by
      rw [UInt16.toNat_add, UInt8.toNat_toUInt16, base]
      omega
    have low : Cpu.stackStart + m.cpu.sp.toUInt16 < 0x2000 := by
      rw [UInt16.lt_iff_toNat_lt, sum, end_]
      omega
    refine (if_pos low).trans (congrArg Sink.ram (Fin.ext ?_))
    show (Cpu.stackStart + m.cpu.sp.toUInt16).toNat % 0x800 = 0x100 + m.cpu.sp.toNat
    rw [sum]
    omega
  have stored : Devices.write (Cpu.stackStart + m.cpu.sp.toUInt16) value m.bus =
      .ok () { m.bus with memory := m.bus.memory.storeRam (stackCell m.cpu.sp) value } := by
    simp only [Devices.write, place, Devices.modifyMemory]
  simp only [Cpu.push, Cpu.write, Cpu.onBus, Cpu.getCpu, Cpu.Bus.write, bind, EStateM.bind, stored,
    Cpu.modifyCpu]

/-- The program memory is read where it is and stays as it was. -/
theorem of_readProgram_ok {address : UInt16} {value : UInt8} {d e : Devices}
    (high : 0x8000 ≤ address) (h : Devices.read address d = .ok value e) :
    d.board.readProgram address = .ok value ∧ e = d := by
  simp only [Devices.read, MainMemory.source_program d.memory high] at h
  split at h <;> cases h
  exact ⟨‹_›, rfl⟩

theorem of_readWord_ok {address value : UInt16} (first : 0x8000 ≤ address)
    (second : 0x8000 ≤ address + 1) (h : Cpu.readWord address m = .ok value n) :
    n = m ∧ ∃ low high, m.bus.board.readProgram address = .ok low ∧
      m.bus.board.readProgram (address + 1) = .ok high ∧
      value = high.toUInt16 * 0x100 + low.toUInt16 := by
  obtain ⟨low, _, found, h⟩ := of_bind_ok h
  obtain ⟨_, read, rfl⟩ := Cpu.of_read_ok found
  obtain ⟨hl, rfl⟩ := of_readProgram_ok first read
  obtain ⟨high, _, found, h⟩ := of_bind_ok h
  obtain ⟨_, read, rfl⟩ := Cpu.of_read_ok found
  obtain ⟨hh, rfl⟩ := of_readProgram_ok second read
  cases h
  exact ⟨rfl, low, high, hl, hh, rfl⟩

theorem of_enter_ok (h : Cpu.enter .nmi m = .ok () n) :
    ∃ low high, m.bus.board.readProgram 0xFFFA = .ok low ∧
      m.bus.board.readProgram 0xFFFB = .ok high ∧
      n.cpu = { m.cpu with
        pc := high.toUInt16 * 0x100 + low.toUInt16
        sp := m.cpu.sp - 1 - 1 - 1
        status := { m.cpu.status with interruptDisable := true } } ∧
      n.bus = { m.bus with
        memory := ((m.bus.memory.storeRam (stackCell m.cpu.sp) (m.cpu.pc >>> 8).toUInt8).storeRam
          (stackCell (m.cpu.sp - 1)) m.cpu.pc.toUInt8).storeRam
            (stackCell (m.cpu.sp - 1 - 1)) (m.cpu.status.toByte ||| 0x20) } := by
  obtain ⟨_, _, hg, h⟩ := of_bind_ok h
  cases hg
  obtain ⟨_, _, pushed, h⟩ := of_bind_ok h
  obtain ⟨_, _, first, second⟩ := of_bind_ok pushed
  cases (push_stores _ _).symm.trans first
  cases (push_stores _ _).symm.trans second
  obtain ⟨_, _, hg, h⟩ := of_bind_ok h
  cases hg
  obtain ⟨_, _, third, h⟩ := of_bind_ok h
  cases (push_stores _ _).symm.trans third
  obtain ⟨_, _, masked, h⟩ := of_bind_ok h
  cases masked
  obtain ⟨_, _, vector, h⟩ := of_bind_ok h
  obtain ⟨rfl, low, high, hl, hh, rfl⟩ := of_readWord_ok (by decide) (by decide) vector
  cases h
  exact ⟨low, high, hl, hh, rfl, rfl⟩

/-- An interrupt that waits is served by entering its handler. -/
theorem serve_enters (waits : m.bus.ppu.interruptPending = true) (h : serve m = .ok () n) :
    Enters m n := by
  obtain ⟨pending, calm, took, h⟩ := of_bind_ok h
  cases took
  rw [if_pos waits] at h
  have unmasked (disabled : Bool) : ¬(Interrupt.nmi = .irq ∧ disabled = true) :=
    fun masked => nomatch masked.1
  obtain ⟨trace, done, pending, entered, owed, rfl⟩ := Cpu.of_interrupt_ok (unmasked _) h
  obtain ⟨low, high, hl, hh, cpu, bus⟩ := of_enter_ok entered
  have second : m.cpu.sp - 1 - 1 = m.cpu.sp - 2 := by grind
  have third : m.cpu.sp - 1 - 1 - 1 = m.cpu.sp - 3 := by grind
  have total : pending = m.cpu.pending + 7 := by
    have bound := pending.toNat_lt
    have seven : (7 : UInt32).toNat = 7 := rfl
    rw [cpu] at owed
    rw [← UInt32.toNat_inj, UInt32.toNat_add, seven, owed]
    exact (Nat.mod_eq_of_lt (owed ▸ bound)).symm
  refine ⟨⟨low, high, hl, hh, ?_⟩, ?_⟩
  · rw [total, ← third]
    exact congrArg (fun cpu : Cpu => { cpu with pending := m.cpu.pending + 7 }) cpu
  · rw [← second]
    exact bus

/-- Where none waits, nothing is served. -/
theorem serve_calm (calm : m.bus.ppu.interruptPending = false) : serve m = .ok () m := by
  obtain ⟨cpu, ⟨memory, picture, board, ppu, pads, requested⟩, trace⟩ := m
  have took : takeInterrupt ⟨cpu, ⟨memory, picture, board, ppu, pads, requested⟩, trace⟩ =
      .ok false ⟨cpu, ⟨memory, picture, board, ppu, pads, requested⟩, trace⟩ := by
    obtain ⟨_, _, _, _, _, _, _, _, _, _, _, _, _, _, _, _, _, pending, _⟩ := ppu
    cases calm
    rfl
  exact (bind_ok took).trans rfl

/-! ## Runs of cycles -/

/-- The next cycle of a run. -/
theorem Entered.next (h : Entered m cycles entries k) (dots : repeated dot 3 k = .ok () found)
    (behind : behindDots found = .ok () n) :
    Entered m (cycles + 1) (entries + found.bus.ppu.interruptPending.toNat) n := by
  rw [behindDots_eq] at behind
  obtain ⟨_, left, serves, runs⟩ := of_bind_ok behind
  cases waits : found.bus.ppu.interruptPending with
  | false =>
    cases (serve_calm waits).symm.trans serves
    exact h.quiet dots waits runs
  | true => exact h.served dots waits serves (serve_enters waits serves) runs

end Famicom.Machine
