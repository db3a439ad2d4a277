import Famicom.Cpu.Execute
import Famicom.Proofs.Coupling

/-!
# One instruction at a time

What a cycle comes to when its instruction is known: the opcode and its operand are read, the
operation is performed, and its cycles are owed. Read backwards, what must have happened in a cycle
that answers.
-/

namespace Famicom.Cpu

variable {β : Type} [Bus β] {cpu after : Cpu} {bus bus₁ bus₂ bus₃ : β} {trace trace' : Trace}

/-! ## Operands -/

theorem locate_absolute {low high : UInt8} (hl : Bus.read cpu.pc bus = .ok low bus₁)
    (hh : Bus.read (cpu.pc + 1) bus₁ = .ok high bus₂) :
    locate .absolute ⟨cpu, bus, trace⟩ = .ok ⟨word low high, false⟩ ⟨cpu, bus₂, trace⟩ := by
  simp only [locate, readWord, read, onBus, getCpu, bind, EStateM.bind, pure, EStateM.pure, hl, hh]

theorem locate_zeroPage {low : UInt8} (hl : Bus.read cpu.pc bus = .ok low bus₁) :
    locate .zeroPage ⟨cpu, bus, trace⟩ = .ok ⟨low.toUInt16, false⟩ ⟨cpu, bus₁, trace⟩ := by
  simp only [locate, read, onBus, getCpu, bind, EStateM.bind, pure, EStateM.pure, hl]

/-! ## Operations -/

theorem consume_ok {mode : Mode} {operand : Operand} {value : UInt8} (f : Cpu → UInt8 → Cpu)
    (hl : locate mode ⟨cpu, bus, trace⟩ = .ok operand ⟨cpu, bus₁, trace⟩)
    (hr : Bus.read operand.address bus₁ = .ok value bus₂) :
    consume mode f ⟨cpu, bus, trace⟩ =
      .ok (.next (charge operand.crossed)) ⟨f cpu value, bus₂, trace⟩ := by
  simp only [consume, readOperand, read, onBus, modifyCpu, bind, EStateM.bind, pure, EStateM.pure,
    hl, hr]

theorem perform_load {mode : Mode} {operand : Operand} {value : UInt8} (r : Register)
    (hl : locate mode ⟨cpu, bus, trace⟩ = .ok operand ⟨cpu, bus₁, trace⟩)
    (hr : Bus.read operand.address bus₁ = .ok value bus₂) :
    perform mode (.load r) ⟨cpu, bus, trace⟩ =
      .ok (.next (charge operand.crossed)) ⟨cpu.setRegister value r, bus₂, trace⟩ :=
  consume_ok (fun cpu value => cpu.setRegister value r) hl hr

theorem perform_store {mode : Mode} {operand : Operand} (r : Register)
    (hl : locate mode ⟨cpu, bus, trace⟩ = .ok operand ⟨cpu, bus₁, trace⟩)
    (hw : Bus.write operand.address (cpu.register r) bus₁ = .ok () bus₂) :
    perform mode (.store r) ⟨cpu, bus, trace⟩ = .ok (.next 0) ⟨cpu, bus₂, trace⟩ := by
  simp only [perform, store, write, onBus, getCpu, bind, EStateM.bind, pure, EStateM.pure, hl, hw]

theorem perform_jmp {mode : Mode} {operand : Operand}
    (hl : locate mode ⟨cpu, bus, trace⟩ = .ok operand ⟨cpu, bus₁, trace⟩) :
    perform mode .jmp ⟨cpu, bus, trace⟩ =
      .ok (.jumped 0) ⟨{ cpu with pc := operand.address }, bus₁, trace⟩ := by
  simp only [perform, jump, modifyCpu, bind, EStateM.bind, pure, EStateM.pure, hl]

/-! ## Cycles -/

/-- A processor whose instruction has ended. -/
def Ending.settle (ending : Ending) (opcode : Opcode) (cpu : Cpu) : Cpu :=
  match ending with
  | .next extra => { cpu with
      pc := cpu.pc + (opcode.size - 1).toUInt16
      pending := cpu.pending + (opcode.cycles + extra) }
  | .jumped extra => { cpu with pending := cpu.pending + (opcode.cycles + extra) }

def Ending.cost (ending : Ending) (opcode : Opcode) : UInt32 :=
  match ending with
  | .next extra => opcode.cycles + extra
  | .jumped extra => opcode.cycles + extra

theorem Ending.settle_cycles (ending : Ending) (opcode : Opcode) (cpu : Cpu) :
    (ending.settle opcode cpu).cycles = cpu.cycles := by
  cases ending <;> rfl

/-- An instruction that starts no sprite transfer. -/
theorem step_ok {code : UInt8} {opcode : Opcode} {ending : Ending}
    (hread : Bus.read cpu.pc bus = .ok code bus₁) (hdecode : decode? code = some opcode)
    (hperform : perform opcode.mode opcode.operation
      ⟨{ cpu with pc := cpu.pc + 1 }, bus₁, trace.push (.instruction cpu opcode)⟩ =
        .ok ending ⟨after, bus₂, trace'⟩)
    (hroom : after.pending.toNat + (ending.cost opcode).toNat < UInt32.size)
    (htransfer : Bus.takeTransfer bus₂ = (false, bus₃)) :
    step ⟨cpu, bus, trace⟩ = .ok () ⟨ending.settle opcode after, bus₃, trace'⟩ := by
  have owed : ∀ cycles : UInt32, after.pending.toNat + cycles.toNat < UInt32.size →
      addCount32 after.pending cycles = .ok (after.pending + cycles) := fun _ h => if_pos h
  cases ending with
  | next extra =>
    have hsum := owed (opcode.cycles + extra) hroom
    simp only [step, read, onBus, getCpu, bind, EStateM.bind, hread, hdecode, note, advance,
      modifyCpu, hperform, owe, tryCpu, Except.bind, hsum, takeTransfer, htransfer, id,
      Bool.false_eq_true, if_false, pure, Except.pure, EStateM.pure, Ending.settle]
  | jumped extra =>
    have hsum := owed (opcode.cycles + extra) hroom
    simp only [step, read, onBus, getCpu, bind, EStateM.bind, hread, hdecode, note, advance,
      modifyCpu, hperform, owe, tryCpu, Except.bind, hsum, takeTransfer, htransfer, id,
      Bool.false_eq_true, if_false, pure, Except.pure, EStateM.pure, Ending.settle]

theorem cycle_waits (hc : cpu.cycles.toNat + 1 < UInt64.size) (hp : 1 < cpu.pending) :
    cycle ⟨cpu, bus, trace⟩ = .ok ()
      ⟨{ cpu with cycles := cpu.cycles + 1, pending := cpu.pending - 1 }, bus, trace⟩ := by
  have hsum : addCount64 cpu.cycles 1 = .ok (cpu.cycles + 1) := if_pos hc
  simp only [cycle, tryCpu, bind, EStateM.bind, Except.bind, hsum, pure, Except.pure, getCpu,
    modifyCpu, hp, if_true]

theorem cycle_steps (hc : cpu.cycles.toNat + 1 < UInt64.size) (hp : cpu.pending ≤ 1) :
    cycle ⟨cpu, bus, trace⟩ =
      step ⟨{ cpu with cycles := cpu.cycles + 1, pending := 0 }, bus, trace⟩ := by
  have hsum : addCount64 cpu.cycles 1 = .ok (cpu.cycles + 1) := if_pos hc
  have hdue : ¬1 < cpu.pending := UInt32.not_lt.2 hp
  simp only [cycle, tryCpu, bind, EStateM.bind, Except.bind, hsum, pure, Except.pure, getCpu,
    modifyCpu, hdue, if_false]

/-- Only an IRQ is ever masked. -/
theorem not_masked {kind : Interrupt} {disabled : Bool} (h : ¬(kind = .irq ∧ disabled = true)) :
    (kind.isMaskable && disabled) = false := by
  cases kind with
  | irq =>
    rw [Bool.and_eq_false_iff, ← Bool.not_eq_true disabled]
    exact .inr fun masked => h ⟨rfl, masked⟩
  | nmi | brk => rfl

theorem reset_ok {low high : UInt8} (hl : Bus.read resetVector bus = .ok low bus₁)
    (hh : Bus.read (resetVector + 1) bus₁ = .ok high bus₂) :
    reset ⟨cpu, bus, trace⟩ =
      .ok () ⟨{ powerOn with pc := word low high }, bus₂, trace⟩ := by
  simp only [reset, readWord, read, onBus, modifyCpu, bind, EStateM.bind, pure, EStateM.pure, hl,
    hh, powerOn]

/-! ## Cycles, read backwards -/

section
variable {γ : Type} {answer : Unit} {core left : Core γ}

theorem tryCpu_eq {f : Cpu → Except Fault Cpu} (h : tryCpu f core = .ok answer left) :
    ∃ cpu, f core.cpu = .ok cpu ∧ left = { core with cpu := cpu } := by
  unfold tryCpu at h
  dsimp only at h
  split at h <;> cases h
  exact ⟨_, ‹_›, rfl⟩

/-- A cycle comes to be counted only below the full count. -/
theorem count_eq
    (h : tryCpu (fun cpu => return { cpu with cycles := ← addCount64 cpu.cycles 1 }) core =
      .ok answer left) :
    core.cpu.cycles.toNat + 1 < UInt64.size ∧
      left = { core with cpu := { core.cpu with cycles := core.cpu.cycles + 1 } } := by
  obtain ⟨cpu, hc, rfl⟩ := tryCpu_eq h
  by_cases room : core.cpu.cycles.toNat + 1 < UInt64.size
  · have sum : addCount64 core.cpu.cycles 1 = .ok (core.cpu.cycles + 1) := if_pos room
    rw [sum] at hc
    cases hc
    exact ⟨room, rfl⟩
  · have full : addCount64 core.cpu.cycles 1 = .error .overflow := if_neg room
    rw [full] at hc
    cases hc

/-- Cycles come to be owed in full. -/
theorem owe_eq {cycles : UInt32} (h : owe cycles core = .ok answer left) :
    ∃ pending : UInt32, pending.toNat = core.cpu.pending.toNat + cycles.toNat ∧
      left = { core with cpu := { core.cpu with pending := pending } } := by
  obtain ⟨cpu, hc, rfl⟩ := tryCpu_eq h
  by_cases room : core.cpu.pending.toNat + cycles.toNat < UInt32.size
  · have sum : addCount32 core.cpu.pending cycles = .ok (core.cpu.pending + cycles) := if_pos room
    rw [sum] at hc
    cases hc
    exact ⟨_, (UInt32.toNat_add _ _).trans (Nat.mod_eq_of_lt room), rfl⟩
  · have full : addCount32 core.cpu.pending cycles = .error .overflow := if_neg room
    rw [full] at hc
    cases hc

end

theorem of_read_ok {address : UInt16} {value : UInt8} {core left : Core β}
    (h : read address core = .ok value left) :
    ∃ bus, Bus.read address core.bus = .ok value bus ∧ left = { core with bus := bus } := by
  simp only [read, onBus] at h
  cases hb : Bus.read address core.bus with
  | ok found bus =>
    rw [hb] at h
    cases h
    exact ⟨bus, rfl, rfl⟩
  | error fault bus =>
    rw [hb] at h
    cases h

/-- The cycles that a core waits for a sprite transfer which its bus asks for. -/
def Core.transferWait (core : Core β) : Nat :=
  if (Bus.takeTransfer core.bus).1 then 513 + core.cpu.cycles.toNat % 2 else 0

theorem takeTransfer_ok (core : Core β) :
    takeTransfer core = .ok (Bus.takeTransfer core.bus).1
      { core with bus := (Bus.takeTransfer core.bus).2 } := rfl

theorem stall_cycles (cycles : UInt64) :
    (transferCycles + (cycles &&& 1).toUInt32).toNat = 513 + cycles.toNat % 2 := by
  have bit : (cycles &&& 1).toNat = cycles.toNat % 2 := by
    rw [UInt64.toNat_and]
    exact Nat.and_one_is_mod _
  have base : transferCycles.toNat = 513 := rfl
  rw [UInt32.toNat_add, UInt64.toNat_toUInt32, bit, base]
  omega

/-- The end of an instruction: its cycles are owed, and a sprite transfer is waited for. -/
theorem settle_eq {answer : Unit} {core left : Core β} {cycles : UInt32}
    (h : (do owe cycles; if ← takeTransfer then stall : Action β Unit) core = .ok answer left) :
    ∃ pending : UInt32,
      pending.toNat = core.cpu.pending.toNat + cycles.toNat + core.transferWait ∧
        left = ⟨{ core.cpu with pending := pending }, (Bus.takeTransfer core.bus).2,
          core.trace⟩ := by
  obtain ⟨_, _, ho, h⟩ := of_bind_ok h
  obtain ⟨owed, sum, rfl⟩ := owe_eq ho
  rw [bind_ok (takeTransfer_ok _)] at h
  unfold Core.transferWait
  rw [← sum]
  cases hb : (Bus.takeTransfer core.bus).1 with
  | true =>
    rw [if_pos hb] at h
    obtain ⟨odd, _, hg, h⟩ := of_bind_ok h
    cases hg
    obtain ⟨all, total, rfl⟩ := owe_eq h
    rw [stall_cycles] at total
    exact ⟨all, total, rfl⟩
  | false =>
    rw [if_neg (ne_true_of_eq_false hb)] at h
    cases h
    exact ⟨owed, rfl, rfl⟩

/-- A core that comes to run an instruction: the cycle is counted, and nothing is owed. -/
def Core.due {γ : Type} (core : Core γ) : Core γ :=
  { core with cpu := { core.cpu with cycles := core.cpu.cycles + 1, pending := 0 } }

/-- A core at an operation, with the program counter behind the opcode. -/
def Core.fetched {γ : Type} (core : Core γ) (opcode : Opcode) (bus : γ) : Core γ :=
  ⟨{ core.cpu with pc := core.cpu.pc + 1 }, bus, core.trace.push (.instruction core.cpu opcode)⟩

/-- What happened when a core ran an instruction and became another. -/
inductive Stepped (core left : Core β) : Prop
  | skipped {code : UInt8} {bus : β} {pending : UInt32}
      (read : Bus.read core.cpu.pc core.bus = .ok code bus) (unknown : decode? code = none)
      (owed : pending.toNat = core.cpu.pending.toNat + 2)
      (eq : left = ⟨{ core.cpu with pc := core.cpu.pc + 1, pending := pending }, bus, core.trace⟩)
  | performed {code : UInt8} {bus : β} {opcode : Opcode} {ending : Ending} {done : Core β}
      {pending : UInt32}
      (read : Bus.read core.cpu.pc core.bus = .ok code bus) (known : decode? code = some opcode)
      (performed : perform opcode.mode opcode.operation (core.fetched opcode bus) =
        .ok ending done)
      (owed : pending.toNat =
        done.cpu.pending.toNat + (ending.cost opcode).toNat + done.transferWait)
      (eq : left = ⟨{ ending.settle opcode done.cpu with pending := pending },
        (Bus.takeTransfer done.bus).2, done.trace⟩)

theorem of_step_ok {answer : Unit} {core left : Core β} (h : step core = .ok answer left) :
    Stepped core left := by
  obtain ⟨pc, _, hg, h⟩ := of_bind_ok h
  cases hg
  obtain ⟨code, fetched, hr, h⟩ := of_bind_ok h
  obtain ⟨bus, hread, rfl⟩ := of_read_ok hr
  cases hd : decode? code with
  | none =>
    rw [hd] at h
    obtain ⟨_, _, ha, h⟩ := of_bind_ok h
    cases ha
    obtain ⟨pending, owed, eq⟩ := owe_eq h
    exact .skipped hread hd owed eq
  | some opcode =>
    rw [hd] at h
    obtain ⟨_, _, hg, h⟩ := of_bind_ok h
    cases hg
    obtain ⟨_, _, hn, h⟩ := of_bind_ok h
    cases hn
    obtain ⟨_, _, ha, h⟩ := of_bind_ok h
    cases ha
    obtain ⟨ending, done, hp, h⟩ := of_bind_ok h
    cases ending with
    | next extra =>
      obtain ⟨_, _, ha, h⟩ := of_bind_ok h
      cases ha
      obtain ⟨pending, owed, eq⟩ := settle_eq h
      exact .performed hread hd hp owed eq
    | jumped extra =>
      obtain ⟨pending, owed, eq⟩ := settle_eq h
      exact .performed hread hd hp owed eq

theorem of_cycle_ok {answer : Unit} {core left : Core β} (due : core.cpu.pending ≤ 1)
    (h : cycle core = .ok answer left) : Stepped core.due left := by
  obtain ⟨_, _, counted, _⟩ := of_bind_ok h
  rw [cycle_steps (count_eq counted).1 due] at h
  exact of_step_ok h

/-- Where an interrupt that is asked for lets the program go on. -/
def resumePc (kind : Interrupt) (pc : UInt16) : UInt16 :=
  if kind = .brk then pc + 1 else pc

/-- An interrupt that is served is entered, and owed for. -/
theorem of_interrupt_ok {kind : Interrupt} {answer : Unit} {core left : Core β}
    (unmasked : ¬(kind = .irq ∧ core.cpu.status.interruptDisable = true))
    (h : interrupt kind core = .ok answer left) :
    ∃ trace done, ∃ pending : UInt32,
      enter kind ⟨{ core.cpu with pc := resumePc kind core.cpu.pc }, core.bus, trace⟩ =
        .ok () done ∧
      pending.toNat = done.cpu.pending.toNat + 7 ∧
      left = { done with cpu := { done.cpu with pending := pending } } := by
  have entered : ∀ {core : Core β},
      (do note (.interrupt kind); enter kind; owe kind.cycles : Action β Unit) core =
        .ok answer left → ∃ trace done, ∃ pending : UInt32,
          enter kind ⟨core.cpu, core.bus, trace⟩ = .ok () done ∧
          pending.toNat = done.cpu.pending.toNat + 7 ∧
          left = { done with cpu := { done.cpu with pending := pending } } := by
    intro core h
    obtain ⟨_, _, hn, h⟩ := of_bind_ok h
    cases hn
    obtain ⟨_, done, he, h⟩ := of_bind_ok h
    obtain ⟨pending, owed, eq⟩ := owe_eq h
    exact ⟨_, done, pending, he, owed, eq⟩
  obtain ⟨_, _, hg, h⟩ := of_bind_ok h
  cases hg
  rw [if_neg (ne_true_of_eq_false (not_masked unmasked))] at h
  cases kind with
  | brk => exact @entered { core with cpu := { core.cpu with pc := core.cpu.pc + 1 } } h
  | nmi | irq => exact entered h

end Famicom.Cpu
