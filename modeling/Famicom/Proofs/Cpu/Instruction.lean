import Famicom.Proofs.Cpu.Stack

/-!
# Whole instructions

Programs on flat memory, one instruction at a time: where an instruction finds its operand, and what
is left of it when the cycles that it costs are over.
-/

namespace Famicom.Cpu

/-! ## Effective addresses -/

namespace FlatMemory

/-- The word whose bytes lie at two places. -/
def wordAt (memory : FlatMemory) (low high : UInt16) : UInt16 :=
  word (memory.fetch low) (memory.fetch high)

/-- The word in the zero page, which wraps there. -/
def pointerAt (memory : FlatMemory) (place : UInt8) : UInt16 :=
  memory.wordAt place.toUInt16 (place + 1).toUInt16

/-- Where the instruction at the program counter finds its operand. -/
def effectiveAddress (memory : FlatMemory) (cpu : Cpu) : Mode → UInt16
  | .implied | .accumulator => 0
  | .immediate => cpu.pc + 1
  | .zeroPage => (memory.fetch (cpu.pc + 1)).toUInt16
  | .zeroPageX => (memory.fetch (cpu.pc + 1) + cpu.x).toUInt16
  | .zeroPageY => (memory.fetch (cpu.pc + 1) + cpu.y).toUInt16
  | .absolute => memory.wordAt (cpu.pc + 1) (cpu.pc + 2)
  | .absoluteX => memory.wordAt (cpu.pc + 1) (cpu.pc + 2) + cpu.x.toUInt16
  | .absoluteY => memory.wordAt (cpu.pc + 1) (cpu.pc + 2) + cpu.y.toUInt16
  | .indexedIndirect => memory.pointerAt (memory.fetch (cpu.pc + 1) + cpu.x)
  | .indirectIndexed => memory.pointerAt (memory.fetch (cpu.pc + 1)) + cpu.y.toUInt16
  | .indirect =>
    let pointer := memory.wordAt (cpu.pc + 1) (cpu.pc + 2)
    memory.wordAt pointer ((pointer &&& 0xFF00) ||| ((pointer + 1) &&& 0x00FF))
  | .relative => cpu.pc + 2 + signExtend (memory.fetch (cpu.pc + 1))

end FlatMemory

open FlatMemory

variable {core after done : Core FlatMemory} {opcode : Opcode}

/-- With the opcode behind it, an instruction finds its operand there. -/
theorem locate_effective (core : Core FlatMemory) (opcode : Opcode) (mode : Mode) :
    ∃ crossed, locate mode (core.due.fetched opcode core.bus) =
      .ok ⟨core.bus.effectiveAddress core.cpu mode, crossed⟩ (core.due.fetched opcode core.bus) := by
  have second : core.cpu.pc + 2 = core.cpu.pc + 1 + 1 := (UInt16.add_assoc _ 1 1).symm
  unfold effectiveAddress
  rw [second]
  cases mode <;> exact ⟨_, rfl⟩

/-! ## Running to the next instruction -/

section
variable {β : Type} [Bus β]

/-- Some cycles, one after another. -/
def runCycles : Nat → Action β Unit
  | 0 => pure ()
  | n + 1 => do
    cycle
    runCycles n

/-- The cycle that runs an instruction, and those that it costs beyond. -/
def instruction : Action β Unit := do
  cycle
  runCycles ((← getCpu Cpu.pending).toNat - 1)

/-- Some instructions, one after another. -/
def instructions : Nat → Action β Unit
  | 0 => pure ()
  | n + 1 => do
    instruction
    instructions n

/-- The next instruction is waited for. -/
theorem runCycles_waits {n : Nat} {core : Core β} (owed : core.cpu.pending.toNat = n + 1)
    (room : core.cpu.cycles.toNat + n < UInt64.size) :
    runCycles n core = .ok () { core with cpu := { core.cpu with
      cycles := core.cpu.cycles + UInt64.ofNat n, pending := 1 } } := by
  induction n generalizing core with
  | zero =>
    have one : core.cpu.pending = 1 := UInt32.toNat_inj.1 owed
    have same : core.cpu.cycles + UInt64.ofNat 0 = core.cpu.cycles := UInt64.add_zero _
    rw [same, ← one]
    rfl
  | succ n ih =>
    have more : 1 < core.cpu.pending := by
      rw [UInt32.lt_iff_toNat_lt, owed]
      exact Nat.lt_add_of_pos_left (Nat.succ_pos n)
    have left : (core.cpu.pending - 1).toNat = n + 1 := by
      have one : (1 : UInt32).toNat = 1 := rfl
      rw [UInt32.toNat_sub_of_le _ _ (UInt32.le_of_lt more), owed, one]
      rfl
    have counted : (core.cpu.cycles + 1).toNat = core.cpu.cycles.toNat + 1 := by
      have one : (1 : UInt64).toNat = 1 := rfl
      refine (UInt64.toNat_add _ _).trans (Nat.mod_eq_of_lt (Nat.lt_of_le_of_lt ?_ room))
      omega
    have sum : core.cpu.cycles + 1 + UInt64.ofNat n = core.cpu.cycles + UInt64.ofNat (n + 1) := by
      rw [UInt64.add_assoc, UInt64.ofNat_add, UInt64.add_comm (UInt64.ofNat n)]
      rfl
    have waits : cycle core = _ := cycle_waits (Nat.lt_of_le_of_lt (by omega) room) more
    have rest := @ih { core with cpu := { core.cpu with
      cycles := core.cpu.cycles + 1, pending := core.cpu.pending - 1 } } left (by
        dsimp only
        omega)
    refine (bind_ok waits).trans (rest.trans ?_)
    rw [← sum]

/-- Of two runs of instructions the second goes on where the first ended. -/
theorem instructions_add {n : Nat} (m : Nat) {core after : Core β}
    (h : instructions n core = .ok () after) :
    instructions (n + m) core = instructions m after := by
  induction n generalizing core with
  | zero =>
    cases h
    rw [Nat.zero_add]
  | succ n ih =>
    obtain ⟨_, middle, first, rest⟩ := of_bind_ok h
    rw [Nat.succ_add]
    exact (bind_ok first).trans (ih rest)

end

/-! ## Instructions that go on behind themselves -/

/-- What instructions work with, beside the memory and the program counter. -/
structure Registers where
  a : UInt8
  x : UInt8
  y : UInt8
  sp : UInt8
  status : Status
deriving DecidableEq, Repr

def registers (cpu : Cpu) : Registers where
  a := cpu.a
  x := cpu.x
  y := cpu.y
  sp := cpu.sp
  status := cpu.status

/-- Processors with the same registers differ in their place and their clock only. -/
theorem eq_of_registers {c d : Cpu} (h : c.registers = d.registers) :
    c = { d with pc := c.pc, pending := c.pending, cycles := c.cycles } := by
  cases c
  cases d
  cases h
  rfl

/-- Work on the registers, wherever and whenever it is done. -/
def Apart (f : Cpu → Cpu) : Prop :=
  ∀ cpu pc pending cycles, f { cpu with pc := pc, pending := pending, cycles := cycles } =
    { f cpu with pc := pc, pending := pending, cycles := cycles }

theorem Apart.congr {f : Cpu → Cpu} (apart : Apart f) {c d : Cpu}
    (same : c.registers = d.registers) : (f c).registers = (f d).registers := by
  rw [eq_of_registers same, apart]
  rfl

theorem combine_apart (f : Alu) (byte : UInt8) : Apart fun cpu => cpu.combine f byte := by
  intro cpu pc pending cycles
  cases f <;> rfl

/-- An instruction is over, and the next one is due behind it. -/
structure Finished (core : Core FlatMemory) (opcode : Opcode) (registers : Registers)
    (memory : FlatMemory) (after : Core FlatMemory) : Prop where
  run : instruction core = .ok () after
  registers : after.cpu.registers = registers
  pc : after.cpu.pc = core.cpu.pc + UInt16.ofNat opcode.length
  fetch : ∀ place, after.bus.fetch place = memory.fetch place
  due : after.cpu.pending ≤ 1
  cycles : after.cpu.cycles.toNat ≤ core.cpu.cycles.toNat + longestWait

/-- What the cycle of an instruction leaves that has done its work and goes on behind itself. -/
def Core.settled (done : Core FlatMemory) (opcode : Opcode) (pending : UInt32) :
    Core FlatMemory :=
  ⟨{ done.cpu with
      pc := done.cpu.pc + (opcode.size - 1).toUInt16
      pending := pending },
    { done.bus with transferRequested := false }, done.trace⟩

theorem Core.settled_pc {code : UInt8} (known : decode? code = some opcode)
    (behind : done.cpu.pc = core.cpu.pc + 1) (pending : UInt32) :
    (done.settled opcode pending).cpu.pc = core.cpu.pc + UInt16.ofNat opcode.length := by
  show done.cpu.pc + (opcode.size - 1).toUInt16 =
    core.cpu.pc + UInt16.ofNat (1 + opcode.mode.operandBytes)
  rw [decode?_rest known, behind, UInt16.add_assoc, UInt16.ofNat_add]
  rfl

theorem cycle_performed {crossed : Bool} (due : core.cpu.pending ≤ 1)
    (known : decode? (core.bus.fetch core.cpu.pc) = some opcode)
    (performed : perform opcode.mode opcode.operation (core.due.fetched opcode core.bus) =
      .ok (.next (charge crossed)) done)
    (room : core.cpu.cycles.toNat + 1 < UInt64.size) :
    ∃ pending : UInt32, pending.toNat =
        opcode.cycles.toNat + (charge crossed).toNat + done.transferWait ∧
      cycle core = .ok () (done.settled opcode pending) := by
  obtain ⟨left, run⟩ := flat_answers.cycle_ok room
  cases of_cycle_ok due run with
  | skipped read unknown _ _ =>
    cases read
    exact nomatch known.symm.trans unknown
  | performed read known' performed' owed eq =>
    cases read
    obtain rfl := Option.some.inj (known.symm.trans known')
    cases performed.symm.trans performed'
    subst eq
    refine ⟨_, ?_, run⟩
    have started : done.cpu.pending.toNat = 0 :=
      congrArg UInt32.toNat (perform_clock performed).1
    have base := UInt32.le_iff_toNat_le.1 (decode?_cycles_le known)
    have small := UInt32.le_iff_toNat_le.1 (charge_le crossed)
    have one : (1 : UInt32).toNat = 1 := rfl
    have eight : (8 : UInt32).toNat = 8 := rfl
    have cost : (Ending.cost (.next (charge crossed)) opcode).toNat =
        opcode.cycles.toNat + (charge crossed).toNat := by
      refine (UInt32.toNat_add _ _).trans (Nat.mod_eq_of_lt ?_)
      omega
    rw [owed, started, cost, Nat.zero_add]

theorem Core.transferWait_le (core : Core FlatMemory) : core.transferWait ≤ 514 := by
  unfold Core.transferWait
  split <;> omega

/-- An instruction that goes on behind itself comes to its end. -/
theorem instruction_finishes {crossed : Bool} (due : core.cpu.pending ≤ 1)
    (known : decode? (core.bus.fetch core.cpu.pc) = some opcode)
    (performed : perform opcode.mode opcode.operation (core.due.fetched opcode core.bus) =
      .ok (.next (charge crossed)) done)
    (behind : done.cpu.pc = core.cpu.pc + 1)
    (room : core.cpu.cycles.toNat + longestWait < UInt64.size) :
    ∃ after, Finished core opcode done.cpu.registers done.bus after := by
  have large : longestWait = 524 := rfl
  have full : UInt64.size = 2 ^ 64 := rfl
  obtain ⟨pending, owed, run⟩ := cycle_performed due known performed (by omega)
  have least := UInt32.le_iff_toNat_le.1 (two_le_decode?_cycles known)
  have most := UInt32.le_iff_toNat_le.1 (decode?_cycles_le known)
  have small := UInt32.le_iff_toNat_le.1 (charge_le crossed)
  have wait := done.transferWait_le
  have one : (1 : UInt32).toNat = 1 := rfl
  have two : (2 : UInt32).toNat = 2 := rfl
  have eight : (8 : UInt32).toNat = 8 := rfl
  have counted : done.cpu.cycles.toNat = core.cpu.cycles.toNat + 1 := by
    have one64 : (1 : UInt64).toNat = 1 := rfl
    rw [(perform_clock performed).2]
    refine (UInt64.toNat_add core.cpu.cycles 1).trans (Nat.mod_eq_of_lt ?_)
    omega
  have owes : (done.settled opcode pending).cpu.pending.toNat = pending.toNat - 1 + 1 := by
    dsimp only [Core.settled]
    omega
  have waits := runCycles_waits owes (by dsimp only [Core.settled]; omega)
  have total : (done.cpu.cycles + UInt64.ofNat (pending.toNat - 1)).toNat =
      core.cpu.cycles.toNat + pending.toNat := by
    rw [UInt64.toNat_add, UInt64.toNat_ofNat', counted]
    omega
  refine ⟨_, ⟨(bind_ok run).trans waits, rfl, Core.settled_pc known behind pending, fun _ => rfl,
    UInt32.le_refl 1, ?_⟩⟩
  show (done.cpu.cycles + UInt64.ofNat (pending.toNat - 1)).toNat ≤ _
  omega

/-- What an instruction that only reads comes to. -/
theorem consume_finishes {f : Cpu → UInt8 → Cpu} (apart : ∀ byte, Apart (f · byte))
    (consumes : perform (β := FlatMemory) opcode.mode opcode.operation = consume opcode.mode f)
    (due : core.cpu.pending ≤ 1) (known : decode? (core.bus.fetch core.cpu.pc) = some opcode)
    (room : core.cpu.cycles.toNat + longestWait < UInt64.size) :
    ∃ after, Finished core opcode
      (f core.cpu (core.bus.fetch (core.bus.effectiveAddress core.cpu opcode.mode))).registers
      core.bus after := by
  obtain ⟨crossed, located⟩ := locate_effective core opcode opcode.mode
  have performed := consume_ok f located (core.bus.read_eq _)
  rw [← consumes] at performed
  generalize core.bus.fetch (core.bus.effectiveAddress core.cpu opcode.mode) = byte at performed ⊢
  have behind := congrArg Cpu.pc (apart byte core.cpu (core.cpu.pc + 1) 0 (core.cpu.cycles + 1))
  obtain ⟨after, finished⟩ := instruction_finishes due known performed behind room
  have same : (f (core.due.fetched opcode core.bus).cpu byte).registers =
      (f core.cpu byte).registers := (apart byte).congr rfl
  refine ⟨after, ?_⟩
  rw [← same]
  exact finished

end Famicom.Cpu
