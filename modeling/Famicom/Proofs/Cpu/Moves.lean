import Famicom.Cpu.Execute
import Famicom.Proofs.Coupling

/-!
# How instructions move the registers

A relation of processors that every change of the registers obeys is obeyed by every instruction, on
any bus and whether it ends or stops on the way.
-/

namespace Famicom

section
variable {ε σ α γ : Type}

/-- The state in which an action ends, answering or stopped. -/
def reached (action : EStateM ε σ α) (s : σ) : σ :=
  match action s with
  | .ok _ t => t
  | .error _ t => t

variable {action : EStateM ε σ α} {next : α → EStateM ε σ γ} {s t : σ} {value : α} {cause : ε}

theorem reached_ok (h : action s = .ok value t) : reached action s = t := by
  unfold reached
  rw [h]

theorem reached_error (h : action s = .error cause t) : reached action s = t := by
  unfold reached
  rw [h]

theorem reached_bind_ok (h : action s = .ok value t) :
    reached (action >>= next) s = reached (next value) t := by
  unfold reached
  rw [bind_ok h]

theorem reached_bind_error (h : action s = .error cause t) :
    reached (action >>= next) s = t :=
  reached_error (bind_error h)

end

namespace Cpu

variable {β α γ : Type} {rel : Cpu → Cpu → Prop}

/-- Wherever the action ends, the processor has moved as the relation says. -/
def Obeys (rel : Cpu → Cpu → Prop) (action : Action β α) : Prop :=
  ∀ core, rel core.cpu (reached action core).cpu

/-- The changes that instructions make to the registers when they do not jump. No flag that they set
is bit 4 or bit 5 of the status. -/
structure Tolerates (rel : Cpu → Cpu → Prop) : Prop where
  refl : ∀ cpu, rel cpu cpu
  trans : ∀ {a b c}, rel a b → rel b c → rel a c
  sp : ∀ cpu sp, rel cpu { cpu with sp := sp }
  load : ∀ cpu value r, rel cpu (cpu.setRegister value r)
  flags : ∀ cpu status, status.unused = cpu.status.unused → status.brk = cpu.status.brk →
    rel cpu { cpu with status := status }
  pull : ∀ cpu value, rel cpu { cpu with status := .pulled value }

/-- All changes, those of a jump and of the clock among them. -/
structure ToleratesAll (rel : Cpu → Cpu → Prop) : Prop extends Tolerates rel where
  jump : ∀ cpu pc, rel cpu { cpu with pc := pc }
  clock : ∀ cpu pending cycles, rel cpu { cpu with pending := pending, cycles := cycles }

/-! ## Sequences -/

namespace Obeys

variable {action other : Action β α} {next : α → Action β γ}

theorem of_kept (h : Tolerates rel) (kept : ∀ core, (reached action core).cpu = core.cpu) :
    Obeys rel action := by
  intro core
  rw [kept]
  exact h.refl core.cpu

theorem pure (h : Tolerates rel) (value : α) : Obeys rel (Pure.pure value : Action β α) :=
  .of_kept h fun _ => rfl

theorem bind (h : Tolerates rel) (first : Obeys rel action) (rest : ∀ value, Obeys rel (next value)) :
    Obeys rel (action >>= next) := by
  intro core
  have moved := first core
  cases ha : action core with
  | ok value after =>
    rw [reached_ok ha] at moved
    rw [reached_bind_ok ha]
    exact h.trans moved (rest value after)
  | error fault after =>
    rw [reached_error ha] at moved
    rw [reached_bind_error ha]
    exact moved

theorem ite {c : Prop} [Decidable c] (ht : Obeys rel action) (hf : Obeys rel other) :
    Obeys rel (if c then action else other) := by
  split
  · exact ht
  · exact hf

end Obeys

/-! ## Changes of the registers -/

section
variable (h : Tolerates rel) (cpu : Cpu)
include h

theorem transfer_tolerated (t : Transfer) : rel cpu (cpu.transfer t) := by
  cases t with
  | tax => exact h.load cpu cpu.a .x
  | tay => exact h.load cpu cpu.a .y
  | tsx => exact h.load cpu cpu.sp .x
  | txa => exact h.load cpu cpu.x .a
  | txs => exact h.sp cpu cpu.x
  | tya => exact h.load cpu cpu.y .a

theorem compare_tolerated (r : Register) (value : UInt8) : rel cpu (cpu.compare r value) :=
  h.flags cpu _ rfl rfl

theorem addWithCarry_tolerated (value : UInt8) : rel cpu (cpu.addWithCarry value) :=
  h.trans (h.load cpu _ .a) (h.flags (cpu.setRegister _ .a) _ rfl rfl)

theorem combine_tolerated (f : Alu) (value : UInt8) : rel cpu (cpu.combine f value) := by
  cases f with
  | adc => exact addWithCarry_tolerated h cpu value
  | sbc => exact addWithCarry_tolerated h cpu _
  | cmp => exact compare_tolerated h cpu .a value
  | _ => exact h.load cpu _ .a

theorem update_tolerated (f : Update) (value : UInt8) :
    rel cpu { cpu with status := (f.apply cpu.status value).2 } := by
  cases f <;> exact h.flags cpu _ rfl rfl

theorem setFlag_tolerated (flag : Flag) (value : Bool) :
    rel cpu { cpu with status := cpu.status.set value flag } := by
  cases flag <;> exact h.flags cpu _ rfl rfl

/-- A register is loaded, and then flags are set that do not describe it. -/
theorem loadFlags_tolerated (r : Register) (value : UInt8) {status : Status}
    (unused : status.unused = cpu.status.unused) (brk : status.brk = cpu.status.brk) :
    rel cpu { cpu.setRegister value r with status := status } := by
  refine h.trans (h.load cpu value r) (h.flags (cpu.setRegister value r) status ?_ ?_)
  · cases r <;> exact unused
  · cases r <;> exact brk

end

/-! ## Parts of an instruction -/

theorem getCpu_obeys (h : Tolerates rel) (f : Cpu → α) : Obeys rel (getCpu f : Action β α) :=
  .of_kept h fun _ => rfl

theorem modifyCpu_obeys {f : Cpu → Cpu} (hf : ∀ cpu, rel cpu (f cpu)) :
    Obeys rel (modifyCpu f : Action β Unit) :=
  fun core => hf core.cpu

theorem onBus_obeys (h : Tolerates rel) (action : EStateM Fault β α) :
    Obeys rel (onBus action) := by
  refine .of_kept h fun core => ?_
  simp only [reached, onBus]
  cases action core.bus <;> rfl

theorem note_obeys (h : Tolerates rel) (event : Event) :
    Obeys rel (note event : Action β Unit) :=
  .of_kept h fun _ => rfl

theorem tryCpu_obeys (h : Tolerates rel) {f : Cpu → Except Fault Cpu}
    (hf : ∀ cpu changed, f cpu = .ok changed → rel cpu changed) :
    Obeys rel (tryCpu f : Action β Unit) := by
  intro core
  simp only [reached, tryCpu]
  cases hc : f core.cpu with
  | ok changed => exact hf core.cpu changed hc
  | error fault => exact h.refl core.cpu

theorem finish_obeys (h : Tolerates rel) {f : Cpu → Cpu} (hf : ∀ cpu, rel cpu (f cpu)) :
    Obeys rel (finish f : Action β Ending) :=
  .bind h (modifyCpu_obeys hf) fun _ => .pure h _

section
variable [Bus β] (h : Tolerates rel)
include h

theorem read_obeys (address : UInt16) : Obeys rel (read address : Action β UInt8) :=
  onBus_obeys h _

theorem write_obeys (address : UInt16) (value : UInt8) :
    Obeys rel (write address value : Action β Unit) :=
  onBus_obeys h _

theorem readWord_obeys (address : UInt16) : Obeys rel (readWord address : Action β UInt16) :=
  .bind h (read_obeys h _) fun _ => .bind h (read_obeys h _) fun _ => .pure h _

theorem push_obeys (value : UInt8) : Obeys rel (push value : Action β Unit) := by
  apply Obeys.bind h (getCpu_obeys h _)
  intro sp
  refine .bind h (write_obeys h _ _) fun _ => modifyCpu_obeys ?_
  intro cpu
  exact h.sp cpu _

theorem pushWord_obeys (value : UInt16) : Obeys rel (pushWord value : Action β Unit) :=
  .bind h (push_obeys h _) fun _ => push_obeys h _

theorem pop_obeys : Obeys rel (pop : Action β UInt8) := by
  refine .bind h (modifyCpu_obeys fun cpu => h.sp cpu _) fun _ => ?_
  exact .bind h (getCpu_obeys h _) fun _ => read_obeys h _

theorem popWord_obeys : Obeys rel (popWord : Action β UInt16) :=
  .bind h (pop_obeys h) fun _ => .bind h (pop_obeys h) fun _ => .pure h _

theorem readZeroPageWord_obeys (pointer : UInt8) :
    Obeys rel (readZeroPageWord pointer : Action β UInt16) :=
  .bind h (read_obeys h _) fun _ => .bind h (read_obeys h _) fun _ => .pure h _

theorem locate_obeys (mode : Mode) : Obeys rel (locate mode : Action β Operand) := by
  apply Obeys.bind h (getCpu_obeys h _)
  intro pc
  cases mode with
  | implied | accumulator | immediate => exact .pure h _
  | zeroPage | relative => exact .bind h (read_obeys h _) fun _ => .pure h _
  | zeroPageX | zeroPageY =>
    exact .bind h (read_obeys h _) fun _ => .bind h (getCpu_obeys h _) fun _ => .pure h _
  | absolute => exact .bind h (readWord_obeys h _) fun _ => .pure h _
  | absoluteX | absoluteY =>
    exact .bind h (readWord_obeys h _) fun _ => .bind h (getCpu_obeys h _) fun _ => .pure h _
  | indexedIndirect =>
    apply Obeys.bind h (read_obeys h _)
    intro base
    apply Obeys.bind h (getCpu_obeys h _)
    intro x
    exact .bind h (readZeroPageWord_obeys h _) fun _ => .pure h _
  | indirectIndexed =>
    apply Obeys.bind h (read_obeys h _)
    intro pointer
    apply Obeys.bind h (readZeroPageWord_obeys h _)
    intro base
    exact .bind h (getCpu_obeys h _) fun _ => .pure h _
  | indirect =>
    apply Obeys.bind h (readWord_obeys h _)
    intro pointer
    exact .bind h (read_obeys h _) fun _ => .bind h (read_obeys h _) fun _ => .pure h _

theorem readOperand_obeys (mode : Mode) :
    Obeys rel (readOperand mode : Action β (UInt8 × UInt32)) :=
  .bind h (locate_obeys h mode) fun _ => .bind h (read_obeys h _) fun _ => .pure h _

theorem consume_obeys (mode : Mode) {f : Cpu → UInt8 → Cpu}
    (hf : ∀ cpu value, rel cpu (f cpu value)) : Obeys rel (consume mode f : Action β Ending) := by
  apply Obeys.bind h (readOperand_obeys h mode)
  intro operand
  exact .bind h (modifyCpu_obeys fun cpu => hf cpu _) fun _ => .pure h _

theorem store_obeys (mode : Mode) (f : Cpu → UInt8) :
    Obeys rel (store mode f : Action β Ending) := by
  apply Obeys.bind h (locate_obeys h mode)
  intro operand
  exact .bind h (getCpu_obeys h _) fun _ => .bind h (write_obeys h _ _) fun _ => .pure h _

theorem pullStatus_obeys : Obeys rel (pullStatus : Action β Unit) :=
  .bind h (pop_obeys h) fun value => modifyCpu_obeys fun cpu => h.pull cpu value

end

/-- A byte is updated on the way from the status that it finds to the one that it leaves. -/
theorem update_obeys [Bus β] (h : Tolerates rel) (mode : Mode) (f : Update) :
    Obeys rel (update mode f : Action β UInt8) := by
  refine .ite ?_ ?_
  · -- The status is read in one step and written in another, so both are seen at once.
    intro core
    refine h.trans (update_tolerated h core.cpu f core.cpu.a) ?_
    exact h.load { core.cpu with status := (f.apply core.cpu.status core.cpu.a).2 } _ .a
  · apply Obeys.bind h (locate_obeys h mode)
    intro operand
    apply Obeys.bind h (read_obeys h _)
    intro value core
    refine h.trans (update_tolerated h core.cpu f value) ?_
    have rest : Obeys rel (do
        write operand.address (f.apply core.cpu.status value).1
        modifyCpu fun cpu => cpu.describe (f.apply core.cpu.status value).1
        return (f.apply core.cpu.status value).1 : Action β UInt8) := by
      refine .bind h (write_obeys h _ _) fun _ => ?_
      exact .bind h (modifyCpu_obeys fun cpu => h.flags cpu _ rfl rfl) fun _ => .pure h _
    exact rest ⟨{ core.cpu with status := (f.apply core.cpu.status value).2 }, core.bus, core.trace⟩

/-! ## Instructions -/

theorem jump_obeys (hj : ∀ cpu pc, rel cpu { cpu with pc := pc }) (address : UInt16) :
    Obeys rel (jump address : Action β Unit) :=
  modifyCpu_obeys fun cpu => hj cpu address

/-- Whether an operation may go on elsewhere than behind its operand. -/
def Operation.mayJump : Operation → Bool
  | .brk | .jmp | .jsr | .rts | .rti | .branch _ _ => true
  | _ => false

section
variable [Bus β] (h : Tolerates rel)
include h

theorem enter_obeys (hj : ∀ cpu pc, rel cpu { cpu with pc := pc }) (kind : Interrupt) :
    Obeys rel (enter kind : Action β Unit) := by
  apply Obeys.bind h (getCpu_obeys h _)
  intro pc
  apply Obeys.bind h (pushWord_obeys h _)
  intro _
  apply Obeys.bind h (getCpu_obeys h _)
  intro status
  apply Obeys.bind h (push_obeys h _)
  intro _
  refine .bind h (modifyCpu_obeys fun cpu => setFlag_tolerated h cpu .interruptDisable true) fun _ => ?_
  exact .bind h (readWord_obeys h _) fun address => jump_obeys hj address

theorem perform_obeys {operation : Operation}
    (hj : operation.mayJump = true → ∀ cpu pc, rel cpu { cpu with pc := pc }) (mode : Mode) :
    Obeys rel (perform mode operation : Action β Ending) := by
  cases operation with
  | brk =>
    refine .bind h (modifyCpu_obeys fun cpu => hj rfl cpu _) fun _ => ?_
    exact .bind h (enter_obeys h (hj rfl) .brk) fun _ => .pure h _
  | nop =>
    cases mode with
    | implied => exact .pure h _
    | _ => exact consume_obeys h _ fun cpu _ => h.refl cpu
  | jmp =>
    apply Obeys.bind h (locate_obeys h mode)
    intro operand
    exact .bind h (jump_obeys (hj rfl) _) fun _ => .pure h _
  | jsr =>
    apply Obeys.bind h (locate_obeys h mode)
    intro target
    apply Obeys.bind h (getCpu_obeys h _)
    intro pc
    apply Obeys.bind h (pushWord_obeys h _)
    intro _
    exact .bind h (jump_obeys (hj rfl) _) fun _ => .pure h _
  | rts =>
    apply Obeys.bind h (popWord_obeys h)
    intro address
    exact .bind h (jump_obeys (hj rfl) _) fun _ => .pure h _
  | rti =>
    apply Obeys.bind h (pullStatus_obeys h)
    intro _
    apply Obeys.bind h (popWord_obeys h)
    intro address
    exact .bind h (jump_obeys (hj rfl) _) fun _ => .pure h _
  | transfer t => exact finish_obeys h fun cpu => transfer_tolerated h cpu t
  | setFlag flag value => exact finish_obeys h fun cpu => setFlag_tolerated h cpu flag value
  | branch flag wanted =>
    apply Obeys.bind h (locate_obeys h mode)
    intro target
    apply Obeys.bind h (getCpu_obeys h _)
    intro status
    exact .ite (.bind h (jump_obeys (hj rfl) _) fun _ => .pure h _) (.pure h _)
  | increment r => exact finish_obeys h fun cpu => h.load cpu _ r
  | decrement r => exact finish_obeys h fun cpu => h.load cpu _ r
  | pha =>
    apply Obeys.bind h (getCpu_obeys h _)
    intro a
    exact .bind h (push_obeys h _) fun _ => .pure h _
  | pla =>
    apply Obeys.bind h (pop_obeys h)
    intro value
    exact finish_obeys h fun cpu => h.load cpu value .a
  | php =>
    apply Obeys.bind h (getCpu_obeys h _)
    intro status
    exact .bind h (push_obeys h _) fun _ => .pure h _
  | plp => exact .bind h (pullStatus_obeys h) fun _ => .pure h _
  | bit =>
    apply Obeys.bind h (readOperand_obeys h mode)
    intro operand
    exact finish_obeys h fun cpu => h.flags cpu _ rfl rfl
  | load r => exact consume_obeys h mode fun cpu value => h.load cpu value r
  | store r => exact store_obeys h mode _
  | update f => exact .bind h (update_obeys h mode f) fun _ => .pure h _
  | alu f => exact consume_obeys h mode fun cpu value => combine_tolerated h cpu f value
  | compare r => exact consume_obeys h mode fun cpu value => compare_tolerated h cpu r value
  | combined f =>
    apply Obeys.bind h (update_obeys h mode f.update)
    intro value
    exact finish_obeys h fun cpu => combine_tolerated h cpu f.alu value
  | lax =>
    unfold perform
    refine consume_obeys h mode ?_
    intro cpu value
    exact h.trans (h.load cpu value .a) (h.load (cpu.setA value) value .x)
  | sax => exact store_obeys h mode _
  | anc | alr | arr =>
    refine consume_obeys h mode ?_
    intro cpu value
    exact loadFlags_tolerated h cpu .a _ rfl rfl
  | sbx =>
    refine consume_obeys h mode ?_
    intro cpu value
    exact loadFlags_tolerated h cpu .x _ rfl rfl

end

/-! ## Cycles -/

section
variable (h : ToleratesAll rel)
include h

theorem owe_obeys (cycles : UInt32) : Obeys rel (owe cycles : Action β Unit) := by
  refine tryCpu_obeys h.toTolerates ?_
  intro cpu changed hc
  cases hs : addCount32 cpu.pending cycles with
  | ok sum =>
    rw [hs] at hc
    cases hc
    exact h.clock cpu sum cpu.cycles
  | error fault =>
    rw [hs] at hc
    cases hc

theorem stall_obeys : Obeys rel (stall : Action β Unit) :=
  .bind h.toTolerates (getCpu_obeys h.toTolerates _) fun _ => owe_obeys h _

theorem advance_obeys (bytes : UInt16) : Obeys rel (advance bytes : Action β Unit) :=
  modifyCpu_obeys fun cpu => h.jump cpu _

variable [Bus β]

theorem settle_obeys : Obeys rel (do if ← takeTransfer then stall : Action β Unit) := by
  have t := h.toTolerates
  have take : Obeys rel (takeTransfer : Action β Bool) := .of_kept t fun _ => rfl
  exact .bind t take fun _ => .ite (stall_obeys h) (.pure t _)

theorem step_obeys : Obeys rel (step : Action β Unit) := by
  have t := h.toTolerates
  apply Obeys.bind t (getCpu_obeys t _)
  intro pc
  apply Obeys.bind t (read_obeys t _)
  intro code
  cases decode? code with
  | none => exact .bind t (advance_obeys h 1) fun _ => owe_obeys h 2
  | some opcode =>
    apply Obeys.bind t (getCpu_obeys t _)
    intro before
    apply Obeys.bind t (note_obeys t _)
    intro _
    apply Obeys.bind t (advance_obeys h 1)
    intro _
    apply Obeys.bind t (perform_obeys t (fun _ => h.jump) opcode.mode)
    intro ending
    cases ending with
    | next extra =>
      exact .bind t (advance_obeys h _) fun _ => .bind t (owe_obeys h _) fun _ => settle_obeys h
    | jumped extra => exact .bind t (owe_obeys h _) fun _ => settle_obeys h

theorem cycle_obeys : Obeys rel (cycle : Action β Unit) := by
  have t := h.toTolerates
  refine .bind t (tryCpu_obeys t ?_) fun _ => ?_
  · intro cpu changed hc
    cases hs : addCount64 cpu.cycles 1 with
    | ok sum =>
      rw [hs] at hc
      cases hc
      exact h.clock cpu cpu.pending sum
    | error fault =>
      rw [hs] at hc
      cases hc
  · apply Obeys.bind t (getCpu_obeys t _)
    intro pending
    refine .ite (modifyCpu_obeys fun cpu => h.clock cpu _ cpu.cycles) ?_
    exact .bind t (modifyCpu_obeys fun cpu => h.clock cpu 0 cpu.cycles) fun _ => step_obeys h

theorem interrupt_obeys (kind : Interrupt) : Obeys rel (interrupt kind : Action β Unit) := by
  have t := h.toTolerates
  apply Obeys.bind t (getCpu_obeys t _)
  intro status
  refine .ite (.pure t _) ?_
  have served : Obeys rel (do note (.interrupt kind); enter kind; owe kind.cycles : Action β Unit) := by
    apply Obeys.bind t (note_obeys t _)
    intro _
    exact .bind t (enter_obeys t h.jump kind) fun _ => owe_obeys h _
  exact .ite (.bind t (advance_obeys h 1) fun _ => served) served

end

/-! ## Calls -/

/-- What the owner of a processor asks of it. -/
inductive Call
  | cycle
  | interrupt (kind : Interrupt)
deriving DecidableEq, Repr

def Call.run [Bus β] : Call → Action β Unit
  | .cycle => Cpu.cycle
  | .interrupt kind => Cpu.interrupt kind

theorem call_obeys [Bus β] (h : ToleratesAll rel) (call : Call) :
    Obeys rel (call.run : Action β Unit) := by
  cases call with
  | cycle => exact cycle_obeys h
  | interrupt kind => exact interrupt_obeys h kind

end Cpu

end Famicom
