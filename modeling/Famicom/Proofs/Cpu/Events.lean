import Famicom.Cpu.Execute
import Famicom.Proofs.Coupling
import Famicom.Proofs.TraceLog

/-!
# What a processor notes

The events that an action notes, whatever its log already holds. An instruction notes itself and no
interrupt; an interrupt that is served notes itself once.
-/

namespace Famicom

namespace Cpu

variable {β α γ : Type}

def Core.withTrace (core : Core β) (trace : Trace) : Core β := { core with trace := trace }

/-- The same end with another log. -/
def retrace (trace : Trace) : EStateM.Result Fault (Core β) α → EStateM.Result Fault (Core β) α
  | .ok value core => .ok value (core.withTrace trace)
  | .error fault core => .error fault (core.withTrace trace)

/-- From a core on an action notes these events, and neither reads nor changes the log otherwise. -/
def Notes (action : Action β α) (core : Core β) (events : List Event) : Prop :=
  ∀ trace, action (core.withTrace trace) = retrace (trace.pushAll events) (action core)

namespace Notes

variable {action : Action β α} {next : α → Action β γ} {core after : Core β}
variable {first second : List Event}

theorem ok {value : α} (h : Notes action core first) (ha : action core = .ok value after)
    (trace : Trace) :
    action (core.withTrace trace) = .ok value (after.withTrace (trace.pushAll first)) := by
  rw [h trace, ha]
  rfl

theorem bind {value : α} (h : Notes action core first) (ha : action core = .ok value after)
    (hn : Notes (next value) after second) : Notes (action >>= next) core (first ++ second) := by
  intro trace
  rw [bind_ok (h.ok ha trace), bind_ok ha, hn, TraceLog.pushAll_append]

/-- Nothing is noted before. -/
theorem behind {value : α} (h : Notes action core []) (ha : action core = .ok value after)
    (hn : Notes (next value) after second) : Notes (action >>= next) core second :=
  h.bind ha hn

/-- Nothing is noted behind. -/
theorem before {value : α} (h : Notes action core first) (ha : action core = .ok value after)
    (hn : Notes (next value) after []) : Notes (action >>= next) core first :=
  List.append_nil first ▸ h.bind ha hn

theorem stop {fault : Fault} (h : Notes action core first)
    (ha : action core = .error fault after) : Notes (action >>= next) core first := by
  intro trace
  have stopped : action (core.withTrace trace) =
      .error fault (after.withTrace (trace.pushAll first)) := by
    rw [h trace, ha]
    rfl
  rw [bind_error stopped, bind_error ha]
  rfl

end Notes

/-- An action only ever notes events of a kind. -/
def NotesOnly (kind : Event → Prop) (action : Action β α) : Prop :=
  ∀ core, ∃ events, (∀ event ∈ events, kind event) ∧ Notes action core events

namespace NotesOnly

variable {kind : Event → Prop} {action other : Action β α} {next : α → Action β γ}

/-- An action to which the log means nothing. -/
theorem silent (h : ∀ core trace, action (Core.withTrace core trace) = retrace trace (action core)) :
    NotesOnly kind action :=
  fun core => ⟨[], by simp, h core⟩

theorem pure (value : α) : NotesOnly kind (Pure.pure value : Action β α) :=
  silent fun _ _ => rfl

theorem bind (h : NotesOnly kind action) (hn : ∀ value, NotesOnly kind (next value)) :
    NotesOnly kind (action >>= next) := by
  intro core
  obtain ⟨first, hf, notes⟩ := h core
  cases ha : action core with
  | error fault after => exact ⟨first, hf, notes.stop ha⟩
  | ok value after =>
    obtain ⟨second, hs, later⟩ := hn value after
    refine ⟨first ++ second, ?_, notes.bind ha later⟩
    intro event he
    exact (List.mem_append.1 he).elim (hf event) (hs event)

theorem ite {c : Prop} [Decidable c] (ht : NotesOnly kind action) (hf : NotesOnly kind other) :
    NotesOnly kind (if c then action else other) := by
  split
  · exact ht
  · exact hf

/-- An action that may note nothing notes nothing. -/
theorem none (h : NotesOnly (fun _ => False) action) (core : Core β) : Notes action core [] := by
  obtain ⟨events, hf, notes⟩ := h core
  rwa [← List.eq_nil_iff_forall_not_mem.2 hf]

end NotesOnly

/-! ## Parts of an instruction -/

section
variable {kind : Event → Prop}

theorem getCpu_notes (f : Cpu → α) : NotesOnly kind (getCpu f : Action β α) :=
  .silent fun _ _ => rfl

theorem modifyCpu_notes (f : Cpu → Cpu) : NotesOnly kind (modifyCpu f : Action β Unit) :=
  .silent fun _ _ => rfl

theorem tryCpu_notes (f : Cpu → Except Fault Cpu) : NotesOnly kind (tryCpu f : Action β Unit) := by
  refine .silent fun core trace => ?_
  simp only [tryCpu, Core.withTrace]
  split <;> rfl

theorem onBus_notes (action : EStateM Fault β α) : NotesOnly kind (onBus action) := by
  refine .silent fun core trace => ?_
  simp only [onBus, Core.withTrace]
  split <;> rfl

theorem jump_notes (address : UInt16) : NotesOnly kind (jump address : Action β Unit) :=
  modifyCpu_notes _

theorem advance_notes (bytes : UInt16) : NotesOnly kind (advance bytes : Action β Unit) :=
  modifyCpu_notes _

theorem finish_notes (change : Cpu → Cpu) : NotesOnly kind (finish change : Action β Ending) :=
  .bind (modifyCpu_notes _) fun _ => .pure _

theorem owe_notes (cycles : UInt32) : NotesOnly kind (owe cycles : Action β Unit) :=
  tryCpu_notes _

theorem stall_notes : NotesOnly kind (stall : Action β Unit) :=
  .bind (getCpu_notes _) fun _ => owe_notes _

variable [Bus β]

theorem read_notes (address : UInt16) : NotesOnly kind (read address : Action β UInt8) :=
  onBus_notes _

theorem write_notes (address : UInt16) (value : UInt8) :
    NotesOnly kind (write address value : Action β Unit) :=
  onBus_notes _

theorem takeTransfer_notes : NotesOnly kind (takeTransfer : Action β Bool) :=
  .silent fun _ _ => rfl

theorem readWord_notes (address : UInt16) : NotesOnly kind (readWord address : Action β UInt16) :=
  .bind (read_notes _) fun _ => .bind (read_notes _) fun _ => .pure _

theorem push_notes (value : UInt8) : NotesOnly kind (push value : Action β Unit) :=
  .bind (getCpu_notes _) fun _ => .bind (write_notes _ _) fun _ => modifyCpu_notes _

theorem pushWord_notes (value : UInt16) : NotesOnly kind (pushWord value : Action β Unit) :=
  .bind (push_notes _) fun _ => push_notes _

theorem pop_notes : NotesOnly kind (pop : Action β UInt8) :=
  .bind (modifyCpu_notes _) fun _ => .bind (getCpu_notes _) fun _ => read_notes _

theorem popWord_notes : NotesOnly kind (popWord : Action β UInt16) :=
  .bind pop_notes fun _ => .bind pop_notes fun _ => .pure _

theorem readZeroPageWord_notes (pointer : UInt8) :
    NotesOnly kind (readZeroPageWord pointer : Action β UInt16) :=
  .bind (read_notes _) fun _ => .bind (read_notes _) fun _ => .pure _

theorem locate_notes (mode : Mode) : NotesOnly kind (locate mode : Action β Operand) := by
  apply NotesOnly.bind (getCpu_notes _)
  intro pc
  cases mode with
  | implied | accumulator | immediate => exact .pure _
  | zeroPage | relative => exact .bind (read_notes _) fun _ => .pure _
  | zeroPageX | zeroPageY =>
    exact .bind (read_notes _) fun _ => .bind (getCpu_notes _) fun _ => .pure _
  | absolute => exact .bind (readWord_notes _) fun _ => .pure _
  | absoluteX | absoluteY =>
    exact .bind (readWord_notes _) fun _ => .bind (getCpu_notes _) fun _ => .pure _
  | indexedIndirect =>
    apply NotesOnly.bind (read_notes _)
    intro base
    apply NotesOnly.bind (getCpu_notes _)
    intro x
    exact .bind (readZeroPageWord_notes _) fun _ => .pure _
  | indirectIndexed =>
    apply NotesOnly.bind (read_notes _)
    intro pointer
    apply NotesOnly.bind (readZeroPageWord_notes _)
    intro base
    exact .bind (getCpu_notes _) fun _ => .pure _
  | indirect =>
    apply NotesOnly.bind (readWord_notes _)
    intro pointer
    exact .bind (read_notes _) fun _ => .bind (read_notes _) fun _ => .pure _

theorem readOperand_notes (mode : Mode) :
    NotesOnly kind (readOperand mode : Action β (UInt8 × UInt32)) :=
  .bind (locate_notes mode) fun _ => .bind (read_notes _) fun _ => .pure _

theorem consume_notes (mode : Mode) (f : Cpu → UInt8 → Cpu) :
    NotesOnly kind (consume mode f : Action β Ending) :=
  .bind (readOperand_notes mode) fun _ => .bind (modifyCpu_notes _) fun _ => .pure _

theorem store_notes (mode : Mode) (f : Cpu → UInt8) :
    NotesOnly kind (store mode f : Action β Ending) := by
  apply NotesOnly.bind (locate_notes mode)
  intro operand
  exact .bind (getCpu_notes _) fun _ => .bind (write_notes _ _) fun _ => .pure _

theorem update_notes (mode : Mode) (f : Update) :
    NotesOnly kind (update mode f : Action β UInt8) := by
  apply NotesOnly.ite
  · apply NotesOnly.bind (getCpu_notes _)
    intro status
    apply NotesOnly.bind (getCpu_notes _)
    intro a
    exact .bind (modifyCpu_notes _) fun _ => .pure _
  · apply NotesOnly.bind (locate_notes mode)
    intro operand
    apply NotesOnly.bind (read_notes _)
    intro value
    apply NotesOnly.bind (getCpu_notes _)
    intro status
    apply NotesOnly.bind (modifyCpu_notes _)
    intro _
    apply NotesOnly.bind (write_notes _ _)
    intro _
    exact .bind (modifyCpu_notes _) fun _ => .pure _

theorem pullStatus_notes : NotesOnly kind (pullStatus : Action β Unit) :=
  .bind pop_notes fun _ => modifyCpu_notes _

theorem enter_notes (interrupt : Interrupt) :
    NotesOnly kind (enter interrupt : Action β Unit) := by
  apply NotesOnly.bind (getCpu_notes _)
  intro pc
  apply NotesOnly.bind (pushWord_notes _)
  intro _
  apply NotesOnly.bind (getCpu_notes _)
  intro status
  apply NotesOnly.bind (push_notes _)
  intro _
  apply NotesOnly.bind (modifyCpu_notes _)
  intro _
  exact .bind (readWord_notes _) fun _ => jump_notes _

theorem perform_notes (mode : Mode) (operation : Operation) :
    NotesOnly kind (perform mode operation : Action β Ending) := by
  cases operation with
  | brk =>
    apply NotesOnly.bind (advance_notes 1)
    intro _
    exact .bind (enter_notes .brk) fun _ => .pure _
  | nop =>
    cases mode with
    | implied => exact .pure _
    | _ => exact consume_notes _ fun cpu _ => cpu
  | jmp => exact .bind (locate_notes mode) fun _ => .bind (jump_notes _) fun _ => .pure _
  | jsr =>
    apply NotesOnly.bind (locate_notes mode)
    intro target
    apply NotesOnly.bind (getCpu_notes _)
    intro pc
    exact .bind (pushWord_notes _) fun _ => .bind (jump_notes _) fun _ => .pure _
  | rts => exact .bind popWord_notes fun _ => .bind (jump_notes _) fun _ => .pure _
  | rti =>
    apply NotesOnly.bind pullStatus_notes
    intro _
    exact .bind popWord_notes fun _ => .bind (jump_notes _) fun _ => .pure _
  | transfer t => exact finish_notes _
  | setFlag flag value => exact finish_notes _
  | branch flag wanted =>
    apply NotesOnly.bind (locate_notes mode)
    intro target
    apply NotesOnly.bind (getCpu_notes _)
    intro status
    exact .ite (.bind (jump_notes _) fun _ => .pure _) (.pure _)
  | increment r => exact finish_notes _
  | decrement r => exact finish_notes _
  | pha => exact .bind (getCpu_notes _) fun _ => .bind (push_notes _) fun _ => .pure _
  | pla => exact .bind pop_notes fun _ => finish_notes _
  | php => exact .bind (getCpu_notes _) fun _ => .bind (push_notes _) fun _ => .pure _
  | plp => exact .bind pullStatus_notes fun _ => .pure _
  | bit => exact .bind (readOperand_notes mode) fun _ => finish_notes _
  | load r => exact consume_notes mode fun cpu value => cpu.setRegister value r
  | store r => exact store_notes mode _
  | update f => exact .bind (update_notes mode f) fun _ => .pure _
  | alu f => exact consume_notes mode _
  | compare r => exact consume_notes mode _
  | combined f =>
    apply NotesOnly.bind (update_notes mode f.update)
    intro value
    exact finish_notes fun cpu => cpu.combine f.alu value
  | lax => exact consume_notes mode fun cpu value => (cpu.setA value).setRegister value .x
  | sax => exact store_notes mode _
  | anc | alr | arr | sbx => exact consume_notes mode _

end

/-! ## Cycles and interrupts -/

variable [Bus β]

/-- What a step notes: the instruction it finds, with the registers as they are before it. -/
def stepEvents (core : Core β) : List Event :=
  match Bus.read core.cpu.pc core.bus with
  | .ok code _ => ((decode? code).map fun opcode => .instruction core.cpu opcode).toList
  | .error _ _ => []

/-- A cycle notes something when a step is due. -/
def cycleEvents (core : Core β) : List Event :=
  if core.cpu.cycles.toNat + 1 < UInt64.size ∧ core.cpu.pending ≤ 1 then
    stepEvents
      { core with cpu := { core.cpu with cycles := core.cpu.cycles + 1, pending := 0 } }
  else []

/-- The event of an instruction that runs. -/
def IsInstruction (event : Event) : Prop := ∃ before opcode, event = .instruction before opcode

theorem isInstruction_of_cycle {core : Core β} {event : Event} (h : event ∈ cycleEvents core) :
    IsInstruction event := by
  unfold cycleEvents stepEvents at h
  split at h
  · split at h
    · obtain ⟨opcode, -, rfl⟩ := Option.map_eq_some_iff.1 (Option.mem_toList.1 h)
      exact ⟨_, opcode, rfl⟩
    · cases h
  · cases h

theorem read_eq (address : UInt16) (core : Core β) : (read address : Action β UInt8) core =
    match Bus.read address core.bus with
    | .ok value bus => .ok value { core with bus := bus }
    | .error fault bus => .error fault { core with bus := bus } := by
  simp only [read, onBus]
  cases Bus.read address core.bus <;> rfl

/-- Behind its note an instruction is silent. -/
theorem step_notes (core : Core β) : Notes step core (stepEvents core) := by
  have fetched : (getCpu Cpu.pc : Action β UInt16) core = .ok core.cpu.pc core := rfl
  refine ((getCpu_notes Cpu.pc).none core).behind fetched ?_
  have silent := (read_notes core.cpu.pc).none core
  cases hr : Bus.read core.cpu.pc core.bus with
  | error fault bus =>
    have silence : stepEvents core = [] := by simp only [stepEvents, hr]
    have stopped : (read core.cpu.pc : Action β UInt8) core =
        .error fault { core with bus := bus } := by rw [read_eq, hr]
    rw [silence]
    exact silent.stop stopped
  | ok code bus =>
    have found : stepEvents core =
        ((decode? code).map fun opcode => .instruction core.cpu opcode).toList := by
      simp only [stepEvents, hr]
    have answered : (read core.cpu.pc : Action β UInt8) core =
        .ok code { core with bus := bus } := by rw [read_eq, hr]
    rw [found]
    apply silent.behind answered
    cases decode? code with
    | none => exact NotesOnly.none (.bind (advance_notes 1) fun _ => owe_notes 2) _
    | some opcode =>
      have noted : Notes (note (.instruction core.cpu opcode))
          { core with bus := bus } [.instruction core.cpu opcode] := fun _ => rfl
      refine ((getCpu_notes id).none _).behind rfl ?_
      refine noted.before rfl (NotesOnly.none ?_ _)
      apply NotesOnly.bind (advance_notes 1)
      intro _
      apply NotesOnly.bind (perform_notes _ _)
      intro ending
      have transfer : NotesOnly (fun _ => False)
          (do if ← takeTransfer then stall : Action β Unit) :=
        .bind takeTransfer_notes fun _ => .ite stall_notes (.pure _)
      cases ending with
      | next extra =>
        exact .bind (advance_notes _) fun _ => .bind (owe_notes _) fun _ => transfer
      | jumped extra => exact .bind (owe_notes _) fun _ => transfer

theorem cycle_notes (core : Core β) : Notes cycle core (cycleEvents core) := by
  let count : Action β Unit := tryCpu fun cpu =>
    return { cpu with cycles := ← addCount64 cpu.cycles 1 }
  have silent : Notes count core [] := (tryCpu_notes _).none core
  obtain ⟨cpu, bus, trace⟩ := core
  by_cases room : cpu.cycles.toNat + 1 < UInt64.size
  · have counted : count ⟨cpu, bus, trace⟩ =
        .ok () ⟨{ cpu with cycles := cpu.cycles + 1 }, bus, trace⟩ := by
      have added : addCount64 cpu.cycles 1 = .ok (cpu.cycles + 1) := if_pos room
      simp only [count, tryCpu, added]
      rfl
    refine silent.behind counted (((getCpu_notes Cpu.pending).none _).behind rfl ?_)
    by_cases waits : cpu.pending > 1
    · have silence : cycleEvents ⟨cpu, bus, trace⟩ = [] :=
        if_neg fun both => absurd both.2 (UInt32.not_le.2 waits)
      rw [silence]
      show Notes (if cpu.pending > 1 then _ else _) _ _
      rw [if_pos waits]
      exact (modifyCpu_notes _).none _
    · have due : cycleEvents ⟨cpu, bus, trace⟩ = stepEvents
          ⟨{ cpu with cycles := cpu.cycles + 1, pending := 0 }, bus, trace⟩ :=
        if_pos ⟨room, UInt32.not_lt.1 waits⟩
      rw [due]
      show Notes (if cpu.pending > 1 then _ else _) _ _
      rw [if_neg waits]
      exact ((modifyCpu_notes _).none _).behind rfl (step_notes _)
  · have stopped : count ⟨cpu, bus, trace⟩ = .error .overflow ⟨cpu, bus, trace⟩ := by
      have full : addCount64 cpu.cycles 1 = .error .overflow := if_neg room
      simp only [count, tryCpu, full]
      rfl
    have silence : cycleEvents ⟨cpu, bus, trace⟩ = [] := if_neg fun both => room both.1
    rw [silence]
    exact silent.stop stopped

/-- An interrupt that is served notes itself once, and one that is masked does nothing. -/
theorem request_notes (kind : Interrupt) (core : Core β) : Notes (interrupt kind) core
    (if kind.isMaskable && core.cpu.status.interruptDisable then [] else [.interrupt kind]) := by
  have served : ∀ core : Core β, Notes
      (do note (.interrupt kind); enter kind; owe kind.cycles) core [.interrupt kind] := by
    intro core
    have noted : Notes (note (.interrupt kind)) core [.interrupt kind] := fun _ => rfl
    have entered : NotesOnly (fun _ => False)
        (do enter kind; owe kind.cycles : Action β Unit) :=
      .bind (enter_notes kind) fun _ => owe_notes _
    exact noted.bind rfl (entered.none _)
  have asked := (getCpu_notes (β := β) Cpu.status).none core
  cases masked : kind.isMaskable && core.cpu.status.interruptDisable with
  | true =>
    refine asked.bind rfl ?_
    show Notes (if (kind.isMaskable && core.cpu.status.interruptDisable) = true then _ else _) _ _
    rw [masked]
    exact fun _ => rfl
  | false =>
    refine asked.bind rfl ?_
    show Notes (if (kind.isMaskable && core.cpu.status.interruptDisable) = true then _ else _) _ _
    rw [masked]
    cases kind with
    | brk => exact ((advance_notes 1).none core).bind rfl (served _)
    | nmi | irq => exact served core

/-- The interrupt that cannot be masked is always served, and noted once. -/
theorem interrupt_notes (core : Core β) :
    Notes (interrupt .nmi) core [.interrupt .nmi] :=
  request_notes .nmi core

end Cpu

end Famicom
