import Famicom.Proofs.Cpu.FlatMemory
import Famicom.Proofs.Cpu.Moves
import Famicom.Proofs.Cpu.Step

/-!
# Break bits

Bits 4 and 5 of the status are no flags of the processor: its own status holds the one clear and the
other set whatever happens. On the stack they tell a status that a program put there from one that an
interrupt did.
-/

namespace Famicom.Cpu

/-- What bits 4 and 5 are in a status that the processor works with. -/
structure Status.IsLive (status : Status) : Prop where
  unused : status.unused = true
  brk : status.brk = false

/-- A byte on the stack that stands for a status: bit 5 is set, bit 4 says whether a program put it
there, and the flags are those of the status. -/
structure Status.IsCopy (status : Status) (byProgram : Bool) (byte : UInt8) : Prop where
  bit5 : byte &&& 0x20 ≠ 0
  bit4 : byte &&& 0x10 ≠ 0 ↔ byProgram = true
  flags : byte &&& 0xCF = status.toByte &&& 0xCF

variable {β α γ : Type}

/-! ## The live status -/

theorem live_tolerated : ToleratesAll fun c d : Cpu => c.status.IsLive → d.status.IsLive where
  refl _ := id
  trans first second := second ∘ first
  sp _ _ := id
  load _ _ r live := by cases r <;> exact ⟨live.unused, live.brk⟩
  flags _ _ unused brk live := ⟨unused.trans live.unused, brk.trans live.brk⟩
  pull _ _ _ := ⟨rfl, rfl⟩
  jump _ _ := id
  clock _ _ _ := id

/-- What becomes of a core from power-on or a reset on, whichever calls are made and however they
end. Between two calls the bus may change at will. -/
inductive Core.Reachable [Bus β] : Core β → Prop
  | powerOn (bus : β) (trace : Trace) : Reachable ⟨.powerOn, bus, trace⟩
  | reset (core : Core β) : Reachable (reached Cpu.reset core)
  | call {core : Core β} (call : Call) : Reachable core → Reachable (reached call.run core)
  | rewire {core : Core β} (bus : β) : Reachable core → Reachable { core with bus := bus }

theorem powerOn_live : Status.powerOn.IsLive := ⟨rfl, rfl⟩

theorem reset_live [Bus β] (core : Core β) : (reached reset core).cpu.status.IsLive := by
  have kept : ToleratesAll fun c d : Cpu => c.status.IsLive → d.status.IsLive := live_tolerated
  have rest : Obeys (fun c d : Cpu => c.status.IsLive → d.status.IsLive) (do
      let start ← readWord resetVector
      modifyCpu fun cpu => { cpu with pc := start, pending := 0, cycles := 0 } : Action β Unit) := by
    refine .bind kept.toTolerates (readWord_obeys kept.toTolerates _) fun _ => ?_
    exact modifyCpu_obeys fun _ => id
  exact rest { core with cpu := { core.cpu with
    a := 0, x := 0, y := 0, sp := stackReset, status := .powerOn } } powerOn_live

theorem Core.Reachable.live [Bus β] {core : Core β} (h : core.Reachable) :
    core.cpu.status.IsLive := by
  induction h with
  | powerOn => exact powerOn_live
  | reset core => exact reset_live core
  | call call _ ih => exact call_obeys live_tolerated call _ ih
  | rewire _ _ ih => exact ih

/-! ## Pushed copies -/

theorem hardware_copy {status : Status} (live : status.IsLive) :
    status.IsCopy false (status.toByte ||| 0x20) := by
  obtain ⟨n, v, _, _, d, i, z, c⟩ := status
  obtain ⟨rfl, rfl⟩ := live
  constructor <;> revert n v d i z c <;> decide

theorem program_copy {status : Status} (live : status.IsLive) :
    status.IsCopy true (status.toByte ||| 0x30) := by
  obtain ⟨n, v, _, _, d, i, z, c⟩ := status
  obtain ⟨rfl, rfl⟩ := live
  constructor <;> revert n v d i z c <;> decide

theorem pushed_copy {status : Status} (live : status.IsLive) (kind : Interrupt) :
    status.IsCopy (kind = .brk) (status.toByte ||| kind.pushedBits) := by
  cases kind with
  | nmi | irq => exact hardware_copy live
  | brk => exact program_copy live

/-! ## Writes on record -/

/-- A core whose bus starts a record. -/
def Core.recorded (core : Core β) : Core (Recorded β) := ⟨core.cpu, { bus := core.bus }, core.trace⟩

def Core.writes (core : Core (Recorded β)) : List Access :=
  core.bus.accesses.toList.filter Access.isWrite

/-- An action makes these writes in order, or stops behind the first few of them. -/
def Writes (action : Action (Recorded β) α) (core : Core (Recorded β)) (expected : List Access) :
    Prop :=
  ∃ done, done <+: expected ∧ (reached action core).writes = core.writes ++ done ∧
    ∀ value after, action core = .ok value after → done = expected

/-- The writes that put bytes on the stack, the first at the stack pointer. -/
def pushes : UInt8 → List UInt8 → List Access
  | _, [] => []
  | sp, value :: rest => ⟨true, stackStart + sp.toUInt16, value⟩ :: pushes (sp - 1) rest

/-- The bytes of a word in the order in which they are pushed. -/
def wordBytes (value : UInt16) : List UInt8 := [(value >>> 8).toUInt8, value.toUInt8]

/-- An action that never writes. -/
def Unwritten (action : Action (Recorded β) α) : Prop :=
  ∀ core, (reached action core).writes = core.writes

section
variable {action other : Action (Recorded β) α} {next : α → Action (Recorded β) γ}
variable {core : Core (Recorded β)} {first second : List Access}

theorem Unwritten.pure (value : α) : Unwritten (Pure.pure value : Action (Recorded β) α) :=
  fun _ => rfl

theorem Unwritten.bind (h : Unwritten action) (hn : ∀ value, Unwritten (next value)) :
    Unwritten (action >>= next) := by
  intro core
  have kept := h core
  cases ha : action core with
  | ok value after =>
    rw [reached_ok ha] at kept
    rw [reached_bind_ok ha, hn value after, kept]
  | error fault after =>
    rw [reached_error ha] at kept
    rw [reached_bind_error ha, kept]

theorem Unwritten.ite {c : Prop} [Decidable c] (ht : Unwritten action) (hf : Unwritten other) :
    Unwritten (if c then action else other) := by
  split
  · exact ht
  · exact hf

theorem Unwritten.writes (h : Unwritten action) (core : Core (Recorded β)) :
    Writes action core [] :=
  ⟨[], List.prefix_refl [], by rw [h core, List.append_nil], fun _ _ _ => rfl⟩

theorem Writes.bind (h : Writes action core first)
    (hn : ∀ value after, action core = .ok value after → Writes (next value) after second) :
    Writes (action >>= next) core (first ++ second) := by
  obtain ⟨done, begun, recorded, ended⟩ := h
  cases ha : action core with
  | ok value after =>
    obtain rfl := ended value after ha
    obtain ⟨more, begun', recorded', ended'⟩ := hn value after ha
    rw [reached_ok ha] at recorded
    refine ⟨done ++ more, (List.prefix_append_right_inj done).2 begun', ?_, ?_⟩
    · rw [reached_bind_ok ha, recorded', recorded, List.append_assoc]
    · intro result final hf
      rw [bind_ok ha] at hf
      rw [ended' result final hf]
  | error fault after =>
    rw [reached_error ha] at recorded
    refine ⟨done, begun.trans (List.prefix_append first second), ?_, ?_⟩
    · rw [reached_bind_error ha, recorded]
    · intro result final hf
      rw [bind_error ha] at hf
      cases hf

/-- What comes before the writes of an action writes nothing. -/
theorem Writes.behind (h : Unwritten action)
    (hn : ∀ value after, action core = .ok value after → Writes (next value) after second) :
    Writes (action >>= next) core second :=
  (h.writes core).bind hn

/-- What comes behind the writes of an action writes nothing. -/
theorem Writes.before (h : Writes action core first) (hn : ∀ value, Unwritten (next value)) :
    Writes (action >>= next) core first := by
  have joined := h.bind fun value after _ => (hn value).writes after
  rwa [List.append_nil] at joined

end

theorem getCpu_unwritten (f : Cpu → α) : Unwritten (getCpu f : Action (Recorded β) α) :=
  fun _ => rfl

theorem modifyCpu_unwritten (f : Cpu → Cpu) :
    Unwritten (modifyCpu f : Action (Recorded β) Unit) :=
  fun _ => rfl

theorem tryCpu_unwritten (f : Cpu → Except Fault Cpu) :
    Unwritten (tryCpu f : Action (Recorded β) Unit) := by
  intro core
  simp only [reached, tryCpu]
  cases f core.cpu <;> rfl

theorem note_unwritten (event : Event) : Unwritten (note event : Action (Recorded β) Unit) :=
  fun _ => rfl

theorem owe_unwritten (cycles : UInt32) : Unwritten (owe cycles : Action (Recorded β) Unit) :=
  tryCpu_unwritten _

variable [Bus β]

theorem read_unwritten (address : UInt16) :
    Unwritten (read address : Action (Recorded β) UInt8) := by
  intro core
  unfold reached read onBus Core.writes
  dsimp only [Bus.read]
  cases Bus.read address core.bus.bus with
  | ok value bus => simp
  | error fault bus => rfl

theorem readWord_unwritten (address : UInt16) :
    Unwritten (readWord address : Action (Recorded β) UInt16) :=
  .bind (read_unwritten _) fun _ => .bind (read_unwritten _) fun _ => .pure _

theorem settle_unwritten :
    Unwritten (do if ← takeTransfer then stall : Action (Recorded β) Unit) := by
  have take : Unwritten (takeTransfer : Action (Recorded β) Bool) := fun _ => rfl
  refine .bind take fun _ => .ite ?_ (.pure _)
  exact .bind (getCpu_unwritten _) fun _ => owe_unwritten _

theorem write_writes (address : UInt16) (value : UInt8) (core : Core (Recorded β)) :
    Writes (write address value) core [⟨true, address, value⟩] := by
  obtain ⟨cpu, ⟨bus, accesses⟩, trace⟩ := core
  unfold Writes reached write onBus Core.writes
  dsimp only [Bus.write]
  cases Bus.write address value bus with
  | ok _ bus => exact ⟨_, List.prefix_refl _, by simp, fun _ _ _ => rfl⟩
  | error fault bus => exact ⟨[], List.nil_prefix, by simp, fun _ _ h => nomatch h⟩

/-! ## Pushes on record -/

variable {core after : Core (Recorded β)}

theorem push_cpu {value : UInt8} {answer : Unit} (h : push value core = .ok answer after) :
    after.cpu = { core.cpu with sp := core.cpu.sp - 1 } := by
  obtain ⟨_, _, hg, h⟩ := of_bind_ok h
  cases hg
  obtain ⟨_, written, hw, h⟩ := of_bind_ok h
  cases h
  have kept : written.cpu = core.cpu := by
    simp only [write, onBus] at hw
    split at hw <;> cases hw
    rfl
  rw [← kept]

theorem push_writes (value : UInt8) (core : Core (Recorded β)) :
    Writes (push value) core (pushes core.cpu.sp [value]) := by
  refine .behind (getCpu_unwritten _) ?_
  intro sp found hf
  cases hf
  exact (write_writes _ value core).before fun _ => modifyCpu_unwritten _

theorem pushWord_writes (value : UInt16) (core : Core (Recorded β)) :
    Writes (pushWord value) core (pushes core.cpu.sp (wordBytes value)) := by
  show Writes _ core (pushes core.cpu.sp [_] ++ pushes (core.cpu.sp - 1) [_])
  refine (push_writes _ core).bind ?_
  intro _ pushed hp
  have second := push_writes value.toUInt8 pushed
  rwa [push_cpu hp] at second

theorem pushWord_cpu {value : UInt16} {answer : Unit} (h : pushWord value core = .ok answer after) :
    after.cpu = { core.cpu with sp := core.cpu.sp - 1 - 1 } := by
  obtain ⟨_, pushed, hp, h⟩ := of_bind_ok h
  rw [push_cpu h, push_cpu hp]

/-- What an interrupt puts on the stack of a processor that is to go on at `pc`. -/
def savedBytes (pc : UInt16) (status : Status) (kind : Interrupt) : List UInt8 :=
  wordBytes pc ++ [status.toByte ||| kind.pushedBits]

theorem enter_writes (kind : Interrupt) (core : Core (Recorded β)) :
    Writes (enter kind) core
      (pushes core.cpu.sp (savedBytes core.cpu.pc core.cpu.status kind)) := by
  refine .behind (getCpu_unwritten _) ?_
  intro pc found hf
  cases hf
  show Writes _ core (pushes core.cpu.sp (wordBytes _) ++ pushes (core.cpu.sp - 1 - 1) [_])
  refine (pushWord_writes core.cpu.pc core).bind ?_
  intro _ pushed hp
  refine .behind (getCpu_unwritten _) ?_
  intro status found hf
  cases hf
  have last := push_writes (pushed.cpu.status.toByte ||| kind.pushedBits) pushed
  rw [pushWord_cpu hp] at last ⊢
  refine last.before fun _ => ?_
  refine .bind (modifyCpu_unwritten _) fun _ => ?_
  exact .bind (readWord_unwritten _) fun _ => modifyCpu_unwritten _

theorem interrupt_writes {kind : Interrupt}
    (served : (kind.isMaskable && core.cpu.status.interruptDisable) = false) :
    Writes (interrupt kind) core (pushes core.cpu.sp
      (savedBytes (resumePc kind core.cpu.pc) core.cpu.status kind)) := by
  have entered : ∀ core : Core (Recorded β),
      Writes (do note (.interrupt kind); enter kind; owe kind.cycles) core
        (pushes core.cpu.sp (savedBytes core.cpu.pc core.cpu.status kind)) := by
    intro core
    refine .behind (note_unwritten _) ?_
    intro _ noted hn
    cases hn
    exact (enter_writes kind _).before fun _ => owe_unwritten _
  refine .behind (getCpu_unwritten _) ?_
  intro status found hf
  cases hf
  rw [served]
  cases kind with
  | brk => exact entered { core with cpu := { core.cpu with pc := core.cpu.pc + 1 } }
  | nmi | irq => exact entered core

/-! ## Instructions on record -/

/-- A cycle that runs an instruction writes what the instruction writes. -/
theorem cycle_performs {code : UInt8} {opcode : Opcode} {bus : β} {expected : List Access}
    (due : core.cpu.pending ≤ 1) (hr : Bus.read core.cpu.pc core.bus.bus = .ok code bus)
    (hd : decode? code = some opcode)
    (hw : ∀ accesses, Writes (perform opcode.mode opcode.operation)
      (core.due.fetched opcode ⟨bus, accesses⟩) expected) :
    Writes cycle core expected := by
  refine .behind (tryCpu_unwritten _) ?_
  intro _ counted hc
  obtain ⟨-, rfl⟩ := count_eq hc
  refine .behind (getCpu_unwritten _) ?_
  intro pending found hf
  cases hf
  rw [if_neg (UInt32.not_lt.2 due)]
  refine .behind (modifyCpu_unwritten _) ?_
  intro _ ready hm
  cases hm
  refine .behind (getCpu_unwritten _) ?_
  intro pc found hf
  cases hf
  refine .behind (read_unwritten _) ?_
  intro fetched found hf
  simp only [read, onBus, Bus.read, hr] at hf
  cases hf
  rw [hd]
  refine .behind (getCpu_unwritten _) ?_
  intro before found hf
  cases hf
  refine .behind (note_unwritten _) ?_
  intro _ noted hn
  cases hn
  refine .behind (modifyCpu_unwritten _) ?_
  intro _ advanced ha
  cases ha
  refine Writes.before (hw _) ?_
  intro ending
  cases ending with
  | next extra =>
    exact .bind (modifyCpu_unwritten _) fun _ => .bind (owe_unwritten _) fun _ => settle_unwritten
  | jumped extra => exact .bind (owe_unwritten _) fun _ => settle_unwritten

theorem cycle_writes {code : UInt8} {opcode : Opcode} {bus : β} {expected : List Access}
    (due : core.cpu.pending ≤ 1) (hr : Bus.read core.cpu.pc core.bus.bus = .ok code bus)
    (hd : decode? code = some opcode)
    (hw : ∀ found : Core (Recorded β), found.cpu.status = core.cpu.status →
      found.cpu.sp = core.cpu.sp → found.cpu.pc = core.cpu.pc + 1 →
      Writes (perform opcode.mode opcode.operation) found expected) :
    Writes cycle core expected :=
  cycle_performs due hr hd fun _ => hw _ rfl rfl rfl

theorem php_writes (mode : Mode) (core : Core (Recorded β)) :
    Writes (perform mode .php) core
      (pushes core.cpu.sp [core.cpu.status.toByte ||| Interrupt.brk.pushedBits]) := by
  refine .behind (getCpu_unwritten _) ?_
  intro status found hf
  cases hf
  exact (push_writes _ core).before fun _ => .pure _

theorem brk_writes (mode : Mode) (core : Core (Recorded β)) :
    Writes (perform mode .brk) core
      (pushes core.cpu.sp (savedBytes (core.cpu.pc + 1) core.cpu.status .brk)) := by
  refine .behind (modifyCpu_unwritten _) ?_
  intro _ advanced ha
  cases ha
  exact (enter_writes .brk _).before fun _ => .pure _

/-- From power-on or a reset on, on any bus: bit 5 of the status is set and bit 4 clear. The status
that an interrupt saves has them so as well, the one that PHP or BRK saves has both set, and the
flags are those from before the push. -/
theorem break_bits_tell {core : Core β} (h : core.Reachable) :
    core.cpu.status.IsLive ∧
      (∀ kind : Interrupt, ¬(kind = .irq ∧ core.cpu.status.interruptDisable = true) →
        ∃ byte, core.cpu.status.IsCopy (kind = .brk) byte ∧
          Writes (interrupt kind) core.recorded
            (pushes core.cpu.sp (wordBytes (resumePc kind core.cpu.pc) ++ [byte]))) ∧
      ∀ code opcode bus, core.cpu.pending ≤ 1 →
        Bus.read core.cpu.pc core.bus = .ok code bus → decode? code = some opcode →
        (opcode.operation = .php → ∃ byte, core.cpu.status.IsCopy true byte ∧
          Writes cycle core.recorded (pushes core.cpu.sp [byte])) ∧
        (opcode.operation = .brk → ∃ byte, core.cpu.status.IsCopy true byte ∧
          Writes cycle core.recorded
            (pushes core.cpu.sp (wordBytes (core.cpu.pc + 1 + 1) ++ [byte]))) := by
  have live := h.live
  refine ⟨live, ?_, ?_⟩
  · intro kind unmasked
    exact ⟨_, pushed_copy live kind, interrupt_writes (not_masked unmasked)⟩
  · intro code opcode bus due hr hd
    have due' : core.recorded.cpu.pending ≤ 1 := due
    refine ⟨fun php => ⟨_, program_copy live, ?_⟩, fun brk => ⟨_, program_copy live, ?_⟩⟩
    · refine cycle_writes due' hr hd ?_
      intro found status sp _
      have writes := php_writes opcode.mode found
      rw [status, sp] at writes
      rw [php]
      exact writes
    · refine cycle_writes due' hr hd ?_
      intro found status sp pc
      have writes := brk_writes opcode.mode found
      rw [status, sp, pc] at writes
      rw [brk]
      exact writes

/-- A processor at power-on whose first instruction is PHP. -/
def beforePhp : Core FlatMemory := ⟨.powerOn, FlatMemory.blank.poke 0 0x08, .fresh⟩

/-- PHP marks its copy, and the interrupt behind it does not. -/
theorem php_then_nmi :
    (∃ byte, Status.powerOn.IsCopy true byte ∧
      Writes cycle beforePhp.recorded (pushes 0xFD [byte])) ∧
    ∃ byte, (reached cycle beforePhp).cpu.status.IsCopy false byte ∧
      Writes (interrupt .nmi) (reached cycle beforePhp).recorded
        (pushes (reached cycle beforePhp).cpu.sp
          (wordBytes (reached cycle beforePhp).cpu.pc ++ [byte])) := by
  have start : beforePhp.Reachable := .powerOn _ _
  have first : beforePhp.bus.fetch beforePhp.cpu.pc = 0x08 := FlatMemory.fetch_poke _ 0 0x08 0
  have php : decode? 0x08 = some ⟨.php, .implied, 1, 3, true⟩ := by decide +kernel
  refine ⟨?_, ?_⟩
  · refine ((break_bits_tell start).2.2 0x08 _ beforePhp.bus (by decide) ?_ php).1 rfl
    rw [FlatMemory.read_eq, first]
  · have later : (reached cycle beforePhp).Reachable := start.call .cycle
    exact (break_bits_tell later).2.1 .nmi fun masked => nomatch masked.1

end Famicom.Cpu
