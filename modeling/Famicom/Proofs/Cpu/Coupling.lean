import Famicom.Cpu.Execute
import Famicom.Proofs.Coupling

/-!
# The processor on related buses

Two equal processors on buses that answer alike stay equal. They never fault, the cycles that an
instruction costs are bounded, and their clocks keep step.
-/

namespace Famicom.Cpu

/-- A change of registers that leaves the clock alone. -/
def KeepsClock (f : Cpu → Cpu) : Prop :=
  ∀ cpu, (f cpu).pending = cpu.pending ∧ (f cpu).cycles = cpu.cycles

theorem setRegister_keepsClock (value : UInt8) (r : Register) :
    KeepsClock fun cpu => cpu.setRegister value r := by
  intro cpu
  cases r <;> exact ⟨rfl, rfl⟩

theorem transfer_keepsClock (t : Transfer) : KeepsClock fun cpu => cpu.transfer t := by
  intro cpu
  cases t <;> exact ⟨rfl, rfl⟩

theorem combine_keepsClock (f : Alu) (value : UInt8) :
    KeepsClock fun cpu => cpu.combine f value := by
  intro cpu
  cases f <;> exact ⟨rfl, rfl⟩

variable {β : Type}

/-- Cores with equal processors on related buses. They owe `owed` cycles and have run `run`. -/
structure Paired (bus : β → β → Prop) (owed : UInt32) (run : UInt64) (c d : Core β) : Prop where
  cpu : c.cpu = d.cpu
  owed : c.cpu.pending = owed
  run : c.cpu.cycles = run
  bus : bus c.bus d.bus

variable {bus bus' : β → β → Prop} {owed : UInt32} {run : UInt64} {α : Type}

theorem Paired.mono {c d : Core β} (h : Paired bus owed run c d) (hb : ∀ s t, bus s t → bus' s t) :
    Paired bus' owed run c d :=
  ⟨h.cpu, h.owed, h.run, hb _ _ h.bus⟩

theorem getCpu_coupled (f : Cpu → α) :
    Coupled (Paired bus owed run) (getCpu f) (fun _ => Paired bus owed run) never := by
  rintro ⟨cpu, b, trace⟩ ⟨cpu', b', trace'⟩ h
  cases h.cpu
  exact .ok h

theorem modifyCpu_coupled {f : Cpu → Cpu} (hf : KeepsClock f) :
    Coupled (Paired bus owed run) (modifyCpu f) (fun _ => Paired bus owed run) never := by
  rintro ⟨cpu, b, trace⟩ ⟨cpu', b', trace'⟩ ⟨rfl, ho, hr, hb⟩
  exact .ok ⟨rfl, (hf cpu).1.trans ho, (hf cpu).2.trans hr, hb⟩

theorem note_coupled (event : Event) :
    Coupled (Paired bus owed run) (note event) (fun _ => Paired bus owed run) never := by
  rintro ⟨cpu, b, trace⟩ ⟨cpu', b', trace'⟩ ⟨rfl, ho, hr, hb⟩
  exact .ok ⟨rfl, ho, hr, hb⟩

theorem onBus_coupled {action : EStateM Fault β α}
    (h : Coupled bus action (fun _ => bus') never) :
    Coupled (Paired bus owed run) (onBus action) (fun _ => Paired bus' owed run) never := by
  rintro ⟨cpu, b, trace⟩ ⟨cpu', b', trace'⟩ ⟨rfl, ho, hr, hb⟩
  obtain ⟨value, s, t, hs, ht, hst⟩ := (h b b' hb).exists_ok
  simp only [onBus, hs, ht]
  exact .ok ⟨rfl, ho, hr, hst⟩

theorem jump_coupled (address : UInt16) :
    Coupled (Paired bus owed run) (jump address) (fun _ => Paired bus owed run) never :=
  modifyCpu_coupled fun _ => ⟨rfl, rfl⟩

theorem advance_coupled (bytes : UInt16) :
    Coupled (Paired bus owed run) (advance bytes) (fun _ => Paired bus owed run) never :=
  modifyCpu_coupled fun _ => ⟨rfl, rfl⟩

/-- What an instruction costs beyond its opcode. -/
def Ending.extra : Ending → UInt32
  | .next extra => extra
  | .jumped extra => extra

/-- Equal processors behind an instruction that cost little more than its opcode says. -/
def Ended (bus : β → β → Prop) (owed : UInt32) (run : UInt64) (ending : Ending) (c d : Core β) :
    Prop :=
  ending.extra ≤ 2 ∧ Paired bus owed run c d

theorem ended {ending : Ending} (h : ending.extra ≤ 2) :
    Coupled (Paired bus owed run) (pure ending : Action β Ending) (Ended bus owed run) never :=
  .pure fun _ _ hcd => ⟨h, hcd⟩

theorem finish_coupled {f : Cpu → Cpu} (hf : KeepsClock f) :
    Coupled (Paired bus owed run) (finish f : Action β Ending) (Ended bus owed run) never :=
  (modifyCpu_coupled hf).bind fun _ => ended (by decide)

variable [Bus β]

/-- What a relation of buses must keep so that equal processors on them stay equal. -/
structure Readable (bus : β → β → Prop) : Prop where
  read : ∀ address, Coupled bus (Bus.read address) (fun _ => bus) never

/-- Pushes only reach page 1. -/
structure Pushable (bus : β → β → Prop) : Prop extends Readable bus where
  push : ∀ (sp value : UInt8),
    Coupled bus (Bus.write (stackStart + sp.toUInt16) value) (fun _ => bus) never

structure Writable (bus : β → β → Prop) : Prop extends Readable bus where
  write : ∀ address value, Coupled bus (Bus.write address value) (fun _ => bus) never

theorem Writable.pushable (h : Writable bus) : Pushable bus :=
  ⟨h.toReadable, fun sp value => h.write (stackStart + sp.toUInt16) value⟩

theorem read_coupled (h : Readable bus) (address : UInt16) :
    Coupled (Paired bus owed run) (read address) (fun _ => Paired bus owed run) never :=
  onBus_coupled (h.read address)

theorem write_coupled (h : Writable bus) (address : UInt16) (value : UInt8) :
    Coupled (Paired bus owed run) (write address value) (fun _ => Paired bus owed run) never :=
  onBus_coupled (h.write address value)

theorem readWord_coupled (h : Readable bus) (address : UInt16) :
    Coupled (Paired bus owed run) (readWord address) (fun _ => Paired bus owed run) never := by
  apply (read_coupled h _).bind
  intro low
  apply (read_coupled h _).bind
  intro high
  exact .pure fun _ _ => id

theorem push_coupled (h : Pushable bus) (value : UInt8) :
    Coupled (Paired bus owed run) (push value) (fun _ => Paired bus owed run) never := by
  apply (getCpu_coupled Cpu.sp).bind
  intro sp
  apply (onBus_coupled (h.push sp value)).bind
  intro _
  exact modifyCpu_coupled fun _ => ⟨rfl, rfl⟩

theorem pushWord_coupled (h : Pushable bus) (value : UInt16) :
    Coupled (Paired bus owed run) (pushWord value) (fun _ => Paired bus owed run) never :=
  (push_coupled h _).bind fun _ => push_coupled h _

theorem pop_coupled (h : Readable bus) :
    Coupled (Paired bus owed run) pop (fun _ => Paired bus owed run) never := by
  refine .bind (modifyCpu_coupled ?_) fun _ => ?_
  · intro _
    exact ⟨rfl, rfl⟩
  · exact (getCpu_coupled Cpu.sp).bind fun sp => read_coupled h _

theorem popWord_coupled (h : Readable bus) :
    Coupled (Paired bus owed run) popWord (fun _ => Paired bus owed run) never := by
  apply (pop_coupled h).bind
  intro low
  apply (pop_coupled h).bind
  intro high
  exact .pure fun _ _ => id

theorem readZeroPageWord_coupled (h : Readable bus) (pointer : UInt8) :
    Coupled (Paired bus owed run) (readZeroPageWord pointer)
      (fun _ => Paired bus owed run) never := by
  apply (read_coupled h _).bind
  intro low
  apply (read_coupled h _).bind
  intro high
  exact .pure fun _ _ => id

theorem locate_coupled (h : Readable bus) (mode : Mode) :
    Coupled (Paired bus owed run) (locate mode) (fun _ => Paired bus owed run) never := by
  apply (getCpu_coupled Cpu.pc).bind
  intro pc
  cases mode with
  | implied | accumulator | immediate => exact .pure fun _ _ => id
  | zeroPage => exact (read_coupled h _).bind fun _ => .pure fun _ _ => id
  | zeroPageX | zeroPageY =>
    apply (read_coupled h _).bind
    intro base
    exact (getCpu_coupled _).bind fun _ => .pure fun _ _ => id
  | absolute => exact (readWord_coupled h _).bind fun _ => .pure fun _ _ => id
  | absoluteX | absoluteY =>
    apply (readWord_coupled h _).bind
    intro base
    exact (getCpu_coupled _).bind fun _ => .pure fun _ _ => id
  | indexedIndirect =>
    apply (read_coupled h _).bind
    intro base
    apply (getCpu_coupled _).bind
    intro x
    exact (readZeroPageWord_coupled h _).bind fun _ => .pure fun _ _ => id
  | indirectIndexed =>
    apply (read_coupled h _).bind
    intro pointer
    apply (readZeroPageWord_coupled h _).bind
    intro base
    exact (getCpu_coupled _).bind fun _ => .pure fun _ _ => id
  | indirect =>
    apply (readWord_coupled h _).bind
    intro pointer
    apply (read_coupled h _).bind
    intro low
    exact (read_coupled h _).bind fun _ => .pure fun _ _ => id
  | relative => exact (read_coupled h _).bind fun _ => .pure fun _ _ => id

/-! ## Instructions -/

theorem charge_le (crossed : Bool) : charge crossed ≤ 1 := by
  cases crossed <;> decide

theorem readOperand_coupled (h : Readable bus) (mode : Mode) :
    Coupled (Paired bus owed run) (readOperand mode)
      (fun result c d => result.2 ≤ 1 ∧ Paired bus owed run c d) never := by
  apply (locate_coupled h mode).bind
  intro operand
  apply (read_coupled h _).bind
  intro value
  exact .pure fun c d hcd => ⟨charge_le _, hcd⟩

theorem consume_coupled (h : Readable bus) (mode : Mode) {f : Cpu → UInt8 → Cpu}
    (hf : ∀ value, KeepsClock fun cpu => f cpu value) :
    Coupled (Paired bus owed run) (consume mode f) (Ended bus owed run) never := by
  apply (readOperand_coupled h mode).bind
  rintro ⟨value, extra⟩
  refine (modifyCpu_coupled (hf value)).frame.bind fun _ => ?_
  exact .pure fun c d ⟨hx, hcd⟩ => ⟨UInt32.le_trans hx (by decide), hcd⟩

theorem store_coupled (h : Writable bus) (mode : Mode) (f : Cpu → UInt8) :
    Coupled (Paired bus owed run) (store mode f) (Ended bus owed run) never := by
  apply (locate_coupled h.toReadable mode).bind
  intro operand
  apply (getCpu_coupled f).bind
  intro value
  exact (write_coupled h _ _).bind fun _ => ended (by decide)

theorem update_coupled (h : Writable bus) (mode : Mode) (f : Update) :
    Coupled (Paired bus owed run) (update mode f) (fun _ => Paired bus owed run) never := by
  refine .ite (fun _ => ?_) fun _ => ?_
  · apply (getCpu_coupled _).bind
    intro status
    apply (getCpu_coupled _).bind
    intro a
    refine .bind (modifyCpu_coupled ?_) fun _ => .pure fun _ _ => id
    intro cpu
    exact setRegister_keepsClock _ _ _
  · apply (locate_coupled h.toReadable mode).bind
    intro operand
    apply (read_coupled h.toReadable _).bind
    intro value
    apply (getCpu_coupled _).bind
    intro status
    refine .bind (modifyCpu_coupled fun _ => ⟨rfl, rfl⟩) fun _ => ?_
    apply (write_coupled h _ _).bind
    intro _
    exact .bind (modifyCpu_coupled fun _ => ⟨rfl, rfl⟩) fun _ => .pure fun _ _ => id

theorem pullStatus_coupled (h : Readable bus) :
    Coupled (Paired bus owed run) pullStatus (fun _ => Paired bus owed run) never :=
  (pop_coupled h).bind fun _ => modifyCpu_coupled fun _ => ⟨rfl, rfl⟩

theorem enter_coupled (h : Pushable bus) (kind : Interrupt) :
    Coupled (Paired bus owed run) (enter kind) (fun _ => Paired bus owed run) never := by
  apply (getCpu_coupled Cpu.pc).bind
  intro pc
  apply (pushWord_coupled h pc).bind
  intro _
  apply (getCpu_coupled Cpu.status).bind
  intro status
  apply (push_coupled h _).bind
  intro _
  refine .bind (modifyCpu_coupled fun _ => ⟨rfl, rfl⟩) fun _ => ?_
  exact (readWord_coupled h.toReadable _).bind fun address => jump_coupled address

theorem perform_coupled (h : Writable bus) (mode : Mode) (operation : Operation) :
    Coupled (Paired bus owed run) (perform mode operation) (Ended bus owed run) never := by
  have hr := h.toReadable
  cases operation with
  | brk =>
    apply (advance_coupled 1).bind
    intro _
    exact (enter_coupled h.pushable .brk).bind fun _ => ended (by decide)
  | nop =>
    cases mode with
    | implied => exact ended (by decide)
    | _ => exact consume_coupled hr _ fun _ _ => ⟨rfl, rfl⟩
  | jmp =>
    apply (locate_coupled hr mode).bind
    intro operand
    exact (jump_coupled _).bind fun _ => ended (by decide)
  | jsr =>
    apply (locate_coupled hr mode).bind
    intro target
    apply (getCpu_coupled Cpu.pc).bind
    intro pc
    apply (pushWord_coupled h.pushable _).bind
    intro _
    exact (jump_coupled _).bind fun _ => ended (by decide)
  | rts =>
    apply (popWord_coupled hr).bind
    intro address
    exact (jump_coupled _).bind fun _ => ended (by decide)
  | rti =>
    apply (pullStatus_coupled hr).bind
    intro _
    apply (popWord_coupled hr).bind
    intro address
    exact (jump_coupled _).bind fun _ => ended (by decide)
  | transfer t => exact finish_coupled (transfer_keepsClock t)
  | setFlag flag value => exact finish_coupled fun _ => ⟨rfl, rfl⟩
  | branch flag wanted =>
    apply (locate_coupled hr mode).bind
    intro target
    apply (getCpu_coupled Cpu.status).bind
    intro status
    refine .ite (fun _ => ?_) fun _ => ended (by decide)
    refine (jump_coupled _).bind fun _ => ended ?_
    show 1 + charge target.crossed ≤ 2
    cases target.crossed <;> decide
  | increment r => exact finish_coupled fun cpu => setRegister_keepsClock _ r cpu
  | decrement r => exact finish_coupled fun cpu => setRegister_keepsClock _ r cpu
  | pha =>
    apply (getCpu_coupled Cpu.a).bind
    intro a
    exact (push_coupled h.pushable a).bind fun _ => ended (by decide)
  | pla => exact (pop_coupled hr).bind fun value => finish_coupled fun _ => ⟨rfl, rfl⟩
  | php =>
    apply (getCpu_coupled Cpu.status).bind
    intro status
    exact (push_coupled h.pushable _).bind fun _ => ended (by decide)
  | plp => exact (pullStatus_coupled hr).bind fun _ => ended (by decide)
  | bit =>
    apply (readOperand_coupled hr mode).bind
    rintro ⟨value, extra⟩
    refine .weaken (finish_coupled ?_) fun _ _ hcd => hcd.2
    intro _
    exact ⟨rfl, rfl⟩
  | load r => exact consume_coupled hr mode fun value => setRegister_keepsClock value r
  | store r => exact store_coupled h mode _
  | update f => exact (update_coupled h mode f).bind fun _ => ended (by decide)
  | alu f => exact consume_coupled hr mode fun value => combine_keepsClock f value
  | compare r => exact consume_coupled hr mode fun _ _ => ⟨rfl, rfl⟩
  | combined f =>
    apply (update_coupled h mode f.update).bind
    intro value
    exact finish_coupled (combine_keepsClock f.alu value)
  | lax =>
    unfold perform
    refine consume_coupled hr mode ?_
    intro _ _
    exact ⟨rfl, rfl⟩
  | sax => exact store_coupled h mode _
  | anc | alr | arr | sbx => exact consume_coupled hr mode fun _ _ => ⟨rfl, rfl⟩

/-! ## Cycles -/

/-- What one instruction can come to owe: eight cycles of its opcode, two beyond it, and the wait for
a sprite transfer that starts on an odd cycle. -/
def longestWait : Nat := 8 + 2 + 514

/-- What the whole matrix has, every opcode has. -/
theorem decode?_mem {p : Opcode → Prop}
    (all : ∀ entry ∈ opcodeMatrix.toList, ∀ opcode ∈ entry, p opcode) {code : UInt8}
    {opcode : Opcode} (h : decode? code = some opcode) : p opcode := by
  unfold decode? at h
  rw [Array.getD_eq_getD_getElem?] at h
  cases hc : opcodeMatrix[code.toNat]? with
  | none => simp [hc] at h
  | some entry =>
    rw [hc, Option.getD_some] at h
    exact all entry (Array.mem_def.1 (Array.mem_of_getElem? hc)) opcode h

theorem decode?_cycles_le {code : UInt8} {opcode : Opcode} (h : decode? code = some opcode) :
    opcode.cycles ≤ 8 :=
  decode?_mem (p := fun opcode => opcode.cycles ≤ 8) (by decide +kernel) h

/-- Two relations of buses: `quiet` between instructions, `loose` within one, when a sprite transfer
may have been requested. -/
structure Served (quiet loose : β → β → Prop) : Prop where
  pushable : Pushable quiet
  writable : Writable loose
  loosen : ∀ s t, quiet s t → loose s t
  settle : ∀ s t, loose s t → (Bus.takeTransfer s).1 = (Bus.takeTransfer t).1 ∧
    quiet (Bus.takeTransfer s).2 (Bus.takeTransfer t).2

variable {quiet loose : β → β → Prop}

/-- What no access to a bus breaks. -/
structure Lasting (kept : β → Prop) : Prop where
  read {address : UInt16} {value : UInt8} {s t : β} :
    kept s → Bus.read address s = .ok value t → kept t
  write {address : UInt16} {written : UInt8} {s t : β} :
    kept s → Bus.write address written s = .ok () t → kept t
  takeTransfer {s : β} : kept s → kept (Bus.takeTransfer s).2

/-- Buses that are served alike are so while the first of them keeps what no access breaks. -/
theorem Served.lasting {kept : β → Prop} (h : Served quiet loose) (lasts : Lasting kept) :
    Served (fun s t => quiet s t ∧ kept s) (fun s t => loose s t ∧ kept s) where
  pushable := ⟨⟨fun address => (h.pushable.read address).keeping fun _ _ _ => lasts.read⟩,
    fun sp value => (h.pushable.push sp value).keeping fun _ _ _ => lasts.write⟩
  writable := ⟨⟨fun address => (h.writable.read address).keeping fun _ _ _ => lasts.read⟩,
    fun address value => (h.writable.write address value).keeping fun _ _ _ => lasts.write⟩
  loosen _ _ := And.imp_left (h.loosen _ _)
  settle s t := by
    rintro ⟨alike, hs⟩
    obtain ⟨same, settled⟩ := h.settle s t alike
    exact ⟨same, settled, lasts.takeTransfer hs⟩

omit [Bus β] in
theorem owe_coupled {cycles : UInt32} (h : owed.toNat + cycles.toNat < UInt32.size) :
    Coupled (Paired bus owed run) (owe cycles) (fun _ => Paired bus (owed + cycles) run) never := by
  rintro ⟨cpu, b, trace⟩ ⟨cpu', b', trace'⟩ ⟨rfl, rfl, hr, hb⟩
  have hsum : addCount32 cpu.pending cycles = .ok (cpu.pending + cycles) := if_pos h
  simp only [owe, tryCpu, hsum]
  exact .ok ⟨rfl, rfl, hr, hb⟩

theorem takeTransfer_coupled (h : Served quiet loose) :
    Coupled (Paired loose owed run) takeTransfer (fun _ => Paired quiet owed run) never := by
  rintro ⟨cpu, b, trace⟩ ⟨cpu', b', trace'⟩ ⟨rfl, ho, hr, hb⟩
  obtain ⟨same, hq⟩ := h.settle b b' hb
  simp only [takeTransfer]
  rw [same]
  exact .ok ⟨rfl, ho, hr, hq⟩

/-- Equal processors that owe no more than one instruction. -/
def Waiting (bus : β → β → Prop) (run : UInt64) (c d : Core β) : Prop :=
  ∃ owed : UInt32, owed.toNat ≤ longestWait ∧ Paired bus owed run c d

omit [Bus β] in
theorem stall_coupled (h : owed.toNat ≤ 8 + 2) :
    Coupled (Paired bus owed run) (stall : Action β Unit) (fun _ => Waiting bus run) never := by
  apply (getCpu_coupled Cpu.cycles).bind
  intro cycles
  have hodd : (cycles &&& 1).toUInt32.toNat ≤ 1 := by
    have : (cycles &&& 1).toNat ≤ 1 := by
      rw [UInt64.toNat_and]
      exact Nat.and_le_right
    rw [UInt64.toNat_toUInt32]
    omega
  have hwait : (transferCycles + (cycles &&& 1).toUInt32).toNat ≤ 514 := by
    rw [UInt32.toNat_add]
    have : transferCycles.toNat = 513 := rfl
    omega
  refine .strengthen (owe_coupled ?_) fun _ c d hcd => ⟨_, ?_, hcd⟩
  · simp only [UInt32.size]
    omega
  · rw [UInt32.toNat_add, longestWait]
    omega

theorem settle_coupled (h : Served quiet loose) (ho : owed.toNat ≤ 8 + 2) :
    Coupled (Paired loose owed run) (do if ← takeTransfer then stall)
      (fun _ => Waiting quiet run) never := by
  apply (takeTransfer_coupled h).bind
  intro requested
  refine .ite (fun _ => stall_coupled ho) fun _ => .pure fun c d hcd => ⟨_, ?_, hcd⟩
  exact Nat.le_trans ho (by decide)

theorem step_coupled (h : Served quiet loose) :
    Coupled (Paired quiet 0 run) step (fun _ => Waiting quiet run) never := by
  apply (getCpu_coupled Cpu.pc).bind
  intro pc
  apply (read_coupled h.pushable.toReadable pc).bind
  intro code
  cases hcode : decode? code with
  | none =>
    apply (advance_coupled 1).bind
    intro _
    refine .strengthen (owe_coupled (by decide)) fun _ c d hcd => ⟨_, ?_, hcd⟩
    decide
  | some opcode =>
    have hcost := UInt32.le_iff_toNat_le.1 (decode?_cycles_le hcode)
    apply (getCpu_coupled id).bind
    intro cpu
    apply (note_coupled _).bind
    intro _
    apply (advance_coupled 1).bind
    intro _
    refine ((perform_coupled h.writable opcode.mode opcode.operation).weaken
      fun c d hcd => hcd.mono h.loosen).bind fun ending => ?_
    -- Either ending owes the cycles of the opcode and at most two more.
    have tail : ∀ extra : UInt32, extra ≤ 2 → Coupled (Paired loose 0 run)
        (do owe (opcode.cycles + extra); if ← takeTransfer then stall)
        (fun _ => Waiting quiet run) never := by
      intro extra hextra
      have hextra := UInt32.le_iff_toNat_le.1 hextra
      have hsum : (opcode.cycles + extra).toNat ≤ 8 + 2 := by
        rw [UInt32.toNat_add]
        exact Nat.le_trans (Nat.mod_le _ _) (Nat.add_le_add hcost hextra)
      refine (owe_coupled ?_).bind fun _ => settle_coupled h ?_
      · exact Nat.lt_of_le_of_lt (Nat.add_le_add_left hsum _) (by decide)
      · rwa [UInt32.zero_add]
    rintro c d ⟨hextra, hcd⟩
    cases ending with
    | next extra =>
      exact ((advance_coupled _).bind fun _ => tail extra hextra) c d hcd
    | jumped extra => exact tail extra hextra c d hcd

/-- What a cycle leaves of what was owed. -/
def Spent (owed left : UInt32) : Prop :=
  (1 < owed ∧ left = owed - 1) ∨ left.toNat ≤ longestWait

omit [Bus β] in
theorem getPending_coupled :
    Coupled (Paired bus owed run) (getCpu Cpu.pending)
      (fun pending c d => pending = owed ∧ Paired bus owed run c d) never := by
  rintro ⟨cpu, b, trace⟩ ⟨cpu', b', trace'⟩ h
  cases h.cpu
  exact .ok ⟨h.owed, h⟩

omit [Bus β] in
theorem setPending_coupled (f : Cpu → UInt32) (left : UInt32)
    (hf : ∀ cpu, cpu.pending = owed → f cpu = left) :
    Coupled (Paired bus owed run) (modifyCpu fun cpu => { cpu with pending := f cpu })
      (fun _ => Paired bus left run) never := by
  rintro ⟨cpu, b, trace⟩ ⟨cpu', b', trace'⟩ ⟨rfl, ho, hr, hb⟩
  exact .ok ⟨rfl, hf cpu ho, hr, hb⟩

omit [Bus β] in
theorem countCycle_coupled (h : run.toNat + 1 < UInt64.size) :
    Coupled (Paired bus owed run)
      (tryCpu fun cpu => return { cpu with cycles := ← addCount64 cpu.cycles 1 })
      (fun _ => Paired bus owed (run + 1)) never := by
  rintro ⟨cpu, b, trace⟩ ⟨cpu', b', trace'⟩ ⟨rfl, ho, rfl, hb⟩
  have hsum : addCount64 cpu.cycles 1 = .ok (cpu.cycles + 1) := if_pos h
  simp only [tryCpu, hsum]
  exact .ok ⟨rfl, ho, rfl, hb⟩

theorem cycle_coupled (h : Served quiet loose) (hrun : run.toNat + 1 < UInt64.size) :
    Coupled (Paired quiet owed run) cycle
      (fun _ c d => ∃ left, Spent owed left ∧ Paired quiet left (run + 1) c d) never := by
  apply (countCycle_coupled hrun).bind
  intro _
  apply getPending_coupled.bind
  intro pending
  apply Coupled.assume
  rintro rfl
  apply Coupled.ite
  · intro ho
    refine (setPending_coupled (fun cpu => cpu.pending - 1) (pending - 1) ?_).strengthen ?_
    · rintro cpu rfl
      rfl
    · intro _ c d hcd
      exact ⟨_, .inl ⟨ho, rfl⟩, hcd⟩
  · intro _
    apply (setPending_coupled (fun _ => 0) 0 fun _ _ => rfl).bind
    intro _
    refine (step_coupled h).strengthen ?_
    rintro _ c d ⟨left, hl, hcd⟩
    exact ⟨left, .inr hl, hcd⟩

/-! ## Interrupts and resets -/

theorem interrupt_coupled (h : Pushable bus) (ho : owed.toNat + 7 < UInt32.size) :
    Coupled (Paired bus owed run) (interrupt .nmi) (fun _ => Paired bus (owed + 7) run) never := by
  apply (getCpu_coupled Cpu.status).bind
  intro status
  apply (note_coupled _).bind
  intro _
  exact (enter_coupled h .nmi).bind fun _ => owe_coupled ho

theorem reset_coupled (h : Readable bus) :
    Coupled (Paired bus owed run) reset (fun _ => Paired bus 0 0) never := by
  refine .bind (modifyCpu_coupled fun _ => ⟨rfl, rfl⟩) fun _ => ?_
  apply (readWord_coupled h resetVector).bind
  intro start
  rintro ⟨cpu, b, trace⟩ ⟨cpu', b', trace'⟩ ⟨rfl, _, _, hb⟩
  exact .ok ⟨rfl, rfl, rfl, hb⟩

end Famicom.Cpu
