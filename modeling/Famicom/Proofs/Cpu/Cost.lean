import Famicom.Proofs.Cpu.Coupling
import Famicom.Proofs.Cpu.FlatMemory
import Famicom.Proofs.Cpu.Moves
import Famicom.Proofs.Cpu.Step

/-!
# What an instruction costs

An instruction goes on behind its operand unless it transfers control. It costs the cycles of its
opcode, those for crossed pages and taken branches, and the wait for a sprite transfer. Until they
are over nothing but the counters moves, and each interrupt puts the next instruction off by seven
cycles more.
-/

namespace Famicom.Cpu

/-! ## Lengths and costs on paper -/

/-- The bytes of an operand. -/
def Mode.operandBytes : Mode → Nat
  | implied | accumulator => 0
  | immediate | zeroPage | zeroPageX | zeroPageY => 1
  | indexedIndirect | indirectIndexed | relative => 1
  | absolute | absoluteX | absoluteY | indirect => 2

/-- The bytes of an instruction: its opcode and its operand. -/
def Opcode.length (opcode : Opcode) : Nat := 1 + opcode.mode.operandBytes

/-- Operations that write to their operand. What indexing may cost them is part of their opcode. -/
def Operation.writesBack : Operation → Bool
  | .store _ | .sax | .update _ | .combined _ => true
  | _ => false

/-- Whether the program goes on elsewhere than behind the instruction. -/
def Operation.transfers (status : Status) : Operation → Bool
  | .brk | .jmp | .jsr | .rts | .rti => true
  | .branch flag wanted => status.get flag == wanted
  | _ => false

/-- Whether an index leads from an address into the next page. -/
def leavesPage (base : UInt16) (index : UInt8) : Bool :=
  0x100 ≤ base.toNat % 0x100 + index.toNat

section
variable {β : Type} [Bus β]

/-- The word whose bytes lie at two places. -/
def wordAt (low high : UInt16) : EStateM Fault β UInt16 := do
  let first ← Bus.read low
  let second ← Bus.read high
  return word first second

/-- Whether the instruction at the program counter finds its operand in another page than it started
to look. -/
def crossing (cpu : Cpu) : Mode → EStateM Fault β Bool
  | .absoluteX => do
    let base ← wordAt (cpu.pc + 1) (cpu.pc + 2)
    return leavesPage base cpu.x
  | .absoluteY => do
    let base ← wordAt (cpu.pc + 1) (cpu.pc + 2)
    return leavesPage base cpu.y
  | .indirectIndexed => do
    let pointer ← Bus.read (cpu.pc + 1)
    let base ← wordAt pointer.toUInt16 (pointer + 1).toUInt16
    return leavesPage base cpu.y
  | _ => return false

/-- What a branch costs if it is taken. -/
def branchCost (next target : UInt16) : Nat :=
  if next.toNat / 0x100 = target.toNat / 0x100 then 1 else 2

/-- What the instruction at the program counter costs beyond its opcode. -/
def surcharge (cpu : Cpu) (opcode : Opcode) : EStateM Fault β Nat :=
  match opcode.operation with
  | .branch flag wanted => do
    let offset ← Bus.read (cpu.pc + 1)
    let next := cpu.pc + 2
    return if cpu.status.get flag == wanted then branchCost next (next + signExtend offset) else 0
  | operation => do
    if operation.writesBack then return 0
    let crossed ← crossing cpu opcode.mode
    return crossed.toNat

end

/-! ## The opcodes -/

/-- Operations that read their operand and only that. -/
def Operation.consumes : Operation → Bool
  | .nop | .load _ | .alu _ | .compare _ | .lax | .anc | .alr | .arr | .sbx => true
  | _ => false

def Operation.isBranch : Operation → Bool
  | .branch _ _ => true
  | _ => false

/-- The modes whose operand may lie in another page than its base. -/
def Mode.mayCross : Mode → Bool
  | .absoluteX | .absoluteY | .indirectIndexed => true
  | _ => false

/-- What the opcodes have in common that the charges rely on: branches and no others are relative,
and where indexing may cross a page, a byte is read or written. -/
structure Opcode.IsRegular (opcode : Opcode) : Prop where
  relative : opcode.mode = .relative ↔ opcode.operation.isBranch = true
  indexed : opcode.mode.mayCross = true →
    opcode.operation.consumes = true ∨ opcode.operation.writesBack = true

instance (opcode : Opcode) : Decidable opcode.IsRegular :=
  decidable_of_iff ((opcode.mode = .relative ↔ opcode.operation.isBranch = true) ∧
      (opcode.mode.mayCross = true →
        opcode.operation.consumes = true ∨ opcode.operation.writesBack = true))
    ⟨fun both => ⟨both.1, both.2⟩, fun regular => ⟨regular.relative, regular.indexed⟩⟩

theorem decode?_regular {code : UInt8} {opcode : Opcode} (h : decode? code = some opcode) :
    opcode.IsRegular :=
  decode?_mem (by decide +kernel) h

/-- The sizes of the table are the lengths on paper. -/
theorem decode?_size {code : UInt8} {opcode : Opcode} (h : decode? code = some opcode) :
    opcode.size.toNat = opcode.length :=
  decode?_mem (p := fun opcode => opcode.size.toNat = opcode.length) (by decide +kernel) h

/-- Behind its first byte an instruction has the bytes of its operand left. -/
theorem decode?_rest {code : UInt8} {opcode : Opcode} (h : decode? code = some opcode) :
    (opcode.size - 1).toUInt16 = UInt16.ofNat opcode.mode.operandBytes := by
  have size : opcode.size.toNat = 1 + opcode.mode.operandBytes := decode?_size h
  have one : (1 : UInt8) ≤ opcode.size := by
    rw [UInt8.le_iff_toNat_le, size]
    exact Nat.le_add_right 1 _
  have rest : (opcode.size - 1).toNat = opcode.mode.operandBytes := by
    rw [UInt8.toNat_sub_of_le _ _ one, size]
    exact Nat.add_sub_cancel_left 1 _
  rw [← rest]
  exact UInt16.toNat_inj.1 (by simp)

theorem two_le_decode?_cycles {code : UInt8} {opcode : Opcode} (h : decode? code = some opcode) :
    2 ≤ opcode.cycles :=
  decode?_mem (p := fun opcode => 2 ≤ opcode.cycles) (by decide +kernel) h

/-! ## Crossed pages -/

variable {β α γ : Type}

/-- Whatever an action answers is so. -/
def Always (p : α → Prop) (action : Action β α) : Prop :=
  ∀ core value after, action core = .ok value after → p value

theorem Always.pure {p : α → Prop} {value : α} (h : p value) :
    Always p (Pure.pure value : Action β α) := by
  rintro core _ _ ⟨⟩
  exact h

theorem Always.bind {p : γ → Prop} {action : Action β α} {next : α → Action β γ}
    (h : ∀ value, Always p (next value)) : Always p (action >>= next) := by
  intro core value after run
  obtain ⟨_, _, _, run⟩ := of_bind_ok run
  exact h _ _ _ _ run

theorem indexed_crossed (base : UInt16) (index : UInt8) :
    (indexed base index).crossed = leavesPage base index := by
  have hb := base.toNat_lt
  have hi := index.toNat_lt
  have sum : (base + index.toUInt16).toNat = (base.toNat + index.toNat) % 0x10000 := by
    rw [UInt16.toNat_add, UInt8.toNat_toUInt16]
  have page : ∀ a : UInt16, (a / 0x100).toNat = a.toNat / 0x100 := fun a => UInt16.toNat_div a _
  rw [Bool.eq_iff_iff]
  simp only [indexed, samePage, leavesPage, Bool.not_eq_true', beq_eq_false_iff_ne, ne_eq,
    ← UInt16.toNat_inj, page, sum, decide_eq_true_eq]
  omega

variable [Bus β] {cpu : Cpu} {bus : β} {trace : Trace} {done : Core β}

theorem of_readBoth_ok {low high value : UInt16}
    (h : (do
      let first ← read low
      let second ← read high
      return word first second : Action β UInt16) ⟨cpu, bus, trace⟩ = .ok value done) :
    ∃ seen, wordAt low high bus = .ok value seen ∧ done = ⟨cpu, seen, trace⟩ := by
  obtain ⟨first, _, read₁, h⟩ := of_bind_ok h
  obtain ⟨bus₁, hl, rfl⟩ := of_read_ok read₁
  obtain ⟨second, _, read₂, h⟩ := of_bind_ok h
  obtain ⟨bus₂, hh, rfl⟩ := of_read_ok read₂
  cases h
  exact ⟨bus₂, (bind_ok hl).trans (bind_ok hh), rfl⟩

theorem locate_stays {mode : Mode} (hr : mode ≠ .relative) (hm : mode.mayCross = false) :
    Always (fun operand => operand.crossed = false) (locate mode : Action β Operand) := by
  refine .bind fun pc => ?_
  cases mode with
  | implied | accumulator | immediate => exact .pure rfl
  | zeroPage | absolute => exact .bind fun _ => .pure rfl
  | zeroPageX | zeroPageY => exact .bind fun _ => .bind fun _ => .pure rfl
  | indexedIndirect | indirect => exact .bind fun _ => .bind fun _ => .bind fun _ => .pure rfl
  | relative => exact absurd rfl hr
  | absoluteX | absoluteY | indirectIndexed => cases hm

theorem crossing_stays {mode : Mode} (hm : mode.mayCross = false) (cpu : Cpu) (bus : β) :
    crossing cpu mode bus = .ok false bus := by
  cases mode <;> first | rfl | cases hm

/-- An operand is found across a page just when the charge says so. -/
theorem locate_crossed {mode : Mode} {operand : Operand} (hr : mode ≠ .relative)
    (h : locate mode ⟨{ cpu with pc := cpu.pc + 1 }, bus, trace⟩ = .ok operand done) :
    ∃ seen, crossing cpu mode bus = .ok operand.crossed seen := by
  have second : cpu.pc + 1 + 1 = cpu.pc + 2 := UInt16.add_assoc _ 1 1
  cases hm : mode.mayCross with
  | false => exact ⟨bus, by rw [crossing_stays hm, locate_stays hr hm _ _ _ h]⟩
  | true =>
    obtain ⟨_, _, hg, h⟩ := of_bind_ok h
    cases hg
    cases mode with
    | absoluteX | absoluteY =>
      obtain ⟨base, _, found, h⟩ := of_bind_ok h
      obtain ⟨seen, hb, rfl⟩ := of_readBoth_ok found
      obtain ⟨_, _, hg, h⟩ := of_bind_ok h
      cases hg
      cases h
      refine ⟨seen, ?_⟩
      simp only [second] at hb
      rw [indexed_crossed]
      exact bind_ok hb
    | indirectIndexed =>
      obtain ⟨pointer, _, found, h⟩ := of_bind_ok h
      obtain ⟨bus₁, hp, rfl⟩ := of_read_ok found
      obtain ⟨base, _, found, h⟩ := of_bind_ok h
      obtain ⟨seen, hb, rfl⟩ := of_readBoth_ok found
      obtain ⟨_, _, hg, h⟩ := of_bind_ok h
      cases hg
      cases h
      refine ⟨seen, ?_⟩
      rw [indexed_crossed]
      exact (bind_ok hp).trans (bind_ok hb)
    | _ => cases hm

/-! ## Endings -/

/-- An ending with what the instruction cost beyond its opcode. -/
def endingOf (transferred : Bool) (extra : Nat) : Ending :=
  if transferred then .jumped (UInt32.ofNat extra) else .next (UInt32.ofNat extra)

/-- Where nothing is read or written across a page and no flag is asked for, the ending is known. -/
theorem perform_plain {operation : Operation} (mode : Mode) (status : Status)
    (hb : operation.isBranch = false) (hc : operation.consumes = false) :
    Always (· = endingOf (operation.transfers status) 0) (perform mode operation : Action β Ending) := by
  cases operation with
  | nop | load | alu | compare | lax | anc | alr | arr | sbx => cases hc
  | branch => cases hb
  | transfer | setFlag | increment | decrement | plp | update => exact .bind fun _ => .pure rfl
  | brk | jmp | rts | pha | php | pla | bit | combined =>
    exact .bind fun _ => .bind fun _ => .pure rfl
  | rti | store | sax => exact .bind fun _ => .bind fun _ => .bind fun _ => .pure rfl
  | jsr => exact .bind fun _ => .bind fun _ => .bind fun _ => .bind fun _ => .pure rfl

theorem consume_ends {mode : Mode} {f : Cpu → UInt8 → Cpu} {ending : Ending}
    (hr : mode ≠ .relative)
    (h : consume mode f ⟨{ cpu with pc := cpu.pc + 1 }, bus, trace⟩ = .ok ending done) :
    ∃ crossed seen, crossing cpu mode bus = .ok crossed seen ∧
      ending = endingOf false crossed.toNat := by
  obtain ⟨⟨value, extra⟩, _, found, h⟩ := of_bind_ok h
  obtain ⟨operand, _, located, found⟩ := of_bind_ok found
  obtain ⟨seen, crossed⟩ := locate_crossed hr located
  obtain ⟨_, _, _, found⟩ := of_bind_ok found
  cases found
  obtain ⟨_, _, _, h⟩ := of_bind_ok h
  cases h
  refine ⟨_, seen, crossed, ?_⟩
  cases operand.crossed <;> rfl

theorem perform_consumes {mode : Mode} {operation : Operation} {ending : Ending}
    (hc : operation.consumes = true) (hr : mode ≠ .relative)
    (h : perform mode operation ⟨{ cpu with pc := cpu.pc + 1 }, bus, trace⟩ = .ok ending done) :
    ∃ crossed seen, crossing cpu mode bus = .ok crossed seen ∧
      ending = endingOf false crossed.toNat := by
  cases operation with
  | nop =>
    cases mode with
    | implied =>
      cases h
      exact ⟨false, bus, rfl, rfl⟩
    | _ => exact consume_ends (f := fun cpu _ => cpu) hr h
  | load r => exact consume_ends (f := fun cpu value => cpu.setRegister value r) hr h
  | lax => exact consume_ends (f := fun cpu value => (cpu.setA value).setRegister value .x) hr h
  | alu | compare | anc | alr | arr | sbx => exact consume_ends hr h
  | _ => cases hc

theorem branch_crossed (next target : UInt16) :
    1 + charge (!samePage next target) = UInt32.ofNat (branchCost next target) := by
  have page : ∀ a : UInt16, (a / 0x100).toNat = a.toNat / 0x100 := fun a => UInt16.toNat_div a _
  unfold samePage branchCost
  by_cases h : next.toNat / 0x100 = target.toNat / 0x100
  · have same : next / 0x100 = target / 0x100 := UInt16.toNat_inj.1 (by rw [page, page, h])
    rw [if_pos h, same, beq_self_eq_true]
    rfl
  · have other : ¬next / 0x100 = target / 0x100 := by
      intro same
      rw [← page, ← page, same] at h
      exact h rfl
    rw [if_neg h, beq_eq_false_iff_ne.2 other]
    rfl

theorem perform_branch {flag : Flag} {wanted : Bool} {ending : Ending}
    (h : perform .relative (.branch flag wanted) ⟨{ cpu with pc := cpu.pc + 1 }, bus, trace⟩ =
      .ok ending done) :
    ∃ offset seen, Bus.read (cpu.pc + 1) bus = .ok offset seen ∧
      ending = endingOf (cpu.status.get flag == wanted)
        (if cpu.status.get flag == wanted then
          branchCost (cpu.pc + 2) (cpu.pc + 2 + signExtend offset) else 0) ∧
      ((cpu.status.get flag == wanted) = false → done.cpu.pc = cpu.pc + 1) := by
  have second : cpu.pc + 1 + 1 = cpu.pc + 2 := UInt16.add_assoc _ 1 1
  obtain ⟨operand, _, located, h⟩ := of_bind_ok h
  obtain ⟨_, _, hg, located⟩ := of_bind_ok located
  cases hg
  obtain ⟨offset, _, found, located⟩ := of_bind_ok located
  obtain ⟨seen, hr, rfl⟩ := of_read_ok found
  cases located
  obtain ⟨_, _, hg, h⟩ := of_bind_ok h
  cases hg
  refine ⟨offset, seen, hr, ?_⟩
  cases hb : cpu.status.get flag == wanted with
  | true =>
    rw [if_pos hb] at h
    obtain ⟨_, _, _, h⟩ := of_bind_ok h
    cases h
    dsimp only
    rw [branch_crossed, second]
    exact ⟨rfl, nofun⟩
  | false =>
    rw [if_neg (ne_true_of_eq_false hb)] at h
    cases h
    exact ⟨rfl, fun _ => rfl⟩

theorem consumes_only {operation : Operation} (h : operation.consumes = true) (status : Status) :
    operation.writesBack = false ∧ operation.transfers status = false := by
  constructor <;> cases operation <;> first | rfl | cases h

theorem surcharge_crossing {opcode : Opcode} {crossed : Bool} {seen : β}
    (hb : opcode.operation.isBranch = false) (hw : opcode.operation.writesBack = false)
    (hx : crossing cpu opcode.mode bus = .ok crossed seen) :
    surcharge cpu opcode bus = .ok crossed.toNat seen := by
  obtain ⟨operation, mode, size, cycles, official⟩ := opcode
  cases operation with
  | branch => cases hb
  | store | sax | update | combined => cases hw
  | _ => exact bind_ok hx

theorem surcharge_writing {opcode : Opcode} (hw : opcode.operation.writesBack = true) :
    surcharge cpu opcode bus = .ok 0 bus := by
  obtain ⟨operation, mode, size, cycles, official⟩ := opcode
  cases operation with
  | store | sax | update | combined => rfl
  | _ => cases hw

/-- What an instruction comes to beyond its opcode is what it costs on paper. -/
theorem perform_ends {code : UInt8} {opcode : Opcode} {ending : Ending}
    (known : decode? code = some opcode)
    (h : perform opcode.mode opcode.operation ⟨{ cpu with pc := cpu.pc + 1 }, bus, trace⟩ =
      .ok ending done) :
    ∃ extra seen, surcharge cpu opcode bus = .ok extra seen ∧ extra ≤ 2 ∧
      ending = endingOf (opcode.operation.transfers cpu.status) extra := by
  have regular := decode?_regular known
  cases hb : opcode.operation.isBranch with
  | true =>
    obtain ⟨operation, mode, size, cycles, official⟩ := opcode
    cases operation with
    | branch flag wanted =>
      obtain rfl : mode = .relative := regular.relative.2 rfl
      obtain ⟨offset, seen, hr, eq, _⟩ := perform_branch h
      refine ⟨_, seen, bind_ok hr, ?_, eq⟩
      unfold branchCost
      split
      · split <;> decide
      · decide
    | _ => cases hb
  | false =>
    have hr : opcode.mode ≠ .relative := by
      intro relative
      rw [regular.relative.1 relative] at hb
      cases hb
    cases hc : opcode.operation.consumes with
    | true =>
      obtain ⟨hw, ht⟩ := consumes_only hc cpu.status
      obtain ⟨crossed, seen, hx, eq⟩ := perform_consumes hc hr h
      refine ⟨crossed.toNat, seen, surcharge_crossing hb hw hx, ?_, ht ▸ eq⟩
      exact Nat.le_trans (Bool.toNat_le crossed) (by decide)
    | false =>
      refine ⟨0, bus, ?_, Nat.zero_le 2, perform_plain opcode.mode cpu.status hb hc _ _ _ h⟩
      cases hw : opcode.operation.writesBack with
      | true => exact surcharge_writing hw
      | false =>
        have hm : opcode.mode.mayCross = false := by
          rw [← Bool.not_eq_true]
          intro crosses
          rcases regular.indexed crosses with consumes | writes
          · exact Bool.noConfusion (hc.symm.trans consumes)
          · exact Bool.noConfusion (hw.symm.trans writes)
        exact surcharge_crossing hb hw (crossing_stays hm cpu bus)

/-! ## What an instruction leaves alone -/

theorem clock_tolerated :
    Tolerates fun c d : Cpu => d.pending = c.pending ∧ d.cycles = c.cycles where
  refl _ := ⟨rfl, rfl⟩
  trans first second := ⟨second.1.trans first.1, second.2.trans first.2⟩
  sp _ _ := ⟨rfl, rfl⟩
  load _ _ r := by cases r <;> exact ⟨rfl, rfl⟩
  flags _ _ _ _ := ⟨rfl, rfl⟩
  pull _ _ := ⟨rfl, rfl⟩

theorem pc_tolerated : Tolerates fun c d : Cpu => d.pc = c.pc where
  refl _ := rfl
  trans first second := second.trans first
  sp _ _ := rfl
  load _ _ r := by cases r <;> rfl
  flags _ _ _ _ := rfl
  pull _ _ := rfl

theorem perform_clock {mode : Mode} {operation : Operation} {core : Core β} {ending : Ending}
    (h : perform mode operation core = .ok ending done) :
    done.cpu.pending = core.cpu.pending ∧ done.cpu.cycles = core.cpu.cycles := by
  rw [← reached_ok h]
  exact perform_obeys clock_tolerated (fun _ _ _ => ⟨rfl, rfl⟩) mode core

theorem perform_pc {code : UInt8} {opcode : Opcode} {ending : Ending}
    (known : decode? code = some opcode)
    (stays : opcode.operation.transfers cpu.status = false)
    (h : perform opcode.mode opcode.operation ⟨{ cpu with pc := cpu.pc + 1 }, bus, trace⟩ =
      .ok ending done) : done.cpu.pc = cpu.pc + 1 := by
  have regular := decode?_regular known
  obtain ⟨operation, mode, size, cycles, official⟩ := opcode
  cases hb : operation.isBranch with
  | true =>
    cases operation with
    | branch flag wanted =>
      obtain rfl : mode = .relative := regular.relative.2 rfl
      obtain ⟨_, _, _, _, untaken⟩ := perform_branch h
      exact untaken stays
    | _ => cases hb
  | false =>
    have still : operation.mayJump = false := by
      cases operation <;> first | rfl | cases stays | cases hb
    rw [← reached_ok h]
    exact perform_obeys pc_tolerated (fun jumps => Bool.noConfusion (still.symm.trans jumps)) mode
      ⟨{ cpu with pc := cpu.pc + 1 }, bus, trace⟩

/-! ## Running an instruction -/

/-- A core ran an instruction at this cost. -/
inductive Ran (core left : Core β) : Nat → Prop
  | unknown {code : UInt8} {bus : β} (read : Bus.read core.cpu.pc core.bus = .ok code bus)
      (unknown : decode? code = none) (pc : left.cpu.pc = core.cpu.pc + 1) : Ran core left 2
  | known {code : UInt8} {bus seen : β} {opcode : Opcode} {extra : Nat} {ending : Ending}
      {done : Core β} (read : Bus.read core.cpu.pc core.bus = .ok code bus)
      (known : decode? code = some opcode)
      (charged : surcharge core.cpu opcode bus = .ok extra seen)
      (performed : perform opcode.mode opcode.operation (core.due.fetched opcode bus) =
        .ok ending done)
      (bus : left.bus = (Bus.takeTransfer done.bus).2)
      (pc : opcode.operation.transfers core.cpu.status = false →
        left.cpu.pc = core.cpu.pc + 1 + UInt16.ofNat opcode.mode.operandBytes) :
      Ran core left (opcode.cycles.toNat + extra +
        if (Bus.takeTransfer done.bus).1 then 513 + left.cpu.cycles.toNat % 2 else 0)

theorem endingOf_cost (transferred : Bool) {extra : Nat} (he : extra ≤ 2) {opcode : Opcode}
    (hc : opcode.cycles ≤ 8) :
    ((endingOf transferred extra).cost opcode).toNat = opcode.cycles.toNat + extra := by
  have bound : opcode.cycles.toNat ≤ 8 := UInt32.le_iff_toNat_le.1 hc
  have sum : (opcode.cycles + UInt32.ofNat extra).toNat = opcode.cycles.toNat + extra := by
    rw [UInt32.toNat_add, UInt32.toNat_ofNat']
    omega
  cases transferred <;> exact sum

theorem cycle_ran {core left : Core β} (due : core.cpu.pending ≤ 1)
    (h : cycle core = .ok () left) :
    Ran core left left.cpu.pending.toNat ∧ 1 < left.cpu.pending.toNat := by
  cases of_cycle_ok due h with
  | @skipped code bus pending read unknown owed eq =>
    have two : pending.toNat = 2 := owed
    subst eq
    refine ⟨?_, two ▸ Nat.lt_succ_self 1⟩
    dsimp only
    rw [two]
    exact .unknown read unknown rfl
  | @performed code bus opcode ending done pending read known performed owed eq =>
    obtain ⟨extra, seen, charged, small, ends⟩ := perform_ends known performed
    have started : done.cpu.pending.toNat = 0 :=
      congrArg UInt32.toNat (perform_clock performed).1
    have cost : (ending.cost opcode).toNat = opcode.cycles.toNat + extra := by
      rw [ends]
      exact endingOf_cost _ small (decode?_cycles_le known)
    have kept : left.cpu.cycles = done.cpu.cycles := by
      rw [eq]
      exact ending.settle_cycles opcode done.cpu
    have total : left.cpu.pending.toNat = opcode.cycles.toNat + extra +
        if (Bus.takeTransfer done.bus).1 then 513 + left.cpu.cycles.toNat % 2 else 0 := by
      rw [started, cost, Nat.zero_add, Core.transferWait] at owed
      rw [kept, eq]
      exact owed
    rw [total]
    refine ⟨.known read known charged performed (by rw [eq]) ?_, ?_⟩
    · intro stays
      have stays' : opcode.operation.transfers core.due.cpu.status = false := stays
      have behind := perform_pc known stays' performed
      rw [eq, ends, stays']
      rw [← decode?_rest known]
      exact congrArg (· + (opcode.size - 1).toUInt16) behind
    · have least : 2 ≤ opcode.cycles.toNat :=
        UInt32.le_iff_toNat_le.1 (two_le_decode?_cycles known)
      omega

/-! ## Waiting for the next instruction -/

/-- A core behind an instruction has waited for some cycles and served some interrupts, and no other
instruction has run yet. Between two calls the bus may change at will. -/
inductive Waits (start : Core β) : Nat → Nat → Core β → Prop
  | here : Waits start 0 0 start
  | cycle {waited served : Nat} {s t : Core β} : Waits start waited served s → 1 < s.cpu.pending →
      Cpu.cycle s = .ok () t → Waits start (waited + 1) served t
  | served {waited served : Nat} {s t : Core β} (kind : Interrupt) : Waits start waited served s →
      ¬(kind = .irq ∧ s.cpu.status.interruptDisable = true) →
      Cpu.interrupt kind s = .ok () t → Waits start waited (served + 1) t
  | masked {waited served : Nat} {s t : Core β} : Waits start waited served s →
      s.cpu.status.interruptDisable = true → Cpu.interrupt .irq s = .ok () t →
      Waits start waited served t
  | rewire {waited served : Nat} {s : Core β} (bus : β) : Waits start waited served s →
      Waits start waited served { s with bus := bus }

/-- A cycle that waits changes nothing but the counters. -/
theorem of_cycle_waits {core left : Core β} (waits : 1 < core.cpu.pending)
    (h : cycle core = .ok () left) :
    left = { core with cpu := { core.cpu with
      cycles := core.cpu.cycles + 1, pending := core.cpu.pending - 1 } } := by
  obtain ⟨_, _, counted, _⟩ := of_bind_ok h
  rw [cycle_waits (count_eq counted).1 waits] at h
  cases h
  rfl

theorem interrupt_owes {kind : Interrupt} {core left : Core β}
    (unmasked : ¬(kind = .irq ∧ core.cpu.status.interruptDisable = true))
    (h : interrupt kind core = .ok () left) :
    left.cpu.pending.toNat = core.cpu.pending.toNat + 7 := by
  obtain ⟨trace, done, pending, entered, owed, rfl⟩ := of_interrupt_ok unmasked h
  have kept : done.cpu.pending = core.cpu.pending := by
    rw [← reached_ok entered]
    exact (enter_obeys clock_tolerated (fun _ _ => ⟨rfl, rfl⟩) kind _).1
  exact owed.trans (congrArg (·.toNat + 7) kept)

theorem interrupt_masked {core left : Core β} (masked : core.cpu.status.interruptDisable = true)
    (h : interrupt .irq core = .ok () left) : left = core := by
  obtain ⟨_, _, hg, h⟩ := of_bind_ok h
  cases hg
  rw [if_pos (by rw [masked]; rfl)] at h
  cases h
  rfl

theorem Waits.owed {start later : Core β} {waited served : Nat}
    (h : Waits start waited served later) (first : 1 < start.cpu.pending.toNat) :
    waited + later.cpu.pending.toNat = start.cpu.pending.toNat + 7 * served ∧
      1 ≤ later.cpu.pending.toNat := by
  induction h with
  | here => exact ⟨by omega, by omega⟩
  | cycle _ waits run ih =>
    have waits' := UInt32.lt_iff_toNat_lt.1 waits
    have one : (1 : UInt32).toNat = 1 := rfl
    rw [of_cycle_waits waits run]
    dsimp only
    rw [UInt32.toNat_sub_of_le _ _ (UInt32.le_iff_toNat_le.2 (Nat.le_of_lt waits'))]
    omega
  | served kind _ unmasked run ih =>
    rw [interrupt_owes unmasked run]
    omega
  | masked _ masked run ih =>
    rw [interrupt_masked masked run]
    exact ih
  | rewire bus _ ih => exact ih

/-! ## Every instruction -/

/-- Memory on which no access stops the processor. -/
structure Answering (β : Type) [Bus β] : Prop where
  read : ∀ address (bus : β), ∃ value after, Bus.read address bus = .ok value after
  write : ∀ address value (bus : β), ∃ after, Bus.write address value bus = .ok () after

theorem Answering.served (h : Answering β) : Served (β := β) Eq Eq := by
  have readable : Readable (Eq : β → β → Prop) := by
    constructor
    rintro address bus _ rfl
    obtain ⟨value, after, hr⟩ := h.read address bus
    rw [hr]
    exact .ok rfl
  have writable : Writable (Eq : β → β → Prop) := by
    refine ⟨readable, ?_⟩
    rintro address value bus _ rfl
    obtain ⟨after, hw⟩ := h.write address value bus
    rw [hw]
    exact .ok rfl
  exact ⟨writable.pushable, writable, fun _ _ => id, by rintro bus _ rfl; exact ⟨rfl, rfl⟩⟩

theorem Answering.cycle_ok (h : Answering β) {core : Core β}
    (room : core.cpu.cycles.toNat + 1 < UInt64.size) : ∃ left, cycle core = .ok () left := by
  obtain ⟨_, left, _, run, _⟩ :=
    (cycle_coupled h.served room core core ⟨rfl, rfl, rfl, rfl⟩).exists_ok
  exact ⟨left, run⟩

/-- A cycle that finds more than one cycle owed only counts. One that does not runs an instruction,
and with the interrupts served meanwhile the next instruction runs in the very cycle in which its
cost is over. -/
theorem instruction_cost {core : Core β} (room : core.cpu.cycles.toNat + 1 < UInt64.size) :
    (1 < core.cpu.pending → cycle core = .ok () { core with cpu := { core.cpu with
      cycles := core.cpu.cycles + 1, pending := core.cpu.pending - 1 } }) ∧
    (core.cpu.pending ≤ 1 →
      (Answering β → ∃ left, cycle core = .ok () left) ∧
      ∀ left, cycle core = .ok () left → ∃ cost, Ran core left cost ∧
        ∀ waited served later, Waits left waited served later →
          waited + later.cpu.pending.toNat = cost + 7 * served ∧
            (later.cpu.pending ≤ 1 ↔ waited + 1 = cost + 7 * served)) := by
  refine ⟨cycle_waits room, fun due => ⟨fun answering => answering.cycle_ok room, ?_⟩⟩
  intro left run
  obtain ⟨ran, first⟩ := cycle_ran due run
  refine ⟨_, ran, ?_⟩
  intro waited served later waits
  obtain ⟨sum, least⟩ := waits.owed first
  have one : (1 : UInt32).toNat = 1 := rfl
  rw [UInt32.le_iff_toNat_le]
  exact ⟨sum, by omega⟩

theorem flat_answers : Answering FlatMemory := by
  constructor
  · intro address memory
    exact ⟨_, _, memory.read_eq address⟩
  · intro address value memory
    exact ⟨_, memory.write_eq address value⟩

/-- LDA with an index that leads into the next page. -/
def indexedLoad : Opcode := ⟨.load .a, .absoluteX, 3, 4, true⟩

/-- A core at `LDA $00FF,X` with 1 in X. -/
def beforeLoad : Core FlatMemory :=
  ⟨{ powerOn with x := 1 },
    ((FlatMemory.blank.poke 0 0xBD).poke 1 0xFF).poke 2 0x00, .fresh⟩

theorem beforeLoad_cycle : ∃ left, cycle beforeLoad = .ok () left ∧ left.cpu.pending = 5 := by
  have code : beforeLoad.bus.fetch 0 = 0xBD := by simp [beforeLoad, FlatMemory.fetch_poke]
  have low : beforeLoad.bus.fetch 1 = 0xFF := by simp [beforeLoad, FlatMemory.fetch_poke]
  have high : beforeLoad.bus.fetch 2 = 0x00 := by simp [beforeLoad, FlatMemory.fetch_poke]
  have known : decode? 0xBD = some indexedLoad := by decide +kernel
  have read : Bus.read beforeLoad.due.cpu.pc beforeLoad.due.bus = .ok 0xBD beforeLoad.bus :=
    congrArg (EStateM.Result.ok · beforeLoad.bus) code
  have located : locate .absoluteX (beforeLoad.due.fetched indexedLoad beforeLoad.bus) =
      .ok ⟨0x100, true⟩ (beforeLoad.due.fetched indexedLoad beforeLoad.bus) := by
    show EStateM.Result.ok (indexed (word (beforeLoad.bus.fetch 1) (beforeLoad.bus.fetch 2)) 1) _ = _
    rw [low, high]
    rfl
  have loaded := perform_load .a located (beforeLoad.bus.read_eq 0x100)
  exact ⟨_, (cycle_steps (by decide) (by decide)).trans (step_ok read known loaded (by decide) rfl), rfl⟩

theorem load_across_pages : beforeLoad.cpu.cycles.toNat + 1 < UInt64.size ∧
    beforeLoad.cpu.pending ≤ 1 ∧ ∃ left, cycle beforeLoad = .ok () left ∧
      Ran beforeLoad left 5 ∧ ∀ waited served later, Waits left waited served later →
        (later.cpu.pending ≤ 1 ↔ waited + 1 = 5 + 7 * served) := by
  have room : beforeLoad.cpu.cycles.toNat + 1 < UInt64.size := by decide
  have due : beforeLoad.cpu.pending ≤ 1 := by decide
  obtain ⟨left, run, five⟩ := beforeLoad_cycle
  obtain ⟨cost, ran, law⟩ := ((instruction_cost room).2 due).2 left run
  have owed := (law 0 0 left .here).1
  rw [five] at owed
  obtain rfl : cost = 5 := by simpa using owed.symm
  exact ⟨room, due, left, run, ran, fun waited served later waits =>
    (law waited served later waits).2⟩

end Famicom.Cpu
