import Famicom.Proofs.Cpu.Instruction

/-!
# Combined operations

The unofficial operations that update a byte of memory and combine it with the accumulator do what two
official instructions do one after the other, with the same byte, registers and flags. They write that
byte once and pay for no crossed page.
-/

namespace Famicom.Cpu

open FlatMemory

/-! ## The opcodes -/

/-- Each combined operation with its two halves: an official update of memory and an official
operation of the accumulator. -/
inductive Combined.Fuses : Combined → Update → Alu → Prop
  | slo : Fuses .slo .asl .ora
  | rla : Fuses .rla .rol .and
  | sre : Fuses .sre .lsr .eor
  | rra : Fuses .rra .ror .adc
  | dcp : Fuses .dcp .dec .cmp
  | isc : Fuses .isc .inc .sbc

theorem Combined.fuses (f : Combined) : f.Fuses f.update f.alu := by
  cases f <;> constructor

/-- How combined operations find their byte. -/
def Combined.modes : List Mode :=
  [.zeroPage, .zeroPageX, .absolute, .absoluteX, .absoluteY, .indexedIndirect, .indirectIndexed]

theorem exists_decode? {opcode : Opcode} (h : some opcode ∈ opcodeMatrix.toList) :
    ∃ code, decode? code = some opcode := by
  obtain ⟨place, bound, found⟩ := List.getElem_of_mem h
  have size : opcodeMatrix.toList.length = 256 := by decide +kernel
  have small : (UInt8.ofNat place).toNat = place := by
    rw [UInt8.toNat_ofNat']
    omega
  refine ⟨UInt8.ofNat place, ?_⟩
  unfold decode?
  rw [small, Array.getD_eq_getD_getElem?, ← Array.getElem?_toList, List.getElem?_eq_getElem bound,
    found]
  rfl

theorem combined_modes (f : Combined) (mode : Mode) : mode ∈ Combined.modes ↔
    ∃ code opcode, decode? code = some opcode ∧ opcode.operation = .combined f ∧
      opcode.mode = mode := by
  constructor
  · intro listed
    have all : ∀ mode ∈ Combined.modes, ∃ entry ∈ opcodeMatrix.toList, ∃ opcode ∈ entry,
        opcode.operation = .combined f ∧ opcode.mode = mode := by
      cases f <;> decide +kernel
    obtain ⟨_, present, opcode, rfl, is⟩ := all mode listed
    obtain ⟨code, known⟩ := exists_decode? present
    exact ⟨code, opcode, known, is⟩
  · rintro ⟨code, opcode, known, is, rfl⟩
    have all := decode?_mem (p := fun opcode => opcode.operation = .combined f →
      opcode.mode ∈ Combined.modes) (by cases f <;> decide +kernel) known
    exact all is

theorem combined_memory {f : Combined} {code : UInt8} {opcode : Opcode}
    (is : opcode.operation = .combined f) (known : decode? code = some opcode) :
    opcode.mode ≠ .accumulator := by
  have listed := (combined_modes f opcode.mode).2 ⟨code, opcode, known, is, rfl⟩
  intro accumulator
  rw [accumulator] at listed
  exact absurd listed (by decide)

/-! ## Updates -/

/-- The byte that an update leaves. -/
def Update.result (f : Update) (status : Status) (byte : UInt8) : UInt8 := (f.apply status byte).1

/-- The registers behind an update of memory. -/
def updated (cpu : Cpu) (f : Update) (byte : UInt8) : Cpu :=
  { cpu with status := (f.apply cpu.status byte).2 }.describe (f.result cpu.status byte)

/-- The registers behind a combined operation. -/
def combined (cpu : Cpu) (f : Combined) (byte : UInt8) : Cpu :=
  (cpu.updated f.update byte).combine f.alu (f.update.result cpu.status byte)

theorem combined_apart (f : Combined) (byte : UInt8) : Apart fun cpu => cpu.combined f byte := by
  intro cpu pc pending cycles
  exact combine_apart f.alu _ (cpu.updated f.update byte) pc pending cycles

section
variable {core after : Core FlatMemory} {opcode : Opcode} {mode : Mode} {operand : Operand}

/-- An update of memory writes its result back where it found the byte. -/
theorem update_ok (f : Update) (memory : mode ≠ .accumulator)
    (located : locate mode core = .ok operand core) :
    update mode f core = .ok (f.result core.cpu.status (core.bus.fetch operand.address))
      ⟨core.cpu.updated f (core.bus.fetch operand.address),
        core.bus.store operand.address
          (f.result core.cpu.status (core.bus.fetch operand.address)), core.trace⟩ := by
  unfold update
  rw [if_neg memory]
  exact (bind_ok located).trans rfl

theorem perform_update (f : Update) (memory : mode ≠ .accumulator)
    (located : locate mode core = .ok operand core) :
    perform mode (.update f) core = .ok (.next (charge false))
      ⟨core.cpu.updated f (core.bus.fetch operand.address),
        core.bus.store operand.address
          (f.result core.cpu.status (core.bus.fetch operand.address)), core.trace⟩ :=
  (bind_ok (update_ok f memory located)).trans rfl

theorem perform_combined (f : Combined) (memory : mode ≠ .accumulator)
    (located : locate mode core = .ok operand core) :
    perform mode (.combined f) core = .ok (.next (charge false))
      ⟨core.cpu.combined f (core.bus.fetch operand.address),
        core.bus.store operand.address
          (f.update.result core.cpu.status (core.bus.fetch operand.address)), core.trace⟩ :=
  (bind_ok (update_ok f.update memory located)).trans rfl

theorem update_finishes {f : Update} (is : opcode.operation = .update f)
    (memory : opcode.mode ≠ .accumulator) (due : core.cpu.pending ≤ 1)
    (known : decode? (core.bus.fetch core.cpu.pc) = some opcode) {place : UInt16}
    (found : core.bus.effectiveAddress core.cpu opcode.mode = place)
    (room : core.cpu.cycles.toNat + longestWait < UInt64.size) :
    ∃ after, Finished core opcode (core.cpu.updated f (core.bus.fetch place)).registers
      (core.bus.store place (f.result core.cpu.status (core.bus.fetch place))) after := by
  obtain ⟨crossed, located⟩ := locate_effective core opcode opcode.mode
  have performed := perform_update f memory located
  rw [← is, found] at performed
  exact instruction_finishes due known performed rfl room

end

/-! ## One write -/

section
variable {β : Type} [Bus β]

theorem readZeroPageWord_unwritten (pointer : UInt8) :
    Unwritten (readZeroPageWord pointer : Action (Recorded β) UInt16) :=
  .bind (read_unwritten _) fun _ => .bind (read_unwritten _) fun _ => .pure _

theorem locate_unwritten (mode : Mode) :
    Unwritten (locate mode : Action (Recorded β) Operand) := by
  refine .bind (getCpu_unwritten _) fun pc => ?_
  cases mode with
  | implied | accumulator | immediate => exact .pure _
  | zeroPage | relative => exact .bind (read_unwritten _) fun _ => .pure _
  | absolute => exact .bind (readWord_unwritten _) fun _ => .pure _
  | zeroPageX | zeroPageY =>
    exact .bind (read_unwritten _) fun _ => .bind (getCpu_unwritten _) fun _ => .pure _
  | absoluteX | absoluteY =>
    exact .bind (readWord_unwritten _) fun _ => .bind (getCpu_unwritten _) fun _ => .pure _
  | indexedIndirect =>
    refine .bind (read_unwritten _) fun _ => .bind (getCpu_unwritten _) fun _ => ?_
    exact .bind (readZeroPageWord_unwritten _) fun _ => .pure _
  | indirectIndexed =>
    refine .bind (read_unwritten _) fun _ => .bind (readZeroPageWord_unwritten _) fun _ => ?_
    exact .bind (getCpu_unwritten _) fun _ => .pure _
  | indirect =>
    refine .bind (readWord_unwritten _) fun _ => .bind (read_unwritten _) fun _ => ?_
    exact .bind (read_unwritten _) fun _ => .pure _

end

section
variable {core : Core FlatMemory} {opcode : Opcode}

/-- A record changes nothing of where an operand is found. -/
theorem locate_recorded {mode : Mode} {accesses : Array Access} {operand : Operand}
    {found : Core (Recorded FlatMemory)}
    (h : locate mode (core.recorded.due.fetched opcode ⟨core.bus, accesses⟩) = .ok operand found) :
    operand.address = core.bus.effectiveAddress core.cpu mode ∧ found.bus.bus = core.bus ∧
      found.cpu.status = core.cpu.status := by
  have second : core.cpu.pc + 2 = core.cpu.pc + 1 + 1 := (UInt16.add_assoc _ 1 1).symm
  unfold effectiveAddress
  rw [second]
  cases mode <;> cases h <;> exact ⟨rfl, rfl, rfl⟩

theorem combined_writes {f : Combined} (is : opcode.operation = .combined f)
    (due : core.cpu.pending ≤ 1) (known : decode? (core.bus.fetch core.cpu.pc) = some opcode)
    {place : UInt16} (found : core.bus.effectiveAddress core.cpu opcode.mode = place) :
    Writes cycle core.recorded
      [⟨true, place, f.update.result core.cpu.status (core.bus.fetch place)⟩] := by
  refine cycle_performs due (core.bus.read_eq _) known fun accesses => ?_
  rw [is]
  refine Writes.before ?_ fun _ => .bind (modifyCpu_unwritten _) fun _ => .pure _
  unfold update
  rw [if_neg (combined_memory is known)]
  refine .behind (locate_unwritten _) ?_
  intro operand located hl
  obtain ⟨address, memory, status⟩ := locate_recorded hl
  refine .behind (read_unwritten _) ?_
  intro value fetched hr
  obtain ⟨bus, hb, rfl⟩ := of_read_ok hr
  obtain rfl : located.bus.bus.fetch operand.address = value := by
    cases hb
    rfl
  refine .behind (getCpu_unwritten _) ?_
  intro flags held hg
  cases hg
  refine .behind (modifyCpu_unwritten _) ?_
  intro _ changed hm
  cases hm
  rw [address, memory, status, found]
  exact (write_writes _ _ _).before fun _ => .bind (modifyCpu_unwritten _) fun _ => .pure _

theorem recorded_answers : Answering (Recorded FlatMemory) := by
  constructor
  · rintro address ⟨memory, accesses⟩
    exact ⟨_, _, rfl⟩
  · rintro address value ⟨memory, accesses⟩
    exact ⟨_, rfl⟩

/-- A combined operation was carried out in a cycle. It wrote one byte, at this place, and waits for
the cycles of its opcode and for a sprite transfer if one was asked for. -/
structure Merged (core : Core FlatMemory) (opcode : Opcode) (place : UInt16)
    (after : Core FlatMemory) : Prop where
  run : cycle core = .ok () after
  writes : ∃ seen, cycle core.recorded = .ok () seen ∧
    seen.writes = [⟨true, place, after.bus.fetch place⟩]
  elsewhere : ∀ other, other ≠ place → after.bus.fetch other = core.bus.fetch other
  pc : after.cpu.pc = core.cpu.pc + UInt16.ofNat opcode.length
  cost : after.cpu.pending.toNat = opcode.cycles.toNat +
    if core.bus.transferRequested || place == transferRegister then
      513 + after.cpu.cycles.toNat % 2
    else 0

theorem combined_merged {f : Combined} (is : opcode.operation = .combined f)
    (due : core.cpu.pending ≤ 1) (known : decode? (core.bus.fetch core.cpu.pc) = some opcode)
    (room : core.cpu.cycles.toNat + 1 < UInt64.size) {place : UInt16}
    (found : core.bus.effectiveAddress core.cpu opcode.mode = place) :
    ∃ after, Merged core opcode place after ∧
      after.cpu.registers = (core.cpu.combined f (core.bus.fetch place)).registers ∧
      after.bus.fetch place = f.update.result core.cpu.status (core.bus.fetch place) := by
  obtain ⟨crossed, located⟩ := locate_effective core opcode opcode.mode
  have performed := perform_combined f (combined_memory is known) located
  rw [← is, found] at performed
  obtain ⟨pending, owed, run⟩ := cycle_performed due known performed room
  have room' : core.recorded.cpu.cycles.toNat + 1 < UInt64.size := room
  obtain ⟨seen, recorded⟩ := recorded_answers.cycle_ok room'
  obtain ⟨done, -, writes, ended⟩ := combined_writes is due known found
  have fetch := core.bus.fetch_store place
    (f.update.result core.cpu.status (core.bus.fetch place))
  have written := (fetch place).trans (if_pos rfl)
  have behind := congrArg Cpu.pc (combined_apart f (core.bus.fetch place) core.cpu
    (core.cpu.pc + 1) 0 (core.cpu.cycles + 1))
  rw [reached_ok recorded, ended _ _ recorded, ← written] at writes
  refine ⟨_, ⟨run, ⟨seen, recorded, writes⟩, ?_, Core.settled_pc known behind pending, owed⟩, ?_,
    written⟩
  · exact fun other ne => (fetch other).trans (if_neg ne.symm)
  · exact (combined_apart f _).congr rfl

/-! ## Halves -/

/-- The next cycle runs this official opcode. -/
structure Core.AtOfficial (core : Core FlatMemory) (opcode : Opcode) : Prop where
  due : core.cpu.pending ≤ 1
  known : decode? (core.bus.fetch core.cpu.pc) = some opcode
  official : opcode.official = true
  room : core.cpu.cycles.toNat + longestWait < UInt64.size

/-- Two official instructions run one after the other: the first updates the byte at a place, and the
second has the byte that was written there as its immediate operand. -/
structure Halves (u : Update) (g : Alu) (place : UInt16) (first middle last : Core FlatMemory) :
    Prop where
  update : ∃ opcode, first.AtOfficial opcode ∧ opcode.operation = .update u ∧
    opcode.mode ≠ .accumulator ∧ first.bus.effectiveAddress first.cpu opcode.mode = place
  updated : instruction first = .ok () middle
  combine : ∃ opcode, middle.AtOfficial opcode ∧ opcode.operation = .alu g ∧
    opcode.mode = .immediate
  operand : middle.bus.fetch (middle.cpu.pc + 1) = middle.bus.fetch place
  combined : instruction middle = .ok () last

variable {first middle last : Core FlatMemory} {f : Combined} {place : UInt16}

theorem Finished.eq {registers : Registers} {memory : FlatMemory}
    (h : Finished core opcode registers memory last) (run : instruction core = .ok () middle) :
    Finished core opcode registers memory middle := by
  cases h.run.symm.trans run
  exact h

/-- Behind an instruction stands the next one. -/
theorem Finished.next {opcode following : Opcode} {registers : Registers} {memory : FlatMemory}
    (h : Finished core opcode registers memory last)
    (known : decode? (memory.fetch (core.cpu.pc + UInt16.ofNat opcode.length)) = some following)
    (official : following.official = true)
    (room : core.cpu.cycles.toNat + 2 * longestWait < UInt64.size) : last.AtOfficial following where
  due := h.due
  known := by
    rw [h.pc, h.fetch]
    exact known
  official := official
  room := by
    have := h.cycles
    omega

/-- Both halves together leave the registers and the memory of the combined operation. -/
theorem Halves.combines (h : Halves f.update f.alu place first middle last) :
    last.cpu.registers = (first.cpu.combined f (first.bus.fetch place)).registers ∧
      ∀ other, last.bus.fetch other = if place = other then
        f.update.result first.cpu.status (first.bus.fetch place) else first.bus.fetch other := by
  obtain ⟨opcode, here, is, memory, found⟩ := h.update
  obtain ⟨_, finished⟩ := update_finishes is memory here.due here.known found here.room
  have updated := finished.eq h.updated
  have written : middle.bus.fetch place = f.update.result first.cpu.status (first.bus.fetch place) := by
    rw [updated.fetch, fetch_store, if_pos rfl]
  obtain ⟨opcode', next, is', immediate⟩ := h.combine
  have consumes : perform (β := FlatMemory) opcode'.mode opcode'.operation =
      consume opcode'.mode fun cpu byte => cpu.combine f.alu byte := by
    rw [is']
    rfl
  obtain ⟨_, finished'⟩ := consume_finishes (combine_apart f.alu) consumes next.due next.known next.room
  have combined := finished'.eq h.combined
  have operand : middle.bus.fetch (middle.bus.effectiveAddress middle.cpu opcode'.mode) =
      f.update.result first.cpu.status (first.bus.fetch place) := by
    rw [immediate, ← written, ← h.operand]
    rfl
  constructor
  · rw [combined.registers, operand]
    exact (combine_apart f.alu _).congr updated.registers
  · intro other
    rw [combined.fetch, updated.fetch, fetch_store]

theorem update_official (f : Update) :
    ∃ code, decode? code = some ⟨.update f, .absolute, 3, 6, true⟩ :=
  exists_decode? (by cases f <;> decide +kernel)

theorem alu_official (f : Alu) : ∃ code, decode? code = some ⟨.alu f, .immediate, 2, 2, true⟩ :=
  exists_decode? (by cases f <;> decide +kernel)

/-- A core that is to run these bytes. -/
def Core.laid (core : Core FlatMemory) (start : UInt16) (bytes : List UInt8) : Core FlatMemory :=
  ⟨{ core.cpu with pc := start, pending := 0 }, core.bus.lay start bytes, core.trace⟩

/-- An update of a place, with its address behind the opcode. -/
theorem laid_update {f : Update} {code : UInt8} {place start : UInt16} {rest : List UInt8}
    (known : decode? code = some ⟨.update f, .absolute, 3, 6, true⟩) (short : rest.length < 0x1000)
    (room : core.cpu.cycles.toNat + longestWait < UInt64.size) (core' : Core FlatMemory)
    (laid : core' = core.laid start (code :: place.toUInt8 :: (place >>> 8).toUInt8 :: rest)) :
    core'.AtOfficial ⟨.update f, .absolute, 3, 6, true⟩ ∧
      core'.bus.effectiveAddress core'.cpu .absolute = place := by
  have held : ∀ i byte, (code :: place.toUInt8 :: (place >>> 8).toUInt8 :: rest)[i]? = some byte →
      core'.bus.fetch (start + UInt16.ofNat i) = byte := by
    intro i byte stands
    rw [laid]
    refine fetch_lay ?_ stands
    simp only [List.length_cons]
    omega
  have pc : core'.cpu.pc = start := congrArg (·.cpu.pc) laid
  have opcode : core'.bus.fetch core'.cpu.pc = code := by
    rw [pc, ← held 0 code rfl]
    exact congrArg core'.bus.fetch (UInt16.add_zero start).symm
  have low : core'.bus.fetch (start + 1) = place.toUInt8 := held 1 _ rfl
  have high : core'.bus.fetch (start + 2) = (place >>> 8).toUInt8 := held 2 _ rfl
  constructor
  · refine ⟨?_, opcode ▸ known, rfl, ?_⟩
    · rw [laid]
      exact (by decide : (0 : UInt32) ≤ 1)
    · rw [laid]
      exact room
  · show word (core'.bus.fetch (core'.cpu.pc + 1)) (core'.bus.fetch (core'.cpu.pc + 2)) = place
    rw [pc, low, high, word_bytes]

/-- The halves fit into any five bytes that leave out the place that they work on. -/
theorem exists_halves (core : Core FlatMemory) (f : Combined) {place start : UInt16}
    (outside : ∀ i < 5, start + UInt16.ofNat i ≠ place)
    (room : core.cpu.cycles.toNat + 2 * longestWait < UInt64.size) :
    ∃ first middle last, Halves f.update f.alu place first middle last ∧
      first.cpu.registers = core.cpu.registers ∧
      ∀ other, (∀ i < 5, start + UInt16.ofNat i ≠ other) →
        first.bus.fetch other = core.bus.fetch other := by
  obtain ⟨code, known⟩ := update_official f.update
  obtain ⟨code', known'⟩ := alu_official f.alu
  obtain ⟨result, is⟩ :
    ∃ result, result = f.update.result core.cpu.status (core.bus.fetch place) := ⟨_, rfl⟩
  obtain ⟨first, laid⟩ : ∃ first, first = core.laid start
    [code, place.toUInt8, (place >>> 8).toUInt8, code', result] := ⟨_, rfl⟩
  have short : [code', result].length < 0x1000 := Nat.le_of_ble_eq_true rfl
  obtain ⟨here, found⟩ := laid_update known short (by omega) first laid
  have registers : first.cpu.registers = core.cpu.registers := congrArg (·.cpu.registers) laid
  have cycles : first.cpu.cycles = core.cpu.cycles := congrArg (·.cpu.cycles) laid
  have kept : ∀ other, (∀ i < 5, start + UInt16.ofNat i ≠ other) →
      first.bus.fetch other = core.bus.fetch other := by
    intro other apart
    rw [laid]
    exact fetch_lay_outside apart
  have same : f.update.result first.cpu.status (first.bus.fetch place) = result := by
    rw [is, kept place outside]
    exact congrArg (f.update.result · _) (congrArg Registers.status registers)
  have memory : (⟨.update f.update, .absolute, 3, 6, true⟩ : Opcode).mode ≠ .accumulator :=
    Mode.noConfusion
  obtain ⟨middle, finished⟩ := update_finishes rfl memory here.due here.known found here.room
  rw [same] at finished
  -- The write leaves the five bytes alone.
  have stands : ∀ i byte, i < 5 →
      [code, place.toUInt8, (place >>> 8).toUInt8, code', result][i]? = some byte →
        (first.bus.store place result).fetch (start + UInt16.ofNat i) = byte := by
    intro i byte inside listed
    rw [fetch_store, if_neg (outside i inside).symm, laid]
    exact fetch_lay (Nat.le_of_ble_eq_true rfl) listed
  have behind : first.cpu.pc + UInt16.ofNat
      (⟨.update f.update, .absolute, 3, 6, true⟩ : Opcode).length = start + 3 :=
    congrArg (·.cpu.pc + 3) laid
  have here' : middle.AtOfficial ⟨.alu f.alu, .immediate, 2, 2, true⟩ := by
    have opcode : (first.bus.store place result).fetch (start + 3) = code' :=
      stands 3 code' (by decide) rfl
    refine finished.next ?_ rfl (cycles ▸ room)
    rw [behind, opcode]
    exact known'
  have operand : middle.bus.fetch (middle.cpu.pc + 1) = middle.bus.fetch place := by
    rw [finished.fetch place, fetch_store, if_pos rfl, finished.fetch,
      finished.pc.trans behind, UInt16.add_assoc]
    exact stands 4 result (by decide) rfl
  obtain ⟨last, finished'⟩ := consume_finishes (combine_apart f.alu) rfl here'.due here'.known
    here'.room
  exact ⟨first, middle, last, ⟨⟨_, here, rfl, memory, found⟩, finished.run,
    ⟨_, here', rfl, rfl⟩, operand, finished'.run⟩, registers, kept⟩

end

/-- Each combined operation has its seven modes, and in each of them it is one write that leaves the
registers and the memory of its two halves, wherever these run on the same registers and the same
byte. Five bytes that leave out this place hold a program in which they do. -/
theorem combined_is_halves (f : Combined) :
    (∀ mode, mode ∈ Combined.modes ↔ ∃ code opcode, decode? code = some opcode ∧
      opcode.operation = .combined f ∧ opcode.mode = mode) ∧
    ∃ u g, f.Fuses u g ∧
    ∀ {core : Core FlatMemory} {opcode : Opcode} {place : UInt16}, core.cpu.pending ≤ 1 →
      decode? (core.bus.fetch core.cpu.pc) = some opcode → opcode.operation = .combined f →
      core.bus.effectiveAddress core.cpu opcode.mode = place →
      core.cpu.cycles.toNat + 2 * longestWait < UInt64.size →
      ∃ after, Merged core opcode place after ∧
        (∀ first middle last, Halves u g place first middle last →
          first.cpu.registers = core.cpu.registers →
          first.bus.fetch place = core.bus.fetch place →
          last.cpu.registers = after.cpu.registers ∧
            ∀ other, first.bus.fetch other = core.bus.fetch other →
              last.bus.fetch other = after.bus.fetch other) ∧
        ∀ start, (∀ i < 5, start + UInt16.ofNat i ≠ place) →
          ∃ first middle last, Halves u g place first middle last ∧
            first.cpu.registers = core.cpu.registers ∧
            ∀ other, (∀ i < 5, start + UInt16.ofNat i ≠ other) →
              first.bus.fetch other = core.bus.fetch other := by
  refine ⟨combined_modes f, f.update, f.alu, f.fuses, ?_⟩
  intro core opcode place due known is found room
  obtain ⟨after, merged, registers, written⟩ := combined_merged is due known
    (Nat.lt_of_le_of_lt (Nat.add_le_add_left (by decide) _) room) found
  refine ⟨after, merged, ?_, fun start outside => exists_halves core f outside room⟩
  intro first middle last halves same byte
  obtain ⟨registers', fetch⟩ := halves.combines
  have status : first.cpu.status = core.cpu.status := congrArg Registers.status same
  constructor
  · rw [registers', registers, byte]
    exact (combined_apart f _).congr same
  · intro other agrees
    rw [fetch, status, byte]
    by_cases here : place = other
    · rw [if_pos here, ← here, written]
    · rw [if_neg here, agrees, merged.elsewhere other (Ne.symm here)]

/-- A core at `RRA $01`, which rotates its own operand. -/
def beforeRotation : Core FlatMemory := ⟨.powerOn, FlatMemory.blank.lay 0 [0x67, 0x01], .fresh⟩

theorem rotation_is_halves :
    decode? (beforeRotation.bus.fetch 0) = some ⟨.combined .rra, .zeroPage, 2, 5, false⟩ ∧
      ∃ after first middle last,
        Merged beforeRotation ⟨.combined .rra, .zeroPage, 2, 5, false⟩ 1 after ∧
        Halves .ror .adc 1 first middle last ∧ last.cpu.registers = after.cpu.registers := by
  have code : beforeRotation.bus.fetch 0 = 0x67 := by
    simp [beforeRotation, FlatMemory.lay, FlatMemory.fetch_poke]
  have byte : beforeRotation.bus.fetch 1 = 0x01 := by
    simp [beforeRotation, FlatMemory.lay, FlatMemory.fetch_poke]
  have known : decode? (beforeRotation.bus.fetch 0) =
      some ⟨.combined .rra, .zeroPage, 2, 5, false⟩ := by
    rw [code]
    decide +kernel
  have found : beforeRotation.bus.effectiveAddress beforeRotation.cpu .zeroPage = 1 :=
    congrArg UInt8.toUInt16 byte
  have apart : ∀ i < 5, (0x200 : UInt16) + UInt16.ofNat i ≠ 1 := by decide
  obtain ⟨_, _, ⟨⟩, agree⟩ := (combined_is_halves .rra).2
  obtain ⟨after, merged, equal, split⟩ := agree (by decide) known rfl found (by decide)
  obtain ⟨first, middle, last, halves, registers, kept⟩ := split 0x200 apart
  exact ⟨known, after, first, middle, last, merged, halves,
    (equal first middle last halves registers (kept 1 apart)).1⟩

end Famicom.Cpu
