import Famicom.Proofs.Cpu.BreakBits
import Famicom.Proofs.Cpu.Cost

/-!
# The stack

What is pushed comes back. Pushes and interrupts open frames and returns close them, the last one
first, while the program does as it likes between them. A frame is found as it was left, wherever in
page 1 the stack stands and around its end, as long as no more than 256 bytes are outstanding and
nothing else writes to them.
-/

namespace Famicom.Cpu

/-! ## Bytes on the stack -/

/-- Where a byte of the stack lies, counted from the byte that is pulled next. -/
def slot (sp : UInt8) (depth : Nat) : UInt16 := stackStart + (sp + 1 + UInt8.ofNat depth).toUInt16

/-- The bytes that are pulled next, in order. -/
def Stacked (memory : FlatMemory) (sp : UInt8) (bytes : List UInt8) : Prop :=
  ∀ depth byte, bytes[depth]? = some byte → memory.fetch (slot sp depth) = byte

/-- Memory behind pushes. -/
def pushAll (memory : FlatMemory) (sp : UInt8) : List UInt8 → FlatMemory
  | [] => memory
  | byte :: rest => pushAll (memory.store (stackStart + sp.toUInt16) byte) (sp - 1) rest

section
variable {memory memory' : FlatMemory} {sp : UInt8} {bytes rest : List UInt8} {byte : UInt8}

theorem slot_succ (sp : UInt8) (depth : Nat) : slot sp (depth + 1) = slot (sp + 1) depth := by
  unfold slot
  rw [UInt8.ofNat_add, UInt8.add_comm (UInt8.ofNat depth), ← UInt8.add_assoc (sp + 1)]
  rfl

theorem slot_zero (sp : UInt8) : slot sp 0 = stackStart + (sp + 1).toUInt16 :=
  congrArg (stackStart + ·.toUInt16) (UInt8.add_zero (sp + 1))

theorem stacked_cons : Stacked memory sp (byte :: rest) ↔
    memory.fetch (stackStart + (sp + 1).toUInt16) = byte ∧ Stacked memory (sp + 1) rest := by
  rw [← slot_zero]
  constructor
  · intro h
    refine ⟨h 0 byte rfl, ?_⟩
    intro depth found hd
    rw [← slot_succ]
    exact h (depth + 1) found hd
  · rintro ⟨first, others⟩ depth found hd
    cases depth with
    | zero =>
      cases hd
      exact first
    | succ depth =>
      rw [slot_succ]
      exact others depth found hd

theorem Stacked.behind (h : Stacked memory sp (bytes ++ rest)) :
    Stacked memory (sp + UInt8.ofNat bytes.length) rest := by
  induction bytes generalizing sp with
  | nil =>
    show Stacked memory (sp + 0) rest
    rwa [UInt8.add_zero]
  | cons byte bytes ih =>
    have next := ih (stacked_cons.1 h).2
    rw [List.length_cons, UInt8.ofNat_add, UInt8.add_comm (UInt8.ofNat bytes.length)]
    rwa [UInt8.add_assoc] at next

theorem Stacked.front (h : Stacked memory sp (bytes ++ rest)) : Stacked memory sp bytes := by
  intro depth byte hd
  have place := (List.getElem?_eq_some_iff.1 hd).1
  exact h depth byte ((List.getElem?_append_left place).trans hd)

/-- Bytes stay stacked in memory that holds the same in their slots. -/
theorem Stacked.congr (h : Stacked memory sp bytes)
    (same : ∀ depth < bytes.length, memory'.fetch (slot sp depth) = memory.fetch (slot sp depth)) :
    Stacked memory' sp bytes := by
  intro depth byte hd
  rw [same depth (List.getElem?_eq_some_iff.1 hd).1]
  exact h depth byte hd

/-- The stack comes round to a slot only behind 255 others. -/
theorem slot_ne {depth : Nat} (h : depth < 255) : stackStart + sp.toUInt16 ≠ slot sp depth := by
  intro same
  have hs := sp.toNat_lt
  have base : stackStart.toNat = 0x100 := rfl
  have page := congrArg UInt16.toNat same
  simp only [slot, UInt16.toNat_add, UInt8.toNat_toUInt16, UInt8.toNat_add, UInt8.toNat_ofNat',
    base] at page
  have one : (1 : UInt8).toNat = 1 := rfl
  omega

theorem Stacked.push (h : Stacked memory sp bytes) (room : bytes.length < 256) (byte : UInt8) :
    Stacked (memory.store (stackStart + sp.toUInt16) byte) (sp - 1) (byte :: bytes) := by
  have back : sp - 1 + 1 = sp := UInt8.sub_add_cancel sp 1
  rw [stacked_cons, back]
  constructor
  · rw [FlatMemory.fetch_store, if_pos rfl]
  · refine h.congr ?_
    intro depth hd
    rw [FlatMemory.fetch_store, if_neg (slot_ne (by omega))]

theorem Stacked.pushAll (h : Stacked memory sp bytes) {new : List UInt8}
    (room : new.length + bytes.length ≤ 256) :
    Stacked (pushAll memory sp new) (sp - UInt8.ofNat new.length) (new.reverse ++ bytes) := by
  induction new generalizing memory sp bytes with
  | nil =>
    show Stacked memory (sp - 0) bytes
    rwa [UInt8.sub_zero]
  | cons byte new ih =>
    rw [List.length_cons] at room
    have next := ih (h.push (by omega) byte) (by rw [List.length_cons]; omega)
    rw [List.length_cons, List.reverse_cons, List.append_assoc, UInt8.ofNat_add]
    have lower : sp - 1 - UInt8.ofNat new.length = sp - (UInt8.ofNat new.length + 1) := by grind
    rwa [lower] at next

end

/-! ## Frames -/

/-- What puts bytes on the stack. -/
inductive Entry
  | pha
  | php
  | jsr
  | brk
  | interrupt (kind : Interrupt)
deriving DecidableEq, Repr

namespace Entry

def call : Entry → Call
  | interrupt kind => .interrupt kind
  | _ => .cycle

/-- The instruction that takes the bytes off again. -/
def exit : Entry → Operation
  | pha => .pla
  | php => .plp
  | jsr => .rts
  | brk | interrupt _ => .rti

end Entry

/-- An entry, and the registers when it was made. -/
structure Frame where
  entry : Entry
  before : Cpu

namespace Frame

/-- The bytes that an entry pushes, in order. -/
def saved (frame : Frame) : List UInt8 :=
  match frame.entry with
  | .pha => [frame.before.a]
  | .php => [frame.before.status.toByte ||| Interrupt.brk.pushedBits]
  | .jsr => wordBytes (frame.before.pc + 2)
  | .brk => savedBytes (frame.before.pc + 2) frame.before.status .brk
  | .interrupt kind => savedBytes (resumePc kind frame.before.pc) frame.before.status kind

/-- What the registers are to be when the bytes are off the stack again. -/
structure Restored (frame : Frame) (cpu : Cpu) : Prop where
  sp : cpu.sp = frame.before.sp
  pha : frame.entry = .pha → cpu.a = frame.before.a
  php : frame.entry = .php → cpu.status = frame.before.status
  jsr : frame.entry = .jsr → cpu.pc = frame.before.pc + 3
  brk : frame.entry = .brk →
    cpu.status = frame.before.status ∧ cpu.pc = frame.before.pc + 2
  interrupt : ∀ kind, frame.entry = .interrupt kind →
    cpu.status = frame.before.status ∧ cpu.pc = resumePc kind frame.before.pc

end Frame

/-- All bytes that frames have on the stack, the next to be pulled first. -/
def outstanding (frames : List Frame) : List UInt8 := frames.flatMap fun frame => frame.saved.reverse

/-- The next cycle runs this operation. -/
def Core.AtOperation (core : Core FlatMemory) (operation : Operation) : Prop :=
  core.cpu.pending ≤ 1 ∧
    ∃ opcode, decode? (core.bus.fetch core.cpu.pc) = some opcode ∧ opcode.operation = operation

/-- The next call makes an entry. -/
def Entry.IsDue (entry : Entry) (core : Core FlatMemory) : Prop :=
  match entry with
  | .pha => core.AtOperation .pha
  | .php => core.AtOperation .php
  | .jsr => core.AtOperation .jsr
  | .brk => core.AtOperation .brk
  | .interrupt kind => ¬(kind = .irq ∧ core.cpu.status.interruptDisable = true)

/-- The memory still holds the bytes that are pulled next. -/
def Untouched (memory memory' : FlatMemory) (sp : UInt8) (count : Nat) : Prop :=
  ∀ depth < count, memory'.fetch (slot sp depth) = memory.fetch (slot sp depth)

/-- Frames that are open when calls were made one after another. What is neither an entry nor an exit
moves no stack pointer and writes to no outstanding byte. -/
inductive Nested (start : Core FlatMemory) : List Frame → Core FlatMemory → Prop
  | start : Nested start [] start
  | enter {frames : List Frame} {s t : Core FlatMemory} (entry : Entry) : Nested start frames s →
      entry.IsDue s → entry.call.run s = .ok () t →
      (outstanding (⟨entry, s.cpu⟩ :: frames)).length ≤ 256 →
      Nested start (⟨entry, s.cpu⟩ :: frames) t
  | exit {frame : Frame} {frames : List Frame} {s t : Core FlatMemory} :
      Nested start (frame :: frames) s → s.AtOperation frame.entry.exit → cycle s = .ok () t →
      Nested start frames t
  | other {frames : List Frame} {s t : Core FlatMemory} (call : Call) : Nested start frames s →
      call.run s = .ok () t → t.cpu.sp = s.cpu.sp →
      Untouched s.bus t.bus s.cpu.sp (outstanding frames).length → Nested start frames t
  | changed {frames : List Frame} {s : Core FlatMemory} (memory : FlatMemory) :
      Nested start frames s → Untouched s.bus memory s.cpu.sp (outstanding frames).length →
      Nested start frames { s with bus := memory }

/-! ## Entries -/

variable {core after : Core FlatMemory}

theorem of_operation {operation : Operation} (here : core.AtOperation operation)
    (run : cycle core = .ok () after) :
    ∃ opcode ending done pending, opcode.operation = operation ∧
      perform opcode.mode operation (core.due.fetched opcode core.bus) = .ok ending done ∧
      after.cpu = { ending.settle opcode done.cpu with pending := pending } ∧
      ∀ place, after.bus.fetch place = done.bus.fetch place := by
  obtain ⟨due, opcode, known, rfl⟩ := here
  cases of_cycle_ok due run with
  | skipped read unknown _ _ =>
    cases read
    exact nomatch known.symm.trans unknown
  | performed read known' performed _ eq =>
    cases read
    obtain rfl := Option.some.inj (known.symm.trans known')
    subst eq
    exact ⟨_, _, _, _, rfl, performed, rfl, fun _ => rfl⟩

theorem locate_flat {mode : Mode} {operand : Operand}
    (h : locate mode core = .ok operand after) : after = core := by
  cases mode <;> cases h <;> rfl

/-- An entry lowers the stack pointer by the bytes that it pushes, and writes nothing else. -/
theorem entry_pushes {entry : Entry} (due : entry.IsDue core)
    (run : entry.call.run core = .ok () after) :
    after.cpu.sp = core.cpu.sp - UInt8.ofNat (Frame.saved ⟨entry, core.cpu⟩).length ∧
      ∀ place, after.bus.fetch place =
        (pushAll core.bus core.cpu.sp (Frame.saved ⟨entry, core.cpu⟩)).fetch place := by
  have second : core.cpu.pc + 1 + 1 = core.cpu.pc + 2 := UInt16.add_assoc _ 1 1
  have lower : ∀ sp : UInt8, sp - 1 - 1 = sp - 2 ∧ sp - 1 - 1 - 1 = sp - 3 := by grind
  cases entry with
  | pha | php =>
    obtain ⟨_, _, _, _, _, performed, cpu, fetch⟩ := of_operation due run
    cases performed
    exact ⟨congrArg Cpu.sp cpu, fetch⟩
  | jsr =>
    obtain ⟨_, _, _, _, _, performed, cpu, fetch⟩ := of_operation due run
    obtain ⟨target, _, located, performed⟩ := of_bind_ok performed
    cases locate_flat located
    cases performed
    refine ⟨(congrArg Cpu.sp cpu).trans (lower core.cpu.sp).1, ?_⟩
    simp only [Frame.saved, ← second]
    exact fetch
  | brk =>
    obtain ⟨_, _, _, _, _, performed, cpu, fetch⟩ := of_operation due run
    cases performed
    refine ⟨(congrArg Cpu.sp cpu).trans (lower core.cpu.sp).2, ?_⟩
    simp only [Frame.saved, ← second]
    exact fetch
  | interrupt kind =>
    obtain ⟨_, _, _, entered, _, rfl⟩ := of_interrupt_ok due run
    cases entered
    exact ⟨(lower core.cpu.sp).2, fun _ => rfl⟩

/-! ## Exits -/

theorem pulled_copy {status : Status} (live : status.IsLive) (kind : Interrupt) :
    Status.pulled (status.toByte ||| kind.pushedBits) = status := by
  obtain ⟨n, v, _, _, d, i, z, c⟩ := status
  obtain ⟨rfl, rfl⟩ := live
  cases kind <;> revert n v d i z c <;> decide

theorem word_bytes (value : UInt16) : word value.toUInt8 (value >>> 8).toUInt8 = value := by
  have bound := value.toNat_lt
  have high : (value >>> 8).toNat = value.toNat / 0x100 := by
    rw [UInt16.toNat_shiftRight]
    exact Nat.shiftRight_eq_div_pow value.toNat 8
  have page : (0x100 : UInt16).toNat = 0x100 := rfl
  rw [← UInt16.toNat_inj]
  simp only [word, UInt16.toNat_add, UInt16.toNat_mul, UInt8.toNat_toUInt16, UInt16.toNat_toUInt8,
    high, page]
  omega

/-- The three bytes that an interrupt saved, as RTI pulls them. -/
theorem Stacked.context {memory : FlatMemory} {sp : UInt8} {pc : UInt16} {status : Status}
    {kind : Interrupt} (h : Stacked memory sp (savedBytes pc status kind).reverse) :
    memory.fetch (stackStart + (sp + 1).toUInt16) = status.toByte ||| kind.pushedBits ∧
      word (memory.fetch (stackStart + (sp + 1 + 1).toUInt16))
        (memory.fetch (stackStart + (sp + 1 + 1 + 1).toUInt16)) = pc := by
  obtain ⟨copy, h⟩ := stacked_cons.1 h
  obtain ⟨low, h⟩ := stacked_cons.1 h
  obtain ⟨high, _⟩ := stacked_cons.1 h
  rw [copy, low, high, word_bytes]
  exact ⟨rfl, rfl⟩

/-- An exit takes its frame off the stack and gives back what the entry saved. -/
theorem exit_restores {frame : Frame} (live : frame.before.status.IsLive)
    (stacked : Stacked core.bus core.cpu.sp frame.saved.reverse)
    (linked : core.cpu.sp + UInt8.ofNat frame.saved.length = frame.before.sp)
    (here : core.AtOperation frame.entry.exit) (run : cycle core = .ok () after) :
    frame.Restored after.cpu ∧ ∀ place, after.bus.fetch place = core.bus.fetch place := by
  obtain ⟨entry, before⟩ := frame
  obtain ⟨_, _, _, _, _, performed, cpu, fetch⟩ := of_operation here run
  have upper : ∀ sp : UInt8, sp + 1 + 1 = sp + 2 ∧ sp + 1 + 1 + 1 = sp + 3 := by grind
  cases entry with
  | pha =>
    cases performed
    refine ⟨⟨(congrArg Cpu.sp cpu).trans linked, ?_, nofun, nofun, nofun, nofun⟩, fetch⟩
    intro _
    exact (congrArg Cpu.a cpu).trans (stacked_cons.1 stacked).1
  | php =>
    cases performed
    refine ⟨⟨(congrArg Cpu.sp cpu).trans linked, nofun, ?_, nofun, nofun, nofun⟩, fetch⟩
    intro _
    have pulled := congrArg Status.pulled (stacked_cons.1 stacked).1
    exact (congrArg Cpu.status cpu).trans (pulled.trans (pulled_copy live .brk))
  | jsr =>
    cases performed
    obtain ⟨low, stacked⟩ := stacked_cons.1 stacked
    have pulled := word_bytes (before.pc + 2)
    rw [← low, ← (stacked_cons.1 stacked).1] at pulled
    have sp := (upper core.cpu.sp).1.trans linked
    refine ⟨⟨(congrArg Cpu.sp cpu).trans sp, nofun, nofun, ?_, nofun, nofun⟩, fetch⟩
    intro _
    have third : before.pc + 2 + 1 = before.pc + 3 := UInt16.add_assoc _ 2 1
    exact (congrArg Cpu.pc cpu).trans ((congrArg (· + 1) pulled).trans third)
  | brk =>
    cases performed
    obtain ⟨copy, pc⟩ := stacked.context
    have sp := (upper core.cpu.sp).2.trans linked
    refine ⟨⟨(congrArg Cpu.sp cpu).trans sp, nofun, nofun, nofun, ?_, nofun⟩, fetch⟩
    intro _
    have pulled := (congrArg Status.pulled copy).trans (pulled_copy live .brk)
    exact ⟨(congrArg Cpu.status cpu).trans pulled, (congrArg Cpu.pc cpu).trans pc⟩
  | interrupt kind =>
    cases performed
    obtain ⟨copy, pc⟩ := stacked.context
    have sp := (upper core.cpu.sp).2.trans linked
    refine ⟨⟨(congrArg Cpu.sp cpu).trans sp, nofun, nofun, nofun, nofun, ?_⟩, fetch⟩
    rintro _ ⟨⟩
    have pulled := (congrArg Status.pulled copy).trans (pulled_copy live kind)
    exact ⟨(congrArg Cpu.status cpu).trans pulled, (congrArg Cpu.pc cpu).trans pc⟩

/-! ## Nesting -/

/-- Each frame leads back to where the stack stood before it. -/
def Linked : UInt8 → List Frame → Prop
  | _, [] => True
  | sp, frame :: rest => frame.before.status.IsLive ∧
      sp + UInt8.ofNat frame.saved.length = frame.before.sp ∧ Linked frame.before.sp rest

/-- The open frames are all on the stack. -/
structure Sound (frames : List Frame) (core : Core FlatMemory) : Prop where
  live : core.cpu.status.IsLive
  linked : Linked core.cpu.sp frames
  stacked : Stacked core.bus core.cpu.sp (outstanding frames)
  room : (outstanding frames).length ≤ 256

variable {frames : List Frame}

theorem call_live {call : Call} (live : core.cpu.status.IsLive) (run : call.run core = .ok () after) :
    after.cpu.status.IsLive := by
  rw [← reached_ok run]
  exact call_obeys live_tolerated call core live

theorem Sound.enter (h : Sound frames core) {entry : Entry} (due : entry.IsDue core)
    (run : entry.call.run core = .ok () after)
    (room : (outstanding (⟨entry, core.cpu⟩ :: frames)).length ≤ 256) :
    Sound (⟨entry, core.cpu⟩ :: frames) after := by
  obtain ⟨sp, fetch⟩ := entry_pushes due run
  have both : (Frame.saved ⟨entry, core.cpu⟩).length + (outstanding frames).length ≤ 256 := by
    rwa [outstanding, List.flatMap_cons, List.length_append, List.length_reverse] at room
  refine ⟨call_live h.live run, ⟨h.live, ?_, h.linked⟩, ?_, room⟩
  · rw [sp]
    exact UInt8.sub_add_cancel _ _
  · rw [sp]
    exact (h.stacked.pushAll both).congr fun depth _ => fetch _

theorem Sound.exit {frame : Frame} (h : Sound (frame :: frames) core)
    (here : core.AtOperation frame.entry.exit) (run : cycle core = .ok () after) :
    frame.Restored after.cpu ∧ Sound frames after := by
  obtain ⟨live, linked, rest⟩ := h.linked
  obtain ⟨restored, fetch⟩ := exit_restores live h.stacked.front linked here run
  have behind := h.stacked.behind
  rw [List.length_reverse, linked] at behind
  have called : Call.cycle.run core = .ok () after := run
  refine ⟨restored, call_live h.live called, ?_, ?_, ?_⟩
  · rwa [restored.sp]
  · rw [restored.sp]
    exact behind.congr fun depth _ => fetch _
  · have room := h.room
    rw [outstanding, List.flatMap_cons, List.length_append] at room
    exact Nat.le_trans (Nat.le_add_left _ _) room

theorem Nested.sound {start : Core FlatMemory} (h : Nested start frames core)
    (live : start.cpu.status.IsLive) : Sound frames core := by
  induction h with
  | start => exact ⟨live, trivial, nofun, Nat.zero_le 256⟩
  | enter entry _ due run room ih => exact ih.enter due run room
  | exit _ here run ih => exact (ih.exit here run).2
  | other call _ run sp same ih =>
    exact ⟨call_live ih.live run, sp ▸ ih.linked, sp ▸ ih.stacked.congr same, ih.room⟩
  | changed memory _ same ih => exact ⟨ih.live, ih.linked, ih.stacked.congr same, ih.room⟩

/-- Whatever was nested in it, an exit finds the frame that its entry left, and the registers are
again what they are to be. -/
theorem exits_restore {start : Core FlatMemory} {frame : Frame} (live : start.cpu.status.IsLive)
    (nested : Nested start (frame :: frames) core) (here : core.AtOperation frame.entry.exit)
    (room : core.cpu.cycles.toNat + 1 < UInt64.size) :
    ∃ after, cycle core = .ok () after ∧ frame.Restored after.cpu := by
  obtain ⟨after, run⟩ := flat_answers.cycle_ok room
  exact ⟨after, run, ((nested.sound live).exit here run).1⟩

/-- Cycles that are waited for open and close nothing. -/
theorem Nested.wait {start : Core FlatMemory} {cpu : Cpu} {memory : FlatMemory} {trace : Trace}
    (h : Nested start frames ⟨cpu, memory, trace⟩) {n : Nat} (due : n < cpu.pending.toNat)
    (room : cpu.cycles.toNat + n < UInt64.size) :
    Nested start frames ⟨{ cpu with
      cycles := cpu.cycles + UInt64.ofNat n
      pending := cpu.pending - UInt32.ofNat n }, memory, trace⟩ := by
  induction n with
  | zero =>
    rw [show UInt64.ofNat 0 = 0 from rfl, show UInt32.ofNat 0 = 0 from rfl, UInt64.add_zero,
      UInt32.sub_zero]
    exact h
  | succ n ih =>
    have before := ih (by omega) (by omega)
    have bound := cpu.pending.toNat_lt
    have few : (UInt32.ofNat n).toNat = n := UInt32.toNat_ofNat_of_lt' (by
      simp only [UInt32.size]
      omega)
    have more : (cpu.cycles + UInt64.ofNat n).toNat + 1 < UInt64.size := by
      rw [UInt64.toNat_add, UInt64.toNat_ofNat']
      simp only [UInt64.size] at room ⊢
      omega
    have waits : 1 < cpu.pending - UInt32.ofNat n := by
      rw [UInt32.lt_iff_toNat_lt, UInt32.toNat_sub, few]
      simp only [UInt32.reduceToNat]
      omega
    have next := before.other .cycle (cycle_waits more waits) rfl fun _ _ => rfl
    have cycles : cpu.cycles + UInt64.ofNat (n + 1) = cpu.cycles + UInt64.ofNat n + 1 := by
      rw [UInt64.ofNat_add, UInt64.add_assoc]
      rfl
    have pending : cpu.pending - UInt32.ofNat (n + 1) = cpu.pending - UInt32.ofNat n - 1 := by
      rw [UInt32.ofNat_add]
      grind
    rw [cycles, pending]
    exact next

/-! ## A push that is interrupted -/

theorem perform_pha (cpu : Cpu) (memory : FlatMemory) (trace : Trace) :
    perform .implied .pha ⟨cpu, memory, trace⟩ = .ok (.next 0)
      ⟨{ cpu with sp := cpu.sp - 1 }, memory.store (stackStart + cpu.sp.toUInt16) cpu.a, trace⟩ :=
  rfl

theorem perform_rti (cpu : Cpu) (memory : FlatMemory) (trace : Trace) :
    perform .implied .rti ⟨cpu, memory, trace⟩ = .ok (.jumped 0)
      ⟨{ cpu with
        sp := cpu.sp + 1 + 1 + 1
        status := Status.pulled (memory.fetch (stackStart + (cpu.sp + 1).toUInt16))
        pc := word (memory.fetch (stackStart + (cpu.sp + 1 + 1).toUInt16))
          (memory.fetch (stackStart + (cpu.sp + 1 + 1 + 1).toUInt16)) }, memory, trace⟩ :=
  rfl

theorem enter_nmi (cpu : Cpu) (memory : FlatMemory) (trace : Trace) :
    let saved := pushAll memory cpu.sp (savedBytes cpu.pc cpu.status .nmi)
    enter .nmi ⟨cpu, memory, trace⟩ = .ok ()
      ⟨{ cpu with
        sp := cpu.sp - 1 - 1 - 1
        status := { cpu.status with interruptDisable := true }
        pc := word (saved.fetch 0xFFFA) (saved.fetch 0xFFFB) }, saved, trace⟩ :=
  rfl

theorem interrupt_nmi {cpu left : Cpu} {memory memory' : FlatMemory} {trace trace' : Trace}
    (h : enter .nmi ⟨cpu, memory, trace.push (.interrupt .nmi)⟩ = .ok () ⟨left, memory', trace'⟩)
    (room : left.pending.toNat + 7 < UInt32.size) :
    interrupt .nmi ⟨cpu, memory, trace⟩ =
      .ok () ⟨{ left with pending := left.pending + 7 }, memory', trace'⟩ := by
  have sum : addCount32 left.pending 7 = .ok (left.pending + 7) := if_pos room
  simp only [interrupt, Interrupt.isMaskable, Interrupt.cycles, Bool.false_and, Bool.false_eq_true,
    reduceCtorEq, if_false, bind, EStateM.bind, pure, getCpu, note, h, owe, tryCpu, Except.bind, sum,
    Except.pure]

/-- PHA and PLA, and a handler that returns at once. -/
def interrupted : FlatMemory :=
  (((FlatMemory.blank.poke 0 0x48).poke 1 0x68).poke 0x10 0x40).poke 0xFFFA 0x10

/-- A processor that pushes to the first place of the page, so that the stack pointer wraps. -/
def wrapping : Core FlatMemory := ⟨{ powerOn with a := 0x42, sp := 0 }, interrupted, .fresh⟩

/-- The same between PHA and PLA. -/
def wrapped (pending : UInt32) (cycles : UInt64) : Cpu :=
  { powerOn with a := 0x42, sp := 0xFF, pc := 1, pending := pending, cycles := cycles }

/-- The same in the handler. -/
def handling (pending : UInt32) (cycles : UInt64) : Cpu :=
  { powerOn with a := 0x42, sp := 0xFC, pc := 0x10, pending := pending, cycles := cycles }

/-- Memory behind PHA, and behind the interrupt. -/
def pushedOne : FlatMemory := interrupted.store (stackStart + (0 : UInt8).toUInt16) 0x42

def pushedFour : FlatMemory := pushAll pushedOne 0xFF (savedBytes 1 .powerOn .nmi)

theorem pushedFour_fetch :
    pushedFour.fetch 1 = 0x68 ∧ pushedFour.fetch 0x10 = 0x40 ∧ pushedFour.fetch 0xFFFA = 0x10 ∧
      pushedFour.fetch 0xFFFB = 0 ∧ pushedFour.fetch 0x1FD = 0x24 ∧ pushedFour.fetch 0x1FE = 1 ∧
        pushedFour.fetch 0x1FF = 0 := by
  have bytes : savedBytes 1 .powerOn .nmi = [0, 1, 0x24] := by decide
  have first : stackStart + (0 : UInt8).toUInt16 = 0x100 := by decide
  have second : stackStart + (0xFF : UInt8).toUInt16 = 0x1FF := by decide
  have third : stackStart + ((0xFF : UInt8) - 1).toUInt16 = 0x1FE := by decide
  have fourth : stackStart + ((0xFF : UInt8) - 1 - 1).toUInt16 = 0x1FD := by decide
  have empty : FlatMemory.blank.fetch 0xFFFB = 0 := by simp [FlatMemory.blank, FlatMemory.fetch]
  rw [pushedFour, bytes]
  simp only [pushAll, pushedOne, interrupted, first, second, third, fourth, FlatMemory.fetch_store,
    FlatMemory.fetch_poke, empty]
  decide

/-- What the program finds at its three instructions. -/
theorem interrupted_codes :
    decode? (interrupted.fetch 0) = some ⟨.pha, .implied, 1, 3, true⟩ ∧
      decode? (pushedFour.fetch 0x10) = some ⟨.rti, .implied, 1, 6, true⟩ ∧
      decode? (pushedFour.fetch 1) = some ⟨.pla, .implied, 1, 4, true⟩ := by
  obtain ⟨pull, back, -⟩ := pushedFour_fetch
  have push : interrupted.fetch 0 = 0x48 := by simp [interrupted, FlatMemory.fetch_poke]
  rw [push, pull, back]
  decide +kernel

theorem wrapping_pushes : ∃ trace, cycle wrapping = .ok () ⟨wrapped 3 1, pushedOne, trace⟩ :=
  ⟨_, (cycle_steps (by decide) (by decide)).trans
    (step_ok (interrupted.read_eq 0) interrupted_codes.1 (perform_pha _ _ _) (by decide) rfl)⟩

theorem wrapped_interrupted (trace : Trace) : ∃ trace',
    interrupt .nmi ⟨wrapped 3 1, pushedOne, trace⟩ = .ok () ⟨handling 10 1, pushedFour, trace'⟩ := by
  obtain ⟨-, -, low, high, -⟩ := pushedFour_fetch
  have saved : pushAll pushedOne (wrapped 3 1).sp
      (savedBytes (wrapped 3 1).pc (wrapped 3 1).status .nmi) = pushedFour := rfl
  have entered := enter_nmi (wrapped 3 1) pushedOne (trace.push (.interrupt .nmi))
  dsimp only at entered
  rw [saved, low, high] at entered
  exact ⟨trace.push (.interrupt .nmi), interrupt_nmi entered (by decide)⟩

theorem handling_returns (trace : Trace) : ∃ trace',
    cycle ⟨handling 1 10, pushedFour, trace⟩ = .ok () ⟨wrapped 6 11, pushedFour, trace'⟩ := by
  obtain ⟨-, -, -, -, status, low, high⟩ := pushedFour_fetch
  have performed := perform_rti { handling 0 11 with pc := 0x11 } pushedFour
    (trace.push (.instruction (handling 0 11) ⟨.rti, .implied, 1, 6, true⟩))
  have first : stackStart + ((handling 0 11).sp + 1).toUInt16 = 0x1FD := by decide
  have second : stackStart + ((handling 0 11).sp + 1 + 1).toUInt16 = 0x1FE := by decide
  have third : stackStart + ((handling 0 11).sp + 1 + 1 + 1).toUInt16 = 0x1FF := by decide
  dsimp only at performed
  rw [first, second, third, status, low, high] at performed
  exact ⟨_, (cycle_steps (by decide) (by decide)).trans
    (step_ok (pushedFour.read_eq 0x10) interrupted_codes.2.1 performed (by decide) rfl)⟩

/-- PHA fills the first place of the page, and an interrupt comes before the next instruction. Its
handler returns to PLA, which finds the accumulator around the end of the page. -/
theorem interrupted_push_pulls : ∃ inner outer : Core FlatMemory,
    Nested wrapping [⟨.interrupt .nmi, wrapped 3 1⟩, ⟨.pha, wrapping.cpu⟩] inner ∧
      inner.AtOperation .rti ∧ (∃ after, cycle inner = .ok () after ∧
        Frame.Restored ⟨.interrupt .nmi, wrapped 3 1⟩ after.cpu) ∧
      Nested wrapping [⟨.pha, wrapping.cpu⟩] outer ∧ outer.AtOperation .pla ∧
      ∃ after, cycle outer = .ok () after ∧ Frame.Restored ⟨.pha, wrapping.cpu⟩ after.cpu := by
  obtain ⟨push, back, pull⟩ := interrupted_codes
  obtain ⟨t₁, pushes⟩ := wrapping_pushes
  obtain ⟨t₂, enters⟩ := wrapped_interrupted t₁
  obtain ⟨t₃, returns⟩ := handling_returns t₂
  have room : (outstanding [⟨.interrupt .nmi, wrapped 3 1⟩, ⟨.pha, wrapping.cpu⟩]).length ≤ 256 := by
    decide
  have opened : Nested wrapping [⟨.pha, wrapping.cpu⟩] ⟨wrapped 3 1, pushedOne, t₁⟩ :=
    .enter .pha .start ⟨by decide, _, push, rfl⟩ pushes (by decide)
  have nested : Nested wrapping [⟨.interrupt .nmi, wrapped 3 1⟩, ⟨.pha, wrapping.cpu⟩]
      ⟨handling 10 1, pushedFour, t₂⟩ := .enter (.interrupt .nmi) opened nofun enters room
  have inner : Nested wrapping [⟨.interrupt .nmi, wrapped 3 1⟩, ⟨.pha, wrapping.cpu⟩]
      ⟨handling 1 10, pushedFour, t₂⟩ := @Nested.wait _ _ _ _ _ nested 9 (by decide) (by decide)
  have here : Core.AtOperation ⟨handling 1 10, pushedFour, t₂⟩ .rti :=
    ⟨(by decide : (handling 1 10).pending ≤ 1), _, back, rfl⟩
  have outer : Nested wrapping [⟨.pha, wrapping.cpu⟩] ⟨wrapped 1 16, pushedFour, t₃⟩ :=
    @Nested.wait _ _ _ _ _ (.exit inner here returns) 5 (by decide) (by decide)
  have there : Core.AtOperation ⟨wrapped 1 16, pushedFour, t₃⟩ .pla :=
    ⟨(by decide : (wrapped 1 16).pending ≤ 1), _, pull, rfl⟩
  exact ⟨_, _, inner, here,
    exits_restore powerOn_live inner here (by decide : (handling 1 10).cycles.toNat + 1 < UInt64.size),
    outer, there,
    exits_restore powerOn_live outer there (by decide : (wrapped 1 16).cycles.toNat + 1 < UInt64.size)⟩

end Famicom.Cpu
