import Famicom.Proofs.AddressSpace
import Famicom.Proofs.Cpu.Step
import Famicom.Proofs.Quiet
import Famicom.Proofs.Resume

/-!
# Going back to a backup

A backup brings everything back but the controllers, which stay as the program and the host left them.
A program that reads one before it strobes it may notice.
-/

namespace Famicom

open Image (polling pollingByte)

/-! ## Controllers -/

namespace Joypad

/-- The same as far as a program can tell by reading: under a high strobe nothing shifts. -/
structure Alike (p q : Joypad) : Prop where
  buttons : p.buttons = q.buttons
  strobe : p.strobe = q.strobe
  shift : p.strobe = false → p.shift = q.shift

/-- The same but for the buttons, which are the host's. -/
structure Latched (p q : Joypad) : Prop where
  strobe : p.strobe = q.strobe
  shift : p.strobe = false → p.shift = q.shift

variable {p q : Joypad}

theorem Alike.read (h : p.Alike q) : p.read.1 = q.read.1 ∧ p.read.2.Alike q.read.2 := by
  obtain ⟨hb, hs, hr⟩ := h
  unfold Joypad.read
  rw [← hs]
  cases hp : p.strobe with
  | true =>
    rw [if_pos rfl, if_pos rfl, hb]
    exact ⟨rfl, hb, hs, hr⟩
  | false =>
    rw [if_neg Bool.false_ne_true, if_neg Bool.false_ne_true, hr hp]
    exact ⟨rfl, hb, rfl, fun _ => rfl⟩

theorem Alike.write (h : p.Alike q) (value : UInt8) : (p.write value).Alike (q.write value) := by
  unfold Joypad.write
  split
  · exact ⟨h.buttons, rfl, fun hf => by cases hf⟩
  · exact ⟨h.buttons, rfl, fun _ => h.buttons⟩

theorem Alike.press (h : p.Alike q) (buttons : UInt8) :
    Alike { p with buttons := buttons } { q with buttons := buttons } :=
  ⟨rfl, h.strobe, h.shift⟩

theorem Latched.press (h : p.Latched q) (buttons : UInt8) :
    Alike { p with buttons := buttons } { q with buttons := buttons } :=
  ⟨rfl, h.strobe, h.shift⟩

end Joypad

namespace Joypads

def Alike (p q : Joypads) : Prop := p.first.Alike q.first ∧ p.second.Alike q.second

def Latched (p q : Joypads) : Prop := p.first.Latched q.first ∧ p.second.Latched q.second

theorem alike_padsAlike : Devices.PadsAlike Alike where
  read p q h socket := by
    match socket with
    | 0 =>
      obtain ⟨same, alike⟩ := h.1.read
      exact ⟨same, alike, h.2⟩
    | 1 =>
      obtain ⟨same, alike⟩ := h.2.read
      exact ⟨same, h.1, alike⟩
    | _ + 2 => exact ⟨rfl, h⟩
  strobe _ _ h value := ⟨h.1.write value, h.2.write value⟩

end Joypads

/-! ## The polling program -/

/-- Where the polling program is. -/
inductive Poll.Stage
  | load
  | keep
  | strobe
  | rest
deriving DecidableEq

/-- What the polling program works with. -/
structure Poll where
  stage : Poll.Stage
  a : UInt8
  owed : UInt32
  cell : UInt8
  pads : Joypads

namespace Poll

def Stage.pc : Stage → UInt16
  | load => 0x8000
  | keep => 0x8003
  | strobe => 0x8005
  | rest => 0x8008

/-- The instruction of a stage. -/
def step (p : Poll) : Poll :=
  match p.stage with
  | .load =>
    ⟨.keep, p.pads.first.read.1, 4, p.cell, { p.pads with first := p.pads.first.read.2 }⟩
  | .keep => ⟨.strobe, p.a, 3, p.a, p.pads⟩
  | .strobe => ⟨.rest, p.a, 4, p.cell, Devices.strobe p.pads p.a⟩
  | .rest => { p with owed := 3 }

def tick (p : Poll) : Poll := if 1 < p.owed then { p with owed := p.owed - 1 } else p.step

def run : Nat → Poll → Poll
  | 0, p => p
  | n + 1, p => run n p.tick

theorem run_add (n k : Nat) (p : Poll) : p.run (n + k) = (p.run n).run k := by
  induction n generalizing p with
  | zero => rw [Nat.zero_add]; rfl
  | succ n ih => rw [Nat.add_right_comm]; exact ih p.tick

/-- The controllers after the program has stored an answer. -/
def polled (p : Poll) : Joypads :=
  Devices.strobe { p.pads with first := p.pads.first.read.2 } p.pads.first.read.1

theorem run_load {p : Poll} (hs : p.stage = .load) (ho : p.owed = 0) :
    p.run 8 = ⟨.rest, p.pads.first.read.1, 4, p.pads.first.read.1, p.polled⟩ := by
  simp [run, tick, step, hs, ho, polled]

theorem run_rest {p : Poll} (h : p.stage = .rest) (n : Nat) :
    (p.run n).stage = .rest ∧ (p.run n).cell = p.cell ∧ (p.run n).pads = p.pads := by
  induction n generalizing p with
  | zero => exact ⟨h, rfl, rfl⟩
  | succ n ih =>
    have kept : p.tick.stage = .rest ∧ p.tick.cell = p.cell ∧ p.tick.pads = p.pads := by
      unfold tick step
      rw [h]
      split <;> exact ⟨rfl, rfl, rfl⟩
    obtain ⟨stage, cell, pads⟩ := ih kept.1
    exact ⟨stage, cell.trans kept.2.1, pads.trans kept.2.2⟩

/-! ## Its accesses -/

theorem program_get (i : Nat) (h : i < polling.program.size) :
    polling.program[i] = pollingByte i := by
  simp only [polling, ByteArray.getElem_eq_getElem_data, Array.getElem_ofFn]

theorem readProgram_eq {board : Board} (h : board.Fits polling) (address : UInt16) :
    board.readProgram address = .ok (pollingByte (address.toNat % 0x4000)) := by
  have hindex : (address &&& 0x3FFF).toNat = address.toNat % 0x4000 := toNat_and_low address 14 rfl
  obtain ⟨inserted, circuit⟩ := board
  obtain ⟨hinserted, hcircuit⟩ := h
  dsimp only at hinserted hcircuit
  subst hinserted
  cases circuit with
  | nrom state =>
    have hbank : state.oneBank = true := by
      rw [hcircuit.2.1, Image.polling_size]
      rfl
    have hpos : 0 < polling.program.size := by
      rw [Image.polling_size]
      decide
    dsimp only [Board.readProgram]
    rw [Board.fixedProgramIndex, if_pos hbank, Board.fetchRom, dif_pos hpos]
    dsimp only
    simp only [program_get, hindex, Image.polling_size, Image.programBankSize, Nat.mod_mod]
  | uxrom state => exact absurd hcircuit.1 (by decide)
  | cnrom state => exact absurd hcircuit.1 (by decide)

theorem fetch {d : Devices} (h : d.board.Fits polling) {address : UInt16}
    (high : 0x8000 ≤ address) :
    Devices.read address d = .ok (pollingByte (address.toNat % 0x4000)) d :=
  Devices.read_program high (readProgram_eq h address)

theorem read_pad {d : Devices} (h : d.memory.Fits polling) :
    Devices.read 0x4016 d = .ok d.pads.first.read.1
      { d with pads := { d.pads with first := d.pads.first.read.2 } } := by
  have hsource : d.memory.source 0x4016 = .ok (.handler (.controller 0)) := by
    rw [MainMemory.source, h.wired]
    rfl
  simp only [Devices.read, hsource]
  rfl

theorem write_cell (d : Devices) (value : UInt8) :
    Devices.write 0x0010 value d = .ok ()
      { d with memory := d.memory.storeRam 0x10 value } :=
  rfl

theorem write_strobe {d : Devices} (h : d.memory.Fits polling) (value : UInt8) :
    Devices.write 0x4016 value d = .ok () { d with pads := Devices.strobe d.pads value } := by
  have hsink : d.memory.sink 0x4016 = .handler .strobe := by
    rw [MainMemory.sink, h.wired]
    rfl
  simp only [Devices.write, hsink]
  rfl

/-! ## Its instructions -/

/-- A processor and its devices at a state of the program. -/
structure Shown (p : Poll) (cpu : Cpu) (d : Devices) : Prop where
  board : d.board.Fits polling
  memory : d.memory.Fits polling
  idle : d.transferRequested = false
  quiet : d.ppu.control.interruptEnabled = false
  pc : cpu.pc = p.stage.pc
  a : cpu.a = p.a
  owed : cpu.pending = p.owed
  cell : d.memory.ram[0x10] = p.cell
  pads : d.pads = p.pads

variable {p : Poll} {cpu : Cpu} {d : Devices} {trace : Trace}

theorem takeTransfer_idle (h : d.transferRequested = false) : Cpu.Bus.takeTransfer d = (false, d) := by
  obtain ⟨memory, picture, board, ppu, pads, requested⟩ := d
  cases h
  rfl

theorem reads {pc address : UInt16} {byte : UInt8} (h : d.board.Fits polling)
    (hpc : pc = address) (high : 0x8000 ≤ address)
    (hbyte : pollingByte (address.toNat % 0x4000) = byte) : Cpu.Bus.read pc d = .ok byte d := by
  rw [hpc, ← hbyte]
  exact fetch h high

theorem locate_word (h : d.board.Fits polling) {pc : UInt16} (hpc : cpu.pc = pc)
    (first : 0x8000 ≤ pc) (second : 0x8000 ≤ pc + 1) :
    Cpu.locate .absolute ⟨cpu, d, trace⟩ =
      .ok ⟨Cpu.word (pollingByte (pc.toNat % 0x4000)) (pollingByte ((pc + 1).toNat % 0x4000)), false⟩
        ⟨cpu, d, trace⟩ :=
  Cpu.locate_absolute (reads h hpc first rfl) (reads h (congrArg (· + 1) hpc) second rfl)

/-- An instruction at the stage of the program, none of whose cycles are owed yet. -/
theorem step_due {code : UInt8} {opcode : Cpu.Opcode} {ending : Cpu.Ending} {after : Cpu}
    {d' : Devices} {trace' : Trace} (h : p.Shown cpu d) (hdue : cpu.pending = 0)
    (hcode : pollingByte (p.stage.pc.toNat % 0x4000) = code)
    (hdecode : Cpu.decode? code = some opcode)
    (hperform : Cpu.perform opcode.mode opcode.operation
      ⟨{ cpu with pc := cpu.pc + 1 }, d, trace.push (.instruction cpu opcode)⟩ =
        .ok ending ⟨after, d', trace'⟩)
    (hafter : after.pending = cpu.pending) (idle : d'.transferRequested = false) :
    Cpu.step ⟨cpu, d, trace⟩ = .ok () ⟨ending.settle opcode after, d', trace'⟩ := by
  have high : 0x8000 ≤ p.stage.pc := by cases p.stage <;> decide
  have hread : Cpu.Bus.read cpu.pc d = .ok code d := reads h.board h.pc high hcode
  have hroom : after.pending.toNat + (ending.cost opcode).toNat < UInt32.size := by
    rw [hafter, hdue, UInt32.toNat_zero, Nat.zero_add]
    exact UInt32.toNat_lt _
  exact Cpu.step_ok hread hdecode hperform hroom (takeTransfer_idle idle)

theorem step_load (h : p.Shown cpu d) (hs : p.stage = .load) (hdue : cpu.pending = 0) :
    ∃ cpu' d' trace', Cpu.step ⟨cpu, d, trace⟩ = .ok () ⟨cpu', d', trace'⟩ ∧
      p.step.Shown cpu' d' := by
  have hpc : cpu.pc = 0x8000 := by rw [h.pc, hs]; rfl
  have hdecode : Cpu.decode? 0xAD = some ⟨.load .a, .absolute, 3, 4, true⟩ := by decide +kernel
  refine ⟨_, _, _, step_due h hdue (by rw [hs]; rfl) hdecode (Cpu.perform_load .a
    (locate_word h.board (congrArg (· + 1) hpc) (by decide) (by decide)) (read_pad h.memory))
    rfl h.idle, ?_⟩
  have hnext : p.step = ⟨.keep, p.pads.first.read.1, 4, p.cell,
      { p.pads with first := p.pads.first.read.2 }⟩ := by
    rw [step, hs]
  rw [hnext, ← h.pads]
  refine { h with pc := ?_, a := rfl, owed := ?_, pads := rfl }
  · show cpu.pc + 1 + 2 = 0x8003
    rw [hpc]
    decide
  · show cpu.pending + 4 = 4
    rw [hdue]
    decide

theorem step_keep (h : p.Shown cpu d) (hs : p.stage = .keep) (hdue : cpu.pending = 0) :
    ∃ cpu' d' trace', Cpu.step ⟨cpu, d, trace⟩ = .ok () ⟨cpu', d', trace'⟩ ∧
      p.step.Shown cpu' d' := by
  have hpc : cpu.pc = 0x8003 := by rw [h.pc, hs]; rfl
  have hdecode : Cpu.decode? 0x85 = some ⟨.store .a, .zeroPage, 2, 3, true⟩ := by decide +kernel
  refine ⟨_, _, _, step_due h hdue (by rw [hs]; rfl) hdecode (Cpu.perform_store .a
    (Cpu.locate_zeroPage (reads h.board (congrArg (· + 1) hpc) (by decide) rfl))
    (write_cell d cpu.a)) rfl h.idle, ?_⟩
  have hnext : p.step = ⟨.strobe, p.a, 3, p.a, p.pads⟩ := by
    rw [step, hs]
  rw [hnext]
  have stored := MainMemory.storeRam_fits h.memory 0x10 cpu.a
  refine { h with memory := stored, pc := ?_, owed := ?_, cell := ?_ }
  · show cpu.pc + 1 + 1 = 0x8005
    rw [hpc]
    decide
  · show cpu.pending + 3 = 3
    rw [hdue]
    decide
  · show (d.memory.storeRam 0x10 cpu.a).ram[0x10] = p.a
    rw [← h.a]
    exact Vector.getElem_set_self _

theorem step_strobe (h : p.Shown cpu d) (hs : p.stage = .strobe) (hdue : cpu.pending = 0) :
    ∃ cpu' d' trace', Cpu.step ⟨cpu, d, trace⟩ = .ok () ⟨cpu', d', trace'⟩ ∧
      p.step.Shown cpu' d' := by
  have hpc : cpu.pc = 0x8005 := by rw [h.pc, hs]; rfl
  have hdecode : Cpu.decode? 0x8D = some ⟨.store .a, .absolute, 3, 4, true⟩ := by decide +kernel
  refine ⟨_, _, _, step_due h hdue (by rw [hs]; rfl) hdecode (Cpu.perform_store .a
    (locate_word h.board (congrArg (· + 1) hpc) (by decide) (by decide))
    (write_strobe h.memory cpu.a)) rfl h.idle, ?_⟩
  have hnext : p.step = ⟨.rest, p.a, 4, p.cell, Devices.strobe p.pads p.a⟩ := by
    rw [step, hs]
  rw [hnext, ← h.pads, ← h.a]
  refine { h with pc := ?_, a := rfl, owed := ?_, pads := rfl }
  · show cpu.pc + 1 + 2 = 0x8008
    rw [hpc]
    decide
  · show cpu.pending + 4 = 4
    rw [hdue]
    decide

theorem step_rest (h : p.Shown cpu d) (hs : p.stage = .rest) (hdue : cpu.pending = 0) :
    ∃ cpu' d' trace', Cpu.step ⟨cpu, d, trace⟩ = .ok () ⟨cpu', d', trace'⟩ ∧
      p.step.Shown cpu' d' := by
  have hpc : cpu.pc = 0x8008 := by rw [h.pc, hs]; rfl
  have hdecode : Cpu.decode? 0x4C = some ⟨.jmp, .absolute, 3, 3, true⟩ := by decide +kernel
  refine ⟨_, _, _, step_due h hdue (by rw [hs]; rfl) hdecode (Cpu.perform_jmp
    (locate_word h.board (congrArg (· + 1) hpc) (by decide) (by decide))) rfl h.idle, ?_⟩
  have hnext : p.step = { p with owed := 3 } := by
    rw [step, hs]
  rw [hnext]
  refine { h with pc := ?_, owed := ?_ }
  · show (0x8008 : UInt16) = p.stage.pc
    rw [hs]
    rfl
  · show cpu.pending + 3 = 3
    rw [hdue]
    decide

theorem step_shown (h : p.Shown cpu d) (hdue : cpu.pending = 0) :
    ∃ cpu' d' trace', Cpu.step ⟨cpu, d, trace⟩ = .ok () ⟨cpu', d', trace'⟩ ∧
      p.step.Shown cpu' d' := by
  cases hs : p.stage with
  | load => exact step_load h hs hdue
  | keep => exact step_keep h hs hdue
  | strobe => exact step_strobe h hs hdue
  | rest => exact step_rest h hs hdue

theorem cycle_shown (trace : Trace) (h : p.Shown cpu d) (hc : cpu.cycles.toNat + 1 < UInt64.size) :
    ∃ cpu' d' trace', Cpu.cycle ⟨cpu, d, trace⟩ = .ok () ⟨cpu', d', trace'⟩ ∧
      p.tick.Shown cpu' d' := by
  by_cases hp : 1 < cpu.pending
  · refine ⟨_, _, _, Cpu.cycle_waits hc hp, ?_⟩
    rw [tick, if_pos (h.owed ▸ hp)]
    exact { h with owed := congrArg (· - 1) h.owed }
  · rw [Cpu.cycle_steps hc (UInt32.not_lt.1 hp), tick, if_neg (h.owed ▸ hp)]
    have due : Shown { p with owed := 0 }
        { cpu with cycles := cpu.cycles + 1, pending := 0 } d :=
      { h with owed := rfl }
    have same : { p with owed := 0 }.step = p.step := by
      unfold step
      cases p.stage <;> rfl
    rw [← same]
    exact step_shown due rfl

open Machine (Quiet)

/-- A cycle of the machine is a tick of the program. -/
theorem tick_shown {m : Machine} (sound : m.Sound polling) (h : p.Shown m.cpu m.bus)
    (room : 3 * m.cpu.cycles.toNat + 3 < UInt64.size) :
    ∃ n, Machine.tick m = .ok () n ∧ n.Sound polling ∧
      n.cpu.cycles.toNat = m.cpu.cycles.toNat + 1 ∧ p.tick.Shown n.cpu n.bus := by
  obtain ⟨n, ht, hn, hcycles⟩ :=
    Machine.tick_ok (Cartridge.ofImage_sound Image.ofImage_pollingImage) sound room
  refine ⟨n, ht, hn, hcycles, ?_⟩
  obtain ⟨⟨cpu, bus, trace⟩, drifts, hc⟩ := Machine.tick_quiet ⟨h.quiet, sound.clock.calm⟩ ht
  obtain ⟨hcpu, hbus, _, disabled, _⟩ := drifts
  dsimp only at hcpu hbus disabled
  have hshown : p.Shown cpu bus := by
    rw [hcpu, hbus]
    exact { h with quiet := disabled }
  have hroom : cpu.cycles.toNat + 1 < UInt64.size := by
    rw [hcpu]
    omega
  obtain ⟨cpu', bus', trace', hc', hshown'⟩ := cycle_shown trace hshown hroom
  rw [hc'] at hc
  cases hc
  exact hshown'

theorem ticks_shown {m : Machine} (sound : m.Sound polling) (h : p.Shown m.cpu m.bus) (k : Nat)
    (room : 3 * (m.cpu.cycles.toNat + k) < UInt64.size) :
    ∃ n, Machine.repeated Machine.tick k m = .ok () n ∧ (p.run k).Shown n.cpu n.bus := by
  induction k generalizing p m with
  | zero => exact ⟨m, rfl, h⟩
  | succ k ih =>
    obtain ⟨next, ht, hs, hcycles, hnext⟩ := tick_shown sound h (by omega)
    obtain ⟨n, hr, hn⟩ := ih hs hnext (by omega)
    exact ⟨n, (bind_ok ht).trans hr, hn⟩

/-- What a frame of the program leaves: the answer of the controller, and the strobe set by it. -/
theorem frame_shown {m : Machine} (sound : m.Sound polling) (h : p.Shown m.cpu m.bus)
    (hs : p.stage = .load) (ho : p.owed = 0)
    (room : 3 * (m.cpu.cycles.toNat + Machine.cyclesPerFrame) < UInt64.size) :
    ∃ n, Machine.frame m = .ok () n ∧ n.bus.memory.ram[0x10] = p.pads.first.read.1 ∧
      n.bus.pads = p.polled := by
  obtain ⟨n, hf, hn⟩ := ticks_shown sound h Machine.cyclesPerFrame room
  obtain ⟨rest, hlength⟩ : ∃ rest, Machine.cyclesPerFrame = 8 + rest := ⟨29773, rfl⟩
  rw [hlength, run_add, run_load hs ho] at hn
  obtain ⟨_, kept, left⟩ :=
    @run_rest ⟨.rest, p.pads.first.read.1, 4, p.pads.first.read.1, p.polled⟩ rfl rest
  exact ⟨n, hf, hn.cell.trans kept, hn.pads.trans left⟩

theorem Shown.withPads (h : p.Shown cpu d) (pads : Joypads) :
    Shown { p with pads := pads } cpu { d with pads := pads } :=
  { h with pads := rfl }

/-- The program when the console is powered on. -/
def start : Poll := ⟨.load, 0, 0, 0, {}⟩

/-- The machine that runs it then. -/
def startMachine (board : Board) (variant : Ppu.Variant) : Machine where
  cpu := { Cpu.powerOn with pc := 0x8000 }
  bus := { (Machine.assemble board variant).bus with ppu := (Ppu.powerOn variant).reset }
  trace := .fresh

theorem insert_shown (variant : Ppu.Variant) : ∃ c, Console.insert polling variant = .ok c ∧
    c.machine.cpu.cycles = 0 ∧ start.Shown c.machine.cpu c.machine.bus := by
  obtain ⟨board, hboard⟩ := @Board.ofCartridge?_isSome polling (.inl rfl)
  have hfits := Console.assemble_fits (Board.ofCartridge?_fits hboard) variant
  have hlow : Cpu.Bus.read Cpu.resetVector (Machine.assemble board variant).bus = .ok 0x00 _ :=
    reads hfits.board rfl (by decide) (by decide)
  have hhigh : Cpu.Bus.read (Cpu.resetVector + 1) (Machine.assemble board variant).bus =
      .ok 0x80 _ :=
    reads hfits.board rfl (by decide) (by decide)
  have hreset : Cpu.reset (Machine.assemble board variant) =
      .ok () ⟨{ Cpu.powerOn with pc := 0x8000 }, (Machine.assemble board variant).bus, .fresh⟩ :=
    Cpu.reset_ok hlow hhigh
  have hmachine : (do Cpu.reset; Console.resetPpu : Machine.Action Unit)
      (Machine.assemble board variant) = .ok () (startMachine board variant) := by
    rw [bind_ok hreset]
    rfl
  refine ⟨⟨polling, startMachine board variant, none⟩, Console.insert_eq hboard hmachine, rfl, ?_⟩
  refine ⟨hfits.board, hfits.memory, rfl,
    (by decide : Ppu.Control.powerOn.interruptEnabled = false), rfl, rfl, rfl, ?_, rfl⟩
  show (MainMemory.fresh.fitExtendedRam board.extendedRam).ram[0x10] = 0
  unfold MainMemory.fitExtendedRam
  split <;> exact Vector.getElem_replicate _

end Poll

namespace Console

open Machine (Seen SameScreen)

variable {cartridge : Cartridge} {c d : Console}

theorem alike_steady : Steady Joypads.Alike SameScreen where
  answers := Joypads.alike_padsAlike
  first h buttons := ⟨h.1.press buttons, h.2⟩
  second h buttons := ⟨h.1, h.2.press buttons⟩
  shown := Machine.sameScreen_shown
  restarted _ _ h := ⟨h.variant, h.screen⟩

/-! ## Back to the backup -/

/-- Nothing but the controllers and the log tells that time has passed since the backup. -/
theorem restore_eq (sound : cartridge.Sound) (hc : c.Sound cartridge) {during : List Input}
    (hd : feedAll during c.backUp = .ok () d) :
    d.restore = { c.backUp with
      machine.bus.pads := d.machine.bus.pads
      machine.trace := d.machine.trace } := by
  have start : Alike cartridge Eq (Seen c.variant False) c.backUp.backup c.backUp.backup
      c.backUp c.backUp :=
    ⟨⟨hc.machine, rfl, ⟨rfl, rfl, rfl, rfl, rfl, rfl⟩, rfl, rfl, False.elim⟩,
      ⟨hc.inserted, hc.inserted⟩, rfl, rfl⟩
  have alike := feedAll_coupled (seen_steady c.variant False) sound during _ _ start
  rw [hd] at alike
  obtain ⟨inserted, machine, backup⟩ := d
  cases alike with
  | ok ha =>
    obtain ⟨⟨⟨_, idle, _⟩, _, _, hseen⟩, ⟨hinserted, _⟩, hbackup, _⟩ := ha
    have idle : machine.bus.transferRequested = c.machine.bus.transferRequested :=
      idle.trans hc.machine.idle.symm
    have variant : machine.bus.ppu.variant = c.machine.bus.ppu.variant := hseen.left
    have hinserted : inserted = c.cartridge := hinserted.trans hc.inserted.symm
    have hbackup : backup = some c.save := hbackup
    have hsave : c.save.Sound cartridge := hc.machine.snapshot
    rw [hinserted, hbackup]
    show load ⟨c.cartridge, machine, some c.save⟩ c.save = _
    rw [load_eq hsave.stocked]
    dsimp only [Machine.resume, backUp]
    rw [idle, variant]
    rfl

/-- The inputs of a host that first says which buttons are held. -/
def holding (first second : UInt8) (inputs : List Input) : List Input :=
  .press 0 first :: .press 1 second :: inputs

theorem holding_coupled (sound : cartridge.Sound) {x y : Option Snapshot}
    (first second : UInt8) (inputs : List Input) :
    Coupled (Alike cartridge Joypads.Latched SameScreen x y) (feedAll (holding first second inputs))
      (fun _ => Alike cartridge Joypads.Alike SameScreen x y) Overflow := by
  rintro c d ⟨⟨⟨hf, idle, hc⟩, hcpu, ht, hscreens⟩, hi, hb⟩
  have held : ∀ c : Console, feedAll (holding first second inputs) c = feedAll inputs
      { c with machine.bus.pads :=
        ⟨{ c.pads.first with buttons := first }, { c.pads.second with buttons := second }⟩ } :=
    fun _ => rfl
  rw [held, held]
  have latched := ht.pads
  refine feedAll_coupled alike_steady sound inputs _ _ ⟨⟨⟨{ hf with }, idle, hc⟩, hcpu, ?_,
    hscreens⟩, hi, hb⟩
  exact { ht with pads := ⟨latched.1.press first, latched.2.press second⟩ }

theorem feedAll_ends (sound : cartridge.Sound) (h : c.Sound cartridge) (inputs : List Input) :
    (∃ stopped, feedAll inputs c = .error .overflow stopped ∧ stopped.machine.bus.ppu.CountFull) ∨
      ∃ d, feedAll inputs c = .ok () d := by
  have alike := feedAll_coupled any_steady sound inputs c c h.alike
  cases hr : feedAll inputs c with
  | ok value d => exact .inr ⟨d, rfl⟩
  | error fault stopped =>
    rw [hr] at alike
    cases alike with
    | error hf =>
      obtain ⟨rfl, full, _⟩ := hf
      exact .inl ⟨stopped, rfl, full⟩

/-- Going back to a backup leaves the controllers as they are and brings back all else. Where their
strobes and shift registers are as they were, the same inputs give the same run again. -/
theorem restore_rolls_back {raw : ByteArray} (himage : Cartridge.ofImage raw = .ok cartridge)
    (hc : Reachable cartridge c) (during : List Input) :
    (∃ stopped, feedAll during c.backUp = .error .overflow stopped ∧
      stopped.machine.bus.ppu.CountFull) ∨
    ∃ d, feedAll during c.backUp = .ok () d ∧
      d.restore = { c.backUp with
        machine.bus.pads := d.machine.bus.pads
        machine.trace := d.machine.trace } ∧
      (c.pads.Latched d.pads → ∀ first second inputs, EndAlike
        (fun _ c' d' => Agree c' d' ∧ c'.screen = d'.screen) Overflow
        (feedAll (holding first second inputs) c.backUp)
        (feedAll (holding first second inputs) d.restore)) := by
  have sound := Cartridge.ofImage_sound himage
  have hc := hc.sound sound
  rcases feedAll_ends sound (backUp_sound hc) during with stopped | ⟨d, hd⟩
  · exact .inl stopped
  have hr := restore_eq sound hc hd
  refine .inr ⟨d, hd, hr, ?_⟩
  intro latched first second inputs
  have start : Alike cartridge Joypads.Latched SameScreen (some c.save) (some c.save)
      c.backUp d.restore := by
    rw [hr]
    exact ⟨⟨hc.machine, rfl, ⟨rfl, rfl, rfl, rfl, latched, rfl⟩, rfl, rfl⟩,
      ⟨hc.inserted, hc.inserted⟩, rfl, rfl⟩
  exact (holding_coupled sound first second inputs _ _ start).mono
    (fun _ _ _ h => ⟨h.agree, h.machine.twins.screens.screen⟩) fun _ _ _ => id

theorem polling_rolls_back : ∃ c d : Console, insert polling .full = .ok c ∧
    feedAll [.press 0 1, .poke 0x10 7] c.backUp = .ok () d ∧
    d.restore = { c.backUp with
      machine.bus.pads := d.machine.bus.pads
      machine.trace := d.machine.trace } ∧
    ∀ first second inputs, EndAlike
      (fun _ c' d' => Agree c' d' ∧ c'.screen = d'.screen) Overflow
      (feedAll (holding first second inputs) c.backUp)
      (feedAll (holding first second inputs) d.restore) := by
  obtain ⟨c, hc, _, _⟩ := Poll.insert_shown .full
  have hd : feedAll [.press 0 1, .poke 0x10 7] c.backUp =
      .ok () (({ c.backUp with machine.bus.pads.first.buttons := 1 } : Console).poke 0x10 7) := rfl
  rcases restore_rolls_back Image.ofImage_pollingImage (.insert hc) [.press 0 1, .poke 0x10 7]
    with ⟨stopped, he, _⟩ | ⟨d, hd', back, again⟩
  · rw [hd] at he
    cases he
  · rw [hd] at hd'
    cases hd'
    exact ⟨c, _, hc, hd, back, again ⟨⟨rfl, fun _ => rfl⟩, ⟨rfl, fun _ => rfl⟩⟩⟩

/-! ## A program that notices -/

/-- A console about to run the polling program. -/
structure Polls (c : Console) : Prop where
  sound : c.Sound polling
  cycles : c.machine.cpu.cycles = 0
  shown : Poll.Shown { Poll.start with pads := c.pads } c.machine.cpu c.machine.bus

theorem insert_polls : ∃ c, insert polling .full = .ok c ∧ c.Polls ∧ c.pads = {} := by
  obtain ⟨c, hc, hcycles, hshown⟩ := Poll.insert_shown .full
  have sound := Cartridge.ofImage_sound Image.ofImage_pollingImage
  exact ⟨c, hc, ⟨insert_sound sound hc, hcycles, hshown.withPads c.pads⟩, hshown.pads⟩

theorem Polls.press (h : c.Polls) (buttons : UInt8) : ∃ d, feed (.press 0 buttons) c = .ok () d ∧
    d.Polls ∧ d.pads = { c.pads with first := { c.pads.first with buttons := buttons } } := by
  have sound := Cartridge.ofImage_sound Image.ofImage_pollingImage
  have hd : feed (.press 0 buttons) c =
      .ok () { c with machine.bus.pads.first.buttons := buttons } := rfl
  exact ⟨_, hd, ⟨feed_sound sound h.sound hd, h.cycles, h.shown.withPads _⟩, rfl⟩

theorem Polls.backUp (h : c.Polls) : c.backUp.Polls :=
  ⟨backUp_sound h.sound, h.cycles, h.shown⟩

/-- A frame stores the answer of the controller and strobes it accordingly. -/
theorem Polls.frame (h : c.Polls) : ∃ d, feed .frame c = .ok () d ∧
    d.machine.bus.memory.ram[0x10] = c.pads.first.read.1 ∧
    d.pads = Poll.polled { Poll.start with pads := c.pads } := by
  have room : 3 * (c.machine.cpu.cycles.toNat + Machine.cyclesPerFrame) < UInt64.size := by
    rw [h.cycles]
    decide
  obtain ⟨n, hf, cell, pads⟩ := Poll.frame_shown h.sound.machine h.shown rfl rfl room
  refine ⟨⟨c.cartridge, n, c.backup⟩, ?_, cell, pads⟩
  show Console.frame c = _
  simp only [Console.frame, onMachine, hf]

theorem Polls.restore (h : c.Polls) (hd : feed .frame c.backUp = .ok () d) :
    d.restore.Polls ∧ d.restore.pads = d.pads := by
  have sound := Cartridge.ofImage_sound Image.ofImage_pollingImage
  have hrun : feedAll [.frame] c.backUp = .ok () d := bind_ok hd
  have hrestored := restore_sound (feed_sound sound h.backUp.sound hd)
  rw [restore_eq sound h.sound hrun] at hrestored ⊢
  exact ⟨⟨hrestored, h.cycles, h.shown.withPads d.pads⟩, rfl⟩

/-- A program that reads a controller before it strobes it finds what it latched before the console
went back: with the same buttons held, it stores another answer. -/
theorem restore_keeps_latch : ∃ c held first again : Console,
    insert polling .full = .ok c ∧ feed (.press 0 1) c = .ok () held ∧
    feed .frame held.backUp = .ok () first ∧ feed .frame first.restore = .ok () again ∧
    held.pads.first = ⟨1, 0, false⟩ ∧ first.restore.pads.first = ⟨1, 1, false⟩ ∧
    first.machine.bus.memory.ram[0x10] = 0x40 ∧ again.machine.bus.memory.ram[0x10] = 0x41 := by
  obtain ⟨c, hc, polls, unheld⟩ := insert_polls
  obtain ⟨held, hheld, polls, pads⟩ := polls.press 1
  rw [unheld] at pads
  obtain ⟨first, hfirst, cell, left⟩ := polls.backUp.frame
  have latched : first.pads = ⟨⟨1, 1, false⟩, {}⟩ := by
    rw [left]
    show Poll.polled { Poll.start with pads := held.pads } = _
    rw [pads]
    rfl
  obtain ⟨polls', kept⟩ := polls.restore hfirst
  obtain ⟨again, hagain, other, _⟩ := polls'.frame
  refine ⟨c, held, first, again, hc, hheld, hfirst, hagain, ?_, ?_, ?_, ?_⟩
  · rw [pads]
  · rw [kept, latched]
  · rw [cell]
    show held.pads.first.read.1 = _
    rw [pads]
    rfl
  · rw [other, kept, latched]
    rfl

end Console

end Famicom
