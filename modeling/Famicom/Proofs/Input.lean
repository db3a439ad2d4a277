import Famicom.Console
import Famicom.Proofs.Screens

/-!
# Host inputs

What a host does to a running console, one input at a time. Inputs keep a console sound, and take
consoles that are alike to consoles that are alike.
-/

namespace Famicom

inductive Input
  | press (socket : Nat) (buttons : UInt8)
  | poke (cell : Fin 0x800) (value : UInt8)
  | frame
  | reset
deriving DecidableEq, Repr

namespace Console

/-- Sockets without a controller ignore their buttons. -/
def feed : Input → Action Unit
  | .press socket buttons => modify fun console => (console.press? socket buttons).getD console
  | .poke cell value => modify fun console => console.poke cell value
  | .frame => frame
  | .reset => reset

def feedAll : List Input → Action Unit
  | [] => pure ()
  | input :: rest => do
    feed input
    feedAll rest

end Console

open Ppu (Beam)

/-! ## Machines -/

namespace Machine

/-- Sound twins. -/
structure Alike (cartridge : Cartridge) (pads : Joypads → Joypads → Prop)
    (screens : Beam → Beam → Prop) (m n : Machine) : Prop where
  sound : m.Sound cartridge
  twins : m.Twins pads screens n

variable {cartridge : Cartridge} {pads : Joypads → Joypads → Prop}
variable {screens screens' : Beam → Beam → Prop} {m n : Machine}

theorem Alike.other (h : Alike cartridge pads screens m n) : n.Sound cartridge := by
  obtain ⟨⟨hf, idle, hc⟩, hcpu, ht, _⟩ := h
  have hclock : Clock 0 n.cpu.pending n.cpu.cycles n.bus.ppu.beam := by
    rw [← hcpu, ht.ppu]
    exact ⟨hc.total, hc.owed, hc.interrupt⟩
  have hppu : n.bus.ppu.InRange := by
    rw [ht.ppu]
    exact Ppu.repaint_inRange hf.ppu _ _
  exact ⟨⟨ht.memory ▸ hf.memory, ht.picture ▸ hf.picture, ht.board ▸ hf.board, hppu⟩,
    ht.requested ▸ idle, hclock⟩

theorem Alike.mono (h : Alike cartridge pads screens m n)
    (hs : screens m.bus.ppu.beam n.bus.ppu.beam → screens' m.bus.ppu.beam n.bus.ppu.beam) :
    Alike cartridge pads screens' m n :=
  ⟨h.sound, h.twins.cpu, h.twins.bus, hs h.twins.screens⟩

theorem frame_alike (hs : Shown screens) (hpads : Devices.PadsAlike pads)
    (sound : cartridge.Sound) (h : Alike cartridge pads screens m n) :
    EndAlike
      (fun _ m' n' => Alike cartridge pads screens m' n' ∧
        m'.cpu.cycles.toNat = m.cpu.cycles.toNat + cyclesPerFrame)
      (Full (3 * (m.cpu.cycles.toNat + cyclesPerFrame))) (frame m) (frame n) :=
  (frame_coupled hs hpads sound m.cpu.cycles.toNat m n ⟨h.sound, h.twins, rfl⟩).mono
    (fun _ _ _ hl => ⟨⟨hl.sound, hl.twins⟩, hl.cycles⟩) fun _ _ _ => id

/-- The beam of a picture unit that was reset. -/
def restarted (beam : Beam) : Beam :=
  { beam with phase := .preRender, dot := 0, scanline := 0, interruptPending := false, totalDots := 0 }

/-- A reset is answered alike also before the machine was ever reset. -/
theorem reset_coupled (hpads : Devices.PadsAlike pads) (sound : cartridge.Sound) {b c : Beam}
    (hs : screens (restarted b) (restarted c)) :
    Coupled (fun m n => m.cpu = n.cpu ∧
        Devices.Alike (Devices.Fits cartridge) pads (· = false) b c m.bus n.bus)
      (do Cpu.reset; Console.resetPpu) (fun _ => Alike cartridge pads screens) never := by
  rintro m n ⟨hcpu, ha⟩
  have served := Devices.served (Devices.fits_kept cartridge) hpads sound b c
  refine ((Cpu.reset_coupled served.pushable.toReadable).bind fun _ => ?_) m n
    ⟨hcpu, rfl, rfl, ha⟩
  rintro m n ⟨hcpu, ho, hr, ht, hf, idle, rfl, rfl⟩
  have htwin : m.bus.ppu.reset.Twin n.bus.ppu.reset := by
    rw [ht.ppu]
    rfl
  have hclock : Clock 0 m.cpu.pending m.cpu.cycles m.bus.ppu.reset.beam := by
    rw [ho, hr]
    exact ⟨rfl, .inl (Nat.zero_le _), fun hp => by cases hp⟩
  exact .ok ⟨⟨{ hf with ppu := Ppu.reset_inRange _ }, idle, hclock⟩, hcpu,
    { ht with ppu := htwin }, hs⟩

end Machine

/-! ## Consoles -/

namespace Console

variable {cartridge : Cartridge} {pads : Joypads → Joypads → Prop}
variable {screens : Beam → Beam → Prop} {x y : Option Snapshot} {c d : Console}

/-- Consoles of one cartridge whose machines are alike, with their backups. -/
structure Alike (cartridge : Cartridge) (pads : Joypads → Joypads → Prop)
    (screens : Beam → Beam → Prop) (x y : Option Snapshot) (c d : Console) : Prop where
  machine : c.machine.Alike cartridge pads screens d.machine
  inserted : c.cartridge = cartridge ∧ d.cartridge = cartridge
  backup : c.backup = x ∧ d.backup = y

theorem Alike.mono {screens' : Beam → Beam → Prop} (h : Alike cartridge pads screens x y c d)
    (hs : screens c.machine.bus.ppu.beam d.machine.bus.ppu.beam →
      screens' c.machine.bus.ppu.beam d.machine.bus.ppu.beam) :
    Alike cartridge pads screens' x y c d :=
  ⟨h.machine.mono hs, h.inserted, h.backup⟩

/-- Relations of controllers and screens that no input breaks. -/
structure Steady (pads : Joypads → Joypads → Prop) (screens : Beam → Beam → Prop) : Prop where
  answers : Devices.PadsAlike pads
  first : ∀ {p q}, pads p q → ∀ buttons,
    pads { p with first.buttons := buttons } { q with first.buttons := buttons }
  second : ∀ {p q}, pads p q → ∀ buttons,
    pads { p with second.buttons := buttons } { q with second.buttons := buttons }
  shown : Machine.Shown screens
  restarted : ∀ b c, screens b c → screens (Machine.restarted b) (Machine.restarted c)

theorem eq_steady (hs : Machine.Shown screens)
    (hr : ∀ b c, screens b c → screens (Machine.restarted b) (Machine.restarted c)) :
    Steady Eq screens where
  answers := Devices.eq_padsAlike
  first h _ := by rw [h]
  second h _ := by rw [h]
  shown := hs
  restarted := hr

/-- The only way in which an input stops: the count of all dots is full. -/
structure Overflow (fault : Fault) (c d : Console) : Prop where
  fault : fault = .overflow
  left : c.machine.bus.ppu.CountFull
  right : d.machine.bus.ppu.CountFull

theorem onMachine_eq {action : Machine.Action Unit} {m : Machine}
    (h : action c.machine = .ok () m) : onMachine action c = .ok () { c with machine := m } := by
  obtain ⟨_, machine, _⟩ := c
  have h : action machine = .ok () m := h
  simp only [onMachine, h]

theorem onMachine_stops {action : Machine.Action Unit} {fault : Fault} {m : Machine}
    (h : action c.machine = .error fault m) :
    onMachine action c = .error fault { c with machine := m } := by
  obtain ⟨_, machine, _⟩ := c
  have h : action machine = .error fault m := h
  simp only [onMachine, h]

theorem onMachine_alike {action : Machine.Action Unit} (h : Alike cartridge pads screens x y c d)
    {answer : Unit → Machine → Machine → Prop} {stop : Fault → Machine → Machine → Prop}
    (ha : EndAlike answer stop (action c.machine) (action d.machine))
    (hm : ∀ m n, answer () m n → m.Alike cartridge pads screens n)
    {stop' : Fault → Console → Console → Prop}
    (hs : ∀ fault m n, stop fault m n → stop' fault { c with machine := m } { d with machine := n }) :
    EndAlike (fun _ c' d' => Alike cartridge pads screens x y c' d' ∧
      answer () c'.machine d'.machine) stop' (onMachine action c) (onMachine action d) := by
  obtain ⟨_, m, _⟩ := c
  obtain ⟨_, n, _⟩ := d
  unfold onMachine
  dsimp only at ha ⊢
  generalize action m = r₁ at ha
  generalize action n = r₂ at ha
  cases ha with
  | ok h' => exact .ok ⟨⟨hm _ _ h', h.inserted, h.backup⟩, h'⟩
  | error h' => exact .error (hs _ _ _ h')

/-- A frame takes as many cycles and three times as many dots, unless these cannot be counted. -/
theorem frame_alike (hs : Machine.Shown screens) (hpads : Devices.PadsAlike pads)
    (sound : cartridge.Sound) (h : Alike cartridge pads screens x y c d) :
    EndAlike (fun _ c' d' => Alike cartridge pads screens x y c' d' ∧
        c'.machine.cpu.cycles.toNat = c.machine.cpu.cycles.toNat + Machine.cyclesPerFrame)
      (fun fault c' d' => Overflow fault c' d' ∧
        UInt64.size ≤ 3 * (c.machine.cpu.cycles.toNat + Machine.cyclesPerFrame))
      (frame c) (frame d) :=
  (onMachine_alike h (Machine.frame_alike hs hpads sound h.machine) (fun _ _ ha => ha.1)
    fun _ _ _ hf => ⟨⟨hf.overflow, hf.left, hf.right⟩, hf.reached⟩).mono
      (fun _ _ _ ha => ⟨ha.1, ha.2.2⟩) fun _ _ _ => id

theorem reset_alike (hpads : Devices.PadsAlike pads) (sound : cartridge.Sound)
    (hr : ∀ b c, screens b c → screens (Machine.restarted b) (Machine.restarted c))
    (h : Alike cartridge pads screens x y c d) :
    EndAlike (fun _ => Alike cartridge pads screens x y) never (reset c) (reset d) := by
  have hm := h.machine
  have start : c.machine.cpu = d.machine.cpu ∧
      Devices.Alike (Devices.Fits cartridge) pads (· = false) c.machine.bus.ppu.beam
        d.machine.bus.ppu.beam c.machine.bus d.machine.bus :=
    ⟨hm.twins.cpu, hm.twins.bus, hm.sound.devices, hm.sound.idle, rfl, rfl⟩
  exact (onMachine_alike h (Machine.reset_coupled hpads sound (hr _ _ hm.twins.screens) _ _ start)
    (fun _ _ => id) fun _ _ _ hf => hf.elim).mono (fun _ _ _ ha => ha.1) fun _ _ _ => id

theorem press_alike (hs : Steady pads screens) (h : Alike cartridge pads screens x y c d)
    (socket : Nat) (buttons : UInt8) :
    Alike cartridge pads screens x y ((c.press? socket buttons).getD c)
      ((d.press? socket buttons).getD d) := by
  obtain ⟨⟨⟨hf, idle, hc⟩, hcpu, ht, hscreens⟩, hi, hb⟩ := h
  have keep : ∀ {p q : Joypads}, pads p q → Alike cartridge pads screens x y
      { c with machine.bus.pads := p } { d with machine.bus.pads := q } := fun hp =>
    ⟨⟨⟨{ hf with }, idle, hc⟩, hcpu, { ht with pads := hp }, hscreens⟩, hi, hb⟩
  match socket with
  | 0 => exact keep (hs.first ht.pads buttons)
  | 1 => exact keep (hs.second ht.pads buttons)
  | _ + 2 => exact keep ht.pads

theorem poke_alike (h : Alike cartridge pads screens x y c d) (cell : Fin 0x800)
    (value : UInt8) :
    Alike cartridge pads screens x y (c.poke cell value) (d.poke cell value) := by
  obtain ⟨⟨⟨hf, idle, hc⟩, hcpu, ht, hscreens⟩, hi, hb⟩ := h
  have hmemory := MainMemory.storeRam_fits hf.memory cell value
  have same : c.machine.bus.memory.storeRam cell value =
      d.machine.bus.memory.storeRam cell value := by
    rw [ht.memory]
  exact ⟨⟨⟨{ hf with memory := hmemory }, idle, hc⟩, hcpu, { ht with memory := same }, hscreens⟩,
    hi, hb⟩

theorem feed_coupled (hs : Steady pads screens) (sound : cartridge.Sound) (input : Input) :
    Coupled (Alike cartridge pads screens x y) (feed input)
      (fun _ => Alike cartridge pads screens x y) Overflow := by
  intro c d h
  cases input with
  | press socket buttons => exact .ok (press_alike hs h socket buttons)
  | poke cell value => exact .ok (poke_alike h cell value)
  | frame =>
    exact (frame_alike hs.shown hs.answers sound h).mono (fun _ _ _ ha => ha.1) fun _ _ _ hf => hf.1
  | reset =>
    exact (reset_alike hs.answers sound hs.restarted h).mono (fun _ _ _ => id) fun _ _ _ => False.elim

theorem feedAll_coupled (hs : Steady pads screens) (sound : cartridge.Sound)
    (inputs : List Input) :
    Coupled (Alike cartridge pads screens x y) (feedAll inputs)
      (fun _ => Alike cartridge pads screens x y) Overflow := by
  induction inputs with
  | nil => exact .pure fun _ _ => id
  | cons input rest ih => exact (feed_coupled hs sound input).bind fun _ => ih

end Console

end Famicom
