import Famicom.Proofs.Console
import Famicom.Proofs.Image

/-!
# Full and light pipelines

A light pipeline leaves out nothing but the picture: whatever a host asks, a full and a light console
of one cartridge stay in the same state, byte for byte, and the light screen stays dark.
-/

namespace Famicom

open Ppu (Beam)

/-- A console with the states that its host has saved, the last one first. -/
structure Rig where
  console : Console
  saved : List Snapshot

inductive Request
  | input (input : Input)
  | backUp
  | restore
  | save
  | load (age : Nat)
  | decode (buffer : List UInt8)

/-- Buffers come from consoles of the same cartridge. -/
def Request.Valid (cartridge : Cartridge) : Request → Prop
  | .decode buffer => ∃ source rest, Console.Reachable cartridge source ∧
    buffer = source.encode ++ rest
  | _ => True

namespace Rig

abbrev Action (α : Type) := EStateM Fault Rig α

def onConsole (action : Console.Action Unit) : Action Unit := fun rig =>
  match action rig.console with
  | .ok value console => .ok value { rig with console := console }
  | .error fault console => .error fault { rig with console := console }

/-- Loads a state that was saved, if that many were. -/
def load (rig : Rig) (age : Nat) : Rig :=
  match rig.saved[age]? with
  | some state => { rig with console := rig.console.load state }
  | none => rig

/-- A buffer that is refused leaves what was read of it. -/
def decode (rig : Rig) (buffer : List UInt8) : Rig :=
  match rig.console.decode buffer with
  | .ok _ console => { rig with console := console }
  | .error _ console => { rig with console := console }

def serve : Request → Action Unit
  | .input input => onConsole (Console.feed input)
  | .backUp => modify fun rig => { rig with console := rig.console.backUp }
  | .restore => modify fun rig => { rig with console := rig.console.restore }
  | .save => modify fun rig => { rig with saved := rig.console.save :: rig.saved }
  | .load age => modify fun rig => rig.load age
  | .decode buffer => modify fun rig => rig.decode buffer

def serveAll : List Request → Action Unit
  | [] => pure ()
  | request :: rest => do
    serve request
    serveAll rest

variable {cartridge : Cartridge} {r s : Rig}

/-! ## What requests keep -/

/-- States of a full and a light console. -/
structure Saved (cartridge : Cartridge) (s t : Snapshot) : Prop where
  sound : s.Sound cartridge
  twins : s.Twins t
  dark : t.ppu.screen = Vector.replicate _ 0

/-- Beams of a full and a light console. -/
structure Shows (b c : Beam) : Prop where
  full : b.variant = .full
  light : Machine.DarkScreen c

theorem shows_shown : Machine.Shown Shows where
  dot h hb hc := ⟨hb.variant.trans h.full, Machine.darkScreen_shown.dot h.light hb hc⟩
  calm h := ⟨h.full, h.light.variant, h.light.screen⟩

theorem shows_steady : Console.Steady Eq Shows :=
  Console.eq_steady shows_shown fun _ _ h => ⟨h.full, h.light.variant, h.light.screen⟩

structure Alike (cartridge : Cartridge) (r s : Rig) : Prop where
  console : Console.Alike cartridge Eq Shows r.console.backup s.console.backup r.console s.console
  backup : Option.Rel (Saved cartridge) r.console.backup s.console.backup
  saved : ∀ age : Nat, Option.Rel (Saved cartridge) r.saved[age]? s.saved[age]?

theorem Alike.save (h : Alike cartridge r s) :
    Saved cartridge r.console.save s.console.save where
  sound := h.console.machine.sound.snapshot
  twins := h.console.machine.twins.snapshot
  dark := h.console.machine.twins.screens.light.screen

theorem Alike.resume (h : Alike cartridge r s) {state other : Snapshot}
    (hs : state.Sound cartridge) (ht : state.Twins other) (first : Ppu.Screen) {second : Ppu.Screen}
    (dark : second = Vector.replicate _ 0) :
    Alike cartridge
      { r with console.machine := r.console.machine.resume state first }
      { s with console.machine := s.console.machine.resume other second } := by
  have hscreens := h.console.machine.twins.screens
  have shows' : Shows (r.console.machine.resume state first).bus.ppu.beam
      (s.console.machine.resume other second).bus.ppu.beam :=
    ⟨hscreens.full, hscreens.light.variant, dark⟩
  have machine := Machine.resume_alike h.console.machine hs ht first second shows'
  exact ⟨⟨machine, h.console.inserted, rfl, rfl⟩, h.backup, h.saved⟩

theorem Alike.recall (h : Alike cartridge r s) {state other : Snapshot}
    (hk : Saved cartridge state other) :
    Alike cartridge { r with console := r.console.load state }
      { s with console := s.console.load other } := by
  rw [Console.load_eq hk.sound.stocked, Console.load_eq (hk.twins.sound hk.sound).stocked]
  exact h.resume hk.sound hk.twins _ hk.dark

theorem Alike.backUp (h : Alike cartridge r s) :
    Alike cartridge { r with console := r.console.backUp }
      { s with console := s.console.backUp } := by
  obtain ⟨machine, inserted, _⟩ := h.console
  exact ⟨⟨machine, inserted, rfl, rfl⟩, .some h.save, h.saved⟩

theorem Alike.restore (h : Alike cartridge r s) :
    Alike cartridge { r with console := r.console.restore }
      { s with console := s.console.restore } := by
  have hb := h.backup
  unfold Console.restore
  generalize r.console.backup = x at hb
  generalize s.console.backup = y at hb
  cases hb with
  | none => exact h
  | some hk => exact h.recall hk

theorem Alike.keep (h : Alike cartridge r s) :
    Alike cartridge { r with saved := r.console.save :: r.saved }
      { s with saved := s.console.save :: s.saved } := by
  refine ⟨h.console, h.backup, ?_⟩
  intro age
  cases age with
  | zero => exact .some h.save
  | succ age => exact h.saved age

theorem Alike.load (h : Alike cartridge r s) (age : Nat) :
    Alike cartridge (r.load age) (s.load age) := by
  have hk := h.saved age
  unfold Rig.load
  generalize r.saved[age]? = x at hk
  generalize s.saved[age]? = y at hk
  cases hk with
  | none => exact h
  | some hk => exact h.recall hk

theorem Alike.decode (sound : cartridge.Sound) (h : Alike cartridge r s) {source : Console}
    (hsource : Console.Reachable cartridge source) (rest : List UInt8) :
    Alike cartridge (r.decode (source.encode ++ rest)) (s.decode (source.encode ++ rest)) := by
  have hd := (hsource.sound sound).machine
  unfold Rig.decode
  rw [Console.decode_encode h.console.machine.sound.stocked hd.stocked,
    Console.decode_encode h.console.machine.other.stocked hd.stocked]
  exact h.resume hd.snapshot ⟨rfl, rfl, rfl, rfl, rfl⟩ _ h.console.machine.twins.screens.light.screen

/-- Both consoles have stopped with a full count of dots. -/
def Overflow (fault : Fault) (r s : Rig) : Prop := Console.Overflow fault r.console s.console

theorem input_coupled (sound : cartridge.Sound) (input : Input) :
    Coupled (Alike cartridge) (onConsole (Console.feed input)) (fun _ => Alike cartridge) Overflow := by
  intro r s h
  have alike := Console.feed_coupled shows_steady sound input _ _ h.console
  unfold onConsole
  generalize Console.feed input r.console = r₁ at alike
  generalize Console.feed input s.console = r₂ at alike
  cases alike with
  | ok ha =>
    obtain ⟨machine, inserted, hx, hy⟩ := ha
    refine .ok ⟨⟨machine, inserted, rfl, rfl⟩, ?_, h.saved⟩
    show Option.Rel _ _ _
    rw [hx, hy]
    exact h.backup
  | error hf => exact .error hf

theorem serve_coupled (sound : cartridge.Sound) {request : Request} (hv : request.Valid cartridge) :
    Coupled (Alike cartridge) (serve request) (fun _ => Alike cartridge) Overflow := by
  intro r s h
  cases request with
  | input input => exact input_coupled sound input r s h
  | backUp => exact .ok h.backUp
  | restore => exact .ok h.restore
  | save => exact .ok h.keep
  | load age => exact .ok (h.load age)
  | decode buffer =>
    obtain ⟨source, rest, hsource, rfl⟩ := hv
    exact .ok (h.decode sound hsource rest)

theorem serveAll_coupled (sound : cartridge.Sound) {requests : List Request}
    (hv : ∀ request ∈ requests, request.Valid cartridge) :
    Coupled (Alike cartridge) (serveAll requests) (fun _ => Alike cartridge) Overflow := by
  induction requests with
  | nil => exact .pure fun _ _ => id
  | cons request rest ih =>
    obtain ⟨first, later⟩ := List.forall_mem_cons.1 hv
    exact (serve_coupled sound first).bind fun _ => ih later

/-! ## From power on -/

/-- What a host finds of a full and a light console. -/
structure Lockstep (full light : Console) : Prop where
  encode : full.encode = light.encode
  cpu : full.machine.cpu = light.machine.cpu
  memory : full.machine.bus.memory = light.machine.bus.memory
  picture : full.machine.bus.picture = light.machine.bus.picture
  ppu : light.machine.bus.ppu =
    full.machine.bus.ppu.repaint .light (Vector.replicate _ 0)
  board : full.machine.bus.board = light.machine.bus.board
  pads : full.machine.bus.pads = light.machine.bus.pads

theorem Alike.lockstep (h : Alike cartridge r s) : Lockstep r.console s.console := by
  obtain ⟨⟨⟨_, hcpu, ht, hshows⟩, _, _⟩, _, _⟩ := h
  refine ⟨?_, hcpu, ht.memory, ht.picture, ?_, ht.board, ht.pads⟩
  · exact Machine.encode_congr hcpu ht.memory ht.picture ht.board ht.ppu
  · rw [← hshows.light.variant, ← hshows.light.screen]
    exact ht.ppu

/-- After any requests a full and a light console are in lockstep, unless both stopped with a full
counter: they have the same bytes and the same controllers, and only the screen of the light one is
still dark. -/
theorem full_and_light_agree {raw : ByteArray} (himage : Cartridge.ofImage raw = .ok cartridge)
    (supported : (Board.ofCartridge? cartridge).isSome) {requests : List Request}
    (hv : ∀ request ∈ requests, request.Valid cartridge) :
    ∃ full light, Console.insert cartridge .full = .ok full ∧
      Console.insert cartridge .light = .ok light ∧
      EndAlike (fun _ r s => Lockstep r.console s.console) Overflow
        (serveAll requests ⟨full, []⟩) (serveAll requests ⟨light, []⟩) := by
  have sound := Cartridge.ofImage_sound himage
  obtain ⟨board, hboard⟩ := Option.isSome_iff_exists.1 supported
  obtain ⟨full, light, hfull, hlight, alike⟩ := Console.insert_alike sound hboard .full .light
  have shows' : Shows full.machine.bus.ppu.beam light.machine.bus.ppu.beam := by
    have on := alike.machine.twins.screens
    exact ⟨on.left, on.right, on.dark'⟩
  have start : Alike cartridge ⟨full, []⟩ ⟨light, []⟩ := by
    refine ⟨⟨alike.machine.mono fun _ => shows', alike.inserted, rfl, rfl⟩, ?_, fun _ => .none⟩
    show Option.Rel _ full.backup light.backup
    rw [alike.backup.1, alike.backup.2]
    exact .none
  refine ⟨full, light, hfull, hlight, ?_⟩
  exact (serveAll_coupled sound hv _ _ start).mono (fun _ _ _ h => h.lockstep) fun _ _ _ => id

def polls : List Request :=
  [.save, .input .frame, .backUp, .input (.press 0 1), .input .frame, .restore, .load 0]

theorem full_and_light_poll_alike :
    ∃ full light, Console.insert Image.polling .full = .ok full ∧
      Console.insert Image.polling .light = .ok light ∧
      EndAlike (fun _ r s => Lockstep r.console s.console) Overflow
        (serveAll polls ⟨full, []⟩) (serveAll polls ⟨light, []⟩) := by
  refine full_and_light_agree Image.ofImage_pollingImage (by decide) fun request hr => ?_
  simp only [polls, List.mem_cons, List.not_mem_nil, or_false] at hr
  rcases hr with rfl | rfl | rfl | rfl | rfl | rfl | rfl <;> trivial

end Rig

end Famicom
