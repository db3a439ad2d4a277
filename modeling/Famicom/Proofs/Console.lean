import Famicom.Proofs.Image
import Famicom.Proofs.Input
import Famicom.Proofs.Layout

/-!
# Consoles

Saved states and the consoles that a host can reach. A reachable console is sound, and so is every
state that it saves; loading such a state, from a snapshot or from bytes, only leaves the controllers
and the variant as they were.
-/

namespace Famicom

open Ppu (Beam)

variable {cartridge : Cartridge}

/-! ## Saved states -/

theorem MainMemory.Fits.fitExtendedRam {memory : MainMemory} (h : memory.Fits cartridge) :
    (memory.fitExtendedRam cartridge.extendedRam).wire = memory := by
  obtain ⟨ram, extendedRam, mapped, bindings⟩ := memory
  obtain ⟨hmapped, hsize, hwired⟩ := h
  dsimp only at hmapped hsize hwired
  subst hmapped hwired
  cases hp : cartridge.extendedRam with
  | false => rfl
  | true =>
    rw [hp, if_pos rfl] at hsize
    have full : (extendedRam ++ Array.replicate (extendedRamSize - extendedRam.size) 0).extract 0
        extendedRamSize = extendedRam := by
      rw [hsize, Nat.sub_self, Array.replicate_zero, Array.append_empty, ← hsize,
        Array.extract_size]
    simp only [MainMemory.fitExtendedRam, wire, if_true, full]

namespace Snapshot

/-- What a machine of the cartridge keeps wherever its beam is. -/
structure Stocked (cartridge : Cartridge) (state : Snapshot) : Prop where
  memory : state.memory.Fits cartridge
  picture : state.picture.Fits cartridge
  board : state.board.Fits cartridge
  ppu : state.ppu.Tame

/-- Such a state is fitted to its board already. -/
theorem Stocked.fitted {state : Snapshot} (h : state.Stocked cartridge) :
    (state.memory.fitExtendedRam state.board.extendedRam).wire = state.memory := by
  rw [Board.extendedRam, h.board.inserted]
  exact h.memory.fitExtendedRam

/-- What a machine of the cartridge keeps between two cycles. -/
structure Sound (cartridge : Cartridge) (state : Snapshot) : Prop where
  memory : state.memory.Fits cartridge
  picture : state.picture.Fits cartridge
  board : state.board.Fits cartridge
  ppu : state.ppu.InRange
  clock : Machine.Clock 0 state.cpu.pending state.cpu.cycles state.ppu.beam

theorem Sound.stocked {state : Snapshot} (h : state.Sound cartridge) : state.Stocked cartridge :=
  { h with ppu := h.ppu.tame }

/-- Saved states that differ in nothing but what they show. -/
structure Twins (s t : Snapshot) : Prop where
  memory : s.memory = t.memory
  picture : s.picture = t.picture
  cpu : s.cpu = t.cpu
  ppu : s.ppu.Twin t.ppu
  board : s.board = t.board

theorem Twins.sound {s t : Snapshot} (h : s.Twins t) (hs : s.Sound cartridge) :
    t.Sound cartridge := by
  obtain ⟨hm, hp, hb, hr, hc⟩ := hs
  refine ⟨h.memory ▸ hm, h.picture ▸ hp, h.board ▸ hb, ?_, ?_⟩
  · rw [h.ppu]
    exact Ppu.repaint_inRange hr _ _
  · rw [← h.cpu, h.ppu]
    exact ⟨hc.total, hc.owed, hc.interrupt⟩

end Snapshot

namespace Machine

variable {pads : Joypads → Joypads → Prop} {screens screens' : Beam → Beam → Prop}
variable {m n : Machine} {s t : Snapshot}

theorem Sound.stocked (h : m.Sound cartridge) : m.bus.Stocked cartridge := h.devices.stocked

theorem Sound.snapshot (h : m.Sound cartridge) : m.snapshot.Sound cartridge :=
  ⟨h.devices.memory, h.devices.picture, h.devices.board, h.devices.ppu, h.clock⟩

theorem Twins.snapshot (h : m.Twins pads screens n) : m.snapshot.Twins n.snapshot :=
  ⟨h.bus.memory, h.bus.picture, h.cpu, h.bus.ppu, h.bus.board⟩

theorem resume_sound (h : m.Sound cartridge) (hs : s.Sound cartridge) (screen : Ppu.Screen) :
    (m.resume s screen).Sound cartridge where
  devices := ⟨hs.memory, hs.picture, hs.board, Ppu.repaint_inRange hs.ppu _ _⟩
  idle := h.idle
  clock := ⟨hs.clock.total, hs.clock.owed, hs.clock.interrupt⟩

theorem resume_alike (h : m.Alike cartridge pads screens n) (hs : s.Sound cartridge)
    (ht : s.Twins t) (first second : Ppu.Screen)
    (hscreens : screens' (m.resume s first).bus.ppu.beam (n.resume t second).bus.ppu.beam) :
    (m.resume s first).Alike cartridge pads screens' (n.resume t second) where
  sound := resume_sound h.sound hs first
  twins := by
    have hppu : (m.resume s first).bus.ppu.Twin (n.resume t second).bus.ppu := by
      show Ppu.Twin (s.ppu.repaint _ _) (t.ppu.repaint _ _)
      rw [ht.ppu]
      rfl
    exact ⟨ht.cpu, ⟨ht.memory, ht.picture, ht.board, hppu, h.twins.bus.pads,
      h.twins.bus.requested⟩, hscreens⟩

/-- A machine that resumes from another one is its twin, if the controllers are. -/
theorem resume_twin (hm : m.Sound cartridge) (hn : n.Sound cartridge)
    (hpads : pads m.bus.pads n.bus.pads) (screen : Ppu.Screen)
    (hscreens : screens (m.resume n.snapshot screen).bus.ppu.beam n.bus.ppu.beam) :
    (m.resume n.snapshot screen).Alike cartridge pads screens n where
  sound := resume_sound hm hn.snapshot screen
  twins := ⟨rfl, ⟨rfl, rfl, rfl, rfl, hpads, hm.idle.trans hn.idle.symm⟩, hscreens⟩

/-- It has the bytes of the other one in any case. -/
theorem encode_resume (m n : Machine) (screen : Ppu.Screen) :
    (m.resume n.snapshot screen).layout.encode (m.resume n.snapshot screen) =
      n.layout.encode n :=
  encode_congr rfl rfl rfl rfl rfl

end Machine

namespace Console

variable {c d : Console} {state : Snapshot}

structure Sound (cartridge : Cartridge) (c : Console) : Prop where
  inserted : c.cartridge = cartridge
  machine : c.machine.Sound cartridge
  backup : ∀ state, c.backup = some state → state.Sound cartridge

theorem load_eq (h : state.Stocked cartridge) (c : Console) :
    c.load state = { c with machine := c.machine.resume state state.ppu.screen } := by
  unfold load rewire
  dsimp only
  rw [h.fitted]
  rfl

theorem decode_encode (hc : c.machine.bus.Stocked cartridge)
    (hd : d.machine.bus.Stocked cartridge) (rest : List UInt8) :
    c.decode (d.encode ++ rest) = .ok rest
      { c with machine := c.machine.resume d.save c.machine.bus.ppu.screen } := by
  have hs : d.save.Stocked cartridge := ⟨hd.memory, hd.picture, hd.board, hd.ppu⟩
  unfold decode encode
  rw [Machine.load_encode hd hc]
  show EStateM.Result.ok rest (rewire { c with
    machine := c.machine.resume d.save c.machine.bus.ppu.screen }) = _
  unfold rewire Machine.resume
  dsimp only
  rw [hs.fitted]

/-! ## Power on -/

theorem assemble_fits {board : Board} (hb : board.Fits cartridge) (variant : Ppu.Variant) :
    (Machine.assemble board variant).bus.Fits cartridge := by
  have hext : board.extendedRam = cartridge.extendedRam := congrArg _ hb.inserted
  have hmir : board.mirroring = cartridge.mirroring := congrArg _ hb.inserted
  refine ⟨⟨?_, ?_, rfl⟩, ?_, hb, Ppu.powerOn_inRange variant⟩
  · show (MainMemory.fresh.fitExtendedRam board.extendedRam).hasExtendedRam = _
    rw [hext]
    cases cartridge.extendedRam <;> rfl
  · show (MainMemory.fresh.fitExtendedRam board.extendedRam).extendedRam.size = _
    rw [hext]
    cases cartridge.extendedRam with
    | false => rfl
    | true =>
      simp only [MainMemory.fitExtendedRam, MainMemory.fresh, if_true, Array.size_extract,
        Array.size_append, Array.size_replicate, List.size_toArray, List.length_nil]
      decide
  · show NameTables.ofMirroring board.mirroring = _
    rw [hmir]

/-- Beams that have shown nothing. -/
structure PoweredOn (v w : Ppu.Variant) (b c : Beam) : Prop where
  left : b.variant = v
  right : c.variant = w
  dark : b.screen = Vector.replicate _ 0
  dark' : c.screen = Vector.replicate _ 0

theorem insert_eq {board : Board} (hboard : Board.ofCartridge? cartridge = some board)
    {variant : Ppu.Variant} {m : Machine}
    (hm : (do Cpu.reset; resetPpu : Machine.Action Unit) (Machine.assemble board variant) =
      .ok () m) : insert cartridge variant = .ok ⟨cartridge, m, none⟩ := by
  simp only [insert, hboard, reset, onMachine, hm]

/-- Consoles powered on with any two variants are alike, and their screens are dark. -/
theorem insert_alike (sound : cartridge.Sound) {board : Board}
    (hboard : Board.ofCartridge? cartridge = some board) (v w : Ppu.Variant) :
    ∃ c d, insert cartridge v = .ok c ∧ insert cartridge w = .ok d ∧
      Alike cartridge Eq (PoweredOn v w) none none c d := by
  have hfits := Board.ofCartridge?_fits hboard
  have hv := assemble_fits hfits v
  have start : Devices.Alike (Devices.Fits cartridge) Eq (· = false) (Ppu.powerOn v).beam
      (Ppu.powerOn w).beam (Machine.assemble board v).bus (Machine.assemble board w).bus :=
    ⟨⟨rfl, rfl, rfl, rfl, rfl, rfl⟩, hv, rfl, rfl, rfl⟩
  have dark : PoweredOn v w (Machine.restarted (Ppu.powerOn v).beam)
      (Machine.restarted (Ppu.powerOn w).beam) := ⟨rfl, rfl, rfl, rfl⟩
  obtain ⟨_, m, n, hm, hn, alike⟩ := (Machine.reset_coupled Devices.eq_padsAlike sound dark
    (Machine.assemble board v) (Machine.assemble board w) ⟨rfl, start⟩).exists_ok
  exact ⟨⟨cartridge, m, none⟩, ⟨cartridge, n, none⟩, insert_eq hboard hm, insert_eq hboard hn,
    alike, ⟨rfl, rfl⟩, rfl, rfl⟩

/-! ## Reachable consoles -/

/-- The consoles that hosts can make of a cartridge. States come from consoles of the same cartridge;
what follows one in a buffer does not matter. -/
inductive Reachable (cartridge : Cartridge) : Console → Prop
  | insert {variant : Ppu.Variant} {c : Console} :
      insert cartridge variant = .ok c → Reachable cartridge c
  | feed {c next : Console} (input : Input) :
      Reachable cartridge c → feed input c = .ok () next → Reachable cartridge next
  | backUp {c : Console} : Reachable cartridge c → Reachable cartridge c.backUp
  | restore {c : Console} : Reachable cartridge c → Reachable cartridge c.restore
  | load {c d : Console} :
      Reachable cartridge c → Reachable cartridge d → Reachable cartridge (c.load d.save)
  | decode {c d next : Console} {rest left : List UInt8} :
      Reachable cartridge c → Reachable cartridge d →
      c.decode (d.encode ++ rest) = .ok left next → Reachable cartridge next

theorem Sound.alike (h : c.Sound cartridge) :
    Alike cartridge Eq (fun _ _ => True) c.backup c.backup c c :=
  ⟨⟨h.machine, rfl, ⟨rfl, rfl, rfl, rfl, rfl, rfl⟩, trivial⟩, ⟨h.inserted, h.inserted⟩, rfl, rfl⟩

theorem any_steady : Steady Eq fun _ _ => True :=
  eq_steady Machine.anyScreens_shown fun _ _ => id

theorem insert_sound (sound : cartridge.Sound) {variant : Ppu.Variant}
    (h : insert cartridge variant = .ok c) : c.Sound cartridge := by
  cases hboard : Board.ofCartridge? cartridge with
  | none =>
    rw [insert, hboard] at h
    cases h
  | some board =>
    obtain ⟨c', _, hc, _, alike⟩ := insert_alike sound hboard variant variant
    rw [hc] at h
    cases h
    refine ⟨alike.inserted.1, alike.machine.sound, ?_⟩
    intro state hs
    rw [alike.backup.1] at hs
    cases hs

theorem feed_sound (sound : cartridge.Sound) (h : c.Sound cartridge) {input : Input}
    (hf : feed input c = .ok () d) : d.Sound cartridge := by
  have alike := feed_coupled any_steady sound input c c h.alike
  rw [hf] at alike
  cases alike with
  | ok ha => exact ⟨ha.inserted.1, ha.machine.sound, fun state hs => h.backup state
      (ha.backup.1 ▸ hs)⟩

theorem load_sound (h : c.Sound cartridge) (hs : state.Sound cartridge) :
    (c.load state).Sound cartridge := by
  rw [load_eq hs.stocked]
  exact ⟨h.inserted, Machine.resume_sound h.machine hs _, h.backup⟩

theorem restore_sound (h : c.Sound cartridge) : c.restore.Sound cartridge := by
  unfold restore
  cases hb : c.backup with
  | none => exact h
  | some state => exact load_sound h (h.backup state hb)

theorem backUp_sound (h : c.Sound cartridge) : c.backUp.Sound cartridge where
  inserted := h.inserted
  machine := h.machine
  backup _ hs := by
    cases hs
    exact h.machine.snapshot

/-- Whatever a host does, the console stays sound. -/
theorem Reachable.sound (h : Reachable cartridge c) (sound : cartridge.Sound) :
    c.Sound cartridge := by
  induction h with
  | insert h => exact insert_sound sound h
  | feed input _ hf ih => exact feed_sound sound ih hf
  | backUp _ ih => exact backUp_sound ih
  | restore _ ih => exact restore_sound ih
  | load _ _ ih ihd => exact load_sound ih ihd.machine.snapshot
  | decode _ _ hd ih ihd =>
    rw [decode_encode ih.machine.stocked ihd.machine.stocked] at hd
    cases hd
    exact ⟨ih.inserted, Machine.resume_sound ih.machine ihd.machine.snapshot _, ih.backup⟩

/-- There are such consoles. -/
theorem polling_inserts (variant : Ppu.Variant) : ∃ c, insert Image.polling variant = .ok c ∧
    c.Sound Image.polling ∧ c.machine.bus.ppu.variant = variant := by
  have sound := Cartridge.ofImage_sound Image.ofImage_pollingImage
  obtain ⟨board, hboard⟩ := @Board.ofCartridge?_isSome Image.polling (.inl rfl)
  obtain ⟨c, _, hc, _, alike⟩ := insert_alike sound hboard variant variant
  exact ⟨c, hc, insert_sound sound hc, alike.machine.twins.screens.left⟩

end Console

end Famicom
