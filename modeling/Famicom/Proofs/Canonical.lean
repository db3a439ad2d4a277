import Famicom.Proofs.Truncation

/-!
# Canonical states

Loading a buffer, whoever wrote it, overwrites all that is stored: what a console holds then does not
depend on what it held before, and its bytes are a normal form of the buffer.
-/

namespace Famicom

namespace Codec

variable {α σ τ : Type}

/-- Some bytes hold the value. -/
def Format.Yields (format : Format α) (value : α) : Prop :=
  ∃ buffer rest, format.read buffer = .ok value rest

theorem readNat_lt {width n : Nat} {buffer rest : List UInt8}
    (h : readNat width buffer = .ok n rest) : n < 256 ^ width := by
  obtain ⟨bytes, _, _, h⟩ := of_bind_ok h
  cases h
  have := ofLittleEndian_lt bytes.toList
  rwa [Vector.length_toList] at this

/-- The size of a sequence comes from eight bytes. -/
theorem Format.bytes_size_lt {value : Array UInt8} (h : bytes.Yields value) :
    value.size < 2 ^ 64 := by
  obtain ⟨buffer, rest, h⟩ := h
  obtain ⟨size, _, hsize, h⟩ := of_bind_ok h
  obtain ⟨content, _, _, h⟩ := of_bind_ok h
  cases h
  rw [Vector.size_toArray]
  exact readNat_lt hsize

theorem Format.memory_size_lt {n : Nat} {value : Vector UInt8 n} (h : (memory n).Yields value) :
    n < 2 ^ 64 := by
  obtain ⟨buffer, rest, h⟩ := h
  obtain ⟨size, _, hsize, h⟩ := of_bind_ok h
  split at h
  · rename_i same
    rw [← same]
    exact readNat_lt hsize
  · cases h

/-- Some bytes of the field make the change. -/
def Field.Makes (field : Field σ) (change : σ → σ) : Prop :=
  ∃ buffer rest, field.read buffer = .ok change rest

theorem Field.of_makes {format : Format α} {get : σ → α} {set : α → σ → σ}
    {after : (σ → σ) → Prop} :
    (∃ change, (Field.of format get set).Makes change ∧ after change) ↔
      ∃ value, format.Yields value ∧ after (set value) := by
  constructor
  · rintro ⟨change, ⟨buffer, rest, h⟩, ha⟩
    obtain ⟨value, _, hread, h⟩ := of_bind_ok h
    cases h
    exact ⟨value, ⟨buffer, _, hread⟩, ha⟩
  · rintro ⟨value, ⟨buffer, rest, h⟩, ha⟩
    exact ⟨set value, ⟨buffer, rest, bind_ok h⟩, ha⟩

/-- Some bytes of the layout make the change, behind what was changed before. -/
def Layout.Makes : Layout σ → (σ → σ) → (σ → σ) → Prop
  | [], done, change => change = done
  | field :: rest, done, change => ∃ first, field.Makes first ∧ Makes rest (first ∘ done) change

namespace Layout

variable {field : Field σ} {layout other : Layout σ}

theorem Makes.of_append {done change : σ → σ} (h : Makes (layout ++ other) done change) :
    ∃ mid, layout.Makes done mid ∧ other.Makes mid change := by
  induction layout generalizing done with
  | nil => exact ⟨done, rfl, h⟩
  | cons field layout ih =>
    obtain ⟨first, hf, h⟩ := h
    obtain ⟨mid, hl, ho⟩ := ih h
    exact ⟨mid, ⟨first, hf, hl⟩, ho⟩

theorem Makes.of_within {get? : τ → Option σ} {modify : (σ → σ) → τ → τ} {done : τ → τ}
    {change : τ → τ} (hid : modify id = id) (hcomp : ∀ f g, modify (g ∘ f) = modify g ∘ modify f)
    (h : (layout.within get? modify).Makes done change) :
    ∃ inner, layout.Makes id inner ∧ change = modify inner ∘ done := by
  -- The changes that the part has seen already are `seen`.
  suffices ∀ (seen : σ → σ) (change : τ → τ),
      (layout.within get? modify).Makes (modify seen ∘ done) change →
        ∃ inner, layout.Makes seen inner ∧ change = modify inner ∘ done by
    apply this id change
    rwa [hid, Function.id_comp]
  clear h
  induction layout with
  | nil =>
    intro seen change h
    exact ⟨seen, rfl, h⟩
  | cons field layout ih =>
    rintro seen change ⟨_, ⟨buffer, left, hf⟩, h⟩
    obtain ⟨first, _, hread, hf⟩ := of_bind_ok hf
    cases hf
    rw [show modify first ∘ modify seen ∘ done = (modify first ∘ modify seen) ∘ done from rfl,
      ← hcomp] at h
    obtain ⟨inner, hl, rfl⟩ := ih (first ∘ seen) change h
    exact ⟨inner, ⟨first, ⟨buffer, _, hread⟩, hl⟩, rfl⟩

/-- A buffer makes one change of whatever it is loaded into, or is refused by all for one cause. -/
theorem load_uniform (layout : Layout σ) (buffer : List UInt8) (done : σ → σ) :
    (∃ change rest, layout.Makes done change ∧
      ∀ target, layout.load buffer (done target) = .ok rest (change target)) ∨
    ∃ cause, ∀ target, ∃ reached, layout.load buffer (done target) = .error cause reached := by
  induction layout generalizing buffer done with
  | nil => exact .inl ⟨done, buffer, rfl, fun _ => rfl⟩
  | cons field layout ih =>
    cases hread : field.read buffer with
    | ok first mid =>
      have step : ∀ target, Layout.load (field :: layout) buffer (done target) =
          Layout.load layout mid ((first ∘ done) target) := by
        intro target
        simp only [Layout.load, hread, Function.comp]
      simp only [step]
      rcases ih mid (first ∘ done) with ⟨change, rest, hmakes, hload⟩ | refused
      · exact .inl ⟨change, rest, ⟨first, ⟨buffer, mid, hread⟩, hmakes⟩, hload⟩
      · exact .inr refused
    | error cause left =>
      refine .inr ⟨cause, fun target => ⟨done target, ?_⟩⟩
      simp only [Layout.load, hread]

/-- What follows the bytes that are loaded is left as it is. -/
theorem Local.load_append (h : layout.Local) {buffer rest : List UInt8} {target reached : σ}
    (hload : layout.load buffer target = .ok rest reached) (extra : List UInt8) :
    layout.load (buffer ++ extra) target = .ok (rest ++ extra) reached := by
  induction layout generalizing buffer target with
  | nil =>
    cases hload
    rfl
  | cons field layout ih =>
    obtain ⟨hf, hl⟩ := List.forall_mem_cons.1 h
    cases hread : field.read buffer with
    | ok first mid =>
      simp only [Layout.load, hread] at hload
      simp only [Layout.load, hf.ok extra hread]
      exact ih hl hload
    | error cause left =>
      simp only [Layout.load, hread] at hload
      cases hload

end Layout
end Codec

open Codec

/-! ## Components -/

theorem MainMemory.of_makes {change : MainMemory → MainMemory} (h : layout.Makes id change) :
    ∃ memory : MainMemory, memory.extendedRam.size < 2 ^ 64 ∧ ∀ target, change target =
      { target with ram := memory.ram, extendedRam := memory.extendedRam } := by
  simp only [layout, Layout.Makes, Field.of_makes] at h
  obtain ⟨ram, -, extended, hsize, rfl⟩ := h
  exact ⟨⟨ram, extended, false, .empty⟩, Format.bytes_size_lt hsize, fun _ => rfl⟩

theorem PictureMemory.of_makes {change : PictureMemory → PictureMemory}
    (h : layout.Makes id change) : ∃ memory, ∀ target, change target = memory := by
  simp only [layout, Layout.Makes, Field.of_makes] at h
  obtain ⟨ram, -, palette, -, topLeft, -, topRight, -, bottomLeft, -, bottomRight, -, rfl⟩ := h
  exact ⟨⟨ram, palette, ⟨topLeft, topRight, bottomLeft, bottomRight⟩⟩, fun _ => rfl⟩

theorem Cpu.of_makes {change : Cpu → Cpu} (h : layout.Makes id change) :
    ∃ cpu, ∀ target, change target = cpu := by
  simp only [layout, Layout.Makes, Field.of_makes] at h
  obtain ⟨pc, -, sp, -, a, -, x, -, y, -, status, -, pending, -, cycles, -, rfl⟩ := h
  exact ⟨⟨a, x, y, sp, .ofByte status, pc, pending, cycles⟩, fun _ => rfl⟩

theorem Ppu.phaseField_makes {change : Ppu → Ppu} (h : phaseField.Makes change) :
    ∃ phase, change = fun target => { target with phase := phase } := by
  obtain ⟨buffer, rest, h⟩ := h
  obtain ⟨code, _, _, h⟩ := of_bind_ok h
  cases hcode : Phase.ofCode? code with
  | none =>
    rw [hcode] at h
    cases h
  | some phase =>
    rw [hcode] at h
    cases h
    exact ⟨phase, rfl⟩

theorem Ppu.lineSpritesField_makes {change : Ppu → Ppu} (h : lineSpritesField.Makes change) :
    ∃ sprites, sprites.length ≤ spritesPerLine ∧
      change = fun target => { target with lineSprites := sprites } := by
  obtain ⟨buffer, rest, h⟩ := h
  obtain ⟨sprites, _, _, h⟩ := of_bind_ok h
  split at h
  · cases h
  · rename_i room
    cases h
    exact ⟨sprites.toList, Nat.le_of_not_lt room, rfl⟩

theorem Ppu.of_makes {change : Ppu → Ppu} (h : layout.Makes id change) :
    ∃ ppu : Ppu, ppu.lineSprites.length ≤ spritesPerLine ∧
      ∀ target, change target = ppu.repaint target.variant target.screen := by
  simp only [layout, Layout.Makes, Field.of_makes] at h
  obtain ⟨_, hphase, dot, -, scanline, -, evenFrame, -, address, -, nextAddress, -, fineX, -,
    firstWrite, -, readBuffer, -, control, -, mask, -, status, -, oam, -, oamAddress, -,
    _, hsprites, pending, -, total, -, rfl⟩ := h
  obtain ⟨phase, rfl⟩ := phaseField_makes hphase
  obtain ⟨sprites, room, rfl⟩ := lineSpritesField_makes hsprites
  exact ⟨⟨.full, Vector.replicate _ 0, phase, dot, scanline, evenFrame, address, nextAddress, fineX,
    firstWrite, readBuffer, ⟨control⟩, ⟨mask⟩, .ofByte status, oam, oamAddress, sprites, pending,
    total⟩, room, fun _ => by simp only [Function.comp, id, repaint]⟩

theorem Nrom.of_makes {change : Nrom → Nrom} (h : layout.Makes id change) :
    ∃ state : Nrom, state.patternRam.size < 2 ^ 64 ∧ ∀ target, change target = state := by
  simp only [layout, Layout.Makes, Field.of_makes] at h
  obtain ⟨oneBank, -, hasRam, -, ram, hsize, rfl⟩ := h
  exact ⟨⟨oneBank, hasRam, ram⟩, Format.bytes_size_lt hsize, fun _ => rfl⟩

theorem Uxrom.of_makes {change : Uxrom → Uxrom} (h : layout.Makes id change) :
    ∃ state : Uxrom, state.patternRam.size < 2 ^ 64 ∧ ∀ target, change target = state := by
  simp only [layout, Layout.Makes, Field.of_makes] at h
  obtain ⟨hasRam, -, lastBank, -, bank, -, ram, hsize,
    rfl⟩ := h
  exact ⟨⟨hasRam, lastBank, bank, ram⟩, Format.bytes_size_lt hsize, fun _ => rfl⟩

theorem Cnrom.of_makes {change : Cnrom → Cnrom} (h : layout.Makes id change) :
    ∃ state, ∀ target, change target = state := by
  simp only [layout, Layout.Makes, Field.of_makes] at h
  obtain ⟨oneBank, -, bank, -, rfl⟩ := h
  exact ⟨⟨oneBank, bank⟩, fun _ => rfl⟩

/-- What is read into a circuit makes every circuit of its kind the same. -/
theorem Circuit.of_makes {circuit : Circuit} {change : Circuit → Circuit}
    (h : circuit.layout.Makes id change) :
    ∃ state : Circuit, state.Storable ∧ circuit.SameKind state ∧
      ∀ target, target.SameKind state → change target = state := by
  cases circuit with
  | nrom =>
    obtain ⟨inner, hi, rfl⟩ := Layout.Makes.of_within
      (by funext target; cases target <;> rfl)
      (fun f g => by funext target; cases target <;> rfl) h
    obtain ⟨state, hsize, hall⟩ := Nrom.of_makes hi
    refine ⟨.nrom state, hsize, trivial, ?_⟩
    rintro (target | target | target) hkind
    · exact congrArg Circuit.nrom (hall target)
    · exact hkind.elim
    · exact hkind.elim
  | uxrom =>
    obtain ⟨inner, hi, rfl⟩ := Layout.Makes.of_within
      (by funext target; cases target <;> rfl)
      (fun f g => by funext target; cases target <;> rfl) h
    obtain ⟨state, hsize, hall⟩ := Uxrom.of_makes hi
    refine ⟨.uxrom state, hsize, trivial, ?_⟩
    rintro (target | target | target) hkind
    · exact hkind.elim
    · exact congrArg Circuit.uxrom (hall target)
    · exact hkind.elim
  | cnrom =>
    obtain ⟨inner, hi, rfl⟩ := Layout.Makes.of_within
      (by funext target; cases target <;> rfl)
      (fun f g => by funext target; cases target <;> rfl) h
    obtain ⟨state, hall⟩ := Cnrom.of_makes hi
    refine ⟨.cnrom state, trivial, trivial, ?_⟩
    rintro (target | target | target) hkind
    · exact hkind.elim
    · exact hkind.elim
    · exact congrArg Circuit.cnrom (hall target)

theorem Machine.of_makes {m : Machine} {change : Machine → Machine}
    (h : m.layout.Makes id change) :
    ∃ state : Machine, state.Storable ∧ m.bus.board.circuit.SameKind state.bus.board.circuit ∧
      ∀ target, target.bus.board.circuit.SameKind state.bus.board.circuit →
        change target = target.reload state := by
  have h : Layout.Makes (memoryLayout ++ pictureLayout ++ cpuLayout ++ ppuLayout ++
      boardLayout m.bus.board) id change := h
  obtain ⟨_, h, hboard⟩ := h.of_append
  obtain ⟨_, h, hppu⟩ := h.of_append
  obtain ⟨_, h, hcpu⟩ := h.of_append
  obtain ⟨_, hmemory, hpicture⟩ := h.of_append
  obtain ⟨_, ofMemory, rfl⟩ := hmemory.of_within rfl fun _ _ => rfl
  obtain ⟨_, ofPicture, rfl⟩ := hpicture.of_within rfl fun _ _ => rfl
  obtain ⟨_, ofCpu, rfl⟩ := hcpu.of_within rfl fun _ _ => rfl
  obtain ⟨_, ofPpu, rfl⟩ := hppu.of_within rfl fun _ _ => rfl
  obtain ⟨_, ofBoard, rfl⟩ := hboard.of_within rfl fun _ _ => rfl
  obtain ⟨_, ofCircuit, rfl⟩ := ofBoard.of_within rfl fun _ _ => rfl
  obtain ⟨memory, hextended, memories⟩ := MainMemory.of_makes ofMemory
  obtain ⟨picture, pictures⟩ := PictureMemory.of_makes ofPicture
  obtain ⟨cpu, cpus⟩ := Cpu.of_makes ofCpu
  obtain ⟨ppu, hroom, ppus⟩ := Ppu.of_makes ofPpu
  obtain ⟨circuit, hstorable, hkind, circuits⟩ := Circuit.of_makes ofCircuit
  refine ⟨{ m with
    cpu := cpu
    bus := { m.bus with
      memory := memory, picture := picture, ppu := ppu, board.circuit := circuit } },
    ⟨hextended, hroom, hstorable⟩, hkind, fun target ht => ?_⟩
  simp only [Function.comp, id, memories, pictures, cpus, ppus, circuits _ ht]
  rfl

/-! ## Fitted memories -/

namespace MainMemory

variable {memory other : MainMemory}

/-- Only the bytes matter to how a memory is fitted. -/
theorem fit_congr (ram : memory.ram = other.ram) (extended : memory.extendedRam = other.extendedRam)
    (present : Bool) :
    (memory.fitExtendedRam present).wire = (other.fitExtendedRam present).wire := by
  obtain ⟨_, _, mapped, bindings⟩ := memory
  obtain ⟨_, _, mapped', bindings'⟩ := other
  cases ram
  cases extended
  cases present <;> rfl

theorem fit_size (memory : MainMemory) :
    (memory.fitExtendedRam true).extendedRam.size = extendedRamSize := by
  simp only [fitExtendedRam, if_true, Array.size_extract, Array.size_append, Array.size_replicate]
  omega

/-- RAM of the right size is neither cut nor filled up. -/
theorem fit_full (h : memory.extendedRam.size = extendedRamSize) :
    (memory.fitExtendedRam true).extendedRam = memory.extendedRam := by
  simp only [fitExtendedRam, if_true]
  rw [h, Nat.sub_self, Array.replicate_zero, Array.append_empty, ← h, Array.extract_size]

theorem fit_again (memory : MainMemory) (present : Bool) :
    ((memory.fitExtendedRam present).wire.fitExtendedRam present).wire =
      (memory.fitExtendedRam present).wire := by
  cases present with
  | false => rfl
  | true =>
    have same : ((memory.fitExtendedRam true).wire.fitExtendedRam true).extendedRam =
        (memory.fitExtendedRam true).extendedRam := fit_full memory.fit_size
    have eta : ∀ m : MainMemory, (m.fitExtendedRam true).wire =
        ⟨m.ram, (m.fitExtendedRam true).extendedRam, true, .wired⟩ := fun _ => rfl
    rw [eta, same]
    rfl

theorem fit_size_lt (h : memory.extendedRam.size < 2 ^ 64) (present : Bool) :
    (memory.fitExtendedRam present).extendedRam.size < 2 ^ 64 := by
  cases present with
  | false => exact h
  | true =>
    rw [fit_size]
    decide

end MainMemory

/-! ## Consoles -/

theorem Board.sameKind_of_number {board other : Board} (h : board.number = other.number) :
    board.circuit.SameKind other.circuit := by
  obtain ⟨_, circuit⟩ := board
  obtain ⟨_, circuit'⟩ := other
  cases circuit <;> cases circuit' <;> first
    | trivial
    | simp [number] at h

namespace Console

variable {cartridge : Cartridge} {c d : Console} {state : Machine}

/-- A console on a cartridge, whatever else it holds. -/
structure On (cartridge : Cartridge) (c : Console) : Prop where
  inserted : c.cartridge = cartridge
  board : c.machine.bus.board.cartridge = cartridge
  number : c.machine.bus.board.number = cartridge.board

/-- A console that has loaded all that is stored of a machine. -/
def reloaded (c : Console) (state : Machine) : Console :=
  rewire { c with machine := c.machine.reload state }

/-- The bytes of a console that has loaded a buffer. -/
def normalize (c : Console) (buffer : List UInt8) : Except DecodeError (List UInt8) :=
  match c.decode buffer with
  | .ok _ loaded => .ok loaded.encode
  | .error cause _ => .error cause

theorem Sound.on (h : c.Sound cartridge) : c.On cartridge where
  inserted := h.inserted
  board := h.machine.devices.board.inserted
  number := by
    have circuit := h.machine.devices.board.circuit
    unfold Board.number
    cases hc : c.machine.bus.board.circuit <;> rw [hc] at circuit <;> exact circuit.1.symm

theorem On.sameKind (hc : c.On cartridge) (hd : d.On cartridge) :
    c.machine.bus.board.circuit.SameKind d.machine.bus.board.circuit :=
  Board.sameKind_of_number (hc.number.trans hd.number.symm)

theorem reloaded_memory (c : Console) (state : Machine) : (c.reloaded state).machine.bus.memory =
    (state.bus.memory.fitExtendedRam c.machine.bus.board.extendedRam).wire := by
  show (MainMemory.fitExtendedRam { c.machine.bus.memory with
    ram := state.bus.memory.ram, extendedRam := state.bus.memory.extendedRam } _).wire = _
  apply MainMemory.fit_congr
  · rfl
  · rfl

/-- Consoles on one cartridge have the same bytes, if they have loaded the same. -/
theorem reloaded_encode (hc : c.On cartridge) (hd : d.On cartridge) (state : Machine) :
    (c.reloaded state).encode = (d.reloaded state).encode := by
  refine Machine.encode_congr rfl ?_ rfl ?_ rfl
  · rw [reloaded_memory, reloaded_memory, Board.extendedRam, Board.extendedRam, hc.board, hd.board]
  · show Board.mk c.machine.bus.board.cartridge _ = Board.mk d.machine.bus.board.cartridge _
    rw [hc.board, hd.board]

/-- Loading what was loaded already changes none of the bytes. -/
theorem reloaded_twice (c : Console) (state : Machine) :
    (c.reloaded (c.reloaded state).machine).encode = (c.reloaded state).encode := by
  refine Machine.encode_congr rfl ?_ rfl rfl rfl
  rw [reloaded_memory, reloaded_memory]
  exact MainMemory.fit_again _ _

theorem reloaded_storable (h : state.Storable) (c : Console) :
    (c.reloaded state).machine.Storable where
  extendedRam := by
    rw [reloaded_memory]
    exact MainMemory.fit_size_lt h.extendedRam _
  lineSprites := h.lineSprites
  circuit := h.circuit

theorem decode_reloaded {buffer rest : List UInt8}
    (h : c.machine.layout.load buffer c.machine = .ok rest (c.machine.reload state)) :
    c.decode buffer = .ok rest (c.reloaded state) := by
  unfold decode
  rw [h]
  rfl

/-- All consoles on a cartridge load the same from a buffer, or refuse it for the same cause. -/
theorem decode_uniform (hc : c.On cartridge) (buffer : List UInt8) :
    (∃ state : Machine, state.Storable ∧ ∃ rest, ∀ d, On cartridge d →
      d.machine.bus.board.circuit.SameKind state.bus.board.circuit ∧
        ∀ extra, d.decode (buffer ++ extra) = .ok (rest ++ extra) (d.reloaded state)) ∨
    ∃ cause, ∀ d, On cartridge d → ∃ reached, d.decode buffer = .error cause reached := by
  have alike : ∀ d, On cartridge d → d.machine.layout = c.machine.layout := fun d hd =>
    Machine.layout_eq (hd.sameKind hc)
  rcases Layout.load_uniform c.machine.layout buffer id with
    ⟨change, rest, hmakes, hload⟩ | ⟨cause, hload⟩
  · obtain ⟨state, hs, hkind, hchange⟩ := Machine.of_makes hmakes
    refine .inl ⟨state, hs, rest, fun d hd => ?_⟩
    have hkind := (hd.sameKind hc).trans hkind
    refine ⟨hkind, fun extra => decode_reloaded ?_⟩
    have here := hload d.machine
    rw [← alike d hd, hchange _ hkind] at here
    exact d.machine.layout_local.load_append here extra
  · refine .inr ⟨cause, fun d hd => ?_⟩
    obtain ⟨reached, here⟩ := hload d.machine
    refine ⟨{ d with machine := reached }, ?_⟩
    unfold decode
    rw [alike d hd, show c.machine.layout.load buffer d.machine = _ from here]

theorem normalize_ok {buffer rest : List UInt8} (h : c.decode buffer = .ok rest d) :
    c.normalize buffer = .ok d.encode := by
  unfold normalize
  rw [h]

theorem normalize_error {buffer : List UInt8} {cause : DecodeError}
    (h : c.decode buffer = .error cause d) : c.normalize buffer = .error cause := by
  unfold normalize
  rw [h]

/-- Consoles on one cartridge take any buffer alike: either all refuse it, for the same cause, or all
have the same bytes behind it. These bytes do not depend on what follows in the buffer, and are taken
by every console as they are. -/
theorem normalize_canonical (hc : c.On cartridge) (hd : d.On cartridge) (buffer : List UInt8) :
    c.normalize buffer = d.normalize buffer ∧ ∀ normal, c.normalize buffer = .ok normal →
      (∀ extra, d.normalize (buffer ++ extra) = .ok normal) ∧ d.normalize normal = .ok normal := by
  rcases decode_uniform hc buffer with ⟨state, hs, rest, hload⟩ | ⟨cause, refused⟩
  · have loads : ∀ e, On cartridge e → ∀ extra, e.normalize (buffer ++ extra) =
        .ok (c.reloaded state).encode := by
      intro e he extra
      rw [normalize_ok ((hload e he).2 extra), reloaded_encode he hc]
    have here : ∀ e, On cartridge e → e.normalize buffer = .ok (c.reloaded state).encode := by
      intro e he
      have := loads e he []
      rwa [List.append_nil] at this
    refine ⟨(here c hc).trans (here d hd).symm, fun normal hn => ?_⟩
    rw [here c hc] at hn
    cases hn
    refine ⟨loads d hd, ?_⟩
    have again := Machine.load_stored (reloaded_storable hs d) (hload d hd).1 []
    rw [List.append_nil] at again
    rw [← reloaded_encode hd hc]
    exact (normalize_ok (decode_reloaded again)).trans (congrArg _ (reloaded_twice d state))
  · obtain ⟨_, refusedHere⟩ := refused c hc
    obtain ⟨_, refusedThere⟩ := refused d hd
    rw [normalize_error refusedHere, normalize_error refusedThere]
    exact ⟨rfl, fun _ h => nomatch h⟩

/-- A state with three bytes of RAM that the cartridge does not have is a normal form. -/
theorem polling_normalizes : ∃ c, insert Image.polling .full = .ok c ∧ ∀ extra,
    (c.poke 0x10 7).normalize
      ({ c with machine.bus.memory.extendedRam := #[1, 2, 3] }.encode ++ extra) =
      .ok { c with machine.bus.memory.extendedRam := #[1, 2, 3] }.encode := by
  have sound := Cartridge.ofImage_sound Image.ofImage_pollingImage
  obtain ⟨c, hc, fits, -⟩ := polling_inserts .full
  have poked : (c.poke 0x10 7).Sound Image.polling :=
    Reachable.sound (.feed (.poke 0x10 7) (.insert hc) rfl) sound
  obtain ⟨e, he⟩ : ∃ e : Console, e = { c with machine.bus.memory.extendedRam := #[1, 2, 3] } :=
    ⟨_, rfl⟩
  have stored : e.machine.Storable := by
    rw [he]
    exact { Machine.storable fits.machine.stocked with extendedRam := show 3 < 2 ^ 64 by decide }
  have kind : c.machine.bus.board.circuit.SameKind e.machine.bus.board.circuit := by
    rw [he]
    exact (fits.on.sameKind fits.on :)
  have loaded : c.decode (e.encode ++ []) = .ok [] (c.reloaded e.machine) :=
    decode_reloaded (Machine.load_stored stored kind [])
  rw [List.append_nil] at loaded
  have kept : (c.reloaded e.machine).encode = e.encode := by
    have memory := fits.machine.devices.memory
    refine Machine.encode_congr rfl ?_ rfl ?_ rfl
    · rw [reloaded_memory, Board.extendedRam, fits.on.board, he]
      show MainMemory.mk c.machine.bus.memory.ram #[1, 2, 3] false .wired =
        MainMemory.mk c.machine.bus.memory.ram #[1, 2, 3] c.machine.bus.memory.hasExtendedRam
          c.machine.bus.memory.bindings
      rw [memory.mapped, memory.wired]
      rfl
    · rw [he]
      rfl
  refine ⟨c, hc, ?_⟩
  rw [← he]
  have bytes : c.normalize e.encode = .ok e.encode := by
    rw [normalize_ok loaded, kept]
  exact ((normalize_canonical fits.on poked.on e.encode).2 e.encode bytes).1

end Console

end Famicom
