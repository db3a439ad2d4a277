import Famicom.Console
import Famicom.Proofs.Codec
import Famicom.Proofs.Machine

/-!
# What the layouts carry

Every component of a machine comes back from its bytes as it was written, but for what is not stored:
the bindings of main memory, and the variant and the screen of the picture unit.
-/

namespace Famicom

open Codec

theorem Cpu.Status.ofByte_toByte (status : Cpu.Status) : ofByte status.toByte = status := by
  obtain ⟨n, v, u, b, d, i, z, c⟩ := status
  cases n <;> cases v <;> cases u <;> cases b <;> cases d <;> cases i <;> cases z <;> cases c <;>
    rfl

theorem Ppu.Status.ofByte_toByte (status : Ppu.Status) : ofByte status.toByte = status := by
  obtain ⟨vblank, hit, overflow⟩ := status
  cases vblank <;> cases hit <;> cases overflow <;> rfl

theorem Ppu.Phase.ofCode?_code (phase : Ppu.Phase) : ofCode? phase.code = some phase := by
  cases phase <;> rfl

open Codec.Field (of_carries)
open Codec.Format (u8_reads u16_reads u32_reads u64_reads bool_reads bytes_reads memory_reads)

/-! ## Adoption

The first `n` stored fields of a component become those of another one, the others stay. -/

def MainMemory.adopt (target source : MainMemory) (n : Nat) : MainMemory :=
  { target with
    ram := if 0 < n then source.ram else target.ram
    extendedRam := if 1 < n then source.extendedRam else target.extendedRam }

def PictureMemory.adopt (target source : PictureMemory) (n : Nat) : PictureMemory where
  ram := if 0 < n then source.ram else target.ram
  palette := if 1 < n then source.palette else target.palette
  tables := {
    topLeft := if 2 < n then source.tables.topLeft else target.tables.topLeft
    topRight := if 3 < n then source.tables.topRight else target.tables.topRight
    bottomLeft := if 4 < n then source.tables.bottomLeft else target.tables.bottomLeft
    bottomRight := if 5 < n then source.tables.bottomRight else target.tables.bottomRight }

def Cpu.adopt (target source : Cpu) (n : Nat) : Cpu where
  pc := if 0 < n then source.pc else target.pc
  sp := if 1 < n then source.sp else target.sp
  a := if 2 < n then source.a else target.a
  x := if 3 < n then source.x else target.x
  y := if 4 < n then source.y else target.y
  status := if 5 < n then source.status else target.status
  pending := if 6 < n then source.pending else target.pending
  cycles := if 7 < n then source.cycles else target.cycles

def Ppu.adopt (target source : Ppu) (n : Nat) : Ppu where
  variant := target.variant
  screen := target.screen
  phase := if 0 < n then source.phase else target.phase
  dot := if 1 < n then source.dot else target.dot
  scanline := if 2 < n then source.scanline else target.scanline
  evenFrame := if 3 < n then source.evenFrame else target.evenFrame
  address := if 4 < n then source.address else target.address
  nextAddress := if 5 < n then source.nextAddress else target.nextAddress
  fineX := if 6 < n then source.fineX else target.fineX
  firstWrite := if 7 < n then source.firstWrite else target.firstWrite
  readBuffer := if 8 < n then source.readBuffer else target.readBuffer
  control := if 9 < n then source.control else target.control
  mask := if 10 < n then source.mask else target.mask
  status := if 11 < n then source.status else target.status
  oam := if 12 < n then source.oam else target.oam
  oamAddress := if 13 < n then source.oamAddress else target.oamAddress
  lineSprites := if 14 < n then source.lineSprites else target.lineSprites
  interruptPending := if 15 < n then source.interruptPending else target.interruptPending
  totalDots := if 16 < n then source.totalDots else target.totalDots

def Nrom.adopt (target source : Nrom) (n : Nat) : Nrom where
  oneBank := if 0 < n then source.oneBank else target.oneBank
  hasPatternRam := if 1 < n then source.hasPatternRam else target.hasPatternRam
  patternRam := if 2 < n then source.patternRam else target.patternRam

def Uxrom.adopt (target source : Uxrom) (n : Nat) : Uxrom where
  hasPatternRam := if 0 < n then source.hasPatternRam else target.hasPatternRam
  lastBank := if 1 < n then source.lastBank else target.lastBank
  bank := if 2 < n then source.bank else target.bank
  patternRam := if 3 < n then source.patternRam else target.patternRam

def Cnrom.adopt (target source : Cnrom) (n : Nat) : Cnrom where
  oneBank := if 0 < n then source.oneBank else target.oneBank
  bank := if 1 < n then source.bank else target.bank

/-- Circuits of two kinds have no field in common. -/
def Circuit.adopt (target source : Circuit) (n : Nat) : Circuit :=
  match target, source with
  | .nrom target, .nrom source => .nrom (target.adopt source n)
  | .uxrom target, .uxrom source => .uxrom (target.adopt source n)
  | .cnrom target, .cnrom source => .cnrom (target.adopt source n)
  | target, _ => target

theorem MainMemory.layout_adopts {memory : MainMemory} (h : memory.extendedRam.size < 2 ^ 64) :
    Layout.Adopts memory layout fun n target => target.adopt memory n := by
  refine .congr (.cons (of_carries (memory_reads (by decide) _) _)
    (.cons (of_carries (bytes_reads h) _) .nil)) fun n target => ?_
  rcases n with _ | _ | n <;> rfl

theorem PictureMemory.layout_adopts (memory : PictureMemory) :
    Layout.Adopts memory layout fun n target => target.adopt memory n := by
  refine .congr (.cons (of_carries (memory_reads (by decide) _) _)
    (.cons (of_carries (memory_reads (by decide) _) _)
      (.cons (of_carries (u64_reads _) _) (.cons (of_carries (u64_reads _) _)
        (.cons (of_carries (u64_reads _) _) (.cons (of_carries (u64_reads _) _) .nil))))))
    fun n target => ?_
  rcases n with _ | _ | _ | _ | _ | _ | n <;> rfl

theorem Cpu.statusField_carries (cpu : Cpu) :
    Field.Carries cpu (.of .u8 (fun s => s.status.toByte) fun v s => { s with status := .ofByte v })
      fun target => { target with status := cpu.status } :=
  (of_carries (u8_reads _) _).congr rfl (by rw [Cpu.Status.ofByte_toByte])

theorem Cpu.layout_adopts (cpu : Cpu) :
    Layout.Adopts cpu layout fun n target => target.adopt cpu n := by
  refine .congr (.cons (of_carries (u16_reads _) _) (.cons (of_carries (u8_reads _) _)
    (.cons (of_carries (u8_reads _) _) (.cons (of_carries (u8_reads _) _)
      (.cons (of_carries (u8_reads _) _) (.cons cpu.statusField_carries
        (.cons (of_carries (u32_reads _) _) (.cons (of_carries (u64_reads _) _) .nil))))))))
    fun n target => ?_
  rcases n with _ | _ | _ | _ | _ | _ | _ | _ | n <;> rfl

theorem Ppu.phaseField_carries (ppu : Ppu) :
    Field.Carries ppu phaseField fun target => { target with phase := ppu.phase } := by
  refine Reads.congr ((u8_reads ppu.phase.code).bind ?_) (List.append_nil _) rfl
  rw [Ppu.Phase.ofCode?_code]
  exact Reads.pure _

theorem Ppu.lineSpritesField_carries {ppu : Ppu}
    (h : ppu.lineSprites.length ≤ spritesPerLine) :
    Field.Carries ppu lineSpritesField
      fun target => { target with lineSprites := ppu.lineSprites } := by
  have hsize : ppu.lineSprites.toArray.size < 2 ^ 64 :=
    Nat.lt_of_le_of_lt h (by decide)
  have hroom : ¬spritesPerLine < ppu.lineSprites.toArray.size := Nat.not_lt.2 h
  refine Reads.congr ((bytes_reads hsize).bind ?_) (List.append_nil _) rfl
  rw [if_neg hroom]
  exact Reads.pure _

theorem Ppu.statusField_carries (ppu : Ppu) :
    Field.Carries ppu (.of .u8 (fun s => s.status.toByte) fun v s => { s with status := .ofByte v })
      fun target => { target with status := ppu.status } :=
  (of_carries (u8_reads _) _).congr rfl (by rw [Ppu.Status.ofByte_toByte])

theorem Ppu.layout_adopts {ppu : Ppu} (h : ppu.lineSprites.length ≤ spritesPerLine) :
    Layout.Adopts ppu layout fun n target => target.adopt ppu n := by
  refine .congr (.cons (phaseField_carries ppu) (.cons (of_carries (u16_reads _) _)
    (.cons (of_carries (u16_reads _) _) (.cons (of_carries (bool_reads _) _)
      (.cons (of_carries (u16_reads _) _) (.cons (of_carries (u16_reads _) _)
        (.cons (of_carries (u8_reads _) _) (.cons (of_carries (bool_reads _) _)
          (.cons (of_carries (u8_reads _) _) (.cons (of_carries (u8_reads _) _)
            (.cons (of_carries (u8_reads _) _) (.cons ppu.statusField_carries
              (.cons (of_carries (memory_reads (by decide) _) _)
                (.cons (of_carries (u8_reads _) _) (.cons (lineSpritesField_carries h)
                  (.cons (of_carries (bool_reads _) _)
                    (.cons (of_carries (u64_reads _) _) .nil))))))))))))))))) fun n target => ?_
  rcases n with _ | _ | _ | _ | _ | _ | _ | _ | _ | _ | _ | _ | _ | _ | _ | _ | _ | n <;> rfl

theorem Nrom.layout_adopts {state : Nrom} (h : state.patternRam.size < 2 ^ 64) :
    Layout.Adopts state layout fun n target => target.adopt state n := by
  refine .congr (.cons (of_carries (bool_reads _) _) (.cons (of_carries (bool_reads _) _)
    (.cons (of_carries (bytes_reads h) _) .nil))) fun n target => ?_
  rcases n with _ | _ | _ | n <;> rfl

theorem Uxrom.layout_adopts {state : Uxrom} (h : state.patternRam.size < 2 ^ 64) :
    Layout.Adopts state layout fun n target => target.adopt state n := by
  refine .congr (.cons (of_carries (bool_reads _) _) (.cons (of_carries (u64_reads _) _)
    (.cons (of_carries (u8_reads _) _) (.cons (of_carries (bytes_reads h) _) .nil))))
    fun n target => ?_
  rcases n with _ | _ | _ | _ | n <;> rfl

theorem Cnrom.layout_adopts (state : Cnrom) :
    Layout.Adopts state layout fun n target => target.adopt state n := by
  refine .congr (.cons (of_carries (bool_reads _) _) (.cons (of_carries (u8_reads _) _) .nil))
    fun n target => ?_
  rcases n with _ | _ | n <;> rfl

/-- The size of a pattern RAM is stored in eight bytes. -/
def Circuit.Storable : Circuit → Prop
  | .nrom state => state.patternRam.size < 2 ^ 64
  | .uxrom state => state.patternRam.size < 2 ^ 64
  | .cnrom _ => True

theorem Circuit.layout_adopts {circuit : Circuit} (h : circuit.Storable) :
    Layout.Adopts circuit circuit.layout fun n target => target.adopt circuit n := by
  cases circuit with
  | nrom state =>
    have adopts : Layout.Adopts (Circuit.nrom state) (Circuit.nrom state).layout
        fun n => modifyNrom fun target => target.adopt state n := by
      refine (Nrom.layout_adopts h).within rfl ?_ fun f g => ?_
      all_goals funext target; cases target <;> rfl
    exact adopts.congr fun n target => by cases target <;> rfl
  | uxrom state =>
    have adopts : Layout.Adopts (Circuit.uxrom state) (Circuit.uxrom state).layout
        fun n => modifyUxrom fun target => target.adopt state n := by
      refine (Uxrom.layout_adopts h).within rfl ?_ fun f g => ?_
      all_goals funext target; cases target <;> rfl
    exact adopts.congr fun n target => by cases target <;> rfl
  | cnrom state =>
    have adopts : Layout.Adopts (Circuit.cnrom state) (Circuit.cnrom state).layout
        fun n => modifyCnrom fun target => target.adopt state n := by
      refine (Cnrom.layout_adopts state).within rfl ?_ fun f g => ?_
      all_goals funext target; cases target <;> rfl
    exact adopts.congr fun n target => by cases target <;> rfl

variable {cartridge : Cartridge}

theorem Board.freshPatternRam_size_lt (cartridge : Cartridge) :
    (freshPatternRam cartridge).size < 2 ^ 64 := by
  unfold freshPatternRam
  split
  · rw [Array.size_replicate]
    decide
  · decide

theorem Board.CircuitFits.storable {circuit : Circuit} (h : CircuitFits cartridge circuit) :
    circuit.Storable := by
  have small := freshPatternRam_size_lt cartridge
  cases circuit with
  | nrom state =>
    obtain ⟨_, _, _, hsize⟩ := h
    exact lt_of_eq_of_lt hsize small
  | uxrom state =>
    obtain ⟨_, _, _, hsize⟩ := h
    exact lt_of_eq_of_lt hsize small
  | cnrom state => trivial

namespace Circuit

def SameKind : Circuit → Circuit → Prop
  | .nrom _, .nrom _ => True
  | .uxrom _, .uxrom _ => True
  | .cnrom _, .cnrom _ => True
  | _, _ => False

variable {circuit other : Circuit}

theorem SameKind.trans {last : Circuit} (h : circuit.SameKind other) (ho : other.SameKind last) :
    circuit.SameKind last := by
  cases circuit <;> cases other <;> cases last <;> trivial

theorem SameKind.layout_eq (h : circuit.SameKind other) : circuit.layout = other.layout := by
  cases circuit <;> cases other <;> first
    | rfl
    | exact h.elim

theorem SameKind.adopt_all (h : circuit.SameKind other) :
    circuit.adopt other other.layout.length = other := by
  cases circuit <;> cases other <;> first
    | rfl
    | exact h.elim

end Circuit

/-- All circuits of one cartridge are of one kind. -/
theorem Board.CircuitFits.sameKind {circuit other : Circuit} (h : CircuitFits cartridge circuit)
    (ho : CircuitFits cartridge other) : circuit.SameKind other := by
  cases circuit <;> cases other <;> first
    | trivial
    | exact absurd (h.1.symm.trans ho.1) (by decide)

/-! ## Machines -/

namespace Machine

def snapshot (m : Machine) : Snapshot :=
  ⟨m.bus.memory, m.bus.picture, m.cpu, m.bus.ppu, m.bus.board⟩

/-- A machine in a saved state, with its own controllers and its own variant, in front of a screen. -/
def resume (m : Machine) (state : Snapshot) (screen : Ppu.Screen) : Machine :=
  { m with
    cpu := state.cpu
    bus := { m.bus with
      memory := state.memory
      picture := state.picture
      board := state.board
      ppu := state.ppu.repaint m.bus.ppu.variant screen } }

/-- What fits into the bytes of a state. -/
structure Storable (m : Machine) : Prop where
  extendedRam : m.bus.memory.extendedRam.size < 2 ^ 64
  lineSprites : m.bus.ppu.lineSprites.length ≤ Ppu.spritesPerLine
  circuit : m.bus.board.circuit.Storable

/-- The first `n` stored fields are those of another machine. -/
def adopt (target source : Machine) (n : Nat) : Machine :=
  { target with
    cpu := target.cpu.adopt source.cpu (n - 8)
    bus := { target.bus with
      memory := target.bus.memory.adopt source.bus.memory n
      picture := target.bus.picture.adopt source.bus.picture (n - 2)
      ppu := target.bus.ppu.adopt source.bus.ppu (n - 16)
      board.circuit :=
        target.bus.board.circuit.adopt source.bus.board.circuit (n - 33) } }

theorem layout_adopts {source : Machine} (h : source.Storable) :
    Layout.Adopts source source.layout fun n target => target.adopt source n := by
  have hmemory : Layout.Adopts source memoryLayout _ :=
    (MainMemory.layout_adopts h.extendedRam).within rfl rfl fun _ _ => rfl
  have hpicture : Layout.Adopts source pictureLayout _ :=
    (PictureMemory.layout_adopts source.bus.picture).within rfl rfl fun _ _ => rfl
  have hcpu : Layout.Adopts source cpuLayout _ :=
    (Cpu.layout_adopts source.cpu).within rfl rfl fun _ _ => rfl
  have hppu : Layout.Adopts source ppuLayout _ :=
    (Ppu.layout_adopts h.lineSprites).within rfl rfl fun _ _ => rfl
  have hcircuit : Layout.Adopts source.bus.board source.bus.board.layout _ :=
    (Circuit.layout_adopts h.circuit).within rfl rfl fun _ _ => rfl
  have hboard : Layout.Adopts source (boardLayout source.bus.board) _ :=
    hcircuit.within rfl rfl fun _ _ => rfl
  exact ((((hmemory.append hpicture).append hcpu).append hppu).append hboard).congr
    fun _ _ => rfl

/-- All that is stored is that of another machine. -/
def reload (target source : Machine) : Machine :=
  { target with
    cpu := source.cpu
    bus := { target.bus with
      memory := { target.bus.memory with
        ram := source.bus.memory.ram
        extendedRam := source.bus.memory.extendedRam }
      picture := source.bus.picture
      ppu := source.bus.ppu.repaint target.bus.ppu.variant target.bus.ppu.screen
      board.circuit := source.bus.board.circuit } }

variable {source target : Machine}

theorem layout_eq (h : target.bus.board.circuit.SameKind source.bus.board.circuit) :
    target.layout = source.layout := by
  unfold layout boardLayout Board.layout
  rw [h.layout_eq]

theorem adopt_all (h : target.bus.board.circuit.SameKind source.bus.board.circuit) :
    target.adopt source source.layout.length = target.reload source := by
  have hlength : source.layout.length = source.bus.board.circuit.layout.length + 33 := by
    rw [layout, List.length_append, Nat.add_comm, boardLayout, Layout.within, List.length_map,
      Board.layout, Layout.within, List.length_map]
    rfl
  have hcircuit : target.bus.board.circuit.adopt source.bus.board.circuit
      (source.bus.board.circuit.layout.length + 33 - 33) = source.bus.board.circuit := h.adopt_all
  rw [hlength, adopt, hcircuit]
  rfl

/-- The bytes of a machine take every machine with a circuit of the same kind to its state. -/
theorem load_stored (h : source.Storable)
    (hkind : target.bus.board.circuit.SameKind source.bus.board.circuit) (rest : List UInt8) :
    target.layout.load (source.layout.encode source ++ rest) target =
      .ok rest (target.reload source) := by
  rw [layout_eq hkind, (layout_adopts h).all.load, adopt_all hkind]

theorem storable (h : source.bus.Stocked cartridge) : source.Storable where
  extendedRam := by
    rw [h.memory.size]
    split <;> decide
  lineSprites := h.ppu.room
  circuit := h.board.circuit.storable

theorem reload_eq (hs : source.bus.Stocked cartridge) (ht : target.bus.Stocked cartridge) :
    target.reload source = target.resume source.snapshot target.bus.ppu.screen := by
  have memory : MainMemory.mk source.bus.memory.ram source.bus.memory.extendedRam
      target.bus.memory.hasExtendedRam target.bus.memory.bindings = source.bus.memory := by
    rw [ht.memory.mapped.trans hs.memory.mapped.symm, ht.memory.wired.trans hs.memory.wired.symm]
  have board : Board.mk target.bus.board.cartridge source.bus.board.circuit =
      source.bus.board := by
    rw [ht.board.inserted.trans hs.board.inserted.symm]
  dsimp only [reload, resume, snapshot]
  rw [memory, board]

/-- The bytes of a machine take any other of the same cartridge to its state. -/
theorem load_encode (hs : source.bus.Stocked cartridge) (ht : target.bus.Stocked cartridge)
    (rest : List UInt8) :
    target.layout.load (source.layout.encode source ++ rest) target =
      .ok rest (target.resume source.snapshot target.bus.ppu.screen) := by
  rw [load_stored (storable hs) (ht.board.circuit.sameKind hs.board.circuit), reload_eq hs ht]

theorem encode_eq (m : Machine) : m.layout.encode m =
    MainMemory.layout.encode m.bus.memory ++ PictureMemory.layout.encode m.bus.picture ++
      Cpu.layout.encode m.cpu ++ Ppu.layout.encode m.bus.ppu ++
      m.bus.board.layout.encode m.bus.board := by
  have memory : memoryLayout.encode m = MainMemory.layout.encode m.bus.memory :=
    Layout.encode_within (by rfl) _
  have picture : pictureLayout.encode m = PictureMemory.layout.encode m.bus.picture :=
    Layout.encode_within (by rfl) _
  have cpu : cpuLayout.encode m = Cpu.layout.encode m.cpu := Layout.encode_within (by rfl) _
  have ppu : ppuLayout.encode m = Ppu.layout.encode m.bus.ppu := Layout.encode_within (by rfl) _
  have board : (boardLayout m.bus.board).encode m = m.bus.board.layout.encode m.bus.board :=
    Layout.encode_within (by rfl) _
  unfold layout
  simp only [Layout.encode_append]
  rw [memory, picture, cpu, ppu, board]

/-- Neither the screen nor the controllers are in the bytes. -/
theorem encode_congr {m n : Machine} (hcpu : m.cpu = n.cpu)
    (hmemory : m.bus.memory = n.bus.memory) (hpicture : m.bus.picture = n.bus.picture)
    (hboard : m.bus.board = n.bus.board) (hppu : m.bus.ppu.Twin n.bus.ppu) :
    m.layout.encode m = n.layout.encode n := by
  rw [encode_eq, encode_eq, hcpu, hmemory, hpicture, hboard, hppu]
  rfl

end Machine

end Famicom
