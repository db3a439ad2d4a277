import Famicom.Proofs.Afloat
import Famicom.Proofs.Truncation

/-!
# Consoles behind a refused load

A load that is cut short leaves fields of two consoles in one. Memories, board and sprites fit whatever
the cut; only the phase of the beam and its line may be at odds. A beam that then draws below the
picture stops every frame. Nothing else that a cut mixes stops one.
-/

namespace Famicom

variable {cartridge : Cartridge}

/-! ## Mixed components -/

/-- What holds of two values holds of either. -/
theorem either {α : Type} {p : α → Prop} {c : Prop} [Decidable c] {a b : α} (ha : p a) (hb : p b) :
    p (if c then a else b) := by
  split
  · exact ha
  · exact hb

theorem MainMemory.adopt_fits {target source : MainMemory} (ht : target.Fits cartridge)
    (hs : source.Fits cartridge) (n : Nat) : (target.adopt source n).Fits cartridge where
  mapped := ht.mapped
  size := either (p := fun ram : Array UInt8 => ram.size = _) hs.size ht.size
  wired := ht.wired

theorem PictureMemory.adopt_fits {target source : PictureMemory} (ht : target.Fits cartridge)
    (hs : source.Fits cartridge) (n : Nat) : (target.adopt source n).Fits cartridge := by
  have same : source.tables = target.tables := hs.trans ht.symm
  simp only [Fits, adopt, same, ite_self]
  exact ht

theorem Board.adopt_circuitFits {target source : Circuit} (ht : CircuitFits cartridge target)
    (hs : CircuitFits cartridge source) (n : Nat) :
    CircuitFits cartridge (target.adopt source n) := by
  have kind := ht.sameKind hs
  cases target <;> cases source <;> first
    | exact kind.elim
    | skip
  case nrom.nrom =>
    obtain ⟨board, oneBank, patterns, size⟩ := ht
    obtain ⟨-, oneBank', patterns', size'⟩ := hs
    exact ⟨board, either (p := (· = _)) oneBank' oneBank,
      either (p := (· = _)) patterns' patterns,
      either (p := fun ram : Array UInt8 => ram.size = _) size' size⟩
  case uxrom.uxrom =>
    obtain ⟨board, lastBank, patterns, size⟩ := ht
    obtain ⟨-, lastBank', patterns', size'⟩ := hs
    exact ⟨board,
      either (p := (· = UInt64.ofNat (cartridge.program.size - 0x4000))) lastBank' lastBank,
      either (p := (· = _)) patterns' patterns,
      either (p := fun ram : Array UInt8 => ram.size = _) size' size⟩
  case cnrom.cnrom =>
    obtain ⟨board, oneBank⟩ := ht
    obtain ⟨-, oneBank'⟩ := hs
    exact ⟨board, either (p := (· = _)) oneBank' oneBank⟩

namespace Ppu

variable {target source : Ppu}

theorem adopt_tame (ht : target.Tame) (hs : source.Tame) (n : Nat) :
    (target.adopt source n).Tame where
  address := either (p := (· < addressEnd)) hs.address ht.address
  nextAddress := either (p := (· < addressEnd)) hs.nextAddress ht.nextAddress
  fineX := either (p := (· < 8)) hs.fineX ht.fineX
  sprites := either (p := fun l : List UInt8 => ∀ number ∈ l, number < 64) hs.sprites ht.sprites
  room := either (p := fun l : List UInt8 => l.length ≤ spritesPerLine) hs.room ht.room

theorem adopt_adrift (ht : target.Placed) (hs : source.Placed) (n : Nat)
    (free : ¬(target.adopt source n).beam.Stranded) : (target.adopt source n).beam.Adrift where
  dot := either (p := (· ≤ lastDot)) hs.dot ht.dot
  line := by
    have low : (target.adopt source n).scanline.toNat ≤ 260 :=
      either (p := fun line : UInt16 => line.toNat ≤ 260) hs.line_le ht.line_le
    exact Phase.reaches_of_le low _
  free := free

/-- Only between its phase and its line can a cut strand the beam: with the phase of a unit that draws
and the line of one below the picture. -/
theorem adopt_stranded_iff (ht : target.Placed) (hs : source.Placed) {n : Nat} :
    (target.adopt source n).beam.Stranded ↔
      target.variant = .full ∧ source.phase = .render ∧ visibleLines ≤ target.scanline ∧
        0 < n ∧ n ≤ 2 ∧ (if 1 < n then source.dot else target.dot) ≤ visibleDots := by
  constructor
  · rintro ⟨full, drawing, below, dot⟩
    have drawing : (if 0 < n then source.phase else target.phase) = .render := drawing
    have below : visibleLines ≤ if 2 < n then source.scanline else target.scanline := below
    by_cases first : 0 < n
    · rw [if_pos first] at drawing
      have high : source.scanline < visibleLines :=
        UInt16.lt_iff_toNat_lt.2 (hs.render_line drawing)
      by_cases last : 2 < n
      · rw [if_pos last] at below
        exact absurd high (UInt16.not_lt.2 below)
      · rw [if_neg last] at below
        exact ⟨full, drawing, below, first, Nat.le_of_not_lt last, dot⟩
    · have last : ¬2 < n := by omega
      rw [if_neg first] at drawing
      rw [if_neg last] at below
      have high : target.scanline < visibleLines :=
        UInt16.lt_iff_toNat_lt.2 (ht.render_line drawing)
      exact absurd high (UInt16.not_lt.2 below)
  · rintro ⟨full, drawing, below, first, last, dot⟩
    refine ⟨full, ?_, ?_, dot⟩
    · exact (if_pos first).trans drawing
    · show visibleLines ≤ if 2 < n then source.scanline else target.scanline
      rwa [if_neg (Nat.not_lt_of_le last)]

end Ppu

namespace Machine

variable {target source : Machine}

theorem adopt_stocked (ht : target.bus.Stocked cartridge) (hs : source.bus.Stocked cartridge)
    (n : Nat) : (target.adopt source n).bus.Stocked cartridge where
  memory := MainMemory.adopt_fits ht.memory hs.memory n
  picture := PictureMemory.adopt_fits ht.picture hs.picture (n - 2)
  board := ⟨ht.board.inserted, Board.adopt_circuitFits ht.board.circuit hs.board.circuit (n - 33)⟩
  ppu := Ppu.adopt_tame ht.ppu hs.ppu (n - 16)

theorem adopt_afloat (ht : target.Sound cartridge) (hs : source.Sound cartridge) (n : Nat)
    (free : ¬(target.adopt source n).bus.ppu.beam.Stranded) :
    (target.adopt source n).Afloat cartridge target.bus.ppu.variant 0 where
  devices := adopt_stocked ht.stocked hs.stocked n
  idle := ht.idle
  variant := rfl
  beam := Ppu.adopt_adrift ht.devices.ppu.toPlaced hs.devices.ppu.toPlaced (n - 16) free
  owing := by
    constructor
    · exact .inl (either (p := fun owed : UInt32 => owed.toNat ≤ Cpu.longestWait + 7)
        hs.clock.owing.owed_le ht.clock.owing.owed_le)
    · intro pending
      have calm : (target.adopt source n).bus.ppu.interruptPending = false :=
        either (p := (· = false)) hs.clock.calm ht.clock.calm
      rw [show (target.adopt source n).bus.ppu.beam.interruptPending = false from calm] at pending
      cases pending

/-! ## Places in the bytes -/

open Codec

/-- The bytes of a state that reach to its phase, with it. Two for the dot and two for the line
follow. -/
def phaseEnd (m : Machine) : Nat := 0x1074 + m.bus.memory.extendedRam.size

theorem beam_fieldEnd (m : Machine) : m.layout.fieldEnd m 16 = m.phaseEnd ∧
    m.layout.fieldEnd m 17 = m.phaseEnd + 2 ∧ m.layout.fieldEnd m 18 = m.phaseEnd + 4 := by
  have front : (Layout.encode (memoryLayout ++ pictureLayout ++ cpuLayout) m).length =
      0x1073 + m.bus.memory.extendedRam.size := by
    simp [Layout.encode, memoryLayout, pictureLayout, cpuLayout, Layout.within,
      MainMemory.layout, PictureMemory.layout, Cpu.layout, Field.within, Field.of,
      Format.memory_length, Format.bytes_length, Format.u8, Format.u16, Format.u32, Format.u64,
      littleEndian]
    omega
  have behind : ∀ i, m.layout.fieldEnd m (16 + i) = 0x1073 + m.bus.memory.extendedRam.size +
      Layout.fieldEnd (ppuLayout ++ boardLayout m.bus.board) m i := by
    intro i
    rw [← front, ← Layout.fieldEnd_append, ← List.append_assoc]
    rfl
  refine ⟨(behind 0).trans ?_, (behind 1).trans ?_, (behind 2).trans ?_⟩
  all_goals
    simp [Layout.fieldEnd, Layout.encode, ppuLayout, Layout.within, Ppu.layout, Ppu.phaseField,
      Field.within, Field.of, Format.u8, Format.u16, littleEndian, phaseEnd]
    omega

end Machine

/-! ## Consoles -/

namespace Console

variable {source target : Console}

/-- The cut brings the phase of a beam that draws over a beam below the picture, but not its line, and
leaves the beam in a column of the screen. -/
structure Strands (source target : Console) (k : Nat) : Prop where
  full : target.machine.bus.ppu.variant = .full
  drawing : source.machine.bus.ppu.phase = .render
  below : Ppu.visibleLines ≤ target.machine.bus.ppu.scanline
  phaseTaken : source.machine.phaseEnd ≤ k
  lineMissed : k < source.machine.phaseEnd + 4
  column : (if source.machine.phaseEnd + 2 ≤ k then source.machine.bus.ppu.dot
    else target.machine.bus.ppu.dot) ≤ Ppu.visibleDots

/-- What a cut load leaves can go on, unless the cut strands it. -/
theorem decode_take_afloat (ht : target.Sound cartridge) (hs : source.machine.Sound cartridge)
    {k : Nat} (hk : k < source.encode.length) :
    ∃ cause left, target.decode (source.encode.take k) = .error cause left ∧
      (¬source.Strands target k → left.Afloat cartridge target.machine.bus.ppu.variant) ∧
      (source.Strands target k → left.machine.Stuck cartridge) := by
  obtain ⟨n, cause, hn, -, hdecode⟩ := decode_take (Machine.storable hs.stocked)
    (ht.machine.devices.board.circuit.sameKind hs.devices.board.circuit) hk
  have stranded : (target.machine.adopt source.machine n).bus.ppu.beam.Stranded ↔
      source.Strands target k := by
    have many : 16 + 17 ≤ source.machine.layout.length := by
      rw [Machine.layout, List.length_append]
      exact Nat.le_add_right _ _
    obtain ⟨phaseEnd, dotEnd, lineEnd⟩ := source.machine.beam_fieldEnd
    have phase := hn 16 (by omega)
    have dot := hn 17 (by omega)
    have line := hn 18 (by omega)
    rw [phaseEnd] at phase
    rw [dotEnd] at dot
    rw [lineEnd] at line
    have same : 1 < n - 16 ↔ source.machine.phaseEnd + 2 ≤ k := by omega
    refine (Ppu.adopt_stranded_iff ht.machine.devices.ppu.toPlaced
      hs.devices.ppu.toPlaced).trans ?_
    simp only [same]
    constructor
    · rintro ⟨full, drawing, below, low, high, column⟩
      exact ⟨full, drawing, below, by omega, by omega, column⟩
    · rintro ⟨full, drawing, below, low, high, column⟩
      exact ⟨full, drawing, below, by omega, by omega, column⟩
  refine ⟨cause, _, hdecode, fun free => ?_, fun strands => ?_⟩
  · have afloat := Machine.adopt_afloat ht.machine hs n fun s => free (stranded.1 s)
    exact ⟨afloat, ht.afloat.backup⟩
  · have stocked := Machine.adopt_stocked ht.machine.stocked hs.stocked n
    exact ⟨stocked, stranded.2 strands⟩

/-- Only a cut strands: all bytes are more than those up to the line. -/
theorem Strands.lt_length {k : Nat} (h : source.Strands target k) : k < source.encode.length := by
  have whole := source.machine.layout.fieldEnd_le source.machine 18
  rw [source.machine.beam_fieldEnd.2.2] at whole
  exact Nat.lt_of_lt_of_le h.lineMissed whole

/-- The start of a line, with nothing owed and nothing counted. -/
def atLine (c : Console) (phase : Ppu.Phase) (line : UInt16) : Console :=
  { c with
    machine.cpu.pending := 0
    machine.cpu.cycles := 0
    machine.bus.ppu.phase := phase
    machine.bus.ppu.dot := 0
    machine.bus.ppu.scanline := line
    machine.bus.ppu.totalDots := 0 }

theorem atLine_sound {c : Console} (h : c.Sound cartridge) {phase : Ppu.Phase} {line : UInt16}
    (holds : phase.Holds line) : (c.atLine phase line).Sound cartridge where
  inserted := h.inserted
  machine := {
    devices := { h.machine.devices with
      ppu := { h.machine.devices.ppu with
        dot := (by decide : (0 : UInt16) ≤ Ppu.lastDot)
        line := holds } }
    idle := h.machine.idle
    clock := by
      refine ⟨rfl, .inl (Nat.zero_le _), fun pending => ?_⟩
      exact absurd (h.machine.clock.calm.symm.trans pending) (by decide) }
  backup := h.backup

end Console

namespace Handle

open Console (frame)
open Machine (cyclesPerFrame)

variable {source target : Console}

/-- What a handle holds behind a load, whether that was accepted or refused. -/
theorem decode_take_afloat (ht : target.Sound cartridge) (hs : source.machine.Sound cartridge)
    (k : Nat) : ∃ left,
      decode (some target) (some (source.encode.take k)) = some left ∧
        (¬source.Strands target k → left.Afloat cartridge target.machine.bus.ppu.variant) ∧
        (source.Strands target k → left.machine.Stuck cartridge) := by
  refine ⟨settle (Console.decode (source.encode.take k)) target, rfl, ?_⟩
  by_cases hk : k < source.encode.length
  · obtain ⟨cause, left, hdecode, outcome⟩ := Console.decode_take_afloat ht hs hk
    rw [settle, hdecode]
    exact outcome
  · have whole : source.encode.take k = source.encode ++ [] := by
      rw [List.take_of_length_le (Nat.le_of_not_lt hk), List.append_nil]
    obtain ⟨left, hdecode, afloat⟩ := Console.decode_afloat ht.afloat (hs.snapshot.afloat _) []
    rw [whole, settle_ok hdecode]
    exact ⟨fun _ => afloat, fun strands => absurd strands.lt_length hk⟩

/-- Behind a load that was refused, every later frame runs to its end, whatever the host does before
it, unless the cut stranded the beam. A stranded beam stops every step. -/
theorem cut_load_runs_on {raw : ByteArray} (himage : Cartridge.ofImage raw = .ok cartridge)
    (ht : target.Sound cartridge) (hs : source.Sound cartridge) (k : Nat) : ∃ left,
      decode (some target) (some (source.encode.take k)) = some left ∧
        (¬source.Strands target k → ∀ handle, Follows cartridge left handle → ∃ later,
          handle = some later ∧ (later.machine.Room cyclesPerFrame → ∃ next,
            frame later = .ok () next ∧ step handle = some next ∧
              next.machine.cpu.cycles.toNat =
                later.machine.cpu.cycles.toNat + cyclesPerFrame)) ∧
        (source.Strands target k → ∀ n, ∃ later fault stopped,
          Nat.repeat step n (some left) = some later ∧ frame later = .error fault stopped) := by
  have sound := Cartridge.ofImage_sound himage
  obtain ⟨left, hdecode, afloat, stuck⟩ := decode_take_afloat ht hs.machine k
  refine ⟨left, hdecode, fun free handle follows => ?_, fun strands n => ?_⟩
  · obtain ⟨later, rfl, afloat⟩ := follows.afloat sound (afloat free)
    refine ⟨later, rfl, fun room => ?_⟩
    obtain ⟨next, hframe, -, cycles⟩ := Console.frame_afloat sound afloat room
    exact ⟨next, hframe, congrArg some (settle_ok hframe), cycles⟩
  · obtain ⟨later, hsteps, stuck⟩ := steps_stuck (stuck strands) n
    obtain ⟨fault, stopped, hframe, -⟩ := Console.frame_stuck stuck
    exact ⟨later, fault, stopped, hsteps, hframe⟩

section
variable {c : Console}

theorem drawing_sound (h : c.Sound Image.polling) : (c.atLine .render 0).Sound Image.polling :=
  Console.atLine_sound h (by decide : (0 : UInt16) < Ppu.visibleLines)

/-- The bytes of a console that starts its picture, up to the phase. -/
theorem drawing_phaseEnd (h : c.Sound Image.polling) :
    (c.atLine .render 0).machine.phaseEnd = 0x1074 := by
  rw [Machine.phaseEnd, (drawing_sound h).machine.devices.memory.size]
  rfl

theorem drawing_cut (h : c.Sound Image.polling) : 0x1074 < (c.atLine .render 0).encode.length := by
  have whole := (c.atLine .render 0).machine.layout.fieldEnd_le (c.atLine .render 0).machine 18
  rw [(c.atLine .render 0).machine.beam_fieldEnd.2.2, drawing_phaseEnd h] at whole
  exact Nat.lt_of_lt_of_le (by decide) whole

end

/-- The phase of a console that draws, brought over one in its vertical blank: no frame follows. -/
theorem polling_strands : ∃ c, Console.insert Image.polling .full = .ok c ∧
    (c.atLine .render 0).Sound Image.polling ∧ (c.atLine .verticalBlank 250).Sound Image.polling ∧
    ∃ cause left fault stopped,
      (c.atLine .verticalBlank 250).decode ((c.atLine .render 0).encode.take 0x1074) =
        .error cause left ∧
      decode (some (c.atLine .verticalBlank 250))
        (some ((c.atLine .render 0).encode.take 0x1074)) = some left ∧
      frame left = .error fault stopped := by
  obtain ⟨c, hc, inserted, full⟩ := Console.polling_inserts .full
  have drawing := drawing_sound inserted
  have phaseEnd := drawing_phaseEnd inserted
  have blank : (c.atLine .verticalBlank 250).Sound Image.polling :=
    Console.atLine_sound inserted ⟨by decide, by decide⟩
  have strands : (c.atLine .render 0).Strands (c.atLine .verticalBlank 250) 0x1074 := by
    refine ⟨full, rfl, (by decide : Ppu.visibleLines ≤ 250), ?_, ?_, ?_⟩
    · exact Nat.le_of_eq phaseEnd
    · rw [phaseEnd]
      decide
    · rw [phaseEnd]
      exact (by decide : (0 : UInt16) ≤ Ppu.visibleDots)
  obtain ⟨cause, left, hdecode, -, stuck⟩ :=
    Console.decode_take_afloat blank drawing.machine (drawing_cut inserted)
  obtain ⟨fault, stopped, hframe, -⟩ := Console.frame_stuck (stuck strands)
  refine ⟨c, hc, drawing, blank, cause, left, fault, stopped, hdecode, ?_, hframe⟩
  show some (settle _ _) = _
  rw [settle, hdecode]

/-- The same bytes over a console before its picture: the next frames run. -/
theorem polling_runs_on : ∃ c left later next, Console.insert Image.polling .full = .ok c ∧
    decode (some (c.atLine .preRender 0)) (some ((c.atLine .render 0).encode.take 0x1074)) =
      some left ∧
    restore (backUp (press (some left) 0 1)) = some later ∧ frame later = .ok () next := by
  obtain ⟨c, hc, inserted, -⟩ := Console.polling_inserts .full
  have drawing := drawing_sound inserted
  have early : (c.atLine .preRender 0).Sound Image.polling := Console.atLine_sound inserted rfl
  obtain ⟨left, hdecode, runs, -⟩ :=
    cut_load_runs_on Image.ofImage_pollingImage early drawing 0x1074
  have free : ¬(c.atLine .render 0).Strands (c.atLine .preRender 0) 0x1074 := fun strands =>
    absurd strands.below (by decide : ¬Ppu.visibleLines ≤ 0)
  have follows : Follows Image.polling left (restore (backUp (press (some left) 0 1))) :=
    (Follows.start.press 0 1).backUp.restore
  obtain ⟨later, hlater, frames⟩ := runs free _ follows
  obtain ⟨n, cause, -, -, taken⟩ := Console.decode_take (Machine.storable drawing.machine.stocked)
    (early.machine.devices.board.circuit.sameKind drawing.machine.devices.board.circuit)
    (drawing_cut inserted)
  have same : some (settle _ _) = some left := hdecode
  rw [settle, taken] at same
  injection same with same
  injection hlater with hlater
  have cycles : later.machine.cpu.cycles = 0 := by
    rw [← hlater, ← same]
    exact either (p := (· = 0)) rfl rfl
  have total : later.machine.bus.ppu.totalDots = 0 := by
    rw [← hlater, ← same]
    exact either (p := (· = 0)) rfl rfl
  have room : later.machine.Room cyclesPerFrame := by
    rw [Machine.Room, cycles, total]
    decide
  obtain ⟨next, hframe, -⟩ := frames room
  exact ⟨c, left, later, next, hc, hdecode, hlater ▸ rfl, hframe⟩

end Handle

end Famicom
