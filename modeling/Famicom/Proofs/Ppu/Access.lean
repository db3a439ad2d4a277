import Famicom.Proofs.Fit
import Famicom.Proofs.Ppu.Range

/-!
# Register access

What an access to a register of the picture unit keeps: the ranges, the place of the beam, and the
likeness of two units that differ in nothing but what they put on a screen.
-/

namespace Famicom.Ppu

/-- The part of a picture unit that puts out the picture. Registers do not reach it. -/
structure Beam where
  variant : Variant
  screen : Vector UInt32 (screenWidth * screenHeight)
  phase : Phase
  dot : UInt16
  scanline : UInt16
  interruptPending : Bool
  totalDots : UInt64

def beam (ppu : Ppu) : Beam where
  variant := ppu.variant
  screen := ppu.screen
  phase := ppu.phase
  dot := ppu.dot
  scanline := ppu.scanline
  interruptPending := ppu.interruptPending
  totalDots := ppu.totalDots

/-- The same picture unit in front of another screen. -/
def repaint (ppu : Ppu) (variant : Variant) (screen : Vector UInt32 (screenWidth * screenHeight)) :
    Ppu :=
  { ppu with variant := variant, screen := screen }

theorem repaint_inRange {ppu : Ppu} (h : ppu.InRange) (variant : Variant)
    (screen : Vector UInt32 (screenWidth * screenHeight)) :
    (ppu.repaint variant screen).InRange :=
  { h with }

/-- Picture units that differ in nothing but what they put on a screen. -/
def Twin (p q : Ppu) : Prop := q = p.repaint q.variant q.screen

/-- A change that neither depends on the screen nor affects it. -/
def Blind (change : Ppu → Ppu) : Prop :=
  ∀ ppu variant screen, change (ppu.repaint variant screen) = (change ppu).repaint variant screen

namespace Blind

variable {first second : Ppu → Ppu}

theorem comp (hs : Blind second) (hf : Blind first) : Blind fun ppu => second (first ppu) := by
  intro ppu variant screen
  dsimp only
  rw [hf, hs]

theorem choice {c : Ppu → Prop} [DecidablePred c]
    (hc : ∀ ppu variant screen, c (ppu.repaint variant screen) ↔ c ppu) (hf : Blind first)
    (hs : Blind second) : Blind fun ppu => if c ppu then first ppu else second ppu := by
  intro ppu variant screen
  dsimp only
  by_cases h : c ppu
  · rw [if_pos h, if_pos ((hc ppu variant screen).2 h)]
    exact hf ppu variant screen
  · rw [if_neg h, if_neg fun h' => h ((hc ppu variant screen).1 h')]
    exact hs ppu variant screen

end Blind

/-- A blind change that leaves the beam where it is. -/
structure OffBeam (change : Ppu → Ppu) : Prop where
  tame : ∀ ppu, ppu.Tame → (change ppu).Tame
  beam : ∀ ppu, (change ppu).beam = ppu.beam
  blind : Blind change

namespace OffBeam

variable {first second : Ppu → Ppu}

protected theorem id : OffBeam id where
  tame _ := id
  beam _ := rfl
  blind _ _ _ := rfl

theorem inRange (h : OffBeam first) (ppu : Ppu) (hr : ppu.InRange) : (first ppu).InRange := by
  have hbeam := h.beam ppu
  have hdot : (first ppu).dot = ppu.dot := congrArg Beam.dot hbeam
  have hline : (first ppu).scanline = ppu.scanline := congrArg Beam.scanline hbeam
  have hphase : (first ppu).phase = ppu.phase := congrArg Beam.phase hbeam
  refine (h.tame ppu hr.tame).inRange ⟨?_, ?_⟩
  · rw [hdot]
    exact hr.dot
  · rw [hline, hphase]
    exact hr.line

theorem twin {p q : Ppu} (h : OffBeam first) (ht : p.Twin q) : (first p).Twin (first q) := by
  have hq : first q = (first p).repaint q.variant q.screen := by
    rw [← h.blind, ← ht]
  unfold Twin
  rw [hq]
  rfl

theorem comp (hs : OffBeam second) (hf : OffBeam first) :
    OffBeam fun ppu => second (first ppu) where
  tame ppu h := hs.tame _ (hf.tame ppu h)
  beam ppu := (hs.beam _).trans (hf.beam ppu)
  blind := hs.blind.comp hf.blind

theorem choice {c : Ppu → Prop} [DecidablePred c]
    (hc : ∀ ppu variant screen, c (ppu.repaint variant screen) ↔ c ppu) (hf : OffBeam first)
    (hs : OffBeam second) : OffBeam fun ppu => if c ppu then first ppu else second ppu where
  tame ppu h := by
    split
    · exact hf.tame ppu h
    · exact hs.tame ppu h
  beam ppu := by
    split
    · exact hf.beam ppu
    · exact hs.beam ppu
  blind := .choice hc hf.blind hs.blind

end OffBeam

theorem writeMask_offBeam (value : UInt8) : OffBeam fun ppu => ppu.writeMask value where
  tame _ h := { h with }
  beam _ := rfl
  blind _ _ _ := rfl

theorem readStatus_offBeam : OffBeam fun ppu => ppu.readStatus.2 where
  tame _ h := { h with }
  beam _ := rfl
  blind _ _ _ := rfl

theorem writeOamAddress_offBeam (value : UInt8) :
    OffBeam fun ppu => ppu.writeOamAddress value where
  tame _ h := { h with }
  beam _ := rfl
  blind _ _ _ := rfl

theorem writeOam_offBeam (value : UInt8) : OffBeam fun ppu => ppu.writeOam value where
  tame _ h := { h with }
  beam _ := rfl
  blind _ _ _ := rfl

theorem fillOam_offBeam (bytes : Ppu → Vector UInt8 256)
    (h : ∀ ppu variant screen, bytes (ppu.repaint variant screen) = bytes ppu) :
    OffBeam fun ppu => { ppu with oam := bytes ppu } where
  tame _ h := { h with }
  beam _ := rfl
  blind ppu variant screen := by
    dsimp only
    rw [h]
    rfl

theorem transfer_offBeam (page : Array UInt8) : OffBeam fun ppu => ppu.transfer page := by
  unfold transfer
  by_cases h : page.size = 256
  · simp only [h, dif_pos]
    exact fillOam_offBeam _ fun _ _ _ => rfl
  · simp only [h, dif_neg, not_false_eq_true]
    exact .id

theorem writeControl_offBeam (value : UInt8) : OffBeam fun ppu => ppu.writeControl value where
  tame ppu h := by
    have table : (Control.mk value).baseTable * 0x400 < addressEnd :=
      toUInt16_mul_lt_addressEnd (and_toNat_le value 0x03) (by decide)
    have next := or_lt_addressEnd (and_lt_addressEnd h.nextAddress (~~~0x0C00)) table
    exact { h with nextAddress := next }
  beam _ := rfl
  blind _ _ _ := rfl

theorem writeScroll_offBeam (value : UInt8) : OffBeam fun ppu => ppu.writeScroll value := by
  refine .choice (c := fun ppu => ppu.firstWrite) (fun _ _ _ => Iff.rfl)
    ⟨fun ppu h => ?_, fun _ => rfl, fun _ _ _ => rfl⟩
    ⟨fun ppu h => ?_, fun _ => rfl, fun _ _ _ => rfl⟩
  · have next := or_lt_addressEnd (and_lt_addressEnd h.nextAddress (~~~0x001F))
      (toUInt16_lt_addressEnd (value / 8))
    have fine : value &&& 0x07 < 8 := by
      rw [UInt8.lt_iff_toNat_lt]
      exact Nat.lt_of_le_of_lt (and_toNat_le value 0x07) (by decide)
    exact { h with nextAddress := next, fineX := fine }
  · have row : (value &&& 0x07).toUInt16 * 0x1000 < addressEnd :=
      toUInt16_mul_lt_addressEnd (and_toNat_le value 0x07) (by decide)
    have tile : (value &&& 0xF8).toUInt16 * 4 < addressEnd :=
      toUInt16_mul_lt_addressEnd (and_toNat_le value 0xF8) (by decide)
    have next := or_lt_addressEnd
      (or_lt_addressEnd (and_lt_addressEnd h.nextAddress (~~~0x73E0)) row) tile
    exact { h with nextAddress := next }

theorem writeAddress_offBeam (value : UInt8) : OffBeam fun ppu => ppu.writeAddress value := by
  refine .choice (c := fun ppu => ppu.firstWrite) (fun _ _ _ => Iff.rfl)
    ⟨fun ppu h => ?_, fun _ => rfl, fun _ _ _ => rfl⟩
    ⟨fun ppu h => ?_, fun _ => rfl, fun _ _ _ => rfl⟩
  · have high : (value &&& 0x3F).toUInt16 * 0x100 < addressEnd :=
      toUInt16_mul_lt_addressEnd (and_toNat_le value 0x3F) (by decide)
    have next := or_lt_addressEnd (and_lt_addressEnd h.nextAddress 0x00FF) high
    exact { h with nextAddress := next }
  · have next := or_lt_addressEnd (and_lt_addressEnd h.nextAddress 0xFF00)
      (toUInt16_lt_addressEnd value)
    exact { h with address := next, nextAddress := next }

theorem stepAddress_offBeam : OffBeam stepAddress where
  tame ppu h := by
    have next : (ppu.address + ppu.control.addressStep) &&& 0x7FFF < addressEnd := by
      rw [UInt16.lt_iff_toNat_lt, UInt16.toNat_and]
      exact Nat.and_lt_two_pow _ (by decide : (0x7FFF : Nat) < 2 ^ 15)
    exact { h with address := next }
  beam _ := rfl
  blind _ _ _ := rfl

theorem fillBuffer_offBeam (value : UInt8) :
    OffBeam fun ppu => { ppu with readBuffer := value } where
  tame _ h := { h with }
  beam _ := rfl
  blind _ _ _ := rfl

/-- Reading data answers, and does to the unit what an access does. -/
theorem readData_ok {cartridge : Cartridge} {memory : PictureMemory} {board : Board}
    (hm : memory.Fits cartridge) (hb : board.Fits cartridge) (ppu : Ppu) :
    ∃ value change, OffBeam change ∧ ∀ variant screen,
      (ppu.repaint variant screen).readData memory board =
        .ok (value, change (ppu.repaint variant screen)) := by
  obtain ⟨data, hd⟩ := PictureMemory.read_ok hm hb (ppu.address &&& 0x3FFF)
  have fetched : ∀ variant screen,
      memory.read board ((ppu.repaint variant screen).address &&& 0x3FFF) = .ok data :=
    fun _ _ => hd
  by_cases low : ppu.address &&& 0x3FFF < 0x3F00
  · refine ⟨ppu.readBuffer, _, stepAddress_offBeam.comp (fillBuffer_offBeam data), ?_⟩
    intro variant screen
    dsimp only [readData]
    rw [fetched]
    exact if_pos low
  · refine ⟨data, _, stepAddress_offBeam, ?_⟩
    intro variant screen
    dsimp only [readData]
    rw [fetched]
    exact if_neg low

/-- Below the palette a read answers from the buffer and fills it again. -/
theorem of_readData_ok {ppu moved : Ppu} {memory : PictureMemory} {board : Board} {data : UInt8}
    (h : ppu.readData memory board = .ok (data, moved)) : ∃ byte,
      memory.read board (ppu.address &&& 0x3FFF) = .ok byte ∧
      (data, moved) = if ppu.address &&& 0x3FFF < 0x3F00
        then (ppu.readBuffer, { ppu with readBuffer := byte }.stepAddress)
        else (byte, ppu.stepAddress) := by
  unfold readData at h
  dsimp only at h
  cases fetched : memory.read board (ppu.address &&& 0x3FFF) with
  | error fault =>
    rw [fetched] at h
    cases h
  | ok byte =>
    rw [fetched] at h
    change (if ppu.address &&& 0x3FFF < 0x3F00 then _ else _) = _ at h
    refine ⟨byte, rfl, ?_⟩
    split at h <;> cases h
    · rw [if_pos ‹_›]
    · rw [if_neg ‹_›]

end Famicom.Ppu
