import Famicom.Ppu.Access
import Famicom.Ppu.Dot
import Famicom.Proofs.Bits
import Famicom.Proofs.Coupling
import Mathlib.Algebra.Group.Nat.Defs

/-!
# Ranges of the picture unit

The ranges in which the state of the picture unit stays, and what accesses to its registers leave
as it was.
-/

namespace Famicom.Ppu

/-- The lines of each phase. -/
def Phase.Holds (line : UInt16) : Phase → Prop
  | preRender => line = 0
  | render => line < visibleLines
  | postRender => line = visibleLines
  | verticalBlank => vblankLine ≤ line ∧ line < frameLines

/-- Addresses have fifteen bits. -/
def addressEnd : UInt16 := 0x8000

/-- The beam is on a line of its phase. -/
structure Placed (ppu : Ppu) : Prop where
  dot : ppu.dot ≤ lastDot
  line : ppu.phase.Holds ppu.scanline

structure InRange (ppu : Ppu) : Prop extends Placed ppu where
  address : ppu.address < addressEnd
  nextAddress : ppu.nextAddress < addressEnd
  fineX : ppu.fineX < 8
  sprites : ∀ number ∈ ppu.lineSprites, number < 64
  room : ppu.lineSprites.length ≤ spritesPerLine

/-- The ranges that do not speak of the beam. -/
structure Tame (ppu : Ppu) : Prop where
  address : ppu.address < addressEnd
  nextAddress : ppu.nextAddress < addressEnd
  fineX : ppu.fineX < 8
  sprites : ∀ number ∈ ppu.lineSprites, number < 64
  room : ppu.lineSprites.length ≤ spritesPerLine

theorem InRange.tame {ppu : Ppu} (h : ppu.InRange) : ppu.Tame := { h with }

theorem Tame.inRange {ppu : Ppu} (h : ppu.Tame) (placed : ppu.Placed) : ppu.InRange :=
  { h, placed with }

theorem reset_inRange (ppu : Ppu) : ppu.reset.InRange where
  dot := (by decide : (0 : UInt16) ≤ lastDot)
  line := rfl
  address := (by decide : (0 : UInt16) < addressEnd)
  nextAddress := (by decide : (0 : UInt16) < addressEnd)
  fineX := (by decide : (0 : UInt8) < 8)
  sprites := by simp [reset]
  room := Nat.zero_le _

theorem powerOn_inRange (variant : Variant) : (powerOn variant).InRange :=
  reset_inRange (powerOn variant)

/-! ## Addresses -/

theorem and_lt_addressEnd {a : UInt16} (h : a < addressEnd) (mask : UInt16) :
    a &&& mask < addressEnd := by
  rw [UInt16.lt_iff_toNat_lt, UInt16.toNat_and] at *
  exact Nat.lt_of_le_of_lt Nat.and_le_left h

theorem or_lt_addressEnd {a b : UInt16} (ha : a < addressEnd) (hb : b < addressEnd) :
    a ||| b < addressEnd := by
  rw [UInt16.lt_iff_toNat_lt] at *
  rw [UInt16.toNat_or]
  exact Nat.or_lt_two_pow (n := 15) ha hb

theorem xor_lt_addressEnd {a b : UInt16} (ha : a < addressEnd) (hb : b < addressEnd) :
    a ^^^ b < addressEnd := by
  rw [UInt16.lt_iff_toNat_lt] at *
  rw [UInt16.toNat_xor]
  exact Nat.xor_lt_two_pow (n := 15) ha hb

/-- A byte moved up by a factor. -/
theorem toUInt16_mul_lt_addressEnd {v : UInt8} {bound : Nat} (h : v.toNat ≤ bound)
    {factor : UInt16} (hf : bound * factor.toNat < 0x8000) :
    v.toUInt16 * factor < addressEnd := by
  have hm : v.toNat * factor.toNat ≤ bound * factor.toNat := Nat.mul_le_mul_right _ h
  rw [UInt16.lt_iff_toNat_lt, UInt16.toNat_mul, UInt8.toNat_toUInt16]
  exact Nat.lt_of_le_of_lt (Nat.mod_le _ _) (Nat.lt_of_le_of_lt hm hf)

theorem toUInt16_lt_addressEnd (v : UInt8) : v.toUInt16 < addressEnd := by
  rw [UInt16.lt_iff_toNat_lt, UInt8.toNat_toUInt16]
  exact Nat.lt_of_lt_of_le v.toNat_lt (by decide)

theorem and_toNat_le (v mask : UInt8) : (v &&& mask).toNat ≤ mask.toNat := by
  rw [UInt8.toNat_and]
  exact Nat.and_le_right

theorem nextColumn_lt {address : UInt16} (h : address < addressEnd) :
    nextColumn address < addressEnd := by
  unfold nextColumn
  split
  · exact xor_lt_addressEnd (and_lt_addressEnd h _) (by decide)
  · rename_i hc
    have hne : address ≠ 0x7FFF := by
      rintro rfl
      exact hc (by decide)
    have hlt := UInt16.lt_iff_toNat_lt.1 h
    have : address.toNat ≠ 0x7FFF := fun he => hne (UInt16.toNat_inj.1 he)
    rw [UInt16.lt_iff_toNat_lt, UInt16.toNat_add]
    simp only [addressEnd, UInt16.reduceToNat] at *
    omega

/-- Fifteen bits whose top three are not all set leave room for another row. -/
theorem toNat_lt_of_fineRow_ne {address : UInt16} (h : address < addressEnd)
    (hr : address &&& 0x7000 ≠ 0x7000) : address.toNat < 0x7000 := by
  have hlt : address.toNat < 0x8000 := UInt16.lt_iff_toNat_lt.1 h
  have hne : address.toNat &&& 0x7000 ≠ 0x7000 := by
    intro he
    apply hr
    apply UInt16.toNat_inj.1
    rwa [UInt16.toNat_and]
  have hf := and_field address.toNat 3 12
  simp only [Nat.reducePow, Nat.reduceSub, Nat.reduceMul] at hf
  omega

theorem nextRow_lt {address : UInt16} (h : address < addressEnd) :
    nextRow address < addressEnd := by
  have low : ∀ step : UInt16, step.toNat ≤ 0x1000 → ∀ a : UInt16, a.toNat < 0x7000 →
      a + step < addressEnd := by
    intro step hs a ha
    rw [UInt16.lt_iff_toNat_lt, UInt16.toNat_add]
    simp only [addressEnd, UInt16.reduceToNat]
    omega
  have top : (address &&& ~~~0x7000).toNat < 0x7000 := by
    have hlt : address.toNat < 2 ^ 15 := UInt16.lt_iff_toNat_lt.1 h
    have hhigh := and_field address.toNat 1 15
    have hlow := Nat.and_two_pow_sub_one_eq_mod address.toNat 12
    have hmask : (~~~0x7000 : UInt16) = 0x8000 ||| 0x0FFF := by decide
    rw [hmask, UInt16.toNat_and, UInt16.toNat_or]
    simp only [UInt16.reduceToNat, Nat.and_or_distrib_left, Nat.reducePow, Nat.reduceSub,
      Nat.reduceMul] at *
    rw [hhigh, hlow, show address.toNat / 0x8000 % 2 * 0x8000 = 0 by omega, Nat.zero_or]
    omega
  dsimp only [nextRow]
  split
  · exact low 0x1000 (by decide) _ (toNat_lt_of_fineRow_ne h ‹_›)
  split
  · exact xor_lt_addressEnd (and_lt_addressEnd (and_lt_addressEnd h _) _) (by decide)
  split
  · exact and_lt_addressEnd (and_lt_addressEnd h _) _
  · exact low 0x0020 (by decide) _ top

theorem copyBits_lt {source target : UInt16} (bits : UInt16) (hs : source < addressEnd)
    (ht : target < addressEnd) : copyBits bits source target < addressEnd :=
  or_lt_addressEnd (and_lt_addressEnd ht _) (and_lt_addressEnd hs _)

/-! ## A dot by its phase -/

/-- What a dot does before it is counted. -/
def phaseDot (memory : PictureMemory) (board : Board) : Phase → Action Unit
  | .preRender => modify preRenderDot
  | .render => renderDot memory board
  | .postRender => postRenderDot
  | .verticalBlank => verticalBlankDot

theorem tick_eq (memory : PictureMemory) (board : Board) (ppu : Ppu) :
    tick memory board ppu = (do phaseDot memory board ppu.phase; countDot : Action Unit) ppu := by
  unfold tick
  rw [bind_ok (get_ok ppu)]
  cases ppu.phase <;> rfl

end Famicom.Ppu
