import Famicom.Ppu.Sprite
import Mathlib.Data.List.FinRange

/-!
# Evaluation of sprites

The search for the sprites of a line, which stops when the line is full, finds the first ones of all
that lie on the line, in the order of sprite memory.
-/

namespace Famicom.Ppu

/-- How far the line of the beam lies below the row byte of a sprite. -/
def rowsBelow (ppu : Ppu) (number : Fin 64) : Int :=
  (ppu.scanline.toNat : Int) - ppu.oam[4 * number.val].toNat

/-- The rows of a sprite hold the line of the beam. -/
def HoldsLine (ppu : Ppu) (number : Fin 64) : Prop :=
  0 ≤ ppu.rowsBelow number ∧ ppu.rowsBelow number < if ppu.control.tallSprites then 16 else 8

instance (ppu : Ppu) (number : Fin 64) : Decidable (ppu.HoldsLine number) :=
  inferInstanceAs (Decidable (_ ∧ _))

/-- All sprites of the line, however many, from the one at the sprite address on. -/
def spritesOnLine (ppu : Ppu) : List (Fin 64) :=
  ((List.finRange 64).drop (ppu.oamAddress.toNat / 4)).filter fun number => ppu.HoldsLine number

variable (ppu : Ppu)

theorem spriteHeight_toNat :
    ppu.control.spriteHeight.toNat = if ppu.control.tallSprites then 16 else 8 := by
  unfold Control.spriteHeight
  split <;> rfl

/-- Words that wrap find the same lines as whole numbers. -/
theorem isOnLine_iff (number : Fin 64) :
    ppu.isOnLine (UInt8.ofNat number.val) = true ↔ ppu.HoldsLine number := by
  have place : (UInt8.ofNat number.val).toNat = number.val :=
    UInt8.toNat_ofNat_of_lt' (Nat.lt_trans number.isLt (by decide))
  have found : ppu.sprite? (UInt8.ofNat number.val) = some ⟨ppu.oam[4 * number.val],
      ppu.oam[4 * number.val + 1], ppu.oam[4 * number.val + 2], ppu.oam[4 * number.val + 3]⟩ := by
    have inside : (UInt8.ofNat number.val).toNat < 64 := by
      rw [place]
      exact number.isLt
    unfold sprite?
    rw [dif_pos inside]
    simp only [place, Nat.mul_comm number.val 4]
  have height := ppu.spriteHeight_toNat
  unfold isOnLine HoldsLine rowsBelow
  simp only [found, Bool.and_eq_true, decide_eq_true_eq, UInt16.le_iff_toNat_le,
    UInt16.lt_iff_toNat_lt, UInt16.toNat_sub, UInt8.toNat_toUInt16, height]
  have line := ppu.scanline.toNat_lt
  have row := (ppu.oam[4 * number.val]).toNat_lt
  split <;> omega

/-- What is found from a number on, with room for so many. -/
theorem findSprites_eq (number room : Nat) :
    ppu.findSprites number room =
      ((((List.finRange 64).drop number).filter fun number => ppu.HoldsLine number).take room).map
        fun number : Fin 64 => UInt8.ofNat number.val := by
  have first : ∀ (number : Nat) (h : number < 64), (List.finRange 64).drop number =
      ⟨number, h⟩ :: (List.finRange 64).drop (number + 1) := by
    intro number h
    rw [List.drop_eq_getElem_cons (by rwa [List.length_finRange]), List.getElem_finRange]
    rfl
  fun_induction findSprites ppu number room with
  | case1 => simp
  | case2 number room h onLine ih =>
    have holds : ppu.HoldsLine ⟨number, h⟩ := (ppu.isOnLine_iff ⟨number, h⟩).1 onLine
    rw [ih, first number h, List.filter_cons_of_pos (by simpa using holds), List.take_succ_cons,
      List.map_cons]
  | case3 number room h onLine ih =>
    have misses : ¬ppu.HoldsLine ⟨number, h⟩ := fun holds =>
      onLine ((ppu.isOnLine_iff ⟨number, h⟩).2 holds)
    rw [ih, first number h, List.filter_cons_of_neg (by simpa using misses)]
  | case4 number room h =>
    rw [List.drop_of_length_le (by rw [List.length_finRange]; omega)]
    rfl

/-- An evaluation lists the first eight sprites of the line, counted from the one at the sprite address
on, and changes nothing else. A sprite is of the line where the line is one of the 8 or 16 from its
row on. -/
theorem evaluation_keeps_eight : ppu.evaluateSprites = { ppu with
    lineSprites := (ppu.spritesOnLine.take 8).map fun number : Fin 64 => UInt8.ofNat number.val } :=
  congrArg (fun numbers => { ppu with lineSprites := numbers })
    (ppu.findSprites_eq (ppu.oamAddress.toNat / 4) spritesPerLine)

end Famicom.Ppu
