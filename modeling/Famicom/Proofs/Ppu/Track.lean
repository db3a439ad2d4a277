import Famicom.Proofs.Ppu.Plane
import Famicom.Proofs.Ppu.Walk

/-!
# The track of the address

Where the address stands at every dot up to the end of the picture, while both layers are shown and
no program writes: it takes over the position of the program before the picture and then goes over
the plane line by line.
-/

namespace Famicom.Ppu

/-- Before the picture the address takes over that of the program, the column at one dot and the
row at others. -/
structure Approaches (source : UInt16) (dot : Nat) (address : UInt16) : Prop where
  address_lt : address < addressEnd
  horizontal : 258 < dot → address &&& horizontalBits = source &&& horizontalBits
  vertical : 281 < dot → address &&& verticalBits = source &&& verticalBits

/-- The row of a line of the picture; the next one follows its last visible dot. -/
def shownRow (source : UInt16) (line dot : Nat) : Nat :=
  (rowOf source + line + if dot ≤ 257 then 0 else 1) % 480

/-- The column of tiles at a dot, which starts over behind the visible ones. -/
def shownColumn (source : UInt16) (fine dot : Nat) : Nat :=
  (columnOf source + if dot ≤ 258 then (fine + min (dot - 1) 256) / 8 else 0) % 64

def Shows (source : UInt16) (fine line dot : Nat) (address : UInt16) : Prop :=
  Scrolled (shownRow source line dot) (shownColumn source fine dot) address

/-- Where the address stands, by the rank of the beam. -/
def Tracks (source : UInt16) (fine rank : Nat) (address : UInt16) : Prop :=
  if rank < 341 then Approaches source rank address
  else Shows source fine (rank / 341 - 1) (rank % 341) address

variable {ppu : Ppu} {source address : UInt16} {fine line dot rank : Nat}

/-! ## Before the picture -/

theorem approaches_scrolled (hp : ppu.phase = .preRender) (shown : ppu.mask.isRendering = true)
    (hs : ppu.nextAddress < addressEnd)
    (h : Approaches ppu.nextAddress ppu.dot.toNat ppu.address) :
    Approaches ppu.nextAddress (ppu.dot.toNat + 1) ppu.scrolled := by
  have kept : ppu.dot.toNat ≠ 258 → ppu.dot.toNat ≠ 281 →
      Approaches ppu.nextAddress (ppu.dot.toNat + 1) ppu.address := by
    intro column row
    refine ⟨h.address_lt, fun hd => h.horizontal (by omega), fun hd => h.vertical (by omega)⟩
  simp only [scrolled, hp, preRenderEffect, shown, Bool.and_true, decide_eq_true_eq]
  split
  · rename_i first
    have first : ppu.dot.toNat = 1 := congrArg UInt16.toNat first
    exact kept (by omega) (by omega)
  split
  · rename_i column
    have column : ppu.dot.toNat = 258 := congrArg UInt16.toNat column
    exact ⟨copyBits_lt _ hs h.address_lt, fun _ => copyBits_inside _ _ _, fun hd => by omega⟩
  rename_i column
  have column : ppu.dot.toNat ≠ 258 := fun hd => column (UInt16.toNat_inj.1 hd)
  split
  · rename_i row
    simp only [copiesVertical, Bool.and_eq_true, decide_eq_true_eq, UInt16.lt_iff_toNat_lt,
      UInt16.le_iff_toNat_le, UInt16.reduceToNat] at row
    refine ⟨copyBits_lt _ hs h.address_lt, fun _ => ?_, fun _ => copyBits_inside _ _ _⟩
    refine (copyBits_outside (by decide) _ _).trans (h.horizontal ?_)
    omega
  · rename_i row
    simp only [copiesVertical, Bool.and_eq_true, decide_eq_true_eq, UInt16.lt_iff_toNat_lt,
      UInt16.le_iff_toNat_le, UInt16.reduceToNat] at row
    exact kept column (by omega)

/-- Behind both copies the picture starts at the position of the program. -/
theorem Approaches.shows (h : Approaches source dot address) (behind : 281 < dot)
    (hs : source < addressEnd) (hy : source.toNat / 2 ^ 5 % 2 ^ 5 ≤ 29) (hf : fine ≤ 7) :
    Shows source fine 0 0 address := by
  have same := eq_of_copied h.address_lt hs (h.horizontal (by omega)) (h.vertical behind)
  have row : shownRow source 0 0 = rowOf source := by
    unfold shownRow rowOf
    rw [if_pos (by decide)]
    omega
  have column : shownColumn source fine 0 = columnOf source := by
    have : (fine + min (0 - 1) 256) / 8 = 0 := by omega
    unfold shownColumn columnOf
    rw [if_pos (by decide), this]
    omega
  unfold Shows
  rw [same, row, column]
  exact scrolled_of hs hy

/-! ## The picture -/

theorem shownRow_kept (h : dot ≠ 257) : shownRow source line (dot + 1) = shownRow source line dot := by
  unfold shownRow
  by_cases hd : dot ≤ 257
  · rw [if_pos hd, if_pos (by omega)]
  · rw [if_neg hd, if_neg (by omega)]

theorem shownColumn_kept (hf : fine ≤ 7) (same : 0 < dot → dot ≤ 256 → (fine + (dot - 1)) % 8 ≠ 7)
    (h : dot ≠ 258) : shownColumn source fine (dot + 1) = shownColumn source fine dot := by
  unfold shownColumn
  by_cases hd : dot ≤ 258
  · rw [if_pos hd, if_pos (by omega)]
    have : (fine + min (dot + 1 - 1) 256) / 8 = (fine + min (dot - 1) 256) / 8 := by omega
    rw [this]
  · rw [if_neg hd, if_neg (by omega)]

theorem shownColumn_next (low : 0 < dot) (high : dot ≤ 256) (last : (fine + (dot - 1)) % 8 = 7) :
    shownColumn source fine (dot + 1) = (shownColumn source fine dot + 1) % 64 := by
  have : (fine + min (dot + 1 - 1) 256) / 8 = (fine + min (dot - 1) 256) / 8 + 1 := by omega
  unfold shownColumn
  rw [if_pos (by omega), if_pos (by omega), this]
  omega

theorem shownRow_next : shownRow source line (257 + 1) = (shownRow source line 257 + 1) % 480 := by
  unfold shownRow
  rw [if_neg (by decide), if_pos (by decide)]
  omega

/-- The column starts over. -/
theorem shownColumn_copied : shownColumn source fine (258 + 1) = columnOf source := by
  unfold shownColumn columnOf
  rw [if_neg (by decide)]
  omega

theorem shows_advanced (background : ppu.mask.showsBackground = true) (hf : ppu.fineX.toNat ≤ 7)
    (low : 0 < ppu.dot) (high : ppu.dot ≤ visibleDots)
    (h : Shows source ppu.fineX.toNat line ppu.dot.toNat ppu.address) :
    Shows source ppu.fineX.toNat line (ppu.dot.toNat + 1)
      (ppu.advanceColumn (ppu.dot - 1).toUInt8).address := by
  have column := column_toNat low high
  have fine := fineColumn_toNat ppu (ppu.dot - 1).toUInt8
  have low := UInt16.lt_iff_toNat_lt.1 low
  have high : ppu.dot.toNat ≤ 256 := UInt16.le_iff_toNat_le.1 high
  rw [show (ppu.dot - 1).toUInt8.toNat = ppu.dot.toNat - 1 by omega] at fine
  have row := @shownRow_kept source line ppu.dot.toNat (by omega)
  unfold Shows at *
  rw [row]
  simp only [advanceColumn, background, Bool.true_and, decide_eq_true_eq]
  split
  · rename_i last
    rw [last] at fine
    rw [shownColumn_next low high fine.symm]
    exact nextColumn_scrolled h
  · rename_i more
    rw [shownColumn_kept hf (fun _ _ he => more (UInt8.toNat_inj.1 (fine.trans he))) (by omega)]
    exact h

/-- A dot of the picture moves the address on to what the next one shows. -/
theorem shows_scrolled (hp : ppu.phase = .render) (shown : ppu.mask.isRendering = true)
    (hf : ppu.fineX.toNat ≤ 7) (hs : ppu.nextAddress < addressEnd)
    (hy : ppu.nextAddress.toNat / 2 ^ 5 % 2 ^ 5 ≤ 29)
    (h : Shows ppu.nextAddress ppu.fineX.toNat line ppu.dot.toNat ppu.address) :
    Shows ppu.nextAddress ppu.fineX.toNat line (ppu.dot.toNat + 1) ppu.scrolled := by
  have background : ppu.mask.showsBackground = true := (Bool.and_eq_true_iff.1 shown).1
  simp only [scrolled, hp, shown, background, Bool.and_true, decide_eq_true_eq, Bool.and_eq_true]
  split
  · rename_i visible
    exact shows_advanced background hf visible.1 visible.2 h
  rename_i hidden
  have hidden : ¬(0 < ppu.dot.toNat ∧ ppu.dot.toNat ≤ 256) := fun hd =>
    hidden ⟨UInt16.lt_iff_toNat_lt.2 hd.1, UInt16.le_iff_toNat_le.2 hd.2⟩
  unfold Shows at *
  split
  · rename_i row
    have row : ppu.dot.toNat = 257 := congrArg UInt16.toNat row
    rw [shownColumn_kept hf (by omega) (by omega)]
    rw [row] at h ⊢
    rw [shownRow_next]
    exact nextRow_scrolled h
  rename_i row
  have row : ppu.dot.toNat ≠ 257 := fun hd => row (UInt16.toNat_inj.1 hd)
  rw [shownRow_kept row]
  split
  · rename_i column
    have column : ppu.dot.toNat = 258 := congrArg UInt16.toNat column
    rw [column] at h ⊢
    rw [shownColumn_copied]
    exact copyHorizontal_scrolled h (scrolled_of hs hy)
  · rename_i column
    have column : ppu.dot.toNat ≠ 258 := fun hd => column (UInt16.toNat_inj.1 hd)
    rw [shownColumn_kept hf (by omega) column]
    exact h

/-- The end of a line is the start of the next one. -/
theorem shows_nextLine (hf : fine ≤ 7) :
    Shows source fine line 341 address ↔ Shows source fine (line + 1) 0 address := by
  have row : shownRow source line 341 = shownRow source (line + 1) 0 := by
    unfold shownRow
    rw [if_neg (by decide), if_pos (by decide)]
    omega
  have column : shownColumn source fine 341 = shownColumn source fine 0 := by
    have : (fine + min (0 - 1) 256) / 8 = 0 := by omega
    unfold shownColumn
    rw [if_neg (by decide), if_pos (by decide), this]
  unfold Shows
  rw [row, column]

/-! ## The whole track -/

theorem tracks_preRender (h : rank < 341) :
    Tracks source fine rank address ↔ Approaches source rank address := by
  unfold Tracks
  rw [if_pos h]

theorem tracks_line (hd : dot < 341) :
    Tracks source fine ((line + 1) * 341 + dot) address ↔ Shows source fine line dot address := by
  have hline : ((line + 1) * 341 + dot) / 341 - 1 = line := by omega
  have hdot : ((line + 1) * 341 + dot) % 341 = dot := by omega
  unfold Tracks
  rw [if_neg (by omega), hline, hdot]

theorem tracks_picture : Tracks source fine 341 address ↔ Shows source fine 0 0 address :=
  @tracks_line source address fine 0 0 (by decide)

/-- What a program has set before an idle frame. -/
structure Scrolls (ppu : Ppu) : Prop where
  shown : ppu.mask.isRendering = true
  fine_le : ppu.fineX.toNat ≤ 7
  source_lt : ppu.nextAddress < addressEnd
  /-- The program scrolls to a row of tiles and not to attributes. -/
  row_le : ppu.nextAddress.toNat / 2 ^ 5 % 2 ^ 5 ≤ 29

/-- A dot keeps the address on its track. -/
theorem Scrolls.tracks (s : ppu.Scrolls) (placed : ppu.Placed)
    (h : Tracks ppu.nextAddress ppu.fineX.toNat ppu.beam.rank ppu.address)
    (picture : ppu.beam.rank < 241 * 341) :
    Tracks ppu.nextAddress ppu.fineX.toNat (nextRank ppu.leavesOut ppu.beam.rank)
      ppu.scrolled := by
  have hd := placed.dot_le
  have inFrame : ppu.beam.rank + 1 ≠ dotsPerFrame := by
    simp only [dotsPerFrame, dotsPerLine]
    omega
  cases hp : ppu.phase with
  | preRender =>
    have hrank := preRender_rank hp
    rw [hrank] at h inFrame
    rw [tracks_preRender (by omega)] at h
    have moved := approaches_scrolled hp s.shown s.source_lt h
    -- The line ends at dot 339 or 340, behind both copies.
    have enters : 339 ≤ ppu.dot.toNat →
        Tracks ppu.nextAddress ppu.fineX.toNat 341 ppu.scrolled := fun late =>
      tracks_picture.2 (moved.shows (by omega) s.source_lt s.row_le s.fine_le)
    rw [hrank]
    unfold nextRank
    rw [if_neg inFrame]
    split
    · exact enters (by simp only [dotsPerLine] at *; omega)
    · by_cases last : ppu.dot.toNat = 340
      · rw [last]
        exact enters (by omega)
      · exact (tracks_preRender (by omega)).2 moved
  | render =>
    have hrank := line_rank (by simp [hp] : ppu.phase ≠ .preRender)
    rw [hrank, tracks_line (by omega)] at h
    have moved := shows_scrolled hp s.shown s.fine_le s.source_lt s.row_le h
    rw [nextRank_succ inFrame fun _ => by simp only [dotsPerLine]; omega, hrank]
    by_cases last : ppu.dot.toNat = 340
    · have next : (ppu.scanline.toNat + 1) * 341 + ppu.dot.toNat + 1 =
          (ppu.scanline.toNat + 1 + 1) * 341 + 0 := by omega
      rw [last, shows_nextLine s.fine_le] at moved
      rw [next]
      exact (tracks_line (by decide)).2 moved
    · rw [Nat.add_assoc]
      exact (tracks_line (by omega)).2 moved
  | postRender =>
    have := placed.postRender_line hp
    have hrank := line_rank (by simp [hp] : ppu.phase ≠ .preRender)
    omega
  | verticalBlank =>
    have := placed.verticalBlank_line hp
    have hrank := line_rank (by simp [hp] : ppu.phase ≠ .preRender)
    omega

end Famicom.Ppu
