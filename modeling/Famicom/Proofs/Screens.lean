import Famicom.Proofs.Machine

/-!
# Screens of twins

Relations of two screens that no dot breaks. Whatever two full pipelines showed before, they show the
same after a frame: each place is drawn once in the dots of the longest frame.
-/

namespace Famicom.Machine

open Ppu (Beam Moves drawRank dotsPerFrame)

theorem anyScreens_shown : Shown fun _ _ => True :=
  ⟨fun _ _ _ => trivial, fun _ => trivial⟩

theorem Shown.and {first second : Beam → Beam → Prop} (hf : Shown first) (hs : Shown second) :
    Shown fun b c => first b c ∧ second b c :=
  ⟨fun h hb hc => ⟨hf.dot h.1 hb hc, hs.dot h.2 hb hc⟩, fun h => ⟨hf.calm h.1, hs.calm h.2⟩⟩

/-- Beams that show the same. -/
structure SameScreen (b c : Beam) : Prop where
  variant : b.variant = c.variant
  screen : b.screen = c.screen

theorem sameScreen_shown : Shown SameScreen where
  dot h hb hc := by
    constructor
    · rw [hb.variant, hc.variant, h.variant]
    · rw [hb.screen, hc.screen, h.variant, h.screen]
  calm h := ⟨h.variant, h.screen⟩

/-- The second beam has never shown anything. -/
structure DarkScreen (c : Beam) : Prop where
  variant : c.variant = .light
  screen : c.screen = Vector.replicate _ 0

theorem darkScreen_shown : Shown fun _ c => DarkScreen c where
  dot h _ hc := by
    refine ⟨hc.variant.trans h.variant, ?_⟩
    rw [hc.screen, h.variant]
    exact h.screen
  calm h := ⟨h.variant, h.screen⟩

/-! ## A frame repaints -/

variable {place : Fin (Ppu.screenWidth * Ppu.screenHeight)} {rank next : Nat}

/-- The most dots that pass before a place is drawn. -/
def wait (rank : Nat) (place : Fin (Ppu.screenWidth * Ppu.screenHeight)) : Nat :=
  if rank ≤ drawRank place then drawRank place - rank else drawRank place + dotsPerFrame - rank

theorem wait_lt (h : rank < dotsPerFrame) : wait rank place < dotsPerFrame := by
  have := Ppu.drawRank_bounds place
  simp only [wait, dotsPerFrame, Ppu.dotsPerLine] at *
  split <;> omega

theorem wait_moves (h : rank < dotsPerFrame) (hm : Moves rank next)
    (hne : rank ≠ drawRank place) : wait next place + 1 ≤ wait rank place := by
  have := Ppu.drawRank_bounds place
  simp only [wait, Moves, dotsPerFrame, Ppu.dotsPerLine] at *
  split <;> split <;> omega

/-- Beams of one variant. Where full ones differ, the place will be drawn within a frame of the dot
`start`. -/
structure Repainting (start : Nat) (b c : Beam) : Prop where
  variant : b.variant = c.variant
  places : b.variant = .full → ∀ place : Fin (Ppu.screenWidth * Ppu.screenHeight),
    b.screen.get place = c.screen.get place ∨
      b.totalDots.toNat + wait b.rank place < start + dotsPerFrame

theorem repainting_shown (start : Nat) : Shown (Repainting start) where
  dot {b c b' c' strokes} h hb hc := by
    refine ⟨?_, fun full place => ?_⟩
    · rw [hb.variant, hc.variant, h.variant]
    · have hfull : b.variant = .full := hb.variant.symm.trans full
      rw [hb.screen, hc.screen, ← h.variant, hfull]
      rcases h.places hfull place with same | later
      · exact .inl (Ppu.paint_get_congr same strokes)
      · by_cases now : b.rank = drawRank place
        · obtain ⟨stroke, hs, rfl⟩ := hb.drawn place now
          exact .inl (Ppu.paint_get_of_mem _ _ hs)
        · have := wait_moves hb.rank_lt hb.rank now
          have := hb.total
          exact .inr (by omega)
  calm h := ⟨h.variant, h.places⟩

theorem repainting_start {b c : Beam} (hv : b.variant = c.variant) (hr : b.rank < dotsPerFrame) :
    Repainting b.totalDots.toNat b c :=
  ⟨hv, fun _ _ => .inr (Nat.add_lt_add_left (wait_lt hr) _)⟩

/-- Beams of one variant, which show the same once the picture is settled, if they draw any. -/
structure Seen (variant : Ppu.Variant) (settled : Prop) (b c : Beam) : Prop where
  left : b.variant = variant
  right : c.variant = variant
  screen : settled → variant = .full → b.screen = c.screen

theorem seen_shown (variant : Ppu.Variant) (settled : Prop) : Shown (Seen variant settled) where
  dot h hb hc := by
    refine ⟨hb.variant.trans h.left, hc.variant.trans h.right, ?_⟩
    intro hs full
    rw [hb.screen, hc.screen, h.left, h.right, h.screen hs full]
  calm h := ⟨h.left, h.right, h.screen⟩

theorem Repainting.settled {start : Nat} {b c : Beam} (h : Repainting start b c)
    (ht : start + dotsPerFrame ≤ b.totalDots.toNat) (full : b.variant = .full) :
    b.screen = c.screen := by
  refine Vector.ext fun i hi => ?_
  rcases h.places full ⟨i, hi⟩ with same | later
  · exact same
  · omega

end Famicom.Machine
