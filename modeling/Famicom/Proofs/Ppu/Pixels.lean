import Famicom.Proofs.Ppu.Walk

/-!
# Pixels

What a dot of the picture mixes from the background and the sprites.
-/

namespace Famicom.Ppu

/-- A dot of the picture, in column `x`, has mixed a background and a sprite pixel. -/
structure Mixes (memory : PictureMemory) (board : Board) (x : UInt8) (ppu after : Ppu)
    (background : UInt8) (sprite : Option SpritePixel) : Prop where
  background_eq : ppu.backgroundPixel memory board x = .ok background
  sprite_eq : ppu.spritePixel memory board x = .ok sprite
  status : after.status = (ppu.latchHit background sprite).status
  screen : ppu.variant = .full → after.screen[ppu.scanline.toNat * screenWidth + x.toNat]? =
    some (resolve ppu.mask memory (compose background sprite))

variable {memory : PictureMemory} {board : Board} {ppu after : Ppu} {value : Unit} {x : UInt8}

theorem plot_pixel {colour : UInt32} (h : plot x colour ppu = .ok value after) :
    after.status = ppu.status ∧
      after.screen[ppu.scanline.toNat * screenWidth + x.toNat]? = some colour := by
  unfold plot at h
  dsimp only at h
  split at h <;> cases h
  refine ⟨rfl, ?_⟩
  rw [Vector.getElem?_set_self ‹_›]

theorem firstSpritePixel_congr {p q : Ppu} (oam : p.oam = q.oam) (control : p.control = q.control)
    (scanline : p.scanline = q.scanline) (numbers : List UInt8) :
    p.firstSpritePixel memory board x numbers = q.firstSpritePixel memory board x numbers := by
  induction numbers with
  | nil => rfl
  | cons number rest ih =>
    have same : p.sprite? number = q.sprite? number := by
      unfold sprite?
      rw [oam]
    rw [firstSpritePixel, firstSpritePixel, same, control, scanline, ih]

theorem spritePixel_undrawn : Undrawn fun ppu => ppu.spritePixel memory board x := by
  intro ppu address status screen
  have same := @firstSpritePixel_congr memory board x
    { ppu with address := address, status := status, screen := screen } ppu rfl rfl rfl
    ppu.lineSprites
  dsimp only [spritePixel]
  rw [same]

theorem drawPixel_mixes (h : drawPixel memory board ppu = .ok value after) :
    ∃ background sprite, Mixes memory board (ppu.dot - 1).toUInt8 ppu after background sprite := by
  generalize hx : (ppu.dot - 1).toUInt8 = x
  unfold drawPixel at h
  rw [bind_ok (get_ok ppu), hx] at h
  obtain ⟨background, looked, hb, h⟩ := of_bind_ok h
  obtain ⟨hb, same⟩ := inspect_eq hb
  rw [same, bind_ok (modify_ok _ _)] at h
  obtain ⟨sprite, searched, hs, h⟩ := of_bind_ok h
  obtain ⟨hs, same⟩ := inspect_eq hs
  rw [same] at h
  rw [bind_ok (modify_ok _ _), bind_ok (get_ok _)] at h
  have kept : ∀ {γ : Type} {view : Ppu → γ}, Undrawn view →
      view ((ppu.advanceColumn x).latchHit background sprite) = view ppu := fun hv =>
    (latchHit_keeps hv _ background sprite).trans (advanceColumn_keeps hv ppu x)
  have latched : ((ppu.advanceColumn x).latchHit background sprite).status =
      (ppu.latchHit background sprite).status := by
    unfold advanceColumn latchHit
    split <;> split <;> rfl
  have mask := kept (show Undrawn mask from fun _ _ _ _ => rfl)
  have variant := kept (show Undrawn variant from fun _ _ _ _ => rfl)
  have line := kept (show Undrawn scanline from fun _ _ _ _ => rfl)
  rw [advanceColumn_keeps spritePixel_undrawn ppu x] at hs
  rw [variant] at h
  split at h
  · rw [bind_ok (get_ok _), mask] at h
    obtain ⟨status, screen⟩ := plot_pixel h
    rw [line] at screen
    exact ⟨background, sprite, hb, hs, status.trans latched, fun _ => screen⟩
  · cases h
    exact ⟨background, sprite, hb, hs, latched, fun full => absurd full ‹_›⟩

theorem renderEffect_mixes (low : 0 < ppu.dot) (high : ppu.dot ≤ visibleDots)
    (h : renderEffect memory board ppu = .ok value after) :
    ∃ background sprite, Mixes memory board (ppu.dot - 1).toUInt8 ppu after background sprite := by
  unfold renderEffect at h
  rw [bind_ok (get_ok ppu), if_pos (by simp [low, high])] at h
  exact drawPixel_mixes h

/-- The column of a visible dot. -/
theorem visible_column {x : Nat} (hx : x < 256) (hd : ppu.dot.toNat = x + 1) :
    0 < ppu.dot ∧ ppu.dot ≤ visibleDots ∧ (ppu.dot - 1).toUInt8 = UInt8.ofNat x := by
  have low : 0 < ppu.dot := by
    rw [UInt16.lt_iff_toNat_lt, hd]
    exact Nat.succ_pos x
  have high : ppu.dot ≤ visibleDots := by
    rw [UInt16.le_iff_toNat_le, hd]
    exact hx
  refine ⟨low, high, UInt8.toNat_inj.1 ?_⟩
  have := column_toNat low high
  have place : (UInt8.ofNat x).toNat = x := UInt8.toNat_ofNat_of_lt' hx
  omega

/-- What a visible dot mixes. -/
theorem tick_mixes {x : Nat} (hp : ppu.phase = .render) (hx : x < 256)
    (hd : ppu.dot.toNat = x + 1) (ht : tick memory board ppu = .ok value after) :
    ∃ background sprite, Mixes memory board (UInt8.ofNat x) ppu after background sprite := by
  obtain ⟨low, high, column⟩ := visible_column hx hd
  rw [tick_eq, hp] at ht
  obtain ⟨_, moved, hdot, hcount⟩ := of_bind_ok ht
  obtain ⟨rfl, -⟩ := countDot_eq hcount
  obtain ⟨_, drawn, hdraw, hend⟩ := of_bind_ok hdot
  obtain ⟨background, sprite, mixes⟩ := renderEffect_mixes low high hdraw
  rw [column] at mixes
  have status : Unmoved status := fun _ _ _ _ _ _ _ => rfl
  have screen : Unmoved screen := fun _ _ _ _ _ _ _ => rfl
  refine ⟨background, sprite, mixes.background_eq, mixes.sprite_eq, ?_, ?_⟩
  · exact (lineEnd_keeps status drawn _ _ hend).trans mixes.status
  · intro full
    show moved.screen[_]? = _
    rw [lineEnd_keeps screen drawn _ _ hend]
    exact mixes.screen full

end Famicom.Ppu
