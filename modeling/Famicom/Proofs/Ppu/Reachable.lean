import Famicom.Proofs.Image
import Famicom.Proofs.Layout
import Famicom.Proofs.Ppu.Schedule

/-!
# Reachable picture units

Whatever is done to a picture unit, its registers, its beam and its list of sprites keep their
ranges.
-/

namespace Famicom

namespace Video

variable {video after : Video} {value : Unit}

theorem readData_tame {ppu moved : Ppu} {memory : PictureMemory} {board : Board} {data : UInt8}
    (h : ppu.Tame) (hr : ppu.readData memory board = .ok (data, moved)) : moved.Tame := by
  obtain ⟨byte, -, result⟩ := Ppu.of_readData_ok hr
  split at result <;> cases result
  · exact Ppu.stepAddress_offBeam.tame _ ((Ppu.fillBuffer_offBeam byte).tame ppu h)
  · exact Ppu.stepAddress_offBeam.tame ppu h

/-- No access leaves the ranges, whatever it writes. -/
theorem serve_tame (h : video.ppu.Tame) (access : Access)
    (hs : serve access video = .ok value after) : after.ppu.Tame := by
  cases access with
  | readData =>
    unfold serve at hs
    dsimp only at hs
    split at hs <;> cases hs
    exact readData_tame h ‹_›
  | writeData written =>
    unfold serve at hs
    dsimp only at hs
    split at hs <;> cases hs
    exact Ppu.stepAddress_offBeam.tame video.ppu h
  | writeControl written =>
    cases hs
    exact (Ppu.writeControl_offBeam written).tame video.ppu h
  | writeMask written =>
    cases hs
    exact (Ppu.writeMask_offBeam written).tame video.ppu h
  | readStatus =>
    cases hs
    exact Ppu.readStatus_offBeam.tame video.ppu h
  | writeOamAddress written =>
    cases hs
    exact (Ppu.writeOamAddress_offBeam written).tame video.ppu h
  | readOam =>
    cases hs
    exact h
  | writeOam written =>
    cases hs
    exact (Ppu.writeOam_offBeam written).tame video.ppu h
  | writeScroll written =>
    cases hs
    exact (Ppu.writeScroll_offBeam written).tame video.ppu h
  | writeAddress written =>
    cases hs
    exact (Ppu.writeAddress_offBeam written).tame video.ppu h
  | transfer page =>
    cases hs
    exact (Ppu.transfer_offBeam page).tame video.ppu h
  | takeInterrupt =>
    cases hs
    exact { h with }

end Video

namespace Ppu

variable {ppu target source after : Ppu} {memory : PictureMemory} {board : Board}

/-- The picture units that can be made from new ones. Dots and accesses may find any memory and any
board; states come from picture units of this kind, and what follows one in a buffer does not
matter. -/
inductive Reachable : Ppu → Prop
  | powerOn (variant : Variant) : Reachable (powerOn variant)
  | dot {ppu after : Ppu} {memory : PictureMemory} {board : Board} : Reachable ppu →
      tick memory board ppu = .ok () after → Reachable after
  | serve {video after : Video} (access : Access) : Reachable video.ppu →
      Video.serve access video = .ok () after → Reachable after.ppu
  | reset {ppu : Ppu} : Reachable ppu → Reachable ppu.reset
  | load {target source after : Ppu} {rest left : List UInt8} : Reachable target →
      Reachable source → layout.load (layout.encode source ++ rest) target = .ok left after →
      Reachable after
  | clone {target source : Ppu} : Reachable target → Reachable source →
      Reachable (target.copyFrom source)

/-- The ranges, and the sprites of the line in the order of their numbers. -/
structure Ranged (ppu : Ppu) : Prop extends InRange ppu where
  ordered : ppu.lineSprites.Pairwise (· < ·)

theorem reset_ranged (ppu : Ppu) : ppu.reset.Ranged where
  toInRange := ppu.reset_inRange
  ordered := .nil

/-! ## The list of sprites -/

theorem findSprites_ordered (ppu : Ppu) (number room : Nat) :
    (ppu.findSprites number room).Pairwise (· < ·) := by
  fun_induction findSprites ppu number room with
  | case1 => exact .nil
  | case2 number room h onLine ih =>
    refine .cons (fun found hf => ?_) ih
    rw [UInt8.lt_iff_toNat_lt, UInt8.toNat_ofNat_of_lt' (Nat.lt_trans h (by decide))]
    exact ppu.findSprites_le (number + 1) room found hf
  | case3 number room h onLine ih => exact ih
  | case4 => exact .nil

/-! ## Each kind of work -/

theorem tick_ranged (h : ppu.Ranged) (ht : tick memory board ppu = .ok () after) :
    after.Ranged := by
  have steps := tick_steps h.toPlaced ht
  refine ⟨(tick_tame h.tame ht).inRange steps.toPlaced, ?_⟩
  rw [steps.sprites]
  split
  · exact ppu.findSprites_ordered _ _
  · exact h.ordered

theorem serve_ranged {video after : Video} (h : video.ppu.Ranged) (access : Access)
    (hs : Video.serve access video = .ok () after) : after.ppu.Ranged := by
  have same := Video.serve_course access hs
  refine ⟨(Video.serve_tame h.tame access hs).inRange
    (Video.placed_of_course same h.toPlaced), ?_⟩
  rw [show after.ppu.lineSprites = video.ppu.lineSprites from congrArg Course.lineSprites same]
  exact h.ordered

/-- The variant and the screen have no ranges. -/
theorem load_ranged (hs : source.Ranged) {rest left : List UInt8}
    (hl : layout.load (layout.encode source ++ rest) target = .ok left after) : after.Ranged := by
  rw [(layout_adopts hs.room).all.load target rest] at hl
  cases hl
  exact { hs with }

theorem copyFrom_ranged (target : Ppu) (hs : source.Ranged) : (target.copyFrom source).Ranged :=
  { hs with }

theorem Reachable.tame (h : Reachable ppu) : ppu.Tame := by
  induction h with
  | powerOn variant => exact (powerOn_inRange variant).tame
  | dot _ ht ih => exact tick_tame ih ht
  | serve access _ hs ih => exact Video.serve_tame ih access hs
  | reset _ _ => exact (reset_inRange _).tame
  | @load target source after rest left _ _ hl _ ih =>
    rw [(layout_adopts ih.room).all.load target rest] at hl
    cases hl
    exact { ih with }
  | clone _ _ _ ih => exact { ih with }

/-- The ranges hold in every picture unit that was powered on, whatever was done to it since: dots,
accesses, resets, and states and copies of others taken over. -/
theorem reachable_ranged (h : Reachable ppu) : ppu.Ranged := by
  induction h with
  | powerOn variant => exact reset_ranged (.powerOn variant)
  | dot _ ht ih => exact tick_ranged ih ht
  | serve access _ hs ih => exact serve_ranged ih access hs
  | reset _ _ => exact reset_ranged _
  | load _ _ hl _ ih => exact load_ranged ih hl
  | clone _ _ _ ih => exact copyFrom_ranged _ ih

/-- Three writes take the registers to the ends of their ranges. -/
theorem scrolled_ranged : ∃ ppu : Ppu, Reachable ppu ∧ ppu.nextAddress = 0x7FFF ∧ ppu.fineX = 7 ∧
    ppu.Ranged := by
  obtain ⟨board, -⟩ := @Board.ofCartridge?_isSome Image.polling (.inl rfl)
  have column : Reachable ((powerOn .full).writeScroll 0xFF) :=
    @Reachable.serve ⟨powerOn .full, .fresh, board⟩ _ (.writeScroll 0xFF) (.powerOn .full) rfl
  have row : Reachable (((powerOn .full).writeScroll 0xFF).writeScroll 0xFF) :=
    @Reachable.serve ⟨_, .fresh, board⟩ _ (.writeScroll 0xFF) column rfl
  have table : Reachable ((((powerOn .full).writeScroll 0xFF).writeScroll 0xFF).writeControl 0xFF) :=
    @Reachable.serve ⟨_, .fresh, board⟩ _ (.writeControl 0xFF) row rfl
  exact ⟨_, table, by decide, by decide, reachable_ranged table⟩

end Ppu

end Famicom
