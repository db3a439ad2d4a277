import Famicom.Proofs.Ppu.Dot
import Famicom.Proofs.Ppu.Programmed

/-!
# What a dot moves on

The place of the beam behind a dot, the parity of the frame, the count of dots, the sprites of the
next line and the address, in every state whose beam is on a line of its phase. A dot that answers
moves all of them in one way, whatever is drawn.
-/

namespace Famicom.Ppu

/-- What drawing leaves to the end of a dot. -/
structure Course where
  phase : Phase
  scanline : UInt16
  dot : UInt16
  evenFrame : Bool
  totalDots : UInt64
  lineSprites : List UInt8

def course (ppu : Ppu) : Course where
  phase := ppu.phase
  scanline := ppu.scanline
  dot := ppu.dot
  evenFrame := ppu.evenFrame
  totalDots := ppu.totalDots
  lineSprites := ppu.lineSprites

/-- The sprites that an evaluation on this line finds. -/
def foundSprites (ppu : Ppu) : List UInt8 :=
  ppu.findSprites (ppu.oamAddress.toNat / 4) spritesPerLine

theorem foundSprites_undrawn : Undrawn foundSprites := fun ppu address status screen =>
  findSprites_congr (p := { ppu with address := address, status := status, screen := screen })
    (q := ppu) rfl rfl rfl _ _

theorem course_undrawn : Undrawn course := fun _ _ _ _ => rfl

variable {memory : PictureMemory} {board : Board} {ppu after : Ppu} {value : Unit}

/-! ## The ends of the phases -/

theorem addCount16_eq {a b sum : UInt16} (h : addCount16 a b = .ok sum) : sum = a + b := by
  unfold addCount16 at h
  split at h <;> cases h
  rfl

theorem nextLine_eq (h : nextLine ppu = .ok value after) :
    after = { ppu with scanline := ppu.scanline + 1, dot := 0 } := by
  unfold nextLine at h
  split at h
  · rename_i scanline hs
    cases h
    rw [addCount16_eq hs]
  · cases h

theorem preRenderDot_course (ppu : Ppu) : ppu.preRenderDot.course =
    if ppu.lastPreRenderDot ≤ ppu.dot then
      { ppu.course with phase := .render, dot := 0, scanline := 0 }
    else { ppu.course with dot := ppu.dot + 1 } := by
  have same := preRenderEffect_keeps course_undrawn ppu
  have hdot : ppu.preRenderEffect.dot = ppu.dot := congrArg Course.dot same
  have hlast : ppu.preRenderEffect.lastPreRenderDot = ppu.lastPreRenderDot :=
    preRenderEffect_keeps (fun _ _ _ _ => rfl) ppu
  rw [← hdot, ← hlast, ← same]
  dsimp only [preRenderDot]
  split <;> rfl

theorem renderDot_course (h : renderDot memory board ppu = .ok value after) : after.course =
    if lastDot ≤ ppu.dot then
      { ppu.course with
        phase := if visibleLines ≤ ppu.scanline + 1 then .postRender else ppu.phase
        scanline := ppu.scanline + 1
        dot := 0
        lineSprites := ppu.foundSprites }
    else { ppu.course with dot := ppu.dot + 1 } := by
  obtain ⟨_, drawn, hdraw, h⟩ := of_bind_ok h
  have same := renderEffect_keeps course_undrawn memory board ppu _ _ hdraw
  have found := renderEffect_keeps foundSprites_undrawn memory board ppu _ _ hdraw
  have hdot : drawn.dot = ppu.dot := congrArg Course.dot same
  have hline : drawn.scanline = ppu.scanline := congrArg Course.scanline same
  have hphase : drawn.phase = ppu.phase := congrArg Course.phase same
  rw [bind_ok (get_ok drawn)] at h
  rw [← same, ← found, ← hdot, ← hline, ← hphase]
  split at h
  · rename_i last
    rw [if_pos last]
    rw [bind_ok (modify_ok _ _)] at h
    obtain ⟨_, below, hnext, h⟩ := of_bind_ok h
    rw [nextLine_eq hnext, bind_ok (get_ok _)] at h
    split at h
    · rename_i bottom
      cases h
      rw [if_pos (show visibleLines ≤ drawn.scanline + 1 from bottom)]
      rfl
    · rename_i above
      cases h
      rw [if_neg (show ¬visibleLines ≤ drawn.scanline + 1 from above)]
      rfl
  · rename_i more
    cases h
    rw [if_neg more]
    rfl

theorem postRenderDot_course (h : postRenderDot ppu = .ok value after) : after.course =
    if lastDot ≤ ppu.dot then
      { ppu.course with phase := .verticalBlank, scanline := ppu.scanline + 1, dot := 0 }
    else { ppu.course with dot := ppu.dot + 1 } := by
  unfold postRenderDot at h
  rw [bind_ok (get_ok ppu)] at h
  split at h
  · obtain ⟨_, below, hnext, h⟩ := of_bind_ok h
    cases nextLine_eq hnext
    cases h
    rw [if_pos ‹_›]
    rfl
  · cases h
    rw [if_neg ‹_›]
    rfl

theorem verticalBlankDot_course (h : verticalBlankDot ppu = .ok value after) : after.course =
    if lastDot ≤ ppu.dot then
      if frameLines ≤ ppu.scanline + 1 then
        { ppu.course with phase := .preRender, scanline := 0, dot := 0, evenFrame := !ppu.evenFrame }
      else { ppu.course with scanline := ppu.scanline + 1, dot := 0 }
    else { ppu.course with dot := ppu.dot + 1 } := by
  have same : ppu.verticalBlankEffect.course = ppu.course := by
    unfold verticalBlankEffect
    split <;> rfl
  have hdot : ppu.verticalBlankEffect.dot = ppu.dot := congrArg Course.dot same
  have hline : ppu.verticalBlankEffect.scanline = ppu.scanline := congrArg Course.scanline same
  have heven : ppu.verticalBlankEffect.evenFrame = ppu.evenFrame := congrArg Course.evenFrame same
  unfold verticalBlankDot at h
  rw [bind_ok (modify_ok _ _), bind_ok (get_ok _)] at h
  rw [← same, ← hdot, ← hline, ← heven]
  split at h
  · rename_i last
    rw [if_pos last]
    obtain ⟨_, below, hnext, h⟩ := of_bind_ok h
    rw [nextLine_eq hnext, bind_ok (get_ok _)] at h
    split at h
    · rename_i bottom
      cases h
      rw [if_pos (show frameLines ≤ ppu.verticalBlankEffect.scanline + 1 from bottom)]
      rfl
    · rename_i above
      cases h
      rw [if_neg (show ¬frameLines ≤ ppu.verticalBlankEffect.scanline + 1 from above)]
      rfl
  · rename_i more
    cases h
    rw [if_neg more]
    rfl

/-! ## Any dot -/

/-- Whether the last dot before the picture is left out, as the registers stand. -/
def leavesOut (ppu : Ppu) : Bool := !ppu.evenFrame && ppu.mask.isRendering

/-- The dot behind a line of the picture, which chooses the sprites of the next one. -/
def endsLine (ppu : Ppu) : Bool := ppu.phase = .render && ppu.dot = lastDot

/-- Where the walk goes from a rank, and whether it leaves out the last dot before the picture. -/
def nextRank (short : Bool) (rank : Nat) : Nat :=
  if rank + 1 = dotsPerFrame then 0
  else if short ∧ rank + 2 = dotsPerLine then dotsPerLine
  else rank + 1

/-- What a dot that answers moved on, but for the count of dots. -/
structure Steps (ppu after : Ppu) : Prop extends Placed after where
  rank : after.beam.rank = nextRank ppu.leavesOut ppu.beam.rank
  parity : after.evenFrame =
    if ppu.beam.rank + 1 = dotsPerFrame then !ppu.evenFrame else ppu.evenFrame
  sprites : after.lineSprites = if ppu.endsLine then ppu.foundSprites else ppu.lineSprites

theorem nextRank_succ {short : Bool} {rank : Nat} (frame : rank + 1 ≠ dotsPerFrame)
    (line : short = true → rank + 2 ≠ dotsPerLine) : nextRank short rank = rank + 1 := by
  unfold nextRank
  rw [if_neg frame, if_neg fun h => line h.1 h.2]

theorem nextRank_leap {short : Bool} {rank : Nat} (hs : short = true)
    (line : rank + 2 = dotsPerLine) : nextRank short rank = dotsPerLine := by
  have frame : rank + 1 ≠ dotsPerFrame := by
    simp only [dotsPerLine, dotsPerFrame] at *
    omega
  unfold nextRank
  rw [if_neg frame, if_pos ⟨hs, line⟩]

/-- A dot inside a line. -/
theorem steps_along (h : ppu.Placed) (more : ppu.dot.toNat < 340)
    (kept : ppu.leavesOut = true → ppu.phase = .preRender → ppu.dot.toNat ≠ 339)
    (hc : after.course = { ppu.course with dot := ppu.dot + 1 }) : ppu.Steps after := by
  have hphase : after.phase = ppu.phase := congrArg Course.phase hc
  have hline : after.scanline = ppu.scanline := congrArg Course.scanline hc
  have hdot : after.dot = ppu.dot + 1 := congrArg Course.dot hc
  have hsucc := toNat_succ more
  have hbeam : after.beam.rank = ppu.beam.rank + 1 := by
    rw [← nextDot_rank more]
    unfold Beam.rank beam
    rw [hphase, hline, hdot]
  have notLast : ppu.endsLine = false := by
    have : ppu.dot ≠ lastDot := fun he => absurd (congrArg UInt16.toNat he) (Nat.ne_of_lt more)
    simp only [endsLine, this, decide_false, Bool.and_false]
  have hplace : (ppu.phase = .preRender ∧ ppu.beam.rank = ppu.dot.toNat) ∨
      ppu.beam.rank = (ppu.scanline.toNat + 1) * 341 + ppu.dot.toNat := by
    by_cases hp : ppu.phase = .preRender
    · exact .inl ⟨hp, preRender_rank hp⟩
    · exact .inr (line_rank hp)
  have inFrame : ppu.beam.rank + 1 ≠ dotsPerFrame := by
    simp only [dotsPerFrame, dotsPerLine]
    omega
  have inLine : ppu.leavesOut = true → ppu.beam.rank + 2 ≠ dotsPerLine := by
    intro short
    simp only [dotsPerLine]
    rcases hplace with ⟨hp, hrank⟩ | hrank
    · have := kept short hp
      omega
    · omega
  refine ⟨⟨?_, ?_⟩, ?_, ?_, ?_⟩
  · rw [UInt16.le_iff_toNat_le, hdot, hsucc]
    exact more
  · rw [hphase, hline]
    exact h.line
  · rw [hbeam, nextRank_succ inFrame inLine]
  · rw [if_neg inFrame]
    exact congrArg Course.evenFrame hc
  · rw [notLast, if_neg Bool.false_ne_true]
    exact congrArg Course.lineSprites hc

theorem lastPreRenderDot_toNat (ppu : Ppu) :
    ppu.lastPreRenderDot.toNat = if ppu.leavesOut then 339 else 340 := by
  unfold lastPreRenderDot leavesOut
  split <;> rfl

/-- The first dot of the picture. -/
theorem steps_intoPicture (hp : ppu.phase = .preRender)
    (last : ppu.lastPreRenderDot.toNat ≤ ppu.dot.toNat) (h : ppu.Placed)
    (hc : after.course = { ppu.course with phase := .render, dot := 0, scanline := 0 }) :
    ppu.Steps after := by
  have hphase : after.phase = .render := congrArg Course.phase hc
  have hline : after.scanline = 0 := congrArg Course.scanline hc
  have hdot : after.dot = 0 := congrArg Course.dot hc
  have hle := h.dot_le
  have hrank := preRender_rank hp
  have inFrame : ppu.beam.rank + 1 ≠ dotsPerFrame := by
    simp only [dotsPerFrame, dotsPerLine]
    omega
  refine ⟨⟨?_, ?_⟩, ?_, ?_, ?_⟩
  · rw [hdot]
    decide
  · rw [hphase, hline]
    exact (by decide : (0 : UInt16) < visibleLines)
  · have first : after.beam.rank = dotsPerLine := by
      rw [line_rank (by simp [hphase]), hline, hdot]
      rfl
    rw [first]
    by_cases left : ppu.dot.toNat = 339
    · have short : ppu.leavesOut = true := by
        rw [lastPreRenderDot_toNat] at last
        split at last
        · assumption
        · omega
      rw [nextRank_leap short (by rw [hrank, left]; rfl)]
    · have hbounds := ppu.lastPreRenderDot_bounds
      have inLine : ppu.beam.rank + 2 ≠ dotsPerLine := by
        simp only [dotsPerLine]
        omega
      rw [nextRank_succ inFrame fun _ => inLine, hrank]
      simp only [dotsPerLine]
      omega
  · rw [if_neg inFrame]
    exact congrArg Course.evenFrame hc
  · rw [show ppu.endsLine = false by simp [endsLine, hp], if_neg Bool.false_ne_true]
    exact congrArg Course.lineSprites hc

/-- The first dot of a line behind the picture's first. -/
theorem steps_down (hp : ppu.phase ≠ .preRender) (last : ppu.dot.toNat = 340)
    (hphase : after.phase ≠ .preRender) (hline : after.scanline = ppu.scanline + 1)
    (hdot : after.dot = 0) (holds : after.phase.Holds after.scanline)
    (heven : after.evenFrame = ppu.evenFrame) (below : ppu.scanline.toNat < 260)
    (found : after.lineSprites = if ppu.endsLine then ppu.foundSprites else ppu.lineSprites) :
    ppu.Steps after := by
  have hrank := line_rank hp
  have hsucc : (ppu.scanline + 1).toNat = ppu.scanline.toNat + 1 := toNat_succ (by omega)
  have inFrame : ppu.beam.rank + 1 ≠ dotsPerFrame := by
    simp only [dotsPerFrame, dotsPerLine]
    omega
  have inLine : ppu.beam.rank + 2 ≠ dotsPerLine := by
    simp only [dotsPerLine]
    omega
  refine ⟨⟨?_, holds⟩, ?_, ?_, found⟩
  · rw [hdot]
    decide
  · rw [nextRank_succ inFrame fun _ => inLine, line_rank hphase, hline, hdot, hsucc, hrank]
    simp only [UInt16.reduceToNat]
    omega
  · rw [if_neg inFrame, heven]

theorem preRenderDot_steps (h : ppu.Placed) (hp : ppu.phase = .preRender) :
    ppu.Steps ppu.preRenderDot := by
  have hc := preRenderDot_course ppu
  split at hc
  · exact steps_intoPicture hp (UInt16.le_iff_toNat_le.1 ‹_›) h hc
  · rename_i more
    rw [UInt16.le_iff_toNat_le, lastPreRenderDot_toNat] at more
    refine steps_along h ?_ (fun short _ => ?_) hc
    · split at more <;> omega
    · rw [if_pos short] at more
      omega

theorem renderDot_steps (h : ppu.Placed) (hp : ppu.phase = .render)
    (hd : renderDot memory board ppu = .ok value after) : ppu.Steps after := by
  have hc := renderDot_course hd
  have hline := h.render_line hp
  have hsucc : (ppu.scanline + 1).toNat = ppu.scanline.toNat + 1 := toNat_succ (by omega)
  split at hc
  · rename_i last
    have last := UInt16.le_antisymm h.dot last
    have hphase : after.phase = if visibleLines ≤ ppu.scanline + 1 then .postRender else ppu.phase :=
      congrArg Course.phase hc
    have hscan : after.scanline = ppu.scanline + 1 := congrArg Course.scanline hc
    have ends : ppu.endsLine = true := by
      simp only [endsLine, hp, last, decide_true, Bool.and_self]
    have found : after.lineSprites = if ppu.endsLine then ppu.foundSprites else ppu.lineSprites := by
      rw [if_pos ends]
      exact congrArg Course.lineSprites hc
    refine steps_down (by simp [hp]) (congrArg UInt16.toNat last) ?_ hscan (congrArg Course.dot hc)
      ?_ (congrArg Course.evenFrame hc) (by omega) found
    · rw [hphase]
      split
      · decide
      · simp [hp]
    · rw [hphase, hscan]
      split
      · rename_i bottom
        refine UInt16.le_antisymm ?_ bottom
        rw [UInt16.le_iff_toNat_le, hsucc]
        exact hline
      · rename_i above
        rw [hp]
        exact UInt16.not_le.1 above
  · rename_i more
    rw [UInt16.le_iff_toNat_le] at more
    exact steps_along h (Nat.lt_of_not_le more) (fun _ hpre => by simp [hp] at hpre) hc

theorem postRenderDot_steps (h : ppu.Placed) (hp : ppu.phase = .postRender)
    (hd : postRenderDot ppu = .ok value after) : ppu.Steps after := by
  have hc := postRenderDot_course hd
  have hline := h.postRender_line hp
  split at hc
  · rename_i last
    have last := UInt16.le_antisymm h.dot last
    have hphase : after.phase = .verticalBlank := congrArg Course.phase hc
    have hscan : after.scanline = ppu.scanline + 1 := congrArg Course.scanline hc
    have hl : ppu.scanline = visibleLines := UInt16.toNat_inj.1 hline
    refine steps_down (by simp [hp]) (congrArg UInt16.toNat last) (by simp [hphase]) hscan
      (congrArg Course.dot hc) ?_ (congrArg Course.evenFrame hc) (by omega) ?_
    · rw [hphase, hscan, hl]
      exact ⟨by decide, by decide⟩
    · rw [show ppu.endsLine = false by simp [endsLine, hp], if_neg Bool.false_ne_true]
      exact congrArg Course.lineSprites hc
  · rename_i more
    rw [UInt16.le_iff_toNat_le] at more
    exact steps_along h (Nat.lt_of_not_le more) (fun _ hpre => by simp [hp] at hpre) hc

/-- Behind the last dot of a frame the walk starts again. -/
theorem steps_around (hp : ppu.phase = .verticalBlank) (hl : ppu.scanline.toNat = 260)
    (last : ppu.dot.toNat = 340)
    (hc : after.course = { ppu.course with
      phase := .preRender, scanline := 0, dot := 0, evenFrame := !ppu.evenFrame }) :
    ppu.Steps after := by
  have hphase : after.phase = .preRender := congrArg Course.phase hc
  have hline : after.scanline = 0 := congrArg Course.scanline hc
  have hdot : after.dot = 0 := congrArg Course.dot hc
  have ends : ppu.beam.rank + 1 = dotsPerFrame := by
    rw [line_rank (by simp [hp]), hl, last]
    rfl
  refine ⟨⟨?_, ?_⟩, ?_, ?_, ?_⟩
  · rw [hdot]
    decide
  · rw [hphase]
    exact hline
  · rw [preRender_rank hphase, hdot, nextRank, if_pos ends]
    rfl
  · rw [if_pos ends]
    exact congrArg Course.evenFrame hc
  · rw [show ppu.endsLine = false by simp [endsLine, hp], if_neg Bool.false_ne_true]
    exact congrArg Course.lineSprites hc

theorem verticalBlankDot_steps (h : ppu.Placed) (hp : ppu.phase = .verticalBlank)
    (hd : verticalBlankDot ppu = .ok value after) : ppu.Steps after := by
  have hc := verticalBlankDot_course hd
  obtain ⟨low, high⟩ := h.verticalBlank_line hp
  have hsucc : (ppu.scanline + 1).toNat = ppu.scanline.toNat + 1 := toNat_succ (by omega)
  split at hc
  · rename_i last
    have last := congrArg UInt16.toNat (UInt16.le_antisymm h.dot last)
    split at hc
    · rename_i bottom
      rw [UInt16.le_iff_toNat_le, hsucc] at bottom
      exact steps_around hp (Nat.le_antisymm (by omega) (Nat.le_of_succ_le_succ bottom)) last hc
    · rename_i above
      rw [UInt16.le_iff_toNat_le, hsucc] at above
      have below : ppu.scanline.toNat + 1 < 261 := Nat.lt_of_not_le above
      have hphase : after.phase = .verticalBlank := (congrArg Course.phase hc).trans hp
      have hscan : after.scanline = ppu.scanline + 1 := congrArg Course.scanline hc
      refine steps_down (by simp [hp]) last (by simp [hphase]) hscan (congrArg Course.dot hc) ?_
        (congrArg Course.evenFrame hc) (by omega) ?_
      · rw [hphase, hscan]
        refine ⟨UInt16.le_iff_toNat_le.2 ?_, UInt16.lt_iff_toNat_lt.2 ?_⟩
        · rw [hsucc]
          exact Nat.le_succ_of_le low
        · rw [hsucc]
          exact below
      · rw [show ppu.endsLine = false by simp [endsLine, hp], if_neg Bool.false_ne_true]
        exact congrArg Course.lineSprites hc
  · rename_i more
    rw [UInt16.le_iff_toNat_le] at more
    exact steps_along h (Nat.lt_of_not_le more) (fun _ hpre => by simp [hp] at hpre) hc

theorem countDot_eq (h : countDot ppu = .ok value after) :
    after = { ppu with totalDots := ppu.totalDots + 1 } ∧
      ppu.totalDots.toNat + 1 < UInt64.size := by
  unfold countDot addCount64 at h
  split at h
  · rename_i total ht
    split at ht <;> cases ht
    cases h
    exact ⟨rfl, ‹_›⟩
  · cases h

/-- What a dot does, whatever it draws. -/
theorem tick_steps (h : ppu.Placed) (ht : tick memory board ppu = .ok value after) :
    ppu.Steps after := by
  rw [tick_eq] at ht
  obtain ⟨_, moved, hd, hcount⟩ := of_bind_ok ht
  obtain ⟨rfl, -⟩ := countDot_eq hcount
  have steps : ppu.Steps moved := by
    cases hp : ppu.phase <;> rw [hp] at hd
    case preRender =>
      cases hd
      exact preRenderDot_steps h hp
    case render => exact renderDot_steps h hp hd
    case postRender => exact postRenderDot_steps h hp hd
    case verticalBlank => exact verticalBlankDot_steps h hp hd
  exact { steps with }

/-- Where a dot leads, but for its count. -/
def onward (ppu : Ppu) : Course :=
  match ppu.phase with
  | .preRender =>
    if ppu.lastPreRenderDot ≤ ppu.dot then
      { ppu.course with phase := .render, dot := 0, scanline := 0 }
    else { ppu.course with dot := ppu.dot + 1 }
  | .render =>
    if lastDot ≤ ppu.dot then
      { ppu.course with
        phase := if visibleLines ≤ ppu.scanline + 1 then .postRender else ppu.phase
        scanline := ppu.scanline + 1
        dot := 0
        lineSprites := ppu.foundSprites }
    else { ppu.course with dot := ppu.dot + 1 }
  | .postRender =>
    if lastDot ≤ ppu.dot then
      { ppu.course with phase := .verticalBlank, scanline := ppu.scanline + 1, dot := 0 }
    else { ppu.course with dot := ppu.dot + 1 }
  | .verticalBlank =>
    if lastDot ≤ ppu.dot then
      if frameLines ≤ ppu.scanline + 1 then
        { ppu.course with phase := .preRender, scanline := 0, dot := 0, evenFrame := !ppu.evenFrame }
      else { ppu.course with scanline := ppu.scanline + 1, dot := 0 }
    else { ppu.course with dot := ppu.dot + 1 }

theorem phaseDot_course (hd : phaseDot memory board ppu.phase ppu = .ok value after) :
    after.course = ppu.onward := by
  unfold onward
  cases hp : ppu.phase <;> rw [hp] at hd
  case preRender =>
    cases hd
    exact preRenderDot_course ppu
  case render =>
    rw [renderDot_course hd, hp]
  case postRender => exact postRenderDot_course hd
  case verticalBlank => exact verticalBlankDot_course hd

theorem onward_total (ppu : Ppu) : ppu.onward.totalDots = ppu.totalDots := by
  unfold onward
  cases ppu.phase with
  | verticalBlank =>
    dsimp only
    split
    · split <;> rfl
    · rfl
  | _ =>
    dsimp only
    split <;> rfl

theorem phaseDot_total (hd : phaseDot memory board ppu.phase ppu = .ok value after) :
    after.totalDots = ppu.totalDots :=
  (congrArg Course.totalDots (phaseDot_course hd)).trans ppu.onward_total

theorem tick_course (ht : tick memory board ppu = .ok value after) :
    after.course = { ppu.onward with totalDots := after.totalDots } := by
  rw [tick_eq] at ht
  obtain ⟨_, moved, hd, hcount⟩ := of_bind_ok ht
  obtain ⟨rfl, -⟩ := countDot_eq hcount
  rw [← phaseDot_course hd]
  rfl

theorem tick_total (ht : tick memory board ppu = .ok value after) :
    after.totalDots.toNat = ppu.totalDots.toNat + 1 := by
  rw [tick_eq] at ht
  obtain ⟨_, moved, hd, hcount⟩ := of_bind_ok ht
  obtain ⟨rfl, hroom⟩ := countDot_eq hcount
  have same := phaseDot_total hd
  rw [UInt64.toNat_add, same]
  exact Nat.mod_eq_of_lt (same ▸ hroom)

/-! ## The address -/

/-- The address behind a dot. -/
def scrolled (ppu : Ppu) : UInt16 :=
  match ppu.phase with
  | .preRender => ppu.preRenderEffect.address
  | .render =>
    if 0 < ppu.dot && ppu.dot ≤ visibleDots then (ppu.advanceColumn (ppu.dot - 1).toUInt8).address
    else if ppu.dot = visibleDots + 1 && ppu.mask.showsBackground then nextRow ppu.address
    else if ppu.dot = visibleDots + 2 && ppu.mask.isRendering then ppu.copyHorizontal.address
    else ppu.address
  | _ => ppu.address

theorem plot_address (x : UInt8) (colour : UInt32) : Keeps address (plot x colour) := by
  intro ppu _ after h
  unfold plot at h
  dsimp only at h
  split at h <;> cases h
  rfl

theorem latchHit_address (ppu : Ppu) (background : UInt8) (sprite : Option SpritePixel) :
    (ppu.latchHit background sprite).address = ppu.address := by
  unfold latchHit
  split <;> rfl

theorem drawPixel_address (h : drawPixel memory board ppu = .ok value after) :
    after.address = (ppu.advanceColumn (ppu.dot - 1).toUInt8).address := by
  unfold drawPixel at h
  rw [bind_ok (get_ok ppu)] at h
  obtain ⟨background, looked, hlook, h⟩ := of_bind_ok h
  rw [(inspect_eq hlook).2, bind_ok (modify_ok _ _)] at h
  refine Keeps.bind (.look _) (fun sprite => ?_) _ value after h
  refine .bind (.step fun ppu => latchHit_address ppu background sprite) fun _ => ?_
  exact .bind .state fun _ => .ite (.bind .state fun _ => plot_address _ _) (.pure _)

theorem renderEffect_address (hp : ppu.phase = .render)
    (h : renderEffect memory board ppu = .ok value after) : after.address = ppu.scrolled := by
  unfold renderEffect at h
  rw [bind_ok (get_ok ppu)] at h
  unfold scrolled
  rw [hp]
  dsimp only
  split at h
  · rw [if_pos ‹_›]
    exact drawPixel_address h
  rw [if_neg ‹_›]
  rw [bind_ok (get_ok ppu)] at h
  split at h
  · cases h
    rw [if_pos ‹_›]
  rw [if_neg ‹_›]
  rw [bind_ok (get_ok ppu)] at h
  split at h
  · cases h
    rw [if_pos ‹_›]
  · cases h
    rw [if_neg ‹_›]

theorem address_unmoved : Unmoved address := fun _ _ _ _ _ _ _ => rfl

theorem renderDot_address (hp : ppu.phase = .render)
    (h : renderDot memory board ppu = .ok value after) : after.address = ppu.scrolled := by
  obtain ⟨_, drawn, hdraw, h⟩ := of_bind_ok h
  exact (lineEnd_keeps address_unmoved drawn value after h).trans (renderEffect_address hp hdraw)

theorem verticalBlankEffect_address (ppu : Ppu) :
    ppu.verticalBlankEffect.address = ppu.address := by
  unfold verticalBlankEffect
  split <;> rfl

theorem tick_address (ht : tick memory board ppu = .ok value after) :
    after.address = ppu.scrolled := by
  rw [tick_eq] at ht
  obtain ⟨_, moved, hd, hcount⟩ := of_bind_ok ht
  obtain ⟨rfl, -⟩ := countDot_eq hcount
  show moved.address = _
  cases hp : ppu.phase <;> rw [hp] at hd
  case preRender =>
    cases hd
    rw [scrolled, hp]
    exact preRenderDot_keeps address_unmoved ppu
  case render => exact renderDot_address hp hd
  case postRender =>
    rw [scrolled, hp]
    exact postRenderDot_keeps address_unmoved ppu _ _ hd
  case verticalBlank =>
    rw [scrolled, hp]
    exact (frameEnd_keeps address_unmoved ppu.verticalBlankEffect _ _ hd).trans
      ppu.verticalBlankEffect_address

end Famicom.Ppu
