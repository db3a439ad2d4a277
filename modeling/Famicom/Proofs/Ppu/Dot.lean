import Famicom.Proofs.Ppu.Draw

/-!
# Dots

Where a dot takes the beam and which pixel it draws. The rank of the beam is its place in the order in
which the dots of a frame pass.
-/

namespace Famicom.Ppu

def dotsPerLine : Nat := 341

def dotsPerFrame : Nat := 262 * dotsPerLine

/-- The line before the picture comes first. -/
def Beam.rank (beam : Beam) : Nat :=
  match beam.phase with
  | .preRender => beam.dot.toNat
  | _ => (beam.scanline.toNat + 1) * dotsPerLine + beam.dot.toNat

/-- From one dot to the next: a frame may leave out the last dot before the picture. -/
def Moves (rank next : Nat) : Prop :=
  next = rank + 1 ∨ (rank + 1 = dotsPerFrame ∧ next = 0) ∨ (rank + 2 = dotsPerLine ∧ next = rank + 2)

/-- The dot that draws a place of the screen. -/
def drawRank (place : Fin (screenWidth * screenHeight)) : Nat :=
  (place.val / screenWidth + 1) * dotsPerLine + (place.val % screenWidth + 1)

/-- The dot that starts the vertical blank. -/
def vblankRank : Nat := 242 * dotsPerLine + 1

/-- The work of a dot, but for its count. -/
structure Works (ppu moved : Ppu) (strokes : List Stroke) : Prop where
  inRange : moved.InRange
  total : moved.totalDots = ppu.totalDots
  rank : Moves ppu.beam.rank moved.beam.rank
  drawn : ∀ place, ppu.beam.rank = drawRank place → ∃ stroke ∈ strokes, stroke.place = place
  interrupt : moved.interruptPending = true →
    ppu.interruptPending = true ∨ ppu.beam.rank = vblankRank

variable {ppu : Ppu}

theorem Placed.dot_le (h : ppu.Placed) : ppu.dot.toNat ≤ 340 := UInt16.le_iff_toNat_le.1 h.dot

theorem preRender_rank (h : ppu.phase = .preRender) : ppu.beam.rank = ppu.dot.toNat := by
  show (match ppu.phase with | .preRender => _ | _ => _) = _
  rw [h]
  rfl

theorem line_rank (h : ppu.phase ≠ .preRender) :
    ppu.beam.rank = (ppu.scanline.toNat + 1) * 341 + ppu.dot.toNat := by
  show (match ppu.phase with | .preRender => _ | _ => _) = _
  cases hp : ppu.phase with
  | preRender => exact absurd hp h
  | _ => rfl

theorem Placed.render_line (h : ppu.Placed) (hp : ppu.phase = .render) :
    ppu.scanline.toNat < 240 := by
  have hl := h.line
  rw [hp] at hl
  exact UInt16.lt_iff_toNat_lt.1 hl

theorem Placed.postRender_line (h : ppu.Placed) (hp : ppu.phase = .postRender) :
    ppu.scanline.toNat = 240 := by
  have hl := h.line
  rw [hp] at hl
  exact congrArg UInt16.toNat hl

theorem Placed.verticalBlank_line (h : ppu.Placed) (hp : ppu.phase = .verticalBlank) :
    241 ≤ ppu.scanline.toNat ∧ ppu.scanline.toNat < 261 := by
  have hl := h.line
  rw [hp] at hl
  exact ⟨UInt16.le_iff_toNat_le.1 hl.1, UInt16.lt_iff_toNat_lt.1 hl.2⟩

theorem Placed.rank_lt (h : ppu.Placed) : ppu.beam.rank < 262 * 341 := by
  have hd := h.dot_le
  cases hp : ppu.phase with
  | preRender =>
    rw [preRender_rank hp]
    omega
  | render =>
    have := h.render_line hp
    rw [line_rank (by simp [hp])]
    omega
  | postRender =>
    have := h.postRender_line hp
    rw [line_rank (by simp [hp])]
    omega
  | verticalBlank =>
    have := h.verticalBlank_line hp
    rw [line_rank (by simp [hp])]
    omega

theorem drawRank_eq (place : Fin (screenWidth * screenHeight)) :
    drawRank place = (place.val / 256 + 1) * 341 + (place.val % 256 + 1) := rfl

theorem place_of_drawRank {line dot column place : Nat} (hx : column + 1 = dot)
    (hlt : column < 256) (h : (line + 1) * 341 + dot = (place / 256 + 1) * 341 + (place % 256 + 1)) :
    line * 256 + column = place := by
  have hr := Nat.mod_lt place (by decide : 0 < 256)
  have hq : line = place / 256 := by
    rcases Nat.lt_trichotomy line (place / 256) with hl | hl | hl <;> omega
  have hc : column = place % 256 := by
    rw [← hq] at h
    omega
  rw [hq, hc]
  exact Nat.div_add_mod' place 256

/-- Only a line of the picture is drawn. -/
theorem drawRank_bounds (place : Fin (screenWidth * screenHeight)) :
    341 < drawRank place ∧ drawRank place < 241 * 341 := by
  have : place.val < 256 * 240 := place.isLt
  rw [drawRank_eq]
  omega

/-! ## The next dot -/

/-- The next dot of a line has one more. -/
theorem toNat_succ {dot : UInt16} (h : dot.toNat < 340) : (dot + 1).toNat = dot.toNat + 1 := by
  rw [UInt16.toNat_add]
  simp only [UInt16.reduceToNat]
  omega

theorem nextDot_inRange (h : ppu.InRange) (hd : ppu.dot.toNat < 340) :
    { ppu with dot := ppu.dot + 1 }.InRange := by
  refine { h with dot := ?_ }
  rw [UInt16.le_iff_toNat_le, toNat_succ hd]
  exact hd

theorem nextDot_rank (hd : ppu.dot.toNat < 340) :
    { ppu with dot := ppu.dot + 1 }.beam.rank = ppu.beam.rank + 1 := by
  unfold Beam.rank beam
  dsimp only
  rw [toNat_succ hd]
  cases ppu.phase <;> simp only [Nat.add_assoc]

theorem nextLine_inRange (h : ppu.InRange) {phase : Phase} {line : UInt16}
    (hl : phase.Holds line) :
    { ppu with phase := phase, scanline := line, dot := 0 }.InRange :=
  { h with dot := (by decide : (0 : UInt16) ≤ lastDot), line := hl }

theorem nextLine_rank {phase : Phase} (hp : phase ≠ .preRender) (line : UInt16) :
    { ppu with phase := phase, scanline := line, dot := 0 }.beam.rank = (line.toNat + 1) * 341 := by
  rw [line_rank hp]
  simp only [UInt16.reduceToNat, Nat.add_zero]

theorem nextDot_draws {after : Ppu → List Stroke → Prop}
    (h : after { ppu with dot := ppu.dot + 1 } []) : Draws nextDot ppu after :=
  .step (fun _ _ _ => rfl) h

theorem nextLine_draws {after : Ppu → List Stroke → Prop} (hl : ppu.scanline.toNat < 261)
    (h : after { ppu with scanline := ppu.scanline + 1, dot := 0 } []) :
    Draws nextLine ppu after := by
  have hsum : addCount16 ppu.scanline 1 = .ok (ppu.scanline + 1) :=
    if_pos (Nat.lt_trans (Nat.add_lt_add_right hl 1) (by decide))
  refine ⟨_, [], h, ?_⟩
  intro variant screen
  unfold nextLine
  have same : addCount16 (ppu.repaint variant screen).scanline 1 = .ok (ppu.scanline + 1) := hsum
  rw [same, paint_nil]
  rfl

/-! ## Before the picture -/

theorem preRenderEffect_offBeam : OffBeam preRenderEffect := by
  refine .choice (c := fun ppu => ppu.dot = 1) (fun _ _ _ => Iff.rfl) ?_ ?_
  · exact ⟨fun ppu h => { h with },
      fun _ => rfl, fun _ _ _ => rfl⟩
  · refine .choice (c := fun ppu => ppu.dot = visibleDots + 2 && ppu.mask.isRendering)
      (fun _ _ _ => Iff.rfl) copyHorizontal_offBeam ?_
    exact .choice (c := fun ppu => copiesVertical ppu.dot && ppu.mask.isRendering)
      (fun _ _ _ => Iff.rfl) copyVertical_offBeam .id

theorem preRenderDot_blind : Blind preRenderDot := by
  have step : Blind fun ppu => if ppu.lastPreRenderDot ≤ ppu.dot then
      { ppu with phase := .render, dot := 0, scanline := 0 }
    else { ppu with dot := ppu.dot + 1 } :=
    .choice (c := fun ppu => ppu.lastPreRenderDot ≤ ppu.dot) (fun _ _ _ => Iff.rfl)
      (fun _ _ _ => rfl) fun _ _ _ => rfl
  exact step.comp preRenderEffect_offBeam.blind

theorem lastPreRenderDot_bounds (ppu : Ppu) : 339 ≤ ppu.lastPreRenderDot.toNat ∧
    ppu.lastPreRenderDot.toNat ≤ 340 := by
  unfold lastPreRenderDot
  split <;> decide

theorem preRenderDot_works (h : ppu.InRange) (hp : ppu.phase = .preRender) :
    Works ppu ppu.preRenderDot [] := by
  have hr := preRenderEffect_offBeam.inRange ppu h
  have hb := preRenderEffect_offBeam.beam ppu
  have hrank : ppu.preRenderEffect.beam.rank = ppu.dot.toNat :=
    (congrArg Beam.rank hb).trans (preRender_rank hp)
  have hdot : ppu.preRenderEffect.dot = ppu.dot := congrArg Beam.dot hb
  have undrawn : ∀ place, ppu.beam.rank ≠ drawRank place := by
    intro place
    have := drawRank_bounds place
    have := h.dot_le
    rw [preRender_rank hp]
    omega
  have hlast := ppu.preRenderEffect.lastPreRenderDot_bounds
  dsimp only [preRenderDot]
  split
  · rename_i last
    rw [UInt16.le_iff_toNat_le, hdot] at last
    refine ⟨nextLine_inRange hr (by decide : (0 : UInt16) < visibleLines),
      congrArg Beam.totalDots hb, ?_, fun place hd => absurd hd (undrawn place),
      fun hi => .inl ((congrArg Beam.interruptPending hb).symm.trans hi)⟩
    have := h.dot_le
    rw [preRender_rank hp, nextLine_rank (by decide), Moves, dotsPerLine]
    simp only [UInt16.reduceToNat]
    omega
  · rename_i last
    rw [UInt16.le_iff_toNat_le, hdot] at last
    have hd : ppu.preRenderEffect.dot.toNat < 340 := by
      rw [hdot]
      omega
    refine ⟨nextDot_inRange hr hd, congrArg Beam.totalDots hb, .inl ?_,
      fun place hd => absurd hd (undrawn place),
      fun hi => .inl ((congrArg Beam.interruptPending hb).symm.trans hi)⟩
    rw [nextDot_rank hd, hb]

/-! ## The picture -/

section
variable {cartridge : Cartridge} {memory : PictureMemory} {board : Board}

/-- The column that a dot draws. -/
theorem column_toNat {dot : UInt16} (low : 0 < dot) (high : dot ≤ visibleDots) :
    (dot - 1).toUInt8.toNat + 1 = dot.toNat := by
  have low := UInt16.lt_iff_toNat_lt.1 low
  have high := UInt16.le_iff_toNat_le.1 high
  simp only [visibleDots, UInt16.reduceToNat] at low high
  rw [UInt16.toNat_toUInt8, UInt16.toNat_sub_of_le]
  · simp only [UInt16.reduceToNat]
    omega
  · exact UInt16.le_iff_toNat_le.2 low

theorem renderEffect_draws (hm : memory.Fits cartridge) (hb : board.Fits cartridge)
    (h : ppu.Placed) (sprites : ∀ number ∈ ppu.lineSprites, number < 64)
    (hp : ppu.phase = .render) :
    Draws (renderEffect memory board) ppu fun moved strokes =>
      (∃ change, OffBeam change ∧ moved = change ppu) ∧
        ∀ place, ppu.beam.rank = drawRank place → ∃ stroke ∈ strokes, stroke.place = place := by
  have hrank : ppu.beam.rank = _ := line_rank (by simp [hp])
  have hline := h.render_line hp
  have hle := h.dot_le
  have off : ∀ {change : Ppu → Ppu}, OffBeam change →
      (∀ place, ppu.beam.rank ≠ drawRank place) → Draws (modify change) ppu fun moved strokes =>
        (∃ change, OffBeam change ∧ moved = change ppu) ∧
          ∀ place, ppu.beam.rank = drawRank place → ∃ stroke ∈ strokes, stroke.place = place :=
    fun hc hu => .step hc.blind ⟨⟨_, hc, rfl⟩, fun place hd => absurd hd (hu place)⟩
  unfold renderEffect
  refine .look (fun _ _ => rfl) (.ite (fun visible => ?_) fun hidden => ?_)
  · simp only [Bool.and_eq_true, decide_eq_true_eq] at visible
    have hx := column_toNat visible.1 visible.2
    refine (drawPixel_draws hm hb sprites hline).mono ?_
    rintro moved _ ⟨off, colour, rfl⟩
    refine ⟨off, fun place hd => ⟨_, List.mem_singleton_self _, ?_⟩⟩
    rw [hrank, drawRank_eq] at hd
    exact Fin.ext (place_of_drawRank hx (ppu.dot - 1).toUInt8.toNat_lt hd)
  · have undrawn : ∀ place, ppu.beam.rank ≠ drawRank place := by
      intro place hd
      rw [hrank, drawRank_eq] at hd
      apply hidden
      simp only [Bool.and_eq_true, decide_eq_true_eq]
      rw [UInt16.lt_iff_toNat_lt, UInt16.le_iff_toNat_le]
      simp only [visibleDots, UInt16.reduceToNat]
      omega
    refine .look (fun _ _ => rfl) (.ite (fun _ => off advanceRow_offBeam undrawn) fun _ => ?_)
    refine .look (fun _ _ => rfl) (.ite (fun _ => off copyHorizontal_offBeam undrawn) fun _ => ?_)
    exact .skip ⟨⟨id, .id, rfl⟩, fun place hd => absurd hd (undrawn place)⟩

/-- A line behind the picture's first ends at its last dot. -/
theorem nextLine_moves {moved : Ppu} {phase : Phase} {line : UInt16} (hp : ppu.phase ≠ .preRender)
    (hd : ppu.dot.toNat = 340) (hphase : phase ≠ .preRender)
    (hl : line.toNat = ppu.scanline.toNat + 1) :
    Moves ppu.beam.rank { moved with phase := phase, scanline := line, dot := 0 }.beam.rank := by
  refine .inl ?_
  rw [nextLine_rank hphase, line_rank hp, hl, hd]
  omega

/-- What a dot that leaves the beam where it is may say of the interrupt. -/
theorem quiet_of_beam {moved : Ppu} (hb : moved.beam = ppu.beam)
    (hi : moved.interruptPending = true) :
    ppu.interruptPending = true ∨ ppu.beam.rank = vblankRank := by
  have same : moved.interruptPending = ppu.interruptPending := congrArg Beam.interruptPending hb
  rw [same] at hi
  exact .inl hi

/-- The end of a line of the picture, behind the work of its last dot. -/
theorem endLine_draws (h : ppu.InRange) (hp : ppu.phase = .render) (last : ppu.dot.toNat = 340)
    {moved : Ppu} {strokes : List Stroke} (hr : moved.InRange) (hbeam : moved.beam = ppu.beam)
    (drawn : ∀ place, ppu.beam.rank = drawRank place → ∃ stroke ∈ strokes, stroke.place = place) :
    Draws (do
      modify evaluateSprites
      nextLine
      if visibleLines ≤ (← get).scanline then
        modify fun ppu => { ppu with phase := .postRender }) moved
      fun final more => Works ppu final (strokes ++ more) := by
  have hne : ppu.phase ≠ .preRender := by simp [hp]
  have hline := h.render_line hp
  refine .bind (.step evaluateSprites_offBeam.blind ?_)
  have hr := evaluateSprites_offBeam.inRange moved hr
  have hbeam := (evaluateSprites_offBeam.beam moved).trans hbeam
  generalize moved.evaluateSprites = moved at hr hbeam
  have hint := quiet_of_beam hbeam
  have hscan : moved.scanline = ppu.scanline := congrArg Beam.scanline hbeam
  have hphase : moved.phase = .render := (congrArg Beam.phase hbeam).trans hp
  have hsum : (moved.scanline + 1).toNat = ppu.scanline.toNat + 1 := by
    rw [hscan]
    exact toNat_succ (by omega)
  refine .bind (nextLine_draws (by rw [hscan]; omega) ?_)
  refine .look (fun _ _ => rfl) (.ite (fun bottom => ?_) fun above => ?_)
  · rw [UInt16.le_iff_toNat_le, hsum] at bottom
    refine .step (fun _ _ _ => rfl) ?_
    simp only [List.append_nil]
    have holds : Phase.postRender.Holds (moved.scanline + 1) := by
      apply UInt16.toNat_inj.1
      rw [hsum]
      exact Nat.le_antisymm hline bottom
    exact ⟨nextLine_inRange hr holds, congrArg Beam.totalDots hbeam,
      nextLine_moves hne last (by decide) hsum, drawn, hint⟩
  · rw [UInt16.le_iff_toNat_le, hsum] at above
    refine .skip ?_
    simp only [List.append_nil]
    have holds : moved.phase.Holds (moved.scanline + 1) := by
      rw [hphase]
      apply UInt16.lt_iff_toNat_lt.2
      rw [hsum]
      exact Nat.lt_of_not_le above
    exact ⟨nextLine_inRange hr holds, congrArg Beam.totalDots hbeam,
      nextLine_moves hne last (by simp [hphase]) hsum, drawn, hint⟩

theorem renderDot_draws (hm : memory.Fits cartridge) (hb : board.Fits cartridge)
    (h : ppu.InRange) (hp : ppu.phase = .render) :
    Draws (renderDot memory board) ppu (Works ppu) := by
  refine .bind ((renderEffect_draws hm hb h.toPlaced h.sprites hp).mono ?_)
  rintro _ strokes ⟨⟨change, off, rfl⟩, drawn⟩
  have hr := off.inRange ppu h
  have hbeam := off.beam ppu
  generalize change ppu = moved at hr hbeam
  have hdot : moved.dot = ppu.dot := congrArg Beam.dot hbeam
  refine .look (fun _ _ => rfl) (.ite (fun last => ?_) fun more => ?_)
  · rw [UInt16.le_iff_toNat_le, hdot] at last
    exact endLine_draws h hp (Nat.le_antisymm h.dot_le last) hr hbeam drawn
  · rw [UInt16.le_iff_toNat_le] at more
    have hd : moved.dot.toNat < 340 := Nat.lt_of_not_le more
    have hint := quiet_of_beam hbeam
    refine nextDot_draws ?_
    rw [List.append_nil]
    refine ⟨nextDot_inRange hr hd, congrArg Beam.totalDots hbeam, .inl ?_, drawn, hint⟩
    rw [nextDot_rank hd, hbeam]

/-! ## Below the picture -/

theorem undrawn_below (hp : ppu.phase ≠ .preRender) (hl : 240 ≤ ppu.scanline.toNat)
    (place : Fin (screenWidth * screenHeight)) : ppu.beam.rank ≠ drawRank place := by
  have := drawRank_bounds place
  rw [line_rank hp]
  omega

theorem postRenderDot_draws (h : ppu.InRange) (hp : ppu.phase = .postRender) :
    Draws postRenderDot ppu (Works ppu) := by
  have hne : ppu.phase ≠ .preRender := by simp [hp]
  have hline := h.postRender_line hp
  have undrawn := undrawn_below hne (Nat.le_of_eq hline.symm)
  refine .look (fun _ _ => rfl) (.ite (fun last => ?_) fun more => ?_)
  · have last : ppu.dot.toNat = 340 := Nat.le_antisymm h.dot_le (UInt16.le_iff_toNat_le.1 last)
    have hsum : (ppu.scanline + 1).toNat = ppu.scanline.toNat + 1 := toNat_succ (by omega)
    refine .bind (nextLine_draws (by omega) (.step (fun _ _ _ => rfl) ?_))
    have holds : Phase.verticalBlank.Holds (ppu.scanline + 1) := by
      refine ⟨UInt16.le_iff_toNat_le.2 ?_, UInt16.lt_iff_toNat_lt.2 ?_⟩
      all_goals rw [hsum, hline]; decide
    exact ⟨nextLine_inRange h holds, rfl, nextLine_moves hne last (by decide) hsum,
      fun place hd => absurd hd (undrawn place), .inl⟩
  · rw [UInt16.le_iff_toNat_le] at more
    have hd : ppu.dot.toNat < 340 := Nat.lt_of_not_le more
    exact nextDot_draws ⟨nextDot_inRange h hd, rfl, .inl (nextDot_rank hd),
      fun place hd => absurd hd (undrawn place), .inl⟩

theorem startsVblank_rank (h : ppu.startsVblank = true) : ppu.beam.rank = vblankRank := by
  simp only [startsVblank, Bool.and_eq_true, decide_eq_true_eq] at h
  obtain ⟨⟨hp, hdot⟩, hline⟩ := h
  rw [line_rank (by simp [hp]), hdot, hline]
  rfl

theorem verticalBlankEffect_blind : Blind verticalBlankEffect :=
  .choice (c := fun ppu => ppu.startsVblank) (fun _ _ _ => Iff.rfl) (fun _ _ _ => rfl)
    fun _ _ _ => rfl

/-- The effect of a dot of the vertical blank is to raise an interrupt at most. -/
theorem verticalBlankEffect_keeps (ppu : Ppu) : ∃ status pending,
    ppu.verticalBlankEffect = { ppu with status := status, interruptPending := pending } ∧
      (pending = true → ppu.interruptPending = true ∨ ppu.beam.rank = vblankRank) := by
  unfold verticalBlankEffect
  split
  · exact ⟨_, _, rfl, fun _ => .inr (startsVblank_rank ‹_›)⟩
  · exact ⟨ppu.status, ppu.interruptPending, rfl, .inl⟩

theorem verticalBlankDot_draws (h : ppu.InRange) (hp : ppu.phase = .verticalBlank) :
    Draws verticalBlankDot ppu (Works ppu) := by
  have hne : ppu.phase ≠ .preRender := by simp [hp]
  have hline := h.verticalBlank_line hp
  have undrawn := undrawn_below hne (by omega)
  obtain ⟨status, pending, he, hi⟩ := ppu.verticalBlankEffect_keeps
  have hr : ppu.verticalBlankEffect.InRange := by
    rw [he]
    exact { h with }
  refine .bind (.step verticalBlankEffect_blind ?_)
  rw [he] at hr ⊢
  refine .look (fun _ _ => rfl) (.ite (fun last => ?_) fun more => ?_)
  · have last : ppu.dot.toNat = 340 := Nat.le_antisymm h.dot_le (UInt16.le_iff_toNat_le.1 last)
    have hsum : (ppu.scanline + 1).toNat = ppu.scanline.toNat + 1 := toNat_succ (by omega)
    refine .bind (nextLine_draws hline.2 ?_)
    refine .look (fun _ _ => rfl) (.ite (fun bottom => .step (fun _ _ _ => rfl) ?_) fun above =>
      .skip ?_)
    · have bottom : 261 ≤ (ppu.scanline + 1).toNat := UInt16.le_iff_toNat_le.1 bottom
      have first : (0 : UInt16) ≤ lastDot := by decide
      refine ⟨{ hr with dot := first, line := rfl }, rfl, .inr (.inl ⟨?_, ?_⟩),
        fun place hd => absurd hd (undrawn place), hi⟩
      · rw [line_rank hne, dotsPerFrame, dotsPerLine]
        omega
      · exact preRender_rank rfl
    · rw [UInt16.le_iff_toNat_le] at above
      have holds : ppu.phase.Holds (ppu.scanline + 1) := by
        rw [hp]
        refine ⟨UInt16.le_iff_toNat_le.2 ?_, UInt16.lt_iff_toNat_lt.2 (Nat.lt_of_not_le above)⟩
        rw [hsum]
        exact Nat.le_succ_of_le hline.1
      exact ⟨nextLine_inRange hr holds, rfl, nextLine_moves hne last hne hsum,
        fun place hd => absurd hd (undrawn place), hi⟩
  · rw [UInt16.le_iff_toNat_le] at more
    have hd : ppu.dot.toNat < 340 := Nat.lt_of_not_le more
    exact nextDot_draws ⟨nextDot_inRange hr hd, rfl, .inl (nextDot_rank hd),
      fun place hd => absurd hd (undrawn place), hi⟩

/-! ## Any dot -/

/-- What a dot does to the beam. -/
structure Beam.Advances (beam next : Beam) (strokes : List Stroke) : Prop where
  variant : next.variant = beam.variant
  screen : next.screen = paint beam.variant beam.screen strokes
  rank_lt : beam.rank < dotsPerFrame
  rank : Moves beam.rank next.rank
  drawn : ∀ place, beam.rank = drawRank place → ∃ stroke ∈ strokes, stroke.place = place
  interrupt : next.interruptPending = true →
    beam.interruptPending = true ∨ beam.rank = vblankRank
  total : next.totalDots.toNat = beam.totalDots.toNat + 1

theorem tick_draws (hm : memory.Fits cartridge) (hb : board.Fits cartridge) (h : ppu.InRange) :
    ∃ moved strokes, Works ppu moved strokes ∧ ∀ variant screen,
      tick memory board (ppu.repaint variant screen) =
        countDot (moved.repaint variant (paint variant screen strokes)) := by
  have hw : Draws (phaseDot memory board ppu.phase) ppu (Works ppu) := by
    cases hp : ppu.phase with
    | preRender => exact .step preRenderDot_blind (preRenderDot_works h hp)
    | render => exact renderDot_draws hm hb h hp
    | postRender => exact postRenderDot_draws h hp
    | verticalBlank => exact verticalBlankDot_draws h hp
  obtain ⟨moved, strokes, hworks, hd⟩ := hw.followed countDot
  refine ⟨moved, strokes, hworks, ?_⟩
  intro variant screen
  rw [tick_eq]
  exact hd variant screen

/-- What a dot that was counted did to the beam. -/
theorem Works.advances {moved : Ppu} {strokes : List Stroke} (hw : Works ppu moved strokes)
    (h : ppu.InRange) (hc : ppu.totalDots.toNat + 1 < UInt64.size) (variant : Variant)
    (screen : Screen) :
    (ppu.repaint variant screen).beam.Advances
      (({ moved with totalDots := moved.totalDots + 1 }).repaint variant
        (paint variant screen strokes)).beam strokes where
  variant := rfl
  screen := rfl
  rank_lt := show ppu.beam.rank < _ from h.rank_lt
  rank := hw.rank
  drawn := hw.drawn
  interrupt := hw.interrupt
  total := by
    show (moved.totalDots + 1).toNat = ppu.totalDots.toNat + 1
    rw [hw.total, UInt64.toNat_add]
    exact Nat.mod_eq_of_lt hc

theorem countDot_ok {moved : Ppu} (h : moved.totalDots.toNat + 1 < UInt64.size)
    (variant : Variant) (screen : Screen) : countDot (moved.repaint variant screen) =
      .ok () ({ moved with totalDots := moved.totalDots + 1 }.repaint variant screen) := by
  have hsum : addCount64 (moved.repaint variant screen).totalDots 1 =
      .ok (moved.totalDots + 1) := if_pos h
  unfold countDot
  rw [hsum]
  rfl

/-- The count of all dots cannot go on. -/
def CountFull (ppu : Ppu) : Prop := UInt64.size ≤ ppu.totalDots.toNat + 1

theorem countDot_full {moved : Ppu} (h : ¬moved.totalDots.toNat + 1 < UInt64.size)
    (variant : Variant) (screen : Screen) : countDot (moved.repaint variant screen) =
      .error .overflow (moved.repaint variant screen) := by
  have hsum : addCount64 (moved.repaint variant screen).totalDots 1 = .error .overflow :=
    if_neg h
  unfold countDot
  rw [hsum]

/-- Twins stay twins over a dot. Only the count of all dots can stop them. -/
theorem tick_alike (hm : memory.Fits cartridge) (hb : board.Fits cartridge) {p q : Ppu}
    (h : p.InRange) (ht : p.Twin q) :
    EndAlike
      (fun _ p' q' => p'.InRange ∧ p'.Twin q' ∧
        ∃ strokes, p.beam.Advances p'.beam strokes ∧ q.beam.Advances q'.beam strokes)
      (fun fault p' q' => fault = .overflow ∧ p.CountFull ∧ p'.CountFull ∧ q'.CountFull)
      (tick memory board p) (tick memory board q) := by
  obtain ⟨moved, strokes, hw, hd⟩ := tick_draws hm hb h
  have hp : tick memory board p = countDot (moved.repaint p.variant
      (paint p.variant p.screen strokes)) := hd p.variant p.screen
  have hq : tick memory board q = countDot (moved.repaint q.variant
      (paint q.variant q.screen strokes)) := by
    rw [← hd, ← ht]
  rw [hp, hq]
  by_cases hc : p.totalDots.toNat + 1 < UInt64.size
  · have hcount : moved.totalDots.toNat + 1 < UInt64.size := hw.total ▸ hc
    rw [countDot_ok hcount, countDot_ok hcount]
    have hr : InRange { moved with totalDots := moved.totalDots + 1 } :=
      { hw.inRange with }
    refine .ok ⟨repaint_inRange hr _ _, rfl, strokes, hw.advances h hc _ _, ?_⟩
    have hq := hw.advances h hc q.variant q.screen
    rwa [← ht] at hq
  · have hcount : ¬moved.totalDots.toNat + 1 < UInt64.size := hw.total ▸ hc
    rw [countDot_full hcount, countDot_full hcount]
    have full := Nat.le_of_not_lt hcount
    exact .error ⟨rfl, Nat.le_of_not_lt hc, full, full⟩

end

end Famicom.Ppu
