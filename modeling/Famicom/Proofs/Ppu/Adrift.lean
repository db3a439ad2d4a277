import Famicom.Proofs.Ppu.Walk

/-!
# Beams off their lines

A beam that is on no line of its phase still comes down to the end of the frame, dot by dot. Only a
full screen can stop it: there is no place for a pixel below the picture.
-/

namespace Famicom.Ppu

/-- The lines from which a phase comes to the end of a frame. -/
def Phase.Reaches (line : UInt16) : Phase → Prop
  | preRender => True
  | render => line.toNat ≤ 260
  | postRender => line.toNat ≤ 261
  | verticalBlank => line.toNat ≤ 262

theorem Phase.reaches_of_le {line : UInt16} (h : line.toNat ≤ 260) (phase : Phase) :
    phase.Reaches line := by
  cases phase with
  | preRender => trivial
  | render => exact h
  | postRender => exact Nat.le_succ_of_le h
  | verticalBlank => exact Nat.le_succ_of_le (Nat.le_succ_of_le h)

/-- The beam is about to draw a line that the screen does not have. -/
structure Beam.Stranded (beam : Beam) : Prop where
  full : beam.variant = .full
  drawing : beam.phase = .render
  below : visibleLines ≤ beam.scanline
  dot : beam.dot ≤ visibleDots

/-- The beam can go on to the end of the frame. -/
structure Beam.Adrift (beam : Beam) : Prop where
  dot : beam.dot ≤ lastDot
  line : beam.phase.Reaches beam.scanline
  free : ¬beam.Stranded

variable {memory : PictureMemory} {board : Board} {ppu after : Ppu} {value : Unit}

theorem Placed.line_le (h : ppu.Placed) : ppu.scanline.toNat ≤ 260 := by
  cases hp : ppu.phase with
  | preRender =>
    have hl := h.line
    rw [hp] at hl
    rw [show ppu.scanline = 0 from hl]
    decide
  | render =>
    have := h.render_line hp
    omega
  | postRender =>
    have := h.postRender_line hp
    omega
  | verticalBlank =>
    have := h.verticalBlank_line hp
    omega

theorem Placed.unstranded (h : ppu.Placed) : ¬ppu.beam.Stranded := by
  intro stranded
  have high := h.render_line stranded.drawing
  have low := UInt16.le_iff_toNat_le.1 stranded.below
  exact absurd high (Nat.not_lt_of_le low)

theorem Placed.adrift (h : ppu.Placed) : ppu.beam.Adrift where
  dot := h.dot
  line := Phase.reaches_of_le h.line_le ppu.phase
  free := h.unstranded

/-! ## Where the beam goes -/

theorem tick_variant (ht : tick memory board ppu = .ok value after) :
    after.variant = ppu.variant := by
  have blank : ∀ ppu : Ppu, ppu.verticalBlankEffect.variant = ppu.variant := by
    intro ppu
    unfold verticalBlankEffect
    split <;> rfl
  exact tick_keeps (fun _ _ _ _ => rfl) (fun _ _ _ _ _ _ _ => rfl) blank memory board ppu value
    after ht

/-- A dot inside a line. -/
theorem adrift_along (h : ppu.beam.Adrift) (more : ppu.dot.toNat < 340)
    (hv : after.variant = ppu.variant)
    (hc : after.course = { ppu.course with dot := ppu.dot + 1, totalDots := after.totalDots }) :
    after.beam.Adrift := by
  have hphase : after.phase = ppu.phase := congrArg Course.phase hc
  have hline : after.scanline = ppu.scanline := congrArg Course.scanline hc
  have hdot : after.dot = ppu.dot + 1 := congrArg Course.dot hc
  have hsucc := toNat_succ more
  constructor
  · show after.dot ≤ lastDot
    rw [UInt16.le_iff_toNat_le, hdot, hsucc]
    exact more
  · show after.phase.Reaches after.scanline
    rw [hphase, hline]
    exact h.line
  · rintro ⟨full, drawing, below, dot⟩
    have dot : after.dot.toNat ≤ visibleDots.toNat := UInt16.le_iff_toNat_le.1 dot
    rw [hdot, hsucc] at dot
    have below : visibleLines ≤ ppu.scanline := by rwa [← hline]
    exact h.free ⟨hv.symm.trans full, hphase.symm.trans drawing, below,
      UInt16.le_iff_toNat_le.2 (Nat.le_of_succ_le dot)⟩

/-- The first dot of a line. -/
theorem adrift_down (hdot : after.dot = 0) (hline : after.phase.Reaches after.scanline)
    (drawn : after.phase = .render → after.scanline < visibleLines) : after.beam.Adrift := by
  constructor
  · show after.dot ≤ lastDot
    rw [hdot]
    decide
  · exact hline
  · rintro ⟨-, drawing, below, -⟩
    exact UInt16.not_le.2 (drawn drawing) below

theorem more_of_not_le {bound : UInt16} (hb : bound.toNat ≤ 340) (h : ¬bound ≤ ppu.dot) :
    ppu.dot.toNat < 340 := by
  rw [UInt16.le_iff_toNat_le] at h
  omega

theorem preRender_adrift (h : ppu.beam.Adrift) (hp : ppu.phase = .preRender)
    (ht : tick memory board ppu = .ok value after) : after.beam.Adrift := by
  have hc := tick_course ht
  simp only [onward, hp] at hc
  split at hc
  · have hphase : after.phase = .render := congrArg Course.phase hc
    have hscan : after.scanline = 0 := congrArg Course.scanline hc
    refine adrift_down (congrArg Course.dot hc) (Phase.reaches_of_le ?_ _) fun _ => ?_
    all_goals rw [hscan]; decide
  · rename_i more
    exact adrift_along h (more_of_not_le ppu.lastPreRenderDot_bounds.2 more) (tick_variant ht) hc

theorem render_adrift (h : ppu.beam.Adrift) (hp : ppu.phase = .render)
    (ht : tick memory board ppu = .ok value after) : after.beam.Adrift := by
  have hc := tick_course ht
  have hline := h.line
  have low : ppu.scanline.toNat ≤ 260 := by rwa [show ppu.beam.phase = .render from hp] at hline
  simp only [onward, hp] at hc
  split at hc
  · have hscan : after.scanline = ppu.scanline + 1 := congrArg Course.scanline hc
    have hsucc : after.scanline.toNat = ppu.scanline.toNat + 1 := by
      rw [hscan]
      exact toNat_succ (by omega)
    have hphase : after.phase = if visibleLines ≤ ppu.scanline + 1 then .postRender else .render :=
      congrArg Course.phase hc
    rw [← hscan] at hphase
    refine adrift_down (congrArg Course.dot hc) ?_ fun drawing => UInt16.not_le.1 fun below => ?_
    · rw [hphase]
      split
      · show after.scanline.toNat ≤ 261
        omega
      · rename_i above
        have above := UInt16.lt_iff_toNat_lt.1 (UInt16.not_le.1 above)
        exact Nat.le_trans (Nat.le_of_lt above) (by decide)
    · rw [hphase, if_pos below] at drawing
      cases drawing
  · rename_i more
    exact adrift_along h (more_of_not_le (by decide) more) (tick_variant ht) hc

theorem postRender_adrift (h : ppu.beam.Adrift) (hp : ppu.phase = .postRender)
    (ht : tick memory board ppu = .ok value after) : after.beam.Adrift := by
  have hc := tick_course ht
  have hline := h.line
  have low : ppu.scanline.toNat ≤ 261 := by
    rwa [show ppu.beam.phase = .postRender from hp] at hline
  simp only [onward, hp] at hc
  split at hc
  · have hphase : after.phase = .verticalBlank := congrArg Course.phase hc
    have hscan : after.scanline = ppu.scanline + 1 := congrArg Course.scanline hc
    refine adrift_down (congrArg Course.dot hc) ?_ (by simp [hphase])
    rw [hphase, hscan]
    show (ppu.scanline + 1).toNat ≤ 262
    rw [toNat_succ (by omega)]
    omega
  · rename_i more
    exact adrift_along h (more_of_not_le (by decide) more) (tick_variant ht) hc

theorem verticalBlank_adrift (h : ppu.beam.Adrift) (hp : ppu.phase = .verticalBlank)
    (ht : tick memory board ppu = .ok value after) : after.beam.Adrift := by
  have hc := tick_course ht
  simp only [onward, hp] at hc
  split at hc
  · split at hc
    · have hphase : after.phase = .preRender := congrArg Course.phase hc
      refine adrift_down (congrArg Course.dot hc) ?_ (by simp [hphase])
      rw [hphase]
      trivial
    · rename_i above
      have hphase : after.phase = .verticalBlank := (congrArg Course.phase hc).trans hp
      have hscan : after.scanline = ppu.scanline + 1 := congrArg Course.scanline hc
      rw [← hscan, UInt16.le_iff_toNat_le] at above
      have low := Nat.le_of_lt_succ (Nat.lt_of_not_le above)
      exact adrift_down (congrArg Course.dot hc) (Phase.reaches_of_le low _) (by simp [hphase])
  · rename_i more
    exact adrift_along h (more_of_not_le (by decide) more) (tick_variant ht) hc

/-- A beam that a dot does not stop stays one that can go on. -/
theorem tick_adrift (h : ppu.beam.Adrift) (ht : tick memory board ppu = .ok value after) :
    after.beam.Adrift := by
  cases hp : ppu.phase with
  | preRender => exact preRender_adrift h hp ht
  | render => exact render_adrift h hp ht
  | postRender => exact postRender_adrift h hp ht
  | verticalBlank => exact verticalBlank_adrift h hp ht

/-- Around the start of the vertical blank the beam is inside a line. -/
theorem tick_inside (hd : ppu.dot ≤ lastDot) (ht : tick memory board ppu = .ok value after)
    (low : vblankRank ≤ ppu.beam.rank) (high : ppu.beam.rank < vblankRank + 300) :
    after.beam.rank = ppu.beam.rank + 1 := by
  have hle : ppu.dot.toNat ≤ 340 := UInt16.le_iff_toNat_le.1 hd
  have hc := tick_course ht
  simp only [vblankRank, dotsPerLine] at low high
  have hp : ppu.phase ≠ .preRender := by
    intro hp
    rw [preRender_rank hp] at low
    omega
  rw [line_rank hp] at low high
  have more : ppu.dot.toNat < 340 := by omega
  have hnext : ¬lastDot ≤ ppu.dot := by
    rw [UInt16.le_iff_toNat_le]
    exact Nat.not_le_of_lt more
  have along : ppu.onward = { ppu.course with dot := ppu.dot + 1 } := by
    unfold onward
    cases h : ppu.phase with
    | preRender => exact absurd h hp
    | _ => exact if_neg hnext
  rw [along] at hc
  have hphase : after.phase = ppu.phase := congrArg Course.phase hc
  have hline : after.scanline = ppu.scanline := congrArg Course.scanline hc
  have hdot : after.dot = ppu.dot + 1 := congrArg Course.dot hc
  rw [line_rank (hphase ▸ hp), line_rank hp, hline, hdot, toNat_succ more]
  omega

theorem tick_raises (ht : tick memory board ppu = .ok value after)
    (hi : after.interruptPending = true) :
    ppu.interruptPending = true ∨ ppu.beam.rank = vblankRank := by
  rw [(tick_held ht).2, Bool.or_eq_true] at hi
  refine hi.imp_right fun raised => ?_
  rw [raisesInterrupt, Bool.and_eq_true] at raised
  exact startsVblank_rank raised.1

/-! ## What the beam does not reach -/

theorem scrolled_lt (h : ppu.Tame) : ppu.scrolled < addressEnd := by
  unfold scrolled
  split
  · exact (preRenderEffect_offBeam.tame ppu h).address
  · split
    · exact ((advanceColumn_offBeam _).tame ppu h).address
    split
    · exact nextRow_lt h.address
    split
    · exact (copyHorizontal_offBeam.tame ppu h).address
    · exact h.address
  · exact h.address

theorem onward_sprites (ppu : Ppu) : ppu.onward.lineSprites = ppu.lineSprites ∨
    ppu.onward.lineSprites = ppu.foundSprites := by
  unfold onward
  cases ppu.phase with
  | render =>
    dsimp only
    split
    · exact .inr rfl
    · exact .inl rfl
  | verticalBlank =>
    dsimp only
    split
    · split <;> exact .inl rfl
    · exact .inl rfl
  | _ =>
    dsimp only
    split <;> exact .inl rfl

theorem tick_tame (h : ppu.Tame) (ht : tick memory board ppu = .ok value after) : after.Tame := by
  have programmed := (tick_held ht).1
  have sprites : after.lineSprites = ppu.onward.lineSprites :=
    congrArg Course.lineSprites (tick_course ht)
  obtain ⟨numbers, room⟩ := findSprites_bounds ppu (ppu.oamAddress.toNat / 4) spritesPerLine
  constructor
  · rw [tick_address ht]
    exact scrolled_lt h
  · rw [show after.nextAddress = _ from congrArg Programmed.nextAddress programmed]
    exact h.nextAddress
  · rw [show after.fineX = _ from congrArg Programmed.fineX programmed]
    exact h.fineX
  · rw [sprites]
    rcases ppu.onward_sprites with same | found
    · rw [same]
      exact h.sprites
    · rw [found]
      exact numbers
  · rw [sprites]
    rcases ppu.onward_sprites with same | found
    · rw [same]
      exact h.room
    · rw [found]
      exact room

/-! ## Dots that answer -/

section
variable {cartridge : Cartridge}

theorem nextLine_answers (h : ppu.scanline.toNat < 340) :
    nextLine ppu = .ok () { ppu with scanline := ppu.scanline + 1, dot := 0 } := by
  have hsum : addCount16 ppu.scanline 1 = .ok (ppu.scanline + 1) :=
    if_pos (Nat.lt_trans (Nat.add_lt_add_right h 1) (by decide))
  unfold nextLine
  rw [hsum]

/-- A pixel needs a line of the screen, if the variant has one. -/
theorem drawPixel_answers (hm : memory.Fits cartridge) (hb : board.Fits cartridge)
    (sprites : ∀ number ∈ ppu.lineSprites, number < 64)
    (line : ppu.variant = .full → ppu.scanline < visibleLines) :
    ∃ drawn, drawPixel memory board ppu = .ok () drawn := by
  obtain ⟨change, colour, hc, hdraw⟩ := drawPixel_plots hm hb sprites
  have hdraw := hdraw ppu.variant ppu.screen
  rw [show drawPixel memory board ppu = _ from hdraw]
  split
  · rename_i full
    have same : ((change ppu).repaint ppu.variant ppu.screen).scanline = ppu.scanline :=
      congrArg Beam.scanline (hc.beam ppu)
    exact ⟨_, plot_ok (congrArg UInt16.toNat same) (UInt16.lt_iff_toNat_lt.1 (line full)) _ _⟩
  · exact ⟨_, rfl⟩

theorem renderEffect_answers (hm : memory.Fits cartridge) (hb : board.Fits cartridge)
    (sprites : ∀ number ∈ ppu.lineSprites, number < 64) (hp : ppu.phase = .render)
    (free : ¬ppu.beam.Stranded) : ∃ drawn, renderEffect memory board ppu = .ok () drawn := by
  unfold renderEffect
  rw [bind_ok (get_ok ppu)]
  split
  · rename_i visible
    simp only [Bool.and_eq_true, decide_eq_true_eq] at visible
    refine drawPixel_answers hm hb sprites fun full => ?_
    exact UInt16.not_le.1 fun below => free ⟨full, hp, below, visible.2⟩
  rw [bind_ok (get_ok ppu)]
  split
  · exact ⟨_, rfl⟩
  rw [bind_ok (get_ok ppu)]
  split <;> exact ⟨_, rfl⟩

theorem phaseDot_answers (hm : memory.Fits cartridge) (hb : board.Fits cartridge)
    (h : ppu.beam.Adrift) (sprites : ∀ number ∈ ppu.lineSprites, number < 64) :
    ∃ after, phaseDot memory board ppu.phase ppu = .ok () after := by
  have hline : ppu.phase.Reaches ppu.scanline := h.line
  cases hp : ppu.phase with
  | preRender => exact ⟨_, rfl⟩
  | render =>
    rw [hp] at hline
    have hline : ppu.scanline.toNat ≤ 260 := hline
    obtain ⟨drawn, hdraw⟩ := renderEffect_answers hm hb sprites hp h.free
    have same := renderEffect_keeps course_undrawn memory board ppu _ _ hdraw
    have hscan : drawn.scanline = ppu.scanline := congrArg Course.scanline same
    have hnext : nextLine drawn.evaluateSprites = .ok () _ :=
      nextLine_answers (show drawn.scanline.toNat < 340 by rw [hscan]; omega)
    show ∃ after, renderDot memory board ppu = _
    unfold renderDot
    rw [bind_ok hdraw, bind_ok (get_ok _)]
    split
    · rw [bind_ok (modify_ok _ _), bind_ok hnext, bind_ok (get_ok _)]
      split <;> exact ⟨_, rfl⟩
    · exact ⟨_, rfl⟩
  | postRender =>
    rw [hp] at hline
    have hline : ppu.scanline.toNat ≤ 261 := hline
    show ∃ after, postRenderDot ppu = _
    unfold postRenderDot
    rw [bind_ok (get_ok _)]
    split
    · rw [bind_ok (nextLine_answers (by omega))]
      exact ⟨_, rfl⟩
    · exact ⟨_, rfl⟩
  | verticalBlank =>
    rw [hp] at hline
    have hline : ppu.scanline.toNat ≤ 262 := hline
    have same : ppu.verticalBlankEffect.scanline = ppu.scanline := by
      unfold verticalBlankEffect
      split <;> rfl
    show ∃ after, verticalBlankDot ppu = _
    unfold verticalBlankDot
    rw [bind_ok (modify_ok _ _), bind_ok (get_ok _)]
    split
    · rw [bind_ok (nextLine_answers (by rw [same]; omega)), bind_ok (get_ok _)]
      split <;> exact ⟨_, rfl⟩
    · exact ⟨_, rfl⟩

/-- A dot only needs memories that fit, sprites that exist, a line to draw on and room for its
count. -/
theorem tick_answers (hm : memory.Fits cartridge) (hb : board.Fits cartridge)
    (h : ppu.beam.Adrift) (sprites : ∀ number ∈ ppu.lineSprites, number < 64)
    (room : ppu.totalDots.toNat + 1 < UInt64.size) :
    ∃ after, tick memory board ppu = .ok () after := by
  obtain ⟨moved, hd⟩ := phaseDot_answers hm hb h sprites
  have count : moved.totalDots.toNat + 1 < UInt64.size := by rwa [phaseDot_total hd]
  rw [tick_eq, bind_ok hd]
  exact ⟨_, countDot_ok count moved.variant moved.screen⟩

/-! ## Dots that do not -/

theorem plot_strands (h : visibleLines ≤ ppu.scanline) (x : UInt8) (colour : UInt32) :
    plot x colour ppu = .error .indexOutOfRange ppu := by
  have low : 240 ≤ ppu.scanline.toNat := UInt16.le_iff_toNat_le.1 h
  refine dif_neg (Nat.not_lt_of_le ?_)
  simp only [screenWidth, screenHeight]
  omega

theorem drawPixel_strands (hm : memory.Fits cartridge) (hb : board.Fits cartridge)
    (sprites : ∀ number ∈ ppu.lineSprites, number < 64) (h : ppu.beam.Stranded) :
    ∃ change, OffBeam change ∧
      drawPixel memory board ppu = .error .indexOutOfRange (change ppu) := by
  obtain ⟨change, colour, hc, hdraw⟩ := drawPixel_plots hm hb sprites
  have hdraw := hdraw ppu.variant ppu.screen
  have same : (change ppu).beam = ppu.beam := hc.beam ppu
  have still : (change ppu).repaint ppu.variant ppu.screen = change ppu := by
    rw [show ppu.variant = (change ppu).variant from (congrArg Beam.variant same).symm,
      show ppu.screen = (change ppu).screen from (congrArg Beam.screen same).symm]
    rfl
  refine ⟨change, hc, ?_⟩
  have full : ppu.variant = .full := h.full
  rw [still, if_pos full] at hdraw
  have below : visibleLines ≤ (change ppu).scanline := by
    rw [show (change ppu).scanline = _ from congrArg Beam.scanline same]
    exact h.below
  rw [show drawPixel memory board ppu = _ from hdraw, plot_strands below]

/-- A stranded beam goes on to its first column, if that dot can be counted. -/
theorem tick_waits (h : ppu.beam.Stranded) (first : ppu.dot = 0) :
    (∃ total, tick memory board ppu = .ok () { ppu with dot := 1, totalDots := total }) ∨
      tick memory board ppu = .error .overflow { ppu with dot := 1 } := by
  have hp : ppu.phase = .render := h.drawing
  have hdraw : renderEffect memory board ppu = .ok () ppu := by
    unfold renderEffect
    rw [bind_ok (get_ok ppu), first]
    rfl
  have hdot : renderDot memory board ppu = .ok () { ppu with dot := 1 } := by
    unfold renderDot
    rw [bind_ok hdraw, bind_ok (get_ok ppu), first]
    show EStateM.Result.ok () { ppu with dot := ppu.dot + 1 } = _
    rw [first]
    rfl
  have work : phaseDot memory board ppu.phase = renderDot memory board := by
    rw [hp]
    rfl
  rw [tick_eq, work, bind_ok hdot]
  by_cases room : ppu.totalDots.toNat + 1 < UInt64.size
  · exact .inl ⟨_, @countDot_ok { ppu with dot := 1 } room ppu.variant ppu.screen⟩
  · exact .inr (@countDot_full { ppu with dot := 1 } room ppu.variant ppu.screen)

/-- There it stays. -/
theorem tick_strands (hm : memory.Fits cartridge) (hb : board.Fits cartridge)
    (sprites : ∀ number ∈ ppu.lineSprites, number < 64) (h : ppu.beam.Stranded)
    (reached : 0 < ppu.dot) : ∃ change, OffBeam change ∧
      tick memory board ppu = .error .indexOutOfRange (change ppu) := by
  obtain ⟨change, hc, hdraw⟩ := drawPixel_strands hm hb sprites h
  have hp : ppu.phase = .render := h.drawing
  have visible : (0 < ppu.dot && ppu.dot ≤ visibleDots) = true := by
    rw [decide_eq_true reached, decide_eq_true (show ppu.dot ≤ visibleDots from h.dot)]
    rfl
  have heffect : renderEffect memory board ppu = .error .indexOutOfRange (change ppu) := by
    unfold renderEffect
    rw [bind_ok (get_ok ppu), if_pos visible]
    exact hdraw
  have work : phaseDot memory board ppu.phase = renderDot memory board := by
    rw [hp]
    rfl
  refine ⟨change, hc, ?_⟩
  rw [tick_eq, work]
  exact bind_error (bind_error heffect)

end

end Famicom.Ppu
