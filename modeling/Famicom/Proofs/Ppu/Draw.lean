import Famicom.Proofs.Ppu.Access

/-!
# Drawing

What drawing does, said at once for all screens: the picture unit that it leaves and the pixels that
it puts on the screen, if the variant has one.
-/

namespace Famicom.Ppu

abbrev Screen := Vector UInt32 (screenWidth * screenHeight)

/-- A pixel on the screen. -/
structure Stroke where
  place : Fin (screenWidth * screenHeight)
  colour : UInt32

/-- The light variant paints nothing. -/
def paint (variant : Variant) (screen : Screen) (strokes : List Stroke) : Screen :=
  match variant with
  | .full => strokes.foldl (fun screen stroke => screen.set _ stroke.colour stroke.place.isLt) screen
  | .light => screen

theorem paint_nil (variant : Variant) (screen : Screen) : paint variant screen [] = screen := by
  cases variant <;> rfl

theorem paint_append (variant : Variant) (screen : Screen) (first second : List Stroke) :
    paint variant screen (first ++ second) = paint variant (paint variant screen first) second := by
  cases variant with
  | full => exact List.foldl_append
  | light => rfl

theorem paint_get_congr {s t : Screen} {i : Fin (screenWidth * screenHeight)}
    (h : s.get i = t.get i) (strokes : List Stroke) :
    (paint .full s strokes).get i = (paint .full t strokes).get i := by
  induction strokes generalizing s t with
  | nil => exact h
  | cons stroke rest ih =>
    apply ih
    rw [set_get, set_get, h]

/-- A pixel that is painted no longer depends on what was there. -/
theorem paint_get_of_mem (s t : Screen) {strokes : List Stroke} {stroke : Stroke}
    (h : stroke ∈ strokes) :
    (paint .full s strokes).get stroke.place = (paint .full t strokes).get stroke.place := by
  induction strokes generalizing s t with
  | nil => cases h
  | cons first rest ih =>
    rcases List.mem_cons.1 h with rfl | h
    · refine paint_get_congr ?_ rest
      rw [set_get, set_get, if_pos rfl, if_pos rfl]
    · exact ih _ _ h

/-- On every screen alike, an action goes on to a unit and paints strokes that `after` describes. -/
def Draws (action : Action Unit) (ppu : Ppu) (after : Ppu → List Stroke → Prop) : Prop :=
  ∃ moved strokes, after moved strokes ∧ ∀ variant screen,
    action (ppu.repaint variant screen) =
      .ok () (moved.repaint variant (paint variant screen strokes))

namespace Draws

variable {first second : Action Unit} {ppu : Ppu} {after after' : Ppu → List Stroke → Prop}

theorem mono (h : Draws first ppu after)
    (ha : ∀ moved strokes, after moved strokes → after' moved strokes) :
    Draws first ppu after' := by
  obtain ⟨moved, strokes, hm, hd⟩ := h
  exact ⟨moved, strokes, ha _ _ hm, hd⟩

theorem step {change : Ppu → Ppu} (hc : Blind change) (h : after (change ppu) []) :
    Draws (modify change) ppu after := by
  refine ⟨change ppu, [], h, ?_⟩
  intro variant screen
  rw [paint_nil, ← hc]
  rfl

theorem skip (h : after ppu []) : Draws (pure ()) ppu after :=
  ⟨ppu, [], h, fun variant screen => by rw [paint_nil]; rfl⟩

theorem followed (h : Draws first ppu after) (next : Action Unit) :
    ∃ moved strokes, after moved strokes ∧ ∀ variant screen,
      (do first; next : Action Unit) (ppu.repaint variant screen) =
        next (moved.repaint variant (paint variant screen strokes)) := by
  obtain ⟨moved, strokes, hm, hf⟩ := h
  refine ⟨moved, strokes, hm, ?_⟩
  intro variant screen
  exact bind_ok (hf variant screen)

theorem bind (h : Draws first ppu fun moved strokes =>
      Draws second moved fun last more => after last (strokes ++ more)) :
    Draws (do first; second) ppu after := by
  obtain ⟨moved, strokes, ⟨last, more, hl, hs⟩, hf⟩ := h.followed second
  refine ⟨last, strokes ++ more, hl, ?_⟩
  intro variant screen
  rw [hf, paint_append]
  exact hs _ _

/-- A look at anything but the screen. -/
theorem look {next : Ppu → Action Unit}
    (hn : ∀ variant screen, next (ppu.repaint variant screen) = next ppu)
    (h : Draws (next ppu) ppu after) : Draws (do next (← get)) ppu after := by
  obtain ⟨moved, strokes, hm, hd⟩ := h
  refine ⟨moved, strokes, hm, ?_⟩
  intro variant screen
  show next (ppu.repaint variant screen) (ppu.repaint variant screen) = _
  rw [hn, hd]

theorem ite {c : Prop} [Decidable c] (hf : c → Draws first ppu after)
    (hs : ¬c → Draws second ppu after) : Draws (if c then first else second) ppu after := by
  split
  · exact hf ‹_›
  · exact hs ‹_›

end Draws

/-! ## Rendering off the beam -/

theorem advanceColumn_offBeam (x : UInt8) : OffBeam fun ppu => ppu.advanceColumn x := by
  refine .choice (c := fun ppu => ppu.mask.showsBackground && ppu.fineColumn x = 7)
    (fun _ _ _ => Iff.rfl) ⟨fun ppu h => ?_, fun _ => rfl, fun _ _ _ => rfl⟩ .id
  exact { h with address := nextColumn_lt h.address }

theorem advanceRow_offBeam : OffBeam fun ppu => { ppu with address := nextRow ppu.address } where
  tame _ h := { h with address := nextRow_lt h.address }
  beam _ := rfl
  blind _ _ _ := rfl

theorem copyHorizontal_offBeam : OffBeam copyHorizontal where
  tame _ h :=
    { h with address := copyBits_lt _ h.nextAddress h.address }
  beam _ := rfl
  blind _ _ _ := rfl

theorem copyVertical_offBeam : OffBeam copyVertical where
  tame _ h :=
    { h with address := copyBits_lt _ h.nextAddress h.address }
  beam _ := rfl
  blind _ _ _ := rfl

theorem latchHit_offBeam (background : UInt8) (sprite : Option SpritePixel) :
    OffBeam fun ppu => ppu.latchHit background sprite := by
  refine .choice (c := fun _ => isOpaque background && sprite.any SpritePixel.isZero)
    (fun _ _ _ => Iff.rfl) ⟨fun ppu h => ?_, fun _ => rfl, fun _ _ _ => rfl⟩ .id
  exact { h with }

theorem findSprites_bounds (ppu : Ppu) (number room : Nat) :
    (∀ found ∈ ppu.findSprites number room, found < 64) ∧
      (ppu.findSprites number room).length ≤ room := by
  fun_induction findSprites ppu number room with
  | case1 => simp
  | case2 number room h onLine ih =>
    refine ⟨fun found hf => ?_, Nat.succ_le_succ ih.2⟩
    rcases List.mem_cons.1 hf with rfl | hf
    · rw [UInt8.lt_iff_toNat_lt, UInt8.toNat_ofNat']
      simp only [UInt8.reduceToNat]
      omega
    · exact ih.1 found hf
  | case3 number room h onLine ih => exact ih
  | case4 => simp

theorem findSprites_le (ppu : Ppu) (number room : Nat) :
    ∀ found ∈ ppu.findSprites number room, number ≤ found.toNat := by
  fun_induction findSprites ppu number room with
  | case1 => simp
  | case2 number room h onLine ih =>
    intro found hf
    rcases List.mem_cons.1 hf with rfl | hf
    · exact Nat.le_of_eq (UInt8.toNat_ofNat_of_lt' (Nat.lt_trans h (by decide))).symm
    · exact Nat.le_of_succ_le (ih found hf)
  | case3 number room h onLine ih => exact fun found hf => Nat.le_of_succ_le (ih found hf)
  | case4 => simp

theorem findSprites_congr {p q : Ppu} (oam : p.oam = q.oam) (control : p.control = q.control)
    (scanline : p.scanline = q.scanline) (number room : Nat) :
    p.findSprites number room = q.findSprites number room := by
  have same : ∀ number, p.isOnLine number = q.isOnLine number := by
    intro number
    unfold isOnLine sprite?
    rw [oam, control, scanline]
  fun_induction findSprites q number room with
  | case1 => rw [findSprites]
  | case2 number room h onLine ih => rw [findSprites, dif_pos h, same, if_pos onLine, ih]
  | case3 number room h onLine ih => rw [findSprites, dif_pos h, same, if_neg onLine, ih]
  | case4 number room h => rw [findSprites, dif_neg h]

theorem evaluateSprites_offBeam : OffBeam evaluateSprites where
  tame ppu h := by
    obtain ⟨numbers, room⟩ := findSprites_bounds ppu (ppu.oamAddress.toNat / 4) spritesPerLine
    exact { h with sprites := numbers, room := room }
  beam _ := rfl
  blind ppu variant screen := by
    unfold evaluateSprites
    rw [findSprites_congr (p := ppu.repaint variant screen) (q := ppu) rfl rfl rfl]
    rfl

/-! ## Pixels -/

section
variable {cartridge : Cartridge} {memory : PictureMemory} {board : Board}

theorem patternPixel_ok (hm : memory.Fits cartridge) (hb : board.Fits cartridge) (row : UInt16)
    (shift : UInt8) : ∃ pattern, patternPixel memory board row shift = .ok pattern := by
  obtain ⟨low, hl⟩ := PictureMemory.read_ok hm hb row
  obtain ⟨high, hh⟩ := PictureMemory.read_ok hm hb (row + 8)
  refine ⟨planePixel low high shift, ?_⟩
  unfold patternPixel
  rw [hl, hh]
  rfl

/-- The palette bits do not make a pixel opaque. -/
theorem isOpaque_or_palette (pattern palette : UInt8) :
    isOpaque (pattern ||| palette * 4) = isOpaque pattern := by
  have low : (pattern ||| palette * 4) &&& 0x03 = pattern &&& 0x03 := by
    apply UInt8.toNat_inj.1
    have := Nat.and_two_pow_sub_one_eq_mod (palette.toNat * 4 % 256) 2
    rw [UInt8.toNat_and, UInt8.toNat_or, UInt8.toNat_mul, Nat.and_or_distrib_right,
      UInt8.toNat_and]
    simp only [Nat.reducePow, Nat.reduceSub, UInt8.reduceToNat] at this ⊢
    rw [this, show palette.toNat * 4 % 256 % 4 = 0 by omega, Nat.or_zero]
  unfold isOpaque
  rw [low]

/-- The two variants may read different background pixels, but both or neither are opaque. -/
theorem backgroundPixel_ok (hm : memory.Fits cartridge) (hb : board.Fits cartridge) (ppu : Ppu)
    (x : UInt8) : ∃ pixel : Variant → UInt8, isOpaque (pixel .light) = isOpaque (pixel .full) ∧
      ∀ variant screen,
        (ppu.repaint variant screen).backgroundPixel memory board x = .ok (pixel variant) := by
  obtain ⟨tile, ht⟩ := PictureMemory.read_ok hm hb (tileAddress ppu.address)
  obtain ⟨pattern, hp⟩ := patternPixel_ok hm hb (ppu.backgroundRow tile) (7 - ppu.fineColumn x)
  obtain ⟨quadrants, hq⟩ := PictureMemory.read_ok hm hb (attributeAddress ppu.address)
  by_cases shown : (ppu.mask.showsBackground && (!ppu.mask.hidesEdgeBackground || 8 ≤ x)) = true
  · refine ⟨fun variant => if variant = .full ∧ pattern ≠ 0 then
      pattern ||| (quadrants >>> attributeShift ppu.address) % 4 * 4 else pattern, ?_, ?_⟩
    · by_cases transparent : pattern = 0
      · simp [transparent]
      · simp [transparent, isOpaque_or_palette]
    · intro variant screen
      refine (if_pos shown).trans ?_
      show (memory.read board (tileAddress ppu.address) >>= _) = _
      rw [ht]
      show (patternPixel memory board (ppu.backgroundRow tile) (7 - ppu.fineColumn x) >>= _) = _
      rw [hp]
      show (if variant = .full ∧ pattern ≠ 0 then
        memory.read board (attributeAddress ppu.address) >>= _ else _) = _
      rw [hq]
      dsimp only
      split <;> rfl
  · exact ⟨fun _ => 0, rfl, fun variant screen => if_neg shown⟩

theorem sprite?_eq_some (ppu : Ppu) {number : UInt8} (h : number < 64) :
    ∃ sprite, ppu.sprite? number = some sprite :=
  ⟨_, dif_pos (UInt8.lt_iff_toNat_lt.1 h)⟩

theorem firstSpritePixel_ok (hm : memory.Fits cartridge) (hb : board.Fits cartridge) (ppu : Ppu)
    (x : UInt8) {numbers : List UInt8} (h : ∀ number ∈ numbers, number < 64) :
    ∃ pixel, ∀ variant screen,
      (ppu.repaint variant screen).firstSpritePixel memory board x numbers = .ok pixel := by
  induction numbers with
  | nil => exact ⟨none, fun _ _ => rfl⟩
  | cons number rest ih =>
    obtain ⟨later, hlater⟩ := ih fun number hn => h number (List.mem_cons_of_mem _ hn)
    obtain ⟨sprite, hs⟩ := ppu.sprite?_eq_some (h number List.mem_cons_self)
    obtain ⟨pattern, hp⟩ := patternPixel_ok hm hb (sprite.rowAddress ppu.control ppu.scanline)
      (sprite.patternShift x)
    have found : ∀ variant screen, (ppu.repaint variant screen).sprite? number = some sprite :=
      fun _ _ => hs
    have fetched : ∀ variant screen, patternPixel memory board
        (sprite.rowAddress (ppu.repaint variant screen).control
          (ppu.repaint variant screen).scanline) (sprite.patternShift x) = .ok pattern :=
      fun _ _ => hp
    by_cases covers : sprite.covers x
    · by_cases transparent : pattern = 0
      · refine ⟨later, ?_⟩
        intro variant screen
        rw [firstSpritePixel, found]
        dsimp only
        rw [if_pos covers, fetched]
        exact (if_pos transparent).trans (hlater variant screen)
      · refine ⟨some ⟨0x10 ||| sprite.attributes % 4 * 4 ||| pattern, sprite.isInFront, number == 0⟩,
          fun variant screen => ?_⟩
        rw [firstSpritePixel, found]
        dsimp only
        rw [if_pos covers, fetched]
        exact if_neg transparent
    · refine ⟨later, ?_⟩
      intro variant screen
      rw [firstSpritePixel, found]
      dsimp only
      rw [if_neg covers]
      exact hlater variant screen

theorem spritePixel_ok (hm : memory.Fits cartridge) (hb : board.Fits cartridge) {ppu : Ppu}
    (h : ∀ number ∈ ppu.lineSprites, number < 64) (x : UInt8) : ∃ pixel, ∀ variant screen,
      (ppu.repaint variant screen).spritePixel memory board x = .ok pixel := by
  by_cases shown : (ppu.mask.showsSprites && (!ppu.mask.hidesEdgeSprites || 8 ≤ x)) = true
  · obtain ⟨pixel, hp⟩ := firstSpritePixel_ok hm hb ppu x h
    exact ⟨pixel, fun variant screen => (if_pos shown).trans (hp variant screen)⟩
  · exact ⟨none, fun variant screen => if_neg shown⟩

theorem latchHit_congr (ppu : Ppu) {first second : UInt8} (h : isOpaque first = isOpaque second)
    (sprite : Option SpritePixel) : ppu.latchHit first sprite = ppu.latchHit second sprite := by
  unfold latchHit
  rw [h]

/-- The place of a column in a line of the screen. -/
theorem place_lt {line : Nat} (h : line < 240) (x : UInt8) :
    line * screenWidth + x.toNat < screenWidth * screenHeight := by
  have := x.toNat_lt
  simp only [screenWidth, screenHeight]
  omega

theorem plot_ok {ppu : Ppu} {line : Nat} (hl : ppu.scanline.toNat = line) (h : line < 240)
    (x : UInt8) (colour : UInt32) :
    plot x colour ppu = .ok ()
      { ppu with screen := paint .full ppu.screen [⟨⟨_, place_lt h x⟩, colour⟩] } := by
  subst hl
  exact dif_pos (place_lt h x)

theorem latchHit_mask (ppu : Ppu) (background : UInt8) (sprite : Option SpritePixel) :
    (ppu.latchHit background sprite).mask = ppu.mask := by
  unfold latchHit
  split <;> rfl

theorem advanceColumn_mask (ppu : Ppu) (x : UInt8) : (ppu.advanceColumn x).mask = ppu.mask := by
  unfold advanceColumn
  split <;> rfl

theorem inspect_ok {α : Type} {f : Ppu → Except Fault α} {ppu : Ppu} {value : α}
    (h : f ppu = .ok value) : inspect f ppu = .ok value ppu := by
  unfold inspect
  rw [h]

theorem advanceColumn_lineSprites (ppu : Ppu) (x : UInt8) :
    (ppu.advanceColumn x).lineSprites = ppu.lineSprites := by
  unfold advanceColumn
  split <;> rfl

/-- Drawing works off the beam on every screen alike, and then puts one pixel on a full one. -/
theorem drawPixel_plots (hm : memory.Fits cartridge) (hb : board.Fits cartridge) {ppu : Ppu}
    (sprites : ∀ number ∈ ppu.lineSprites, number < 64) :
    ∃ change colour, OffBeam change ∧ ∀ variant screen,
      drawPixel memory board (ppu.repaint variant screen) =
        (if variant = .full then plot (ppu.dot - 1).toUInt8 colour else pure () : Action Unit)
          ((change ppu).repaint variant screen) := by
  generalize hx : (ppu.dot - 1).toUInt8 = x
  obtain ⟨background, alike, hbg⟩ := backgroundPixel_ok hm hb ppu x
  have hadvance := advanceColumn_offBeam x
  rw [← advanceColumn_lineSprites ppu x] at sprites
  obtain ⟨sprite, hs⟩ := spritePixel_ok hm hb sprites x
  have hlatch := latchHit_offBeam (background .full) sprite
  refine ⟨_, resolve ppu.mask memory (compose (background .full) sprite), hlatch.comp hadvance, ?_⟩
  intro variant screen
  have column : ((ppu.repaint variant screen).dot - 1).toUInt8 = x := hx
  have advanced : (ppu.repaint variant screen).advanceColumn x =
      (ppu.advanceColumn x).repaint variant screen := hadvance.blind ppu variant screen
  have latched : ((ppu.advanceColumn x).repaint variant screen).latchHit (background variant)
      sprite = ((ppu.advanceColumn x).latchHit (background .full) sprite).repaint variant screen := by
    refine Eq.trans ?_ (hlatch.blind (ppu.advanceColumn x) variant screen)
    cases variant with
    | full => rfl
    | light => exact latchHit_congr _ alike sprite
  unfold drawPixel
  rw [bind_ok (get_ok _), column, bind_ok (inspect_ok (hbg variant screen)),
    bind_ok (modify_ok _ _), advanced, bind_ok (inspect_ok (hs variant screen)),
    bind_ok (modify_ok _ _), latched, bind_ok (get_ok _)]
  cases variant with
  | light => rfl
  | full =>
    have mask := (latchHit_mask (ppu.advanceColumn x) (background .full) sprite).trans
      (advanceColumn_mask ppu x)
    rw [← mask]
    rfl

/-- Drawing puts one pixel on the line and changes nothing else about the beam. -/
theorem drawPixel_draws (hm : memory.Fits cartridge) (hb : board.Fits cartridge) {ppu : Ppu}
    (sprites : ∀ number ∈ ppu.lineSprites, number < 64) (hline : ppu.scanline.toNat < 240) :
    Draws (drawPixel memory board) ppu fun moved strokes =>
      (∃ change, OffBeam change ∧ moved = change ppu) ∧
        ∃ colour, strokes = [⟨⟨_, place_lt hline (ppu.dot - 1).toUInt8⟩, colour⟩] := by
  obtain ⟨change, colour, hc, hdraw⟩ := drawPixel_plots hm hb sprites
  refine ⟨change ppu, _, ⟨⟨change, hc, rfl⟩, colour, rfl⟩, ?_⟩
  intro variant screen
  rw [hdraw]
  cases variant with
  | light => rfl
  | full =>
    have line : ((change ppu).repaint .full screen).scanline.toNat = ppu.scanline.toNat :=
      congrArg (fun beam => beam.scanline.toNat) (hc.beam ppu)
    exact plot_ok line hline _ colour

end

end Famicom.Ppu
