import Famicom.Proofs.Ppu.Composition

/-!
# The status register as a history

What the status register tells of the work that the picture unit has done: whether the vertical blank
was the last thing to happen to its flag, and whether sprite 0 has hit the background since the frame
began.
-/

namespace Famicom

namespace Ppu

variable {memory : PictureMemory} {board : Board} {ppu after : Ppu} {value : Unit}

/-! ## Sprite 0 in the list -/

/-- If sprite 0 is listed, it comes before all others. -/
def ZeroFirst (ppu : Ppu) : Prop := 0 ∈ ppu.lineSprites → ∃ rest, ppu.lineSprites = 0 :: rest

theorem findSprites_zeroFirst (ppu : Ppu) (number room : Nat) (h : 0 ∈ ppu.findSprites number room) :
    ∃ rest, ppu.findSprites number room = 0 :: rest := by
  obtain rfl : number = 0 := Nat.le_zero.1 (ppu.findSprites_le number room 0 h)
  cases room with
  | zero => simp [findSprites] at h
  | succ room =>
    rw [findSprites, dif_pos (by decide)] at h ⊢
    split at h
    · exact ⟨_, if_pos ‹_›⟩
    · exact absurd (ppu.findSprites_le _ _ 0 h) (by decide)

/-! ## What leaves the status alone -/

/-- The dot that starts a frame, where the flags of the last one are cleared. -/
def startsFrame (ppu : Ppu) : Bool := ppu.phase = .preRender && ppu.dot = 1

theorem status_unmoved : Unmoved status := fun _ _ _ _ _ _ _ => rfl

/-- Outside the columns of the picture a line leaves the status alone. -/
theorem renderEffect_status (outside : ¬(0 < ppu.dot ∧ ppu.dot ≤ visibleDots))
    (h : renderEffect memory board ppu = .ok value after) : after.status = ppu.status := by
  unfold renderEffect at h
  rw [bind_ok (get_ok ppu), if_neg (by simpa using outside)] at h
  rw [bind_ok (get_ok ppu)] at h
  split at h
  · cases h
    rfl
  · rw [bind_ok (get_ok ppu)] at h
    split at h <;> cases h <;> rfl

theorem preRenderEffect_status (ppu : Ppu) : ppu.preRenderEffect.status =
    if ppu.dot = 1 then { ppu.status with vblank := false, spriteZeroHit := false }
    else ppu.status := by
  unfold preRenderEffect
  split
  · rfl
  split
  · rfl
  split <;> rfl

end Ppu

namespace Video

variable {video after : Video} {value : Unit} {x y : Nat}

/-! ## Hits -/

/-- Both layers are shown in a column of a line, and neither is transparent there: not the tile under
the current address, and not sprite 0, which the line lists. -/
structure ZeroHits (video : Video) (x y : Nat) : Prop where
  background : video.ppu.mask.shows 3 1 x = true
  sprites : video.ppu.mask.shows 4 2 x = true
  tile : video.tileAt x ≠ 0
  listed : 0 ∈ video.ppu.lineSprites
  spans : (video.ppu.numbered 0).Spans x
  zero : video.spriteAt (video.ppu.numbered 0) x y ≠ 0

/-- The dot draws a pixel in which sprite 0 hits. -/
def HitsHere (video : Video) : Prop :=
  ∃ x y, x < 256 ∧ video.ppu.position = ⟨.render, y, x + 1⟩ ∧ video.ZeroHits x y

theorem isOpaque_ofNat {pattern : Nat} (h : pattern < 4) :
    Ppu.isOpaque (UInt8.ofNat pattern) = true ↔ pattern ≠ 0 := by
  have each : ∀ pattern < 4, Ppu.isOpaque (UInt8.ofNat pattern) = true ↔ pattern ≠ 0 := by decide
  exact each pattern h

theorem isOpaque_tilePixel {pixel : UInt8} (hx : x < 256)
    (h : video.ppu.tilePixel video.memory video.board (UInt8.ofNat x) = .ok pixel) :
    Ppu.isOpaque pixel = true ↔ video.tileAt x ≠ 0 := by
  unfold Ppu.tilePixel at h
  cases ht : video.memory.read video.board (Ppu.tileAddress video.ppu.address) with
  | error fault => simp [ht, bind, Except.bind] at h
  | ok tile =>
    cases hp : Ppu.patternPixel video.memory video.board (video.ppu.backgroundRow tile)
        (7 - video.ppu.fineColumn (UInt8.ofNat x)) with
    | error fault => simp [ht, hp, bind, Except.bind] at h
    | ok pattern =>
      have same : Ppu.isOpaque pixel = Ppu.isOpaque pattern := by
        simp only [ht, hp, bind, Except.bind, pure, Except.pure] at h
        split at h
        · split at h
          · cases h
          · cases h
            exact Ppu.isOpaque_or_palette _ _
        · cases h
          rfl
      rw [same, tilePattern_eq hx ht hp, isOpaque_ofNat (video.tileAt_lt x)]

theorem isOpaque_backgroundPixel {background : UInt8} (hx : x < 256)
    (h : video.ppu.backgroundPixel video.memory video.board (UInt8.ofNat x) = .ok background) :
    Ppu.isOpaque background = true ↔
      video.ppu.mask.shows 3 1 x = true ∧ video.tileAt x ≠ 0 := by
  have layer := shows_eq video.ppu.mask (by decide : (0x08 : UInt8).toNat = 2 ^ 3)
    (by decide : (0x02 : UInt8).toNat = 2 ^ 1) hx
  unfold Ppu.backgroundPixel at h
  rw [show (video.ppu.mask.showsBackground && (!video.ppu.mask.hidesEdgeBackground ||
    8 ≤ UInt8.ofNat x)) = video.ppu.mask.shows 3 1 x from layer] at h
  by_cases shown : video.ppu.mask.shows 3 1 x = true
  · rw [if_pos shown] at h
    rw [isOpaque_tilePixel hx h, and_iff_right shown]
  · rw [if_neg shown] at h
    cases h
    simp [shown, Ppu.isOpaque]

/-- Sprites in front of sprite 0 could hide it, but none is. -/
theorem zeroPixel_iff (first : video.ppu.ZeroFirst) (hx : x < 256)
    (hy : video.ppu.scanline.toNat = y) {sprite : Option Ppu.SpritePixel}
    (h : video.ppu.spritePixel video.memory video.board (UInt8.ofNat x) = .ok sprite) :
    sprite.any Ppu.SpritePixel.isZero = true ↔
      video.ppu.mask.shows 4 2 x = true ∧ 0 ∈ video.ppu.lineSprites ∧
        (video.ppu.numbered 0).Spans x ∧ video.spriteAt (video.ppu.numbered 0) x y ≠ 0 := by
  have layer := shows_eq video.ppu.mask (by decide : (0x10 : UInt8).toNat = 2 ^ 4)
    (by decide : (0x04 : UInt8).toNat = 2 ^ 2) hx
  have shown : (video.ppu.mask.showsSprites && (!video.ppu.mask.hidesEdgeSprites ||
    8 ≤ UInt8.ofNat x)) = video.ppu.mask.shows 4 2 x := layer
  have zero : video.ppu.sprite? 0 = some (video.ppu.numbered 0) :=
    Ppu.sprite?_numbered (by decide)
  have small := video.spriteAt_lt (video.ppu.numbered 0) x y
  constructor
  · intro hit
    obtain ⟨pixel, rfl, owned⟩ := (Option.any_eq_true _ _).1 hit
    obtain ⟨number, listed, found, of⟩ := Ppu.spritePixel_of h
    obtain rfl : number = 0 := beq_iff_eq.1 (of.isZero.symm.trans owned)
    obtain rfl : found = video.ppu.numbered 0 := Option.some.inj (of.sprite_eq.symm.trans zero)
    obtain ⟨pattern, hp, visible, -⟩ := of.pattern
    have spans := (Ppu.Sprite.covers_iff hx).1 of.covers
    rw [spritePattern_eq hx spans hy hp, ne_eq, ofNat_eq_zero_iff small] at visible
    refine ⟨?_, listed, spans, visible⟩
    -- A hidden layer has no pixel at all.
    by_contra hidden
    rw [Ppu.spritePixel, shown, if_neg hidden] at h
    cases h
  · rintro ⟨shows, listed, spans, visible⟩
    obtain ⟨rest, list⟩ := first listed
    rw [Ppu.spritePixel, shown, if_pos shows, list, Ppu.firstSpritePixel, zero] at h
    dsimp only at h
    rw [if_pos ((Ppu.Sprite.covers_iff hx).2 spans)] at h
    cases hp : Ppu.patternPixel video.memory video.board
        ((video.ppu.numbered 0).rowAddress video.ppu.control video.ppu.scanline)
        ((video.ppu.numbered 0).patternShift (UInt8.ofNat x)) with
    | error fault => simp [hp, bind, Except.bind] at h
    | ok pattern =>
      have solid : pattern ≠ 0 := by
        rwa [spritePattern_eq hx spans hy hp, ne_eq, ofNat_eq_zero_iff small]
      simp only [hp, bind, Except.bind, if_neg solid, pure, Except.pure, Except.ok.injEq] at h
      rw [← h]
      rfl

theorem latchHit_status (first : video.ppu.ZeroFirst) (hx : x < 256)
    (hy : video.ppu.scanline.toNat = y) {background : UInt8} {sprite : Option Ppu.SpritePixel}
    (hb : video.ppu.backgroundPixel video.memory video.board (UInt8.ofNat x) = .ok background)
    (hs : video.ppu.spritePixel video.memory video.board (UInt8.ofNat x) = .ok sprite) :
    ((video.ppu.latchHit background sprite).status.spriteZeroHit = true ↔
      video.ZeroHits x y ∨ video.ppu.status.spriteZeroHit = true) ∧
    (video.ppu.latchHit background sprite).status =
      { video.ppu.status with
        spriteZeroHit := (video.ppu.latchHit background sprite).status.spriteZeroHit } := by
  have hits : (Ppu.isOpaque background && sprite.any Ppu.SpritePixel.isZero) = true ↔
      video.ZeroHits x y := by
    rw [Bool.and_eq_true, isOpaque_backgroundPixel hx hb, zeroPixel_iff first hx hy hs]
    constructor
    · rintro ⟨⟨background, tile⟩, sprites, listed, spans, zero⟩
      exact ⟨background, sprites, tile, listed, spans, zero⟩
    · intro hits
      exact ⟨⟨hits.background, hits.tile⟩, hits.sprites, hits.listed, hits.spans, hits.zero⟩
  unfold Ppu.latchHit
  split
  · rename_i latched
    simp [hits.1 latched]
  · rename_i missed
    simp [mt hits.2 missed]

/-! ## A dot -/

/-- What a dot makes of the status. -/
structure Restates (video : Video) (status : Ppu.Status) : Prop where
  vblank : status.vblank =
    (video.ppu.startsVblank || (video.ppu.status.vblank && !video.ppu.startsFrame))
  hit : status.spriteZeroHit = true ↔
    video.HitsHere ∨ (video.ppu.status.spriteZeroHit = true ∧ video.ppu.startsFrame = false)
  overflow : status.spriteOverflow = video.ppu.status.spriteOverflow

/-- Only the picture is hit. -/
theorem HitsHere.phase (h : video.HitsHere) : video.ppu.phase = .render := by
  obtain ⟨_, _, _, visible, _⟩ := h
  exact congrArg Position.phase visible

theorem renderDot_restates {drawn : Ppu} (first : video.ppu.ZeroFirst)
    (hp : video.ppu.phase = .render)
    (h : Ppu.renderDot video.memory video.board video.ppu = .ok value drawn) :
    video.Restates drawn.status := by
  obtain ⟨_, drawn, hdraw, hend⟩ := of_bind_ok h
  rw [Ppu.lineEnd_keeps Ppu.status_unmoved drawn _ _ hend]
  by_cases visible : 0 < video.ppu.dot ∧ video.ppu.dot ≤ Ppu.visibleDots
  · obtain ⟨low, high⟩ := visible
    obtain ⟨x, hx, hd⟩ : ∃ x < 256, video.ppu.dot.toNat = x + 1 := by
      rw [UInt16.lt_iff_toNat_lt] at low
      rw [UInt16.le_iff_toNat_le] at high
      simp only [Ppu.visibleDots, UInt16.reduceToNat] at low high
      exact ⟨video.ppu.dot.toNat - 1, by omega, by omega⟩
    obtain ⟨background, sprite, mixes⟩ := Ppu.renderEffect_mixes low high hdraw
    rw [(Ppu.visible_column hx hd).2.2] at mixes
    obtain ⟨hit, rest⟩ := latchHit_status first hx rfl mixes.background_eq mixes.sprite_eq
    have here : video.HitsHere ↔ video.ZeroHits x video.ppu.scanline.toNat := by
      constructor
      · rintro ⟨column, _, -, place, hits⟩
        obtain rfl : video.ppu.scanline.toNat = _ := congrArg Position.line place
        obtain rfl : column = x := by
          have : video.ppu.dot.toNat = column + 1 := congrArg Position.dot place
          omega
        exact hits
      · exact fun hits => ⟨x, _, hx, by rw [Ppu.position, hp, hd], hits⟩
    rw [mixes.status, rest]
    constructor <;> simp [Ppu.startsVblank, Ppu.startsFrame, hp, here, hit]
  · have missed : ¬video.HitsHere := by
      rintro ⟨x, y, hx, place, -⟩
      obtain ⟨low, high, -⟩ := Ppu.visible_column hx (congrArg Position.dot place)
      exact visible ⟨low, high⟩
    rw [Ppu.renderEffect_status visible hdraw]
    constructor <;> simp [Ppu.startsVblank, Ppu.startsFrame, hp, missed]

theorem dot_restates (first : video.ppu.ZeroFirst) (h : dot video = .ok value after) :
    video.Restates after.ppu.status := by
  have ticked := (dot_eq h).1
  rw [Ppu.tick_eq] at ticked
  obtain ⟨_, moved, hdot, hcount⟩ := of_bind_ok ticked
  have same : after.ppu.status = moved.status := by
    rw [(Ppu.countDot_eq hcount).1]
  have missed (other : video.ppu.phase ≠ .render) : ¬video.HitsHere := fun hits => other hits.phase
  rw [same]
  cases hp : video.ppu.phase with
  | preRender =>
    have missed := missed (by simp [hp])
    rw [hp] at hdot
    cases hdot
    rw [Ppu.preRenderDot_keeps Ppu.status_unmoved, Ppu.preRenderEffect_status]
    by_cases starts : video.ppu.dot = 1
    · rw [if_pos starts]
      constructor <;> simp [Ppu.startsVblank, Ppu.startsFrame, missed, hp, starts]
    · rw [if_neg starts]
      constructor <;> simp [Ppu.startsVblank, Ppu.startsFrame, missed, hp, starts]
  | render =>
    rw [hp] at hdot
    exact renderDot_restates first hp hdot
  | postRender =>
    have missed := missed (by simp [hp])
    rw [hp] at hdot
    rw [Ppu.postRenderDot_keeps Ppu.status_unmoved _ _ _ hdot]
    constructor <;> simp [Ppu.startsVblank, Ppu.startsFrame, missed, hp]
  | verticalBlank =>
    have missed := missed (by simp [hp])
    rw [hp] at hdot
    have same : moved.status = video.ppu.verticalBlankEffect.status :=
      Ppu.frameEnd_keeps Ppu.status_unmoved video.ppu.verticalBlankEffect _ _ hdot
    rw [same, Ppu.verticalBlankEffect]
    by_cases starts : video.ppu.startsVblank = true
    · rw [if_pos starts]
      constructor <;> simp [starts, Ppu.startsFrame, missed, hp]
    · rw [if_neg starts]
      constructor <;> simp [starts, Ppu.startsFrame, missed, hp]

/-! ## Histories -/

/-- What is done to a picture unit. What it draws from may change at any time. -/
inductive Work
  | dot
  | serve (access : Access)
  | reset
  | rewire (memory : PictureMemory) (board : Board)

def Work.run : Work → Action Unit
  | .dot => Video.dot
  | .serve access => Video.serve access
  | .reset => modifyPpu Ppu.reset
  | .rewire memory board => modify fun video => ⟨video.ppu, memory, board⟩

/-- A piece of work, and what it found. -/
structure Moment where
  work : Work
  found : Video

/-- All that was done since power-on or a reset, the latest first. Each piece of work was answered. -/
inductive History : List Moment → Video → Prop
  | powerOn (variant : Ppu.Variant) (memory : PictureMemory) (board : Board) :
      History [] ⟨.powerOn variant, memory, board⟩
  | reset (ppu : Ppu) (memory : PictureMemory) (board : Board) :
      History [] ⟨ppu.reset, memory, board⟩
  | next {moments : List Moment} {video after : Video} (work : Work) : History moments video →
      work.run video = .ok () after → History (⟨work, video⟩ :: moments) after

/-- What the flag of the vertical blank speaks of. -/
inductive Mark
  | verticalBlank
  | preRender
  | read
  | reset
deriving DecidableEq, Repr

namespace Moment

/-- What a moment marks the flag of the vertical blank with, if it touches it. -/
def mark? (moment : Moment) : Option Mark :=
  match moment.work with
  | .dot =>
    if moment.found.ppu.position = ⟨.verticalBlank, 241, 1⟩ then some .verticalBlank
    else if moment.found.ppu.phase = .preRender ∧ moment.found.ppu.dot = 1 then some .preRender
    else none
  | .serve .readStatus => some .read
  | .reset => some .reset
  | _ => none

/-- Nothing was known of sprite 0 before this. -/
def begins (moment : Moment) : Bool :=
  moment.mark? = some .preRender || moment.mark? = some .reset

/-- A visible dot was drawn in which sprite 0 hits the background. -/
def Hits (moment : Moment) : Prop :=
  moment.work = .dot ∧ moment.found.HitsHere

end Moment

/-- What is done and seen since the frame began. -/
def sinceFrame (moments : List Moment) : List Moment := moments.takeWhile fun moment => !moment.begins

variable {moments : List Moment}

theorem serveAll_history (past : History moments video) (accesses : List Access)
    (h : serveAll accesses video = .ok () after) : ∃ later, History later after := by
  induction accesses generalizing video moments with
  | nil =>
    cases h
    exact ⟨moments, past⟩
  | cons access rest ih =>
    obtain ⟨_, served, hs, h⟩ := of_bind_ok h
    exact ih (past.next (.serve access) hs) h

/-- All that comes before a dot of a program is a history. -/
theorem call_history (past : History moments video) (schedule : Schedule) (n : Nat)
    (h : call schedule n video = .ok () after) : ∃ later, History later after := by
  induction n generalizing after with
  | zero =>
    obtain ⟨reached, hr, hs⟩ := run_of_call h
    cases hr
    exact serveAll_history past _ hs
  | succ n ih =>
    obtain ⟨reached, hr, hs⟩ := run_of_call h
    obtain ⟨called, hc, hd⟩ := call_of_run hr
    obtain ⟨later, before⟩ := ih hc
    exact serveAll_history (before.next .dot hd) _ hs

/-! ## One piece of work -/

/-- What holds of every picture unit that was never loaded from a state. -/
structure Unloaded (ppu : Ppu) : Prop extends ppu.Placed where
  first : ppu.ZeroFirst
  overflow : ppu.status.spriteOverflow = false

theorem reset_unloaded (ppu : Ppu) : Unloaded ppu.reset where
  toPlaced := ppu.reset_inRange.toPlaced
  first := fun listed => absurd listed List.not_mem_nil
  overflow := rfl

theorem powerOn_unloaded (variant : Ppu.Variant) : Unloaded (.powerOn variant) :=
  reset_unloaded (.powerOn variant)

theorem serve_status {access : Access} (other : access ≠ .readStatus)
    (h : serve access video = .ok value after) : after.ppu.status = video.ppu.status :=
  serve_keeps (fun _ _ _ _ _ _ _ _ _ _ _ => rfl) access (fun read => absurd read other) h

theorem serve_readStatus (h : serve .readStatus video = .ok value after) :
    after.ppu.status = { video.ppu.status with vblank := false } := by
  cases h
  rfl

theorem dot_unloaded (kept : Unloaded video.ppu) (h : dot video = .ok value after) :
    Unloaded after.ppu := by
  have ticked := (dot_eq h).1
  have steps := Ppu.tick_steps kept.toPlaced ticked
  refine ⟨steps.toPlaced, ?_, (dot_restates kept.first h).overflow.trans kept.overflow⟩
  unfold Ppu.ZeroFirst
  rw [steps.sprites]
  split
  · exact Ppu.findSprites_zeroFirst _ _ _
  · exact kept.first

/-- An access reaches no flag but that of the vertical blank. -/
theorem serve_flags (access : Access) (h : serve access video = .ok value after) :
    after.ppu.status.spriteZeroHit = video.ppu.status.spriteZeroHit ∧
      after.ppu.status.spriteOverflow = video.ppu.status.spriteOverflow := by
  have unserved : Unserved fun ppu => (ppu.status.spriteZeroHit, ppu.status.spriteOverflow) :=
    fun _ _ _ _ _ _ _ _ _ _ _ => rfl
  exact Prod.mk.inj (serve_keeps unserved access (fun _ => rfl) h)

theorem serve_unloaded (kept : Unloaded video.ppu) (access : Access)
    (h : serve access video = .ok value after) : Unloaded after.ppu := by
  have course := serve_course access h
  have sprites : after.ppu.lineSprites = video.ppu.lineSprites :=
    congrArg Ppu.Course.lineSprites course
  refine ⟨placed_of_course course kept.toPlaced, ?_, (serve_flags access h).2.trans kept.overflow⟩
  unfold Ppu.ZeroFirst
  rw [sprites]
  exact kept.first

theorem work_unloaded (kept : Unloaded video.ppu) (work : Work)
    (h : work.run video = .ok value after) : Unloaded after.ppu := by
  cases work with
  | dot => exact dot_unloaded kept h
  | serve access => exact serve_unloaded kept access h
  | reset =>
    cases h
    exact reset_unloaded video.ppu
  | rewire memory board =>
    cases h
    exact kept

theorem History.unloaded (past : History moments video) : Unloaded video.ppu := by
  induction past with
  | powerOn variant => exact powerOn_unloaded variant
  | reset ppu => exact reset_unloaded ppu
  | next work past h ih => exact work_unloaded ih work h

theorem startsVblank_iff {ppu : Ppu} :
    ppu.startsVblank = true ↔ ppu.position = ⟨.verticalBlank, 241, 1⟩ := by
  simp only [Ppu.startsVblank, Ppu.position, Ppu.vblankLine, ← UInt16.toNat_inj, Bool.and_eq_true,
    decide_eq_true_eq, Position.mk.injEq, UInt16.reduceToNat]
  rw [and_assoc, and_comm (a := ppu.dot.toNat = 1)]

theorem startsFrame_iff {ppu : Ppu} :
    ppu.startsFrame = true ↔ ppu.phase = .preRender ∧ ppu.dot = 1 := by
  simp [Ppu.startsFrame]

theorem mark?_dot (video : Video) : (Moment.mk .dot video).mark? =
    if video.ppu.startsVblank then some .verticalBlank
    else if video.ppu.startsFrame then some .preRender
    else none := by
  simp only [Moment.mark?, startsVblank_iff, startsFrame_iff]

theorem begins_dot (video : Video) : (Moment.mk .dot video).begins = video.ppu.startsFrame := by
  rw [Moment.begins, mark?_dot]
  by_cases blank : video.ppu.startsVblank = true
  · have phase : video.ppu.phase = .verticalBlank :=
      congrArg Position.phase (startsVblank_iff.1 blank)
    simp [blank, Ppu.startsFrame, phase]
  · cases video.ppu.startsFrame <;> simp [blank]

/-- The flag of the vertical blank follows the marks. -/
theorem work_vblank (kept : Unloaded video.ppu) (work : Work)
    (h : work.run video = .ok value after) :
    after.ppu.status.vblank =
      ((Moment.mk work video).mark?.map (fun mark => decide (mark = .verticalBlank))).getD
        video.ppu.status.vblank := by
  cases work with
  | dot =>
    rw [(dot_restates kept.first h).vblank, mark?_dot]
    cases video.ppu.startsVblank <;> cases video.ppu.startsFrame <;> simp
  | serve access =>
    by_cases read : access = .readStatus
    · subst read
      rw [serve_readStatus h]
      rfl
    · rw [serve_status read h]
      cases access <;> first | rfl | exact absurd rfl read
  | reset =>
    cases h
    rfl
  | rewire memory board =>
    cases h
    rfl

/-- The flag of sprite 0 is set by hits and lasts until the next frame. -/
theorem work_hit (kept : Unloaded video.ppu) (work : Work) (h : work.run video = .ok value after) :
    after.ppu.status.spriteZeroHit = true ↔ (Moment.mk work video).Hits ∨
      (video.ppu.status.spriteZeroHit = true ∧ (Moment.mk work video).begins = false) := by
  cases work with
  | dot =>
    rw [(dot_restates kept.first h).hit, begins_dot]
    simp [Moment.Hits]
  | serve access =>
    have goesOn : (Moment.mk (.serve access) video).begins = false := by
      cases access <;> rfl
    simp [(serve_flags access h).1, goesOn, Moment.Hits]
  | reset =>
    cases h
    simp [Moment.Hits, Moment.begins, Moment.mark?, Ppu.reset, Ppu.Status.powerOn]
  | rewire memory board =>
    cases h
    simp [Moment.Hits, Moment.begins, Moment.mark?]

/-- No frame begins where it draws. -/
theorem Moment.Hits.goesOn {moment : Moment} (h : moment.Hits) : moment.begins = false := by
  obtain ⟨work, found⟩ := moment
  obtain ⟨rfl, hits⟩ := h
  have phase : found.ppu.phase = .render := hits.phase
  rw [begins_dot]
  simp [Ppu.startsFrame, phase]

/-! ## The register -/

/-- What a status tells of the past. -/
structure Tells (moments : List Moment) (status : Ppu.Status) : Prop where
  vblank : status.vblank = true ↔ moments.findSome? Moment.mark? = some .verticalBlank
  hit : status.spriteZeroHit = true ↔ ∃ moment ∈ sinceFrame moments, moment.Hits

theorem powerOn_tells : Tells [] .powerOn := by
  constructor <;> simp [Ppu.Status.powerOn, sinceFrame]

theorem work_tells (kept : Unloaded video.ppu) (told : Tells moments video.ppu.status) (work : Work)
    (h : work.run video = .ok value after) :
    Tells (⟨work, video⟩ :: moments) after.ppu.status := by
  constructor
  · rw [work_vblank kept work h, List.findSome?_cons]
    cases (Moment.mk work video).mark? with
    | none => exact told.vblank
    | some mark => simp
  · rw [work_hit kept work h, sinceFrame, List.takeWhile_cons]
    cases begins : (Moment.mk work video).begins with
    | true =>
      -- A frame begins outside the picture, so nothing is left that could have hit.
      have missed : ¬(Moment.mk work video).Hits := fun hits => by simp [hits.goesOn] at begins
      simp [missed]
    | false =>
      rw [told.hit]
      simp [sinceFrame]

theorem History.tells (past : History moments video) : Tells moments video.ppu.status := by
  induction past with
  | powerOn variant => exact powerOn_tells
  | reset ppu => exact powerOn_tells
  | next work past h ih => exact work_tells past.unloaded ih work h

theorem toByte_bits {status : Ppu.Status} (overflow : status.spriteOverflow = false) :
    (status.toByte &&& 0x80 ≠ 0 ↔ status.vblank = true) ∧
    (status.toByte &&& 0x40 ≠ 0 ↔ status.spriteZeroHit = true) ∧ status.toByte &&& 0x3F = 0 := by
  obtain ⟨vblank, hit, _⟩ := status
  cases overflow
  cases vblank <;> cases hit <;> decide

/-- Whatever is done to a picture unit, its status register tells of it: of the vertical blank if
that marked the flag last, and of sprite 0 if it hit the background since the frame began. No other
bit is ever set. A read takes the register as it is, ends the vertical blank and starts a new pair of
writes. -/
theorem status_tells_history (past : History moments video) :
    (video.ppu.status.toByte &&& 0x80 ≠ 0 ↔
      moments.findSome? Moment.mark? = some .verticalBlank) ∧
    (video.ppu.status.toByte &&& 0x40 ≠ 0 ↔ ∃ moment ∈ sinceFrame moments, moment.Hits) ∧
    video.ppu.status.toByte &&& 0x3F = 0 ∧
    video.ppu.readStatus = (video.ppu.status.toByte,
      { video.ppu with
        status := { video.ppu.status with vblank := false }
        firstWrite := true }) := by
  obtain ⟨vblank, hit, rest⟩ := toByte_bits past.unloaded.overflow
  exact ⟨vblank.trans past.tells.vblank, hit.trans past.tells.hit, rest, rfl⟩

/-- The dots of the first frame come in order while nothing is done. -/
theorem first_rank {board : Board} {n : Nat} {called : Video} (hn : n < Position.frameDots false)
    (hc : call (fun _ => []) n (powerOn .full board) = .ok value called) :
    called.ppu.beam.rank = n ∧ called.ppu.position = Position.ofRank n := by
  have start : (powerOn .full board).ppu.position = .start := rfl
  have whole : shortens (fun _ => []) (powerOn .full board) = false := rfl
  have rank : called.ppu.beam.rank = n := by
    rw [(call_rank start (whole ▸ hn) hc).1, whole, Position.rankAt]
    exact ite_self n
  have placed := call_placed (Ppu.powerOn_inRange .full).toPlaced hc
  exact ⟨rank, rank ▸ Position.position_eq placed⟩

theorem opaqueTiles_patternAt (h : Board.ofCartridge? opaqueTiles = some video.board)
    {page tile row : Nat} (inside : page * 0x1000 + tile * 16 + row + 8 < 0x2000) (column : Nat) :
    video.patternAt page tile row column = 3 := by
  have byte : ∀ place < 0x2000, video.byteAt place = 0xFF := by
    intro place low
    have patterns : UInt16.ofNat place &&& 0x3FFF < 0x2000 := by
      rw [UInt16.lt_iff_toNat_lt, pattern_address low]
      exact low
    unfold byteAt
    rw [opaqueTiles_read h video.memory patterns]
    rfl
  have planes : ∀ bit < 8, 0xFF / 2 ^ bit % 2 + 0xFF / 2 ^ bit % 2 * 2 = 3 := by decide
  have low := byte _ (Nat.lt_of_le_of_lt (Nat.le_add_right _ 8) inside)
  rw [patternAt, low, byte _ inside]
  exact planes (7 - column) (by omega)

/-- At power-on all sprites lie in the upper left corner. -/
theorem numbered_empty {ppu : Ppu} (h : ppu.oam = Vector.replicate 256 0) :
    ppu.numbered 0 = ⟨0, 0, 0, 0⟩ := by
  simp only [Ppu.numbered, h, Vector.getElem_replicate]

/-- So the end of the first line finds sprite 0. -/
theorem idle_finds {board : Board} {evaluated : Video}
    (he : call (fun _ => []) 681 (powerOn .full board) = .ok () evaluated) :
    evaluated.ppu.endsLine = true ∧ 0 ∈ evaluated.ppu.foundSprites := by
  obtain ⟨kept, -, -⟩ := idle_programmed (fun _ _ => idle_nil) he
  obtain ⟨rank, place⟩ := first_rank (by decide) he
  have placed := call_placed (Ppu.powerOn_inRange .full).toPlaced he
  have line : evaluated.ppu.scanline = 0 := UInt16.toNat_inj.1 (congrArg Position.line place)
  have control : evaluated.ppu.control = .powerOn := congrArg Ppu.Programmed.control kept
  have first : evaluated.ppu.oamAddress.toNat / 4 = 0 := by
    rw [show evaluated.ppu.oamAddress = 0 from congrArg Ppu.Programmed.oamAddress kept]
    decide
  have onLine : evaluated.ppu.isOnLine (UInt8.ofNat 0) = true := by
    unfold Ppu.isOnLine
    rw [show UInt8.ofNat 0 = 0 from rfl, Ppu.sprite?_numbered (by decide),
      numbered_empty (congrArg Ppu.Programmed.oam kept), line, control]
    decide
  constructor
  · rw [Ppu.endsLine_rank placed, rank]
    decide
  · rw [Ppu.foundSprites, first, Ppu.spritesPerLine, Ppu.findSprites, dif_pos (by decide),
      if_pos onLine]
    exact List.mem_cons_self

/-- The second line draws what the first one found. -/
theorem idle_lists {board : Board} (h : Board.ofCartridge? opaqueTiles = some board)
    {called : Video} (hc : call (fun _ => []) 683 (powerOn .full board) = .ok () called) :
    0 ∈ called.ppu.lineSprites := by
  have placed : (powerOn .full board).ppu.Placed := (Ppu.powerOn_inRange .full).toPlaced
  have room : 0 + 681 < UInt64.size := by decide
  obtain ⟨evaluated, he, -⟩ := call_answers (powerOn_fits .full h) (fun _ => []) room
  obtain ⟨ends, found⟩ := idle_finds he
  have newest : ∀ j, 681 < j → j < 683 → ∀ reached,
      call (fun _ => []) j (powerOn .full board) = .ok () reached → reached.ppu.endsLine = false := by
    intro j low high reached hr
    obtain ⟨rank, -⟩ := first_rank (by simp only [Position.frameDots, Bool.toNat_false]; omega) hr
    rw [← Bool.not_eq_true, Ppu.endsLine_rank (call_placed placed hr), rank]
    omega
  rw [(call_listed placed he ends (by decide) newest hc).1]
  exact found

/-- Its first pixel hits sprite 0. -/
theorem idle_hits {board : Board} (h : Board.ofCartridge? opaqueTiles = some board) {called : Video}
    (hc : call (fun _ => []) 683 (powerOn .full board) = .ok () called) : called.HitsHere := by
  obtain ⟨kept, -, hb⟩ := idle_programmed (fun _ _ => idle_nil) hc
  have sprite := numbered_empty (congrArg Ppu.Programmed.oam kept)
  have control : called.ppu.control = .powerOn := congrArg Ppu.Programmed.control kept
  have mask : called.ppu.mask = .powerOn := congrArg Ppu.Programmed.mask kept
  have solid := @opaqueTiles_patternAt called (hb ▸ h)
  refine ⟨0, 1, by decide, (first_rank (by decide) hc).2, ?_⟩
  constructor
  · rw [mask]
    decide
  · rw [mask]
    decide
  · have tile := called.byteAt_lt (0x2000 + called.ppu.address.toNat % 0x1000)
    rw [tileAt, solid (by omega)]
    decide
  · exact idle_lists h hc
  · rw [sprite]
    decide
  · have small : ¬Ppu.Control.powerOn.bits.toNat.testBit 5 = true := by decide
    have row := Ppu.Sprite.tileRow_lt ⟨0, 0, 0, 0⟩ (by decide : 0 < 8) 1
    unfold spriteAt
    dsimp only
    rw [control, if_neg small, sprite, solid]
    · decide
    · rw [show Ppu.Control.powerOn.bits.toNat / 2 ^ 3 % 2 = 0 by decide,
        show (0 : UInt8).toNat = 0 from rfl]
      omega

/-- An idle program with opaque tiles hits sprite 0 on the second line of the first frame, and finds
the vertical blank behind the picture: the register tells of both. -/
theorem first_hit_and_blank : ∃ board, Board.ofCartridge? opaqueTiles = some board ∧
    (∃ moments after, run (fun _ => []) 684 (powerOn .full board) = .ok () after ∧
      History moments after ∧ (∃ moment ∈ sinceFrame moments, moment.Hits) ∧
      after.ppu.status.toByte &&& 0x40 ≠ 0) ∧
    ∃ moments after, run (fun _ => []) 82524 (powerOn .full board) = .ok () after ∧
      History moments after ∧ after.ppu.status.toByte &&& 0x80 ≠ 0 := by
  obtain ⟨board, hboard⟩ := @Board.ofCartridge?_isSome opaqueTiles (.inl rfl)
  have fits := powerOn_fits .full hboard
  refine ⟨board, hboard, ?_, ?_⟩
  · have room : 0 + 684 < UInt64.size := by decide
    obtain ⟨after, hr, -⟩ := run_answers fits (fun _ => []) room
    obtain ⟨called, hc, hd⟩ := call_of_run hr
    obtain ⟨moments, past⟩ := call_history (.powerOn .full _ board) _ _ hc
    have hit : Moment.Hits ⟨.dot, called⟩ := ⟨rfl, idle_hits hboard hc⟩
    have past := past.next .dot hd
    have seen : ∃ moment ∈ sinceFrame (⟨.dot, called⟩ :: moments), moment.Hits := by
      refine ⟨_, ?_, hit⟩
      rw [sinceFrame, List.takeWhile_cons, hit.goesOn]
      exact List.mem_cons_self
    exact ⟨_, after, hr, past, seen, (status_tells_history past).2.1.2 seen⟩
  · have room : 0 + 82524 < UInt64.size := by decide
    obtain ⟨after, hr, -⟩ := run_answers fits (fun _ => []) room
    obtain ⟨called, hc, hd⟩ := call_of_run hr
    obtain ⟨moments, past⟩ := call_history (.powerOn .full _ board) _ _ hc
    have place : called.ppu.position = ⟨.verticalBlank, 241, 1⟩ := (first_rank (by decide) hc).2
    have past := past.next .dot hd
    refine ⟨_, after, hr, past, (status_tells_history past).1.2 ?_⟩
    simp [Moment.mark?, place]

end Video

end Famicom
