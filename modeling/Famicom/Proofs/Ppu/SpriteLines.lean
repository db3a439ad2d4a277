import Famicom.Proofs.Ppu.Frame
import Famicom.Proofs.Ppu.Pixels

/-!
# Sprites and their lines

An evaluation finds the sprites that lie on a line of the picture; the next line that is drawn shows
them. Behind the last line that is the first one of the next frame, which none of them covers.
-/

namespace Famicom

namespace Ppu

/-- Whether the sprite covers a line of the screen; its first one lies below its row byte. -/
def Sprite.CoversLine (s : Sprite) (height line : Nat) : Prop :=
  s.row.toNat + 1 ≤ line ∧ line ≤ s.row.toNat + height

variable {memory : PictureMemory} {board : Board} {ppu after : Ppu} {x : UInt8}

/-! ## Chosen sprites -/

theorem isOnLine_covers {number : UInt8} (h : ppu.isOnLine number = true) :
    ∃ sprite, ppu.sprite? number = some sprite ∧
      sprite.CoversLine ppu.control.spriteHeight.toNat (ppu.scanline.toNat + 1) := by
  unfold isOnLine at h
  cases found : ppu.sprite? number with
  | none => simp [found] at h
  | some sprite =>
    simp only [found, Bool.and_eq_true, decide_eq_true_eq] at h
    obtain ⟨first, last⟩ := h
    rw [UInt16.lt_iff_toNat_lt, UInt16.toNat_sub_of_le _ _ first, UInt8.toNat_toUInt16] at last
    rw [UInt16.le_iff_toNat_le, UInt8.toNat_toUInt16] at first
    exact ⟨sprite, rfl, by omega, by omega⟩

theorem findSprites_onLine (ppu : Ppu) (number room : Nat) :
    ∀ found ∈ ppu.findSprites number room, ppu.isOnLine found = true := by
  fun_induction findSprites ppu number room with
  | case1 => simp
  | case2 number room h onLine ih =>
    intro found hf
    rcases List.mem_cons.1 hf with rfl | hf
    · exact onLine
    · exact ih found hf
  | case3 number room h onLine ih => exact ih
  | case4 => simp

/-- A pixel is that of a listed sprite in a column of this line. -/
structure PixelOf (memory : PictureMemory) (board : Board) (ppu : Ppu) (x number : UInt8)
    (sprite : Sprite) (pixel : SpritePixel) : Prop where
  sprite_eq : ppu.sprite? number = some sprite
  covers : sprite.covers x = true
  pattern : ∃ pattern, patternPixel memory board
      (sprite.rowAddress ppu.control ppu.scanline) (sprite.patternShift x) = .ok pattern ∧
    pattern ≠ 0 ∧ pixel.colour = 0x10 ||| sprite.attributes % 4 * 4 ||| pattern
  inFront : pixel.inFront = sprite.isInFront
  isZero : pixel.isZero = (number == 0)

theorem firstSpritePixel_of {numbers : List UInt8} {pixel : SpritePixel}
    (h : ppu.firstSpritePixel memory board x numbers = .ok (some pixel)) :
    ∃ number ∈ numbers, ∃ sprite, PixelOf memory board ppu x number sprite pixel := by
  induction numbers with
  | nil => cases h
  | cons number rest ih =>
    have later : ppu.firstSpritePixel memory board x rest = .ok (some pixel) →
        ∃ found ∈ number :: rest, ∃ sprite, PixelOf memory board ppu x found sprite pixel := by
      intro h
      obtain ⟨found, hf, sprite, of⟩ := ih h
      exact ⟨found, List.mem_cons_of_mem _ hf, sprite, of⟩
    rw [firstSpritePixel] at h
    cases found : ppu.sprite? number with
    | none => simp [found] at h
    | some sprite =>
      simp only [found, bind, Except.bind, pure, Except.pure] at h
      by_cases covers : sprite.covers x = true
      · rw [if_pos covers] at h
        cases hp : patternPixel memory board (sprite.rowAddress ppu.control ppu.scanline)
            (sprite.patternShift x) with
        | error fault => simp [hp] at h
        | ok pattern =>
          simp only [hp] at h
          by_cases transparent : pattern = 0
          · rw [if_pos transparent] at h
            exact later h
          · rw [if_neg transparent] at h
            cases h
            exact ⟨number, List.mem_cons_self, sprite, found, covers,
              ⟨pattern, hp, transparent, rfl⟩, rfl, rfl⟩
      · rw [if_neg covers] at h
        exact later h

theorem spritePixel_of {pixel : SpritePixel}
    (h : ppu.spritePixel memory board x = .ok (some pixel)) :
    ∃ number ∈ ppu.lineSprites, ∃ sprite, PixelOf memory board ppu x number sprite pixel := by
  unfold spritePixel at h
  split at h
  · exact firstSpritePixel_of h
  · cases h

/-- A hit is latched by a pixel of sprite 0. -/
theorem latchHit_raises {background : UInt8} {sprite : Option SpritePixel}
    (before : ppu.status.spriteZeroHit = false)
    (h : (ppu.latchHit background sprite).status.spriteZeroHit = true) :
    ∃ pixel, sprite = some pixel ∧ pixel.isZero = true := by
  unfold latchHit at h
  split at h
  · rename_i hit
    rw [Bool.and_eq_true, Option.any_eq_true] at hit
    exact hit.2
  · rw [before] at h
    cases h

/-! ## The line behind an evaluation -/

/-- The line of the picture that is drawn at a rank, or else the next one that will be. -/
def aim (rank : Nat) : Nat := if rank < 341 ∨ 241 * 341 ≤ rank then 0 else rank / 341 - 1

theorem aim_line {line dot : Nat} (hl : line < 240) (hd : dot < 341) :
    aim ((line + 1) * 341 + dot) = line := by
  unfold aim
  rw [if_neg (by omega)]
  omega

theorem endsLine_rank (h : ppu.Placed) : ppu.endsLine = true ↔
    341 ≤ ppu.beam.rank ∧ ppu.beam.rank < 241 * 341 ∧ ppu.beam.rank % 341 = 340 := by
  have hd := h.dot_le
  have last : ppu.dot = lastDot ↔ ppu.dot.toNat = 340 := UInt16.toNat_inj.symm
  simp only [endsLine, Bool.and_eq_true, decide_eq_true_eq, last]
  cases hp : ppu.phase with
  | preRender =>
    rw [preRender_rank hp]
    simp only [reduceCtorEq, false_and, false_iff]
    omega
  | render =>
    have hline := h.render_line hp
    rw [line_rank (by simp [hp])]
    simp only [true_and]
    omega
  | postRender =>
    have hline := h.postRender_line hp
    rw [line_rank (by simp [hp])]
    simp only [reduceCtorEq, false_and, false_iff]
    omega
  | verticalBlank =>
    have hline := h.verticalBlank_line hp
    rw [line_rank (by simp [hp])]
    simp only [reduceCtorEq, false_and, false_iff]
    omega

/-- Only the end of a line moves the aim. -/
theorem aim_nextRank {short : Bool} {rank : Nat}
    (more : ¬(341 ≤ rank ∧ rank < 241 * 341 ∧ rank % 341 = 340)) :
    aim (nextRank short rank) = aim rank := by
  unfold nextRank
  by_cases last : rank + 1 = dotsPerFrame
  · rw [if_pos last]
    simp only [dotsPerFrame, dotsPerLine] at last
    have : 241 * 341 ≤ rank := by omega
    simp [aim, this]
  rw [if_neg last]
  by_cases leap : short = true ∧ rank + 2 = dotsPerLine
  · have : rank < 341 := by
      simp only [dotsPerLine] at leap
      omega
    rw [if_pos leap]
    simp [aim, this, dotsPerLine]
  rw [if_neg leap]
  unfold aim
  split <;> split <;> omega

theorem aim_endsLine (h : ppu.Placed) (ends : ppu.endsLine = true) (steps : ppu.Steps after) :
    aim after.beam.rank = (ppu.scanline.toNat + 1) % 240 := by
  obtain ⟨low, high, last⟩ := (endsLine_rank h).1 ends
  have hp : ppu.phase = .render := by
    simp only [endsLine, Bool.and_eq_true, decide_eq_true_eq] at ends
    exact ends.1
  have hrank := line_rank (by simp [hp] : ppu.phase ≠ .preRender)
  have hd := h.dot_le
  have hline := h.render_line hp
  have frame : ppu.beam.rank + 1 ≠ dotsPerFrame := by
    simp only [dotsPerFrame, dotsPerLine]
    omega
  have line : ppu.beam.rank + 2 ≠ dotsPerLine := by
    simp only [dotsPerLine]
    omega
  rw [steps.rank, nextRank_succ frame fun _ => line, hrank]
  unfold aim
  split <;> omega

/-- Behind an evaluation, the sprites in the list cover the line below the evaluated one. -/
theorem foundSprites_cover (same : after.oam = ppu.oam)
    (size : after.control.spriteHeight = ppu.control.spriteHeight) {number : UInt8}
    (h : number ∈ ppu.foundSprites) {sprite : Sprite} (hs : after.sprite? number = some sprite) :
    sprite.CoversLine after.control.spriteHeight.toNat (ppu.scanline.toNat + 1) := by
  have found : after.sprite? number = ppu.sprite? number := by
    unfold sprite?
    rw [same]
  obtain ⟨sprite', hs', covers⟩ := isOnLine_covers (findSprites_onLine ppu _ _ number h)
  rw [found, hs'] at hs
  cases hs
  rwa [size]

end Ppu

namespace Video

open Ppu (Sprite PixelOf aim)

variable {video after evaluated drawn : Video} {schedule : Schedule} {value : Unit} {k n : Nat}

/-- Until the next evaluation the list and the aim stay. -/
theorem run_listed (placed : video.ppu.Placed) (he : call schedule k video = .ok () evaluated)
    (ends : evaluated.ppu.endsLine = true) (hk : k < n)
    (newest : ∀ j, k < j → j < n → ∀ called, call schedule j video = .ok () called →
      called.ppu.endsLine = false)
    (hr : run schedule n video = .ok value after) :
    after.ppu.lineSprites = evaluated.ppu.foundSprites ∧
      aim after.ppu.beam.rank = (evaluated.ppu.scanline.toNat + 1) % 240 := by
  -- On the dots behind the evaluation: it sets both, and only another one would move them.
  induction n generalizing after with
  | zero => exact absurd hk (Nat.not_lt_zero k)
  | succ n ih =>
    obtain ⟨reached, called, hreach, hcall, same, steps⟩ := run_steps placed hr
    by_cases first : k = n
    · subst first
      rw [he] at hcall
      cases hcall
      constructor
      · rw [steps.sprites, if_pos ends]
      · exact Ppu.aim_endsLine (call_placed placed he) ends steps
    · have later : k < n := by omega
      obtain ⟨listed, aimed⟩ := ih later (fun j hj hn => newest j hj (by omega)) hreach
      have more := newest n later (Nat.lt_succ_self n) called hcall
      have within := mt (Ppu.endsLine_rank (call_placed placed hcall)).2 (by simp [more])
      constructor
      · rw [steps.sprites, if_neg (by simp [more]), ← listed]
        exact congrArg Ppu.Course.lineSprites same
      · rw [steps.rank, Ppu.aim_nextRank within, rank_of_course same, aimed]

theorem call_listed (placed : video.ppu.Placed) (he : call schedule k video = .ok () evaluated)
    (ends : evaluated.ppu.endsLine = true) (hk : k < n)
    (newest : ∀ j, k < j → j < n → ∀ called, call schedule j video = .ok () called →
      called.ppu.endsLine = false)
    (hc : call schedule n video = .ok value after) :
    after.ppu.lineSprites = evaluated.ppu.foundSprites ∧
      aim after.ppu.beam.rank = (evaluated.ppu.scanline.toNat + 1) % 240 := by
  obtain ⟨reached, hr, hs⟩ := run_of_call hc
  obtain ⟨listed, aimed⟩ := run_listed placed he ends hk newest hr
  have same := serveAll_course _ hs
  constructor
  · exact (congrArg Ppu.Course.lineSprites same).trans listed
  · rw [rank_of_course same, aimed]

/-- A sprite that is drawn covers the line, but on the first line of the picture, where it covers the
one below the last: nothing clears the list between two frames. -/
theorem drawn_sprites_cover (placed : video.ppu.Placed)
    (he : call schedule k video = .ok () evaluated) (ends : evaluated.ppu.endsLine = true)
    (hk : k < n)
    (newest : ∀ j, k < j → j < n → ∀ called, call schedule j video = .ok () called →
      called.ppu.endsLine = false)
    (hd : call schedule n video = .ok () drawn) {x y : Nat} (hx : x < 256)
    (visible : drawn.ppu.position = ⟨.render, y, x + 1⟩) (oam : drawn.ppu.oam = evaluated.ppu.oam)
    (size : drawn.ppu.control.tallSprites = evaluated.ppu.control.tallSprites) :
    let height := if drawn.ppu.control.tallSprites then 16 else 8
    let line := if y = 0 then 240 else y
    (∀ pixel, drawn.ppu.spritePixel drawn.memory drawn.board (UInt8.ofNat x) = .ok (some pixel) →
        ∃ number ∈ drawn.ppu.lineSprites, ∃ sprite,
          PixelOf drawn.memory drawn.board drawn.ppu (UInt8.ofNat x) number sprite pixel ∧
            sprite.CoversLine height line) ∧
      ∀ after, dot drawn = .ok () after → drawn.ppu.status.spriteZeroHit = false →
        after.ppu.status.spriteZeroHit = true →
        ∃ sprite, drawn.ppu.sprite? 0 = some sprite ∧ sprite.CoversLine height line := by
  intro height line
  have placed' := call_placed placed hd
  obtain ⟨listed, aimed⟩ := call_listed placed he ends hk newest hd
  have hphase : drawn.ppu.phase = .render := congrArg Position.phase visible
  have hline : drawn.ppu.scanline.toNat = y := congrArg Position.line visible
  have hdot : drawn.ppu.dot.toNat = x + 1 := congrArg Position.dot visible
  have below : line = evaluated.ppu.scanline.toNat + 1 := by
    have last : evaluated.ppu.phase = .render := by
      simp only [Ppu.endsLine, Bool.and_eq_true, decide_eq_true_eq] at ends
      exact ends.1
    have hl := (call_placed placed he).render_line last
    have hy := placed'.render_line hphase
    rw [Ppu.line_rank (by simp [hphase]), hline, hdot, Ppu.aim_line (by omega) (by omega)] at aimed
    show (if y = 0 then 240 else y) = _
    split <;> omega
  have tall : drawn.ppu.control.spriteHeight = evaluated.ppu.control.spriteHeight := by
    unfold Ppu.Control.spriteHeight
    rw [size]
  have high : drawn.ppu.control.spriteHeight.toNat = height := by
    unfold Ppu.Control.spriteHeight
    show _ = if drawn.ppu.control.tallSprites then 16 else 8
    split <;> rfl
  have owned : ∀ pixel,
      drawn.ppu.spritePixel drawn.memory drawn.board (UInt8.ofNat x) = .ok (some pixel) →
        ∃ number ∈ drawn.ppu.lineSprites, ∃ sprite,
          PixelOf drawn.memory drawn.board drawn.ppu (UInt8.ofNat x) number sprite pixel ∧
            sprite.CoversLine height line := by
    intro pixel hp
    obtain ⟨number, hn, sprite, of⟩ := Ppu.spritePixel_of hp
    have covers := Ppu.foundSprites_cover oam tall (listed ▸ hn) of.sprite_eq
    rw [high, ← below] at covers
    exact ⟨number, hn, sprite, of, covers⟩
  refine ⟨owned, fun after hafter before hit => ?_⟩
  obtain ⟨background, sprite, mixes⟩ := Ppu.tick_mixes hphase hx hdot (dot_eq hafter).1
  rw [mixes.status] at hit
  obtain ⟨pixel, rfl, zero⟩ := Ppu.latchHit_raises before hit
  obtain ⟨number, -, sprite, of, covers⟩ := owned pixel mixes.sprite_eq
  obtain rfl : number = 0 := beq_iff_eq.1 (of.isZero.symm.trans zero)
  exact ⟨sprite, of.sprite_eq, covers⟩

/-- A cartridge whose tiles are opaque all over. -/
def opaqueTiles : Cartridge :=
  { Image.polling with patterns := ⟨Array.replicate 0x2000 0xFF⟩ }

/-- The end of the last line of the picture, with a sprite on that line. -/
def bottom (board : Board) : Video :=
  { powerOn .full board with
    ppu := { Ppu.powerOn .full with
      phase := .render
      scanline := 239
      dot := 340
      mask := ⟨0x14⟩
      oam := (Vector.replicate 256 0).set 252 239
      oamAddress := 252 } }

theorem bottom_fits {board : Board} (h : Board.ofCartridge? opaqueTiles = some board) :
    (bottom board).Fits opaqueTiles where
  dot := UInt16.le_refl _
  line := (by decide : (239 : UInt16) < Ppu.visibleLines)
  memory := (powerOn_fits .full h).memory
  board := (powerOn_fits .full h).board
  sprites := (powerOn_fits .full h).sprites

/-- Pattern ROM on board 0 lies below $2000 as it is. -/
theorem patternRom_read {cartridge : Cartridge} {board : Board}
    (h : Board.ofCartridge? cartridge = some board) (number : cartridge.board = 0)
    (rom : 0 < cartridge.patterns.size) (memory : PictureMemory) {address : UInt16}
    (ha : address &&& 0x3FFF < 0x2000) : memory.read board address =
      Board.fetchRom cartridge.patterns (address &&& 0x3FFF &&& 0x1FFF).toNat := by
  have burnt : (cartridge.patterns.size == 0) = false := beq_false_of_ne (Nat.ne_of_gt rom)
  rw [Board.ofCartridge?, if_pos number, burnt] at h
  obtain rfl := Option.some.inj h
  unfold PictureMemory.read
  rw [if_pos ha]
  rfl

theorem opaqueTiles_read {board : Board} (h : Board.ofCartridge? opaqueTiles = some board)
    (memory : PictureMemory) {address : UInt16} (ha : address &&& 0x3FFF < 0x2000) :
    memory.read board address = .ok 0xFF := by
  have size : 0 < opaqueTiles.patterns.size := by
    rw [show opaqueTiles.patterns.size = 0x2000 from Array.size_replicate]
    decide
  rw [patternRom_read h rfl size memory ha, Board.fetchRom, dif_pos size]
  exact congrArg Except.ok (Array.getElem_replicate _)

theorem bottom_oam (board : Board) {place : Nat} (h : place < 256) :
    (bottom board).ppu.oam[place] = if place = 252 then 239 else 0 := by
  show ((Vector.replicate 256 (0 : UInt8)).set 252 239)[place] = _
  rw [Vector.getElem_set, Vector.getElem_replicate]
  simp only [eq_comm]

theorem bottom_sprite (board : Board) : (bottom board).ppu.sprite? 63 = some ⟨239, 0, 0, 0⟩ := by
  have place : (63 : UInt8).toNat * 4 = 252 := by decide
  unfold Ppu.sprite?
  rw [dif_pos (by decide)]
  simp only [bottom_oam, place]
  rfl

theorem bottom_found (board : Board) : (bottom board).ppu.foundSprites = [63] := by
  have first : (bottom board).ppu.oamAddress.toNat / 4 = 63 := by
    show (252 : UInt8).toNat / 4 = 63
    decide
  have onLine : (bottom board).ppu.isOnLine (UInt8.ofNat 63) = true := by
    unfold Ppu.isOnLine
    rw [show UInt8.ofNat 63 = 63 from rfl, bottom_sprite]
    show (decide ((239 : UInt8).toUInt16 ≤ 239) &&
      decide (239 - (239 : UInt8).toUInt16 < Ppu.Control.powerOn.spriteHeight)) = true
    decide
  rw [Ppu.foundSprites, first, Ppu.spritesPerLine, Ppu.findSprites, dif_pos (by decide),
    if_pos onLine, Ppu.findSprites, dif_neg (by decide)]
  rfl

/-- While it is listed, the sprite is drawn on the first line as well. -/
theorem bottom_pixel {board : Board} (h : Board.ofCartridge? opaqueTiles = some board)
    {ppu : Ppu} (memory : PictureMemory) (mask : ppu.mask = ⟨0x14⟩) (control : ppu.control = .powerOn)
    (line : ppu.scanline = 0) (list : ppu.lineSprites = [63])
    (sprite : ppu.sprite? 63 = some ⟨239, 0, 0, 0⟩) :
    ppu.spritePixel memory board 0 = .ok (some ⟨0x13, true, false⟩) := by
  have address : Ppu.Sprite.rowAddress ⟨239, 0, 0, 0⟩ .powerOn 0 = 0 := by decide
  have shown : (Ppu.Mask.showsSprites ⟨0x14⟩ && (!Ppu.Mask.hidesEdgeSprites ⟨0x14⟩ || 8 ≤ (0 : UInt8))) =
      true := by decide
  have covers : Sprite.covers ⟨239, 0, 0, 0⟩ 0 = true := by decide
  unfold Ppu.spritePixel
  rw [mask, if_pos shown, list, Ppu.firstSpritePixel, sprite]
  dsimp only
  rw [if_pos covers, control, line, address, Ppu.patternPixel,
    opaqueTiles_read h memory (by decide), opaqueTiles_read h memory (by decide)]
  rfl

/-- From the end of the picture to the first visible dot of the next one no sprites are chosen. -/
theorem bottom_draws : ∃ board drawn, Board.ofCartridge? opaqueTiles = some board ∧
    (bottom board).ppu.Placed ∧ call (fun _ => []) 0 (bottom board) = .ok () (bottom board) ∧
      (bottom board).ppu.endsLine = true ∧
      (∀ j, 0 < j → j < 7504 → ∀ called, call (fun _ => []) j (bottom board) = .ok () called →
        called.ppu.endsLine = false) ∧
      call (fun _ => []) 7504 (bottom board) = .ok () drawn ∧
      drawn.ppu.position = ⟨.render, 0, 1⟩ ∧ drawn.ppu.oam = (bottom board).ppu.oam ∧
      drawn.ppu.control = .powerOn ∧
      drawn.ppu.spritePixel drawn.memory drawn.board 0 = .ok (some ⟨0x13, true, false⟩) := by
  obtain ⟨board, hboard⟩ := @Board.ofCartridge?_isSome opaqueTiles (.inl rfl)
  have fits := bottom_fits hboard
  have hidden : (bottom board).ppu.mask.isRendering = false :=
    (by decide : Ppu.Mask.isRendering ⟨0x14⟩ = false)
  have start : (bottom board).ppu.beam.rank = 82180 :=
    (by decide : (239 + 1) * 341 + 340 = 82180)
  have room : 0 + 7504 < UInt64.size := by decide
  obtain ⟨drawn, hd, -⟩ := call_answers fits (fun _ => []) room
  have rank : ∀ j called, call (fun _ => []) j (bottom board) = .ok () called →
      called.ppu.beam.rank = (82180 + j) % Ppu.dotsPerFrame := by
    intro j called hc
    rw [idle_rank fits.toPlaced hidden (fun _ _ => idle_nil) hc, start]
  have newest : ∀ j, 0 < j → j < 7504 → ∀ called,
      call (fun _ => []) j (bottom board) = .ok () called → called.ppu.endsLine = false := by
    intro j low high called hc
    have hrank := rank j called hc
    simp only [Ppu.dotsPerFrame, Ppu.dotsPerLine] at hrank
    rw [← Bool.not_eq_true, Ppu.endsLine_rank (call_placed fits.toPlaced hc)]
    omega
  have place : drawn.ppu.position = ⟨.render, 0, 1⟩ := by
    rw [Position.position_eq (call_placed fits.toPlaced hd), rank 7504 drawn hd]
    rfl
  obtain ⟨programmed, -, hb⟩ := idle_programmed (fun _ _ => idle_nil) hd
  have oam : drawn.ppu.oam = (bottom board).ppu.oam := congrArg Ppu.Programmed.oam programmed
  have control : drawn.ppu.control = .powerOn := congrArg Ppu.Programmed.control programmed
  have mask : drawn.ppu.mask = ⟨0x14⟩ := congrArg Ppu.Programmed.mask programmed
  have line : drawn.ppu.scanline = 0 := UInt16.toNat_inj.1 (congrArg Position.line place)
  have list : drawn.ppu.lineSprites = [63] :=
    (call_listed fits.toPlaced rfl rfl (by decide) newest hd).1.trans (bottom_found board)
  have sprite : drawn.ppu.sprite? 63 = some ⟨239, 0, 0, 0⟩ := by
    rw [← bottom_sprite board]
    unfold Ppu.sprite?
    rw [oam]
  refine ⟨board, drawn, hboard, fits.toPlaced, rfl, rfl, newest, hd, place, oam, control, ?_⟩
  rw [hb]
  exact bottom_pixel hboard drawn.memory mask control line list sprite

/-- The first line shows a sprite of the line below the last one. -/
theorem bottom_sprite_returns : ∃ board drawn, Board.ofCartridge? opaqueTiles = some board ∧
    call (fun _ => []) 7504 (bottom board) = .ok () drawn ∧
      drawn.ppu.position = ⟨.render, 0, 1⟩ ∧
      drawn.ppu.spritePixel drawn.memory drawn.board 0 = .ok (some ⟨0x13, true, false⟩) ∧
      ∃ number ∈ drawn.ppu.lineSprites, ∃ sprite,
        PixelOf drawn.memory drawn.board drawn.ppu 0 number sprite ⟨0x13, true, false⟩ ∧
          sprite.CoversLine 8 240 := by
  obtain ⟨board, drawn, hboard, placed, he, ends, newest, hd, place, oam, control, pixel⟩ :=
    bottom_draws
  have size : drawn.ppu.control.tallSprites = false := by
    rw [control]
    decide
  have covers := drawn_sprites_cover placed he ends (by decide) newest hd (by decide) place oam
    (size.trans (by decide : Ppu.Control.powerOn.tallSprites = false).symm)
  rw [size] at covers
  exact ⟨board, drawn, hboard, hd, place, pixel, covers.1 _ pixel⟩

/-- A sprite can be drawn on a line that it does not cover, though nothing was written since it was
chosen. -/
theorem drawn_elsewhere : ¬∀ (video evaluated drawn : Video) (schedule : Schedule) (k n x y : Nat),
    video.ppu.Placed → call schedule k video = .ok () evaluated → evaluated.ppu.endsLine = true →
    k < n →
    (∀ j, k < j → j < n → ∀ called, call schedule j video = .ok () called →
      called.ppu.endsLine = false) →
    call schedule n video = .ok () drawn → x < 256 → drawn.ppu.position = ⟨.render, y, x + 1⟩ →
    drawn.ppu.oam = evaluated.ppu.oam →
    drawn.ppu.control.tallSprites = evaluated.ppu.control.tallSprites →
    ∀ pixel, drawn.ppu.spritePixel drawn.memory drawn.board (UInt8.ofNat x) = .ok (some pixel) →
      ∃ number ∈ drawn.ppu.lineSprites, ∃ sprite,
        PixelOf drawn.memory drawn.board drawn.ppu (UInt8.ofNat x) number sprite pixel ∧
          sprite.CoversLine drawn.ppu.control.spriteHeight.toNat y := by
  intro claim
  obtain ⟨board, drawn, -, placed, he, ends, newest, hd, place, oam, control, pixel⟩ := bottom_draws
  have size : drawn.ppu.control.tallSprites = (bottom board).ppu.control.tallSprites := by
    rw [control]
    rfl
  obtain ⟨_, _, sprite, _, above, _⟩ := claim (bottom board) (bottom board) drawn (fun _ => []) 0 7504 0
    0 placed he ends (by decide) newest hd (by decide) place oam size _ pixel
  exact absurd above (Nat.not_succ_le_zero _)

end Video

end Famicom
