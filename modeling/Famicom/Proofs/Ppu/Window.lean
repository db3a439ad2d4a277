import Famicom.Proofs.Ppu.Frame
import Famicom.Proofs.Ppu.Pixels
import Famicom.Proofs.Ppu.Track

/-!
# The window of a frame

The part of the background plane that a frame under an idle program shows.
-/

namespace Famicom

namespace Ppu

variable {ppu : Ppu} {line : Nat}

/-! ## Pixels of the window -/

/-- The background at a position on the track is a pixel of the plane. -/
theorem Shows.backgroundPixel {memory : PictureMemory} {board : Board} {x : Nat}
    (h : Shows ppu.nextAddress ppu.fineX.toNat line (x + 1) ppu.address)
    (full : ppu.variant = .full) (s : ppu.Scrolls) (hx : x < 256) :
    ppu.backgroundPixel memory board (UInt8.ofNat x) =
      if ppu.mask.hidesEdgeBackground ∧ x < 8 then .ok 0
      else Plane.pixel memory board ppu.control.backgroundPage.toNat
        ((8 * columnOf ppu.nextAddress + ppu.fineX.toNat + x) % 512)
        ((rowOf ppu.nextAddress + line) % 480) := by
  have background : ppu.mask.showsBackground = true := (Bool.and_eq_true_iff.1 s.shown).1
  have hfine := s.fine_le
  have place : (UInt8.ofNat x).toNat = x := UInt8.toNat_ofNat_of_lt' hx
  have edge : 8 ≤ UInt8.ofNat x ↔ ¬x < 8 := by
    rw [UInt8.le_iff_toNat_le, place]
    exact Nat.not_lt.symm
  have row : shownRow ppu.nextAddress line (x + 1) = (rowOf ppu.nextAddress + line) % 480 := by
    unfold shownRow
    rw [if_pos (by omega)]
    rfl
  have column : shownColumn ppu.nextAddress ppu.fineX.toNat (x + 1) =
      (8 * columnOf ppu.nextAddress + ppu.fineX.toNat + x) % 512 / 8 := by
    have : min (x + 1 - 1) 256 = x := by omega
    unfold shownColumn
    rw [if_pos (by omega), this]
    omega
  unfold Shows at h
  rw [row, column] at h
  have fine : (ppu.fineX.toNat + (UInt8.ofNat x).toNat) % 8 =
      (8 * columnOf ppu.nextAddress + ppu.fineX.toNat + x) % 512 % 8 := by
    rw [place]
    omega
  simp only [Ppu.backgroundPixel, background, Bool.true_and, Bool.or_eq_true, Bool.not_eq_true',
    decide_eq_true_eq, edge]
  by_cases hidden : ppu.mask.hidesEdgeBackground = true ∧ x < 8
  · rw [if_pos hidden, if_neg (by simp [hidden.1, hidden.2])]
  · rw [if_neg hidden, if_pos (by cases he : ppu.mask.hidesEdgeBackground <;> simp_all)]
    exact tilePixel_plane full h fine

/-! ## Any line before the picture -/

theorem preRenderDot_lined (hp : ppu.phase = .preRender) (line : UInt16) : ∃ next,
    { ppu with scanline := line }.preRenderDot = { ppu.preRenderDot with scanline := next } ∧
      (ppu.preRenderDot.phase ≠ .preRender → next = ppu.preRenderDot.scanline) := by
  have effect : { ppu with scanline := line }.preRenderEffect =
      { ppu.preRenderEffect with scanline := line } := by
    dsimp only [preRenderEffect]
    split
    · rfl
    split
    · rfl
    split <;> rfl
  have phase : ppu.preRenderEffect.phase = ppu.phase :=
    preRenderEffect_keeps (fun _ _ _ _ => rfl) ppu
  unfold preRenderDot
  rw [effect]
  by_cases last : ppu.preRenderEffect.lastPreRenderDot ≤ ppu.preRenderEffect.dot
  · exact ⟨0, (if_pos last).trans (by rw [if_pos last]), fun _ => by rw [if_pos last]⟩
  · refine ⟨line, (if_neg last).trans (by rw [if_neg last]), fun left => ?_⟩
    rw [if_neg last] at left
    exact absurd (phase.trans hp) left

theorem countDot_lined {after : Ppu} {value : Unit} (h : countDot ppu = .ok value after)
    (line : UInt16) :
    countDot { ppu with scanline := line } = .ok () { after with scanline := line } := by
  unfold countDot at h
  split at h <;> cases h
  unfold countDot
  dsimp only
  rw [‹addCount64 _ _ = _›]

/-- Before the picture the line decides about nothing, and the picture starts with its first one. -/
theorem tick_lined {memory : PictureMemory} {board : Board} {after : Ppu} {value : Unit}
    (hp : ppu.phase = .preRender) (h : tick memory board ppu = .ok value after) (line : UInt16) :
    ∃ next, tick memory board { ppu with scanline := line } =
        .ok () { after with scanline := next } ∧
      (after.phase ≠ .preRender → next = after.scanline) := by
  have work : ∀ start : Ppu, start.phase = .preRender →
      tick memory board start = countDot start.preRenderDot := by
    intro start hstart
    rw [tick_eq, hstart]
    rfl
  rw [work ppu hp] at h
  obtain ⟨next, hnext, settled⟩ := preRenderDot_lined hp line
  refine ⟨next, ?_, ?_⟩
  · rw [work { ppu with scanline := line } hp, hnext]
    exact countDot_lined h next
  · rw [(countDot_eq h).1]
    exact settled

end Ppu

namespace Video

open Position (rankAt frameDots)

variable {video after : Video} {schedule : Schedule} {value : Unit} {n k : Nat}

theorem idle_scrolls (s : video.ppu.Scrolls) (same : after.ppu.programmed = video.ppu.programmed) :
    after.ppu.Scrolls := by
  have mask : after.ppu.mask = video.ppu.mask := congrArg Ppu.Programmed.mask same
  have fineX : after.ppu.fineX = video.ppu.fineX := congrArg Ppu.Programmed.fineX same
  have source : after.ppu.nextAddress = video.ppu.nextAddress :=
    congrArg Ppu.Programmed.nextAddress same
  constructor
  · rw [mask]
    exact s.shown
  · rw [fineX]
    exact s.fine_le
  · rw [source]
    exact s.source_lt
  · rw [source]
    exact s.row_le

/-- From the start of a frame to the end of the picture the address stays on its track. -/
theorem idle_tracks (h : video.ppu.position = .start) (s : video.ppu.Scrolls)
    (ha : video.ppu.address < Ppu.addressEnd) (idle : ∀ k ≤ n, Idle (schedule k))
    (hn : rankAt (shortens schedule video) n < 241 * 341)
    (hc : call schedule n video = .ok value after) :
    Ppu.Tracks video.ppu.nextAddress video.ppu.fineX.toNat (rankAt (shortens schedule video) n)
      after.ppu.address := by
  have unmoved : ∀ video : Video, ∀ accesses, (video.calm accesses).ppu.address =
      video.ppu.address := fun video => calm_keeps (fun _ _ => rfl) video
  induction n generalizing after with
  | zero =>
    obtain ⟨reached, hr, rfl⟩ := run_of_idle_call (idle 0 (Nat.le_refl 0)) hc
    cases hr
    rw [unmoved, show rankAt (shortens schedule video) 0 = 0 from rfl,
      Ppu.tracks_preRender (by decide)]
    exact ⟨ha, fun late => absurd late (by decide), fun late => absurd late (by decide)⟩
  | succ n ih =>
    have before : ∀ k ≤ n, Idle (schedule k) := fun k hk => idle k (Nat.le_succ_of_le hk)
    have hshort := (shortens schedule video).toNat_le
    have hless : rankAt (shortens schedule video) n < 241 * 341 := by
      unfold rankAt at *
      split at hn <;> split <;> omega
    have within : n + 1 < frameDots (shortens schedule video) := by
      unfold rankAt frameDots at *
      split at hn <;> omega
    obtain ⟨reached, hr, rfl⟩ := run_of_idle_call (idle (n + 1) (Nat.le_refl _)) hc
    obtain ⟨called, hcall, hdot⟩ := call_of_run hr
    have placed := call_placed (start_placed h) hcall
    have ticked := (dot_eq hdot).1
    have tracked := ih before hless hcall
    have programmed := (idle_programmed before hcall).1
    have fineX : called.ppu.fineX = video.ppu.fineX := congrArg Ppu.Programmed.fineX programmed
    have source : called.ppu.nextAddress = video.ppu.nextAddress :=
      congrArg Ppu.Programmed.nextAddress programmed
    have rank := (call_rank h (Nat.lt_of_succ_lt within) hcall).1
    rw [← rank] at tracked hless
    rw [← (run_rank h within hr).1, (Ppu.tick_steps placed ticked).rank, unmoved,
      Ppu.tick_address ticked, ← fineX, ← source]
    rw [← fineX, ← source] at tracked
    exact (idle_scrolls s programmed).tracks placed tracked hless

/-- The place of the beam and the address at a visible dot of an idle frame. -/
theorem idle_visible (h : video.ppu.position = .start) (s : video.ppu.Scrolls)
    (ha : video.ppu.address < Ppu.addressEnd) {x y : Nat} (hx : x < 256) (hy : y < 240)
    (hn : n = (y + 1) * 341 + (x + 1) - (!video.ppu.evenFrame).toNat)
    (idle : ∀ k ≤ n, Idle (schedule k)) (hc : call schedule n video = .ok value after) :
    after.ppu.position = ⟨.render, y, x + 1⟩ ∧
      Ppu.Shows video.ppu.nextAddress video.ppu.fineX.toNat y (x + 1) after.ppu.address := by
  have hparity := (!video.ppu.evenFrame).toNat_le
  obtain ⟨reached, hr, -⟩ := run_of_call hc
  obtain ⟨called, hcall⟩ := call_before (by omega : 339 < n) hr
  have short := idle_shortens h s.shown (fun k hk => idle k (by omega)) hcall
  have rank : rankAt (shortens schedule video) n = (y + 1) * 341 + (x + 1) := by
    unfold rankAt
    rw [short, if_neg (by omega)]
    omega
  have within : n < frameDots (shortens schedule video) := by
    unfold frameDots
    rw [short]
    omega
  have tracked := idle_tracks h s ha idle (by rw [rank]; omega) hc
  rw [rank, Ppu.tracks_line (by omega)] at tracked
  refine ⟨?_, tracked⟩
  have line : ((y + 1) * 341 + (x + 1)) / 341 - 1 = y := by omega
  have dot : ((y + 1) * 341 + (x + 1)) % 341 = x + 1 := by omega
  rw [Position.position_eq (call_placed (start_placed h) hc), (call_rank h within hc).1, rank,
    Position.ofRank, if_neg (by omega), if_pos (by omega), line, dot]

/-- Another line before the picture. -/
def lined (video : Video) (line : UInt16) : Video :=
  { video with ppu := { video.ppu with scanline := line } }

theorem lined_self (video : Video) : video.lined video.ppu.scanline = video := rfl

theorem calm_lined (video : Video) (line : UInt16) (accesses : List Access) :
    (video.lined line).calm accesses = (video.calm accesses).lined line := by
  cases accesses <;> rfl

theorem dot_lined (hp : video.ppu.phase = .preRender) (h : dot video = .ok value after)
    (line : UInt16) : ∃ next, dot (video.lined line) = .ok () (after.lined next) ∧
      (after.ppu.phase ≠ .preRender → next = after.ppu.scanline) := by
  obtain ⟨ticked, same⟩ := dot_eq h
  obtain ⟨next, hnext, settled⟩ := Ppu.tick_lined hp ticked line
  refine ⟨next, ?_, settled⟩
  rw [same]
  unfold dot lined
  dsimp only
  rw [hnext]

/-- Whatever the line before the picture was, the picture is reached alike. -/
theorem call_lined (hp : video.ppu.phase = .preRender) (line : UInt16)
    (idle : ∀ k ≤ n, Idle (schedule k)) (hc : call schedule n video = .ok value after) :
    ∃ next, call schedule n (video.lined line) = .ok () (after.lined next) ∧
      (after.ppu.phase ≠ .preRender → next = after.ppu.scanline) := by
  have served : ∀ {next : UInt16} {m : Nat} {reached : Video}, Idle (schedule m) →
      run schedule m (video.lined line) = .ok () (reached.lined next) →
      call schedule m (video.lined line) = .ok () ((reached.calm (schedule m)).lined next) := by
    intro next m reached last hr
    rw [idle_call last hr, calm_lined]
  induction n generalizing after with
  | zero =>
    obtain ⟨reached, hr, rfl⟩ := run_of_idle_call (idle 0 (Nat.le_refl 0)) hc
    cases hr
    refine ⟨line, served (idle 0 (Nat.le_refl 0)) rfl, fun left => absurd ?_ left⟩
    exact (calm_keeps (fun _ _ => rfl) video _ : (video.calm _).ppu.phase = _).trans hp
  | succ n ih =>
    obtain ⟨reached, hr, rfl⟩ := run_of_idle_call (idle (n + 1) (Nat.le_refl _)) hc
    obtain ⟨called, hcall, hdot⟩ := call_of_run hr
    obtain ⟨next, hnext, settled⟩ := ih (fun k hk => idle k (Nat.le_succ_of_le hk)) hcall
    have phase : (reached.calm (schedule (n + 1))).ppu.phase = reached.ppu.phase :=
      calm_keeps (fun _ _ => rfl) reached _
    have scanline : (reached.calm (schedule (n + 1))).ppu.scanline = reached.ppu.scanline :=
      calm_keeps (fun _ _ => rfl) reached _
    rw [phase, scanline]
    by_cases before : called.ppu.phase = .preRender
    · obtain ⟨later, hlater, settled⟩ := dot_lined before hdot next
      refine ⟨later, served (idle (n + 1) (Nat.le_refl _)) ?_, settled⟩
      rw [run_succ, bind_ok hnext, hlater]
    · refine ⟨reached.ppu.scanline, served (idle (n + 1) (Nat.le_refl _)) ?_, fun _ => rfl⟩
      rw [run_succ, bind_ok hnext, settled before, lined_self, hdot, lined_self]

theorem idle_variant (idle : ∀ k ≤ n, Idle (schedule k))
    (hr : call schedule n video = .ok value after) : after.ppu.variant = video.ppu.variant := by
  refine (idle_keeps (fun _ _ => Ppu.tick_keeps ?_ ?_ ?_ _ _) (fun _ _ => rfl) idle hr).1
  · exact fun _ _ _ _ => rfl
  · exact fun _ _ _ _ _ _ _ => rfl
  · intro ppu
    unfold Ppu.verticalBlankEffect
    split <;> rfl

/-- The pixel of the plane that a place of the screen shows. -/
def windowPixel (video : Video) (x y : Nat) : Except Fault UInt8 :=
  if video.ppu.mask.hidesEdgeBackground ∧ x < 8 then .ok 0
  else Plane.pixel video.memory video.board video.ppu.control.backgroundPage.toNat
    ((8 * Ppu.columnOf video.ppu.nextAddress + video.ppu.fineX.toNat + x) % 512)
    ((Ppu.rowOf video.ppu.nextAddress + y) % 480)

theorem windowPixel_eq (video : Video) (x y : Nat) :
    let t := video.ppu.nextAddress.toNat
    windowPixel video x y = if video.ppu.mask.hidesEdgeBackground ∧ x < 8 then .ok 0
      else Plane.pixel video.memory video.board
        (video.ppu.control.bits.toNat / 2 ^ 4 % 2 * 0x1000)
        ((256 * (t / 2 ^ 10 % 2) + 8 * (t % 2 ^ 5) + video.ppu.fineX.toNat + x) % 512)
        ((240 * (t / 2 ^ 11 % 2) + 8 * (t / 2 ^ 5 % 2 ^ 5) + t / 2 ^ 12 % 2 ^ 3 + y) % 480) := by
  intro t
  have columns : 8 * Ppu.columnOf video.ppu.nextAddress =
      256 * (t / 2 ^ 10 % 2) + 8 * (t % 2 ^ 5) := by
    unfold Ppu.columnOf
    omega
  unfold windowPixel
  rw [Ppu.Control.backgroundPage_toNat, columns]
  rfl

theorem idle_pixel (full : video.ppu.variant = .full) (s : video.ppu.Scrolls) {x y : Nat}
    (hx : x < 256) (idle : ∀ k ≤ n, Idle (schedule k)) (hr : call schedule n video = .ok value after)
    (shows : Ppu.Shows video.ppu.nextAddress video.ppu.fineX.toNat y (x + 1) after.ppu.address) :
    after.ppu.backgroundPixel after.memory after.board (UInt8.ofNat x) = windowPixel video x y := by
  obtain ⟨programmed, memory, board⟩ := idle_programmed idle hr
  have mask : after.ppu.mask = video.ppu.mask := congrArg Ppu.Programmed.mask programmed
  have control : after.ppu.control = video.ppu.control :=
    congrArg Ppu.Programmed.control programmed
  have fineX : after.ppu.fineX = video.ppu.fineX := congrArg Ppu.Programmed.fineX programmed
  have source : after.ppu.nextAddress = video.ppu.nextAddress :=
    congrArg Ppu.Programmed.nextAddress programmed
  rw [← fineX, ← source] at shows
  rw [shows.backgroundPixel ((idle_variant idle hr).trans full) (idle_scrolls s programmed) hx,
    mask, control, fineX, source, memory, board]
  rfl

/-- What a visible dot puts on the screen. -/
theorem dot_paints {x y : Nat} (hx : x < 256) (h : video.ppu.position = ⟨.render, y, x + 1⟩)
    (full : video.ppu.variant = .full) (hd : dot video = .ok value after) :
    ∃ background sprite,
      video.ppu.backgroundPixel video.memory video.board (UInt8.ofNat x) = .ok background ∧
      video.ppu.spritePixel video.memory video.board (UInt8.ofNat x) = .ok sprite ∧
      after.ppu.screen[y * Ppu.screenWidth + x]? =
        some (Ppu.resolve video.ppu.mask video.memory (Ppu.compose background sprite)) := by
  have hphase : video.ppu.phase = .render := congrArg Position.phase h
  have hline : video.ppu.scanline.toNat = y := congrArg Position.line h
  have hdot : video.ppu.dot.toNat = x + 1 := congrArg Position.dot h
  have place : (UInt8.ofNat x).toNat = x := UInt8.toNat_ofNat_of_lt' hx
  obtain ⟨background, sprite, mixes⟩ := Ppu.tick_mixes hphase hx hdot (dot_eq hd).1
  have painted := mixes.screen full
  rw [hline, place] at painted
  exact ⟨background, sprite, mixes.background_eq, mixes.sprite_eq, painted⟩

/-- A frame under an idle program shows 256 columns and 240 rows of the background plane, from the
position on that the program has set and around the ends of the plane. A dot of the picture finds the
pixel of its column and row in the four name tables, or a transparent one at a hidden edge, and its
place on the screen gets the colour that this pixel makes with the sprites. Memories that fit let
every such dot come. -/
theorem frame_shows_plane (full : video.ppu.variant = .full) (phase : video.ppu.phase = .preRender)
    (first : video.ppu.dot = 0) (background : video.ppu.mask.showsBackground = true)
    (sprites : video.ppu.mask.showsSprites = true) (fine : video.ppu.fineX ≤ 7)
    (address : video.ppu.address < 0x8000) (source : video.ppu.nextAddress < 0x8000)
    (tileRow : video.ppu.nextAddress.toNat / 2 ^ 5 % 2 ^ 5 ≤ 29)
    (idle : ∀ n < 241 * 341 - (!video.ppu.evenFrame).toNat, Idle (schedule n)) {x y : Nat}
    (hx : x < 256) (hy : y < 240) :
    let t := video.ppu.nextAddress.toNat
    let page := video.ppu.control.bits.toNat / 2 ^ 4 % 2 * 0x1000
    let column := (256 * (t / 2 ^ 10 % 2) + 8 * (t % 2 ^ 5) + video.ppu.fineX.toNat + x) % 512
    let row := (240 * (t / 2 ^ 11 % 2) + 8 * (t / 2 ^ 5 % 2 ^ 5) + t / 2 ^ 12 % 2 ^ 3 + y) % 480
    let pixel := if video.ppu.mask.hidesEdgeBackground ∧ x < 8 then .ok 0
      else Plane.pixel video.memory video.board page column row
    let n := (y + 1) * 341 + (x + 1) - (!video.ppu.evenFrame).toNat
    (∀ called, call schedule n video = .ok () called →
        called.ppu.position = ⟨.render, y, x + 1⟩ ∧
        called.ppu.backgroundPixel called.memory called.board (UInt8.ofNat x) = pixel ∧
        ∀ after, dot called = .ok () after → ∃ colour sprite, pixel = .ok colour ∧
          called.ppu.spritePixel called.memory called.board (UInt8.ofNat x) = .ok sprite ∧
          after.ppu.screen[y * Ppu.screenWidth + x]? =
            some (Ppu.resolve video.ppu.mask video.memory (Ppu.compose colour sprite))) ∧
      ∀ cartridge, video.memory.Fits cartridge → video.board.Fits cartridge →
        (∀ number ∈ video.ppu.lineSprites, number < 64) →
        video.ppu.totalDots.toNat + n + 1 < UInt64.size →
        ∃ called after, call schedule n video = .ok () called ∧ dot called = .ok () after := by
  intro t page column row pixel n
  -- The line is not read before the picture, so the frame can be walked from its start.
  have hparity := (!video.ppu.evenFrame).toNat_le
  have hn : n < 241 * 341 - (!video.ppu.evenFrame).toNat := by omega
  have before : ∀ k ≤ n, Idle (schedule k) := fun k hk => idle k (Nat.lt_of_le_of_lt hk hn)
  have scrolls : (video.lined 0).ppu.Scrolls := by
    constructor
    · exact Bool.and_eq_true_iff.2 ⟨background, sprites⟩
    · exact UInt8.le_iff_toNat_le.1 fine
    · exact source
    · exact tileRow
  have start : (video.lined 0).ppu.position = .start := by
    show Position.mk video.ppu.phase 0 video.ppu.dot.toNat = _
    rw [phase, first]
    rfl
  have shown : windowPixel (video.lined 0) x y = pixel := windowPixel_eq (video.lined 0) x y
  have full' : (video.lined 0).ppu.variant = .full := full
  have place : ∀ called, call schedule n (video.lined 0) = .ok () called →
      called.ppu.phase ≠ .preRender := by
    intro called hc
    have place := (idle_visible start scrolls address hx hy rfl before hc).1
    rw [show called.ppu.phase = .render from congrArg Position.phase place]
    decide
  constructor
  · intro called hc
    obtain ⟨next, hnext, settled⟩ := call_lined phase 0 before hc
    have left := place _ hnext
    rw [settled left, lined_self] at hnext
    obtain ⟨place, shows⟩ := idle_visible start scrolls address hx hy rfl before hnext
    obtain ⟨programmed, memory, -⟩ := idle_programmed before hc
    have mask : called.ppu.mask = video.ppu.mask := congrArg Ppu.Programmed.mask programmed
    have looked := (idle_pixel full' scrolls hx before hnext shows).trans shown
    refine ⟨place, looked, fun after hd => ?_⟩
    obtain ⟨colour, sprite, background, front, painted⟩ :=
      dot_paints hx place ((idle_variant before hc).trans full) hd
    rw [mask, memory] at painted
    exact ⟨colour, sprite, looked.symm.trans background, front, painted⟩
  · intro cartridge memory board listed room
    have fits : (video.lined 0).Fits cartridge := ⟨start_placed start, memory, board, listed⟩
    have phase' : (video.lined 0).ppu.phase = .preRender := phase
    obtain ⟨after, hr, -⟩ := run_answers fits schedule (n := n + 1) room
    obtain ⟨called, hc, hd⟩ := call_of_run hr
    obtain ⟨next, back, settled⟩ := call_lined phase' video.ppu.scanline before hc
    rw [settled (place called hc), lined_self] at back
    exact ⟨called, after, back, hd⟩

/-- The picture unit at power-on, scrolled to the last tile of the last table. -/
def corner (board : Board) : Video :=
  { powerOn .full board with
    ppu := { Ppu.powerOn .full with nextAddress := 0x5FBF, fineX := 3 } }

/-- The last pixel of a window that goes around both ends of the plane. -/
theorem corner_shows : ∃ board called, Board.ofCartridge? Image.polling = some board ∧
    call (fun _ => [.takeInterrupt]) 82096 (corner board) = .ok () called ∧
      called.ppu.position = ⟨.render, 239, 256⟩ ∧
      called.ppu.backgroundPixel called.memory called.board 255 =
        Plane.pixel (corner board).memory board 0 250 236 := by
  obtain ⟨board, hboard⟩ := @Board.ofCartridge?_isSome Image.polling (.inl rfl)
  have fits := powerOn_fits .full hboard
  have idle : Idle [.takeInterrupt] := fun access h => List.mem_singleton.1 h
  have layers : Ppu.Mask.powerOn.showsBackground = true ∧ Ppu.Mask.powerOn.showsSprites = true := by
    decide
  have scroll : (3 : UInt8) ≤ 7 ∧ (0 : UInt16) < 0x8000 ∧ (0x5FBF : UInt16) < 0x8000 ∧
      (0x5FBF : UInt16).toNat / 2 ^ 5 % 2 ^ 5 ≤ 29 := by decide
  obtain ⟨seen, answers⟩ := @frame_shows_plane (corner board) (fun _ => [.takeInterrupt]) rfl rfl rfl
    layers.1 layers.2 scroll.1 scroll.2.1 scroll.2.2.1 scroll.2.2.2 (fun _ _ => idle) 255 239
    (by decide) (by decide)
  have room : 0 + (240 * 341 + 256) + 1 < UInt64.size := by decide
  obtain ⟨called, after, hc, -⟩ := answers Image.polling fits.memory fits.board fits.sprites room
  obtain ⟨place, pixel, -⟩ := seen called hc
  rw [if_neg fun edge => absurd edge.2 (by decide)] at pixel
  have source : (corner board).ppu.nextAddress.toNat = 0x5FBF := rfl
  have fine : (corner board).ppu.fineX.toNat = 3 := rfl
  have control : (corner board).ppu.control.bits.toNat = 0 := rfl
  simp only [source, fine, control, Nat.reducePow, Nat.reduceDiv, Nat.reduceMod, Nat.reduceMul,
    Nat.reduceAdd] at pixel
  exact ⟨board, called, hboard, hc, place, pixel⟩

end Video

end Famicom
