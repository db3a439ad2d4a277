import Famicom.Proofs.Image
import Famicom.Proofs.Ppu.Schedule
import Mathlib.Data.List.Nodup

/-!
# Frames

The places that the beam visits from the start of a frame to the start of the next one, in order,
whatever a program does to the registers meanwhile.
-/

namespace Famicom

/-- Where the beam stands. -/
structure Position where
  phase : Ppu.Phase
  line : Nat
  dot : Nat
deriving DecidableEq, Repr

def Ppu.position (ppu : Ppu) : Position := ⟨ppu.phase, ppu.scanline.toNat, ppu.dot.toNat⟩

namespace Position

def start : Position := ⟨.preRender, 0, 0⟩

/-- The first dots of a line. -/
def dots (phase : Ppu.Phase) (line count : Nat) : List Position :=
  (List.range count).map fun dot => ⟨phase, line, dot⟩

/-- The places of a frame. A short one leaves out the last place before the picture. -/
def frame (short : Bool) : List Position :=
  dots .preRender 0 (341 - short.toNat) ++
    (List.range 240).flatMap (fun line => dots .render line 341) ++
    dots .postRender 240 341 ++
    (List.range 20).flatMap fun line => dots .verticalBlank (241 + line) 341

/-! ## Places by their rank -/

def rank (place : Position) : Nat :=
  match place.phase with
  | .preRender => place.dot
  | _ => (place.line + 1) * 341 + place.dot

def ofRank (rank : Nat) : Position :=
  if rank < 341 then ⟨.preRender, 0, rank⟩
  else if rank < 241 * 341 then ⟨.render, rank / 341 - 1, rank % 341⟩
  else if rank < 242 * 341 then ⟨.postRender, 240, rank % 341⟩
  else ⟨.verticalBlank, rank / 341 - 1, rank % 341⟩

theorem rank_ofRank (n : Nat) : (ofRank n).rank = n := by
  unfold ofRank
  split
  · rfl
  split
  · show (n / 341 - 1 + 1) * 341 + n % 341 = n
    omega
  split
  · show (240 + 1) * 341 + n % 341 = n
    omega
  · show (n / 341 - 1 + 1) * 341 + n % 341 = n
    omega

theorem position_eq {ppu : Ppu} (h : ppu.Placed) : ppu.position = ofRank ppu.beam.rank := by
  have hd := h.dot_le
  unfold Ppu.position
  cases hp : ppu.phase with
  | preRender =>
    have hline : ppu.scanline.toNat = 0 := by
      have hl := h.line
      rw [hp] at hl
      exact congrArg UInt16.toNat hl
    rw [Ppu.preRender_rank hp, ofRank, if_pos (by omega), hline]
  | render =>
    have hline := h.render_line hp
    rw [Ppu.line_rank (by simp [hp]), ofRank, if_neg (by omega), if_pos (by omega)]
    congr 1 <;> omega
  | postRender =>
    have hline := h.postRender_line hp
    rw [Ppu.line_rank (by simp [hp]), ofRank, if_neg (by omega), if_neg (by omega),
      if_pos (by omega)]
    congr 1
    omega
  | verticalBlank =>
    have hline := h.verticalBlank_line hp
    rw [Ppu.line_rank (by simp [hp]), ofRank, if_neg (by omega), if_neg (by omega),
      if_neg (by omega)]
    congr 1 <;> omega

/-- The rank of the dot of a number. -/
def rankAt (short : Bool) (n : Nat) : Nat := if n < 340 then n else n + short.toNat

def frameDots (short : Bool) : Nat := 262 * 341 - short.toNat

theorem rankAt_injective (short : Bool) : Function.Injective (rankAt short) := by
  intro a b h
  unfold rankAt at h
  split at h <;> split at h <;> omega

theorem range_mul_map {α : Type} (f : Nat → α) (m k : Nat) : (List.range (m * k)).map f =
    (List.range m).flatMap fun i => (List.range k).map fun j => f (i * k + j) := by
  induction m with
  | zero => simp
  | succ m ih =>
    rw [Nat.succ_mul, List.range_add, List.map_append, ih, List.range_succ, List.flatMap_append,
      List.flatMap_singleton, List.map_map]
    rfl

/-- A line of the frame by its ranks. -/
theorem dots_eq {phase : Ppu.Phase} {line count : Nat} (f : Nat → Nat)
    (h : ∀ dot < count, ofRank (f dot) = ⟨phase, line, dot⟩) :
    (List.range count).map (fun dot => ofRank (f dot)) = dots phase line count := by
  apply List.map_congr_left
  intro dot hd
  exact h dot (List.mem_range.1 hd)

/-- The lines of a phase by their ranks. -/
theorem lines_eq {phase : Ppu.Phase} {first count : Nat} (f : Nat → Nat)
    (h : ∀ line < count, ∀ dot < 341,
      ofRank (f (line * 341 + dot)) = ⟨phase, first + line, dot⟩) :
    (List.range (count * 341)).map (fun n => ofRank (f n)) =
      (List.range count).flatMap fun line => dots phase (first + line) 341 := by
  rw [range_mul_map, List.flatMap_def, List.flatMap_def]
  refine congrArg List.flatten (List.map_congr_left ?_)
  intro line hl
  exact dots_eq _ (h line (List.mem_range.1 hl))

/-- The places of a frame are those of its ranks in order. -/
theorem frame_eq (short : Bool) :
    frame short = (List.range (frameDots short)).map fun n => ofRank (rankAt short n) := by
  have hs := short.toNat_le
  have behind : ∀ n, rankAt short (341 - short.toNat + n) = 341 + n := by
    intro n
    unfold rankAt
    rw [if_neg (by omega)]
    omega
  have first : (List.range (341 - short.toNat)).map (fun n => ofRank (rankAt short n)) =
      dots .preRender 0 (341 - short.toNat) := by
    refine dots_eq (rankAt short) ?_
    intro dot hd
    have same : rankAt short dot = dot := by
      unfold rankAt
      split <;> omega
    rw [same, ofRank, if_pos (by omega)]
  have picture : (List.range (240 * 341)).map (fun n => ofRank (341 + n)) =
      (List.range 240).flatMap fun line => dots .render (0 + line) 341 := by
    refine lines_eq (fun n => 341 + n) ?_
    intro line hl dot hd
    rw [ofRank, if_neg (by omega), if_pos (by omega)]
    congr 1 <;> omega
  have below : (List.range 341).map (fun n => ofRank (341 + (240 * 341 + n))) =
      dots .postRender 240 341 := by
    refine dots_eq (fun n => 341 + (240 * 341 + n)) ?_
    intro dot hd
    have hrem : (341 + (240 * 341 + dot)) % 341 = dot := by omega
    rw [ofRank, if_neg (by omega), if_neg (by omega), if_pos (by omega), hrem]
  have blank : (List.range (20 * 341)).map (fun n => ofRank (341 + (240 * 341 + (341 + n)))) =
      (List.range 20).flatMap fun line => dots .verticalBlank (241 + line) 341 := by
    refine lines_eq (fun n => 341 + (240 * 341 + (341 + n))) ?_
    intro line hl dot hd
    have hquot : (341 + (240 * 341 + (341 + (line * 341 + dot)))) / 341 - 1 = 241 + line := by omega
    have hrem : (341 + (240 * 341 + (341 + (line * 341 + dot)))) % 341 = dot := by omega
    rw [ofRank, if_neg (by omega), if_neg (by omega), if_neg (by omega), hquot, hrem]
  simp only [Nat.zero_add] at picture
  have split : frameDots short = 341 - short.toNat + (240 * 341 + (341 + 20 * 341)) := by
    unfold frameDots
    omega
  rw [split, List.range_add, List.map_append, first, List.map_map]
  simp only [Function.comp_def, behind]
  rw [List.range_add, List.map_append, picture, List.map_map]
  simp only [Function.comp_def]
  rw [List.range_add, List.map_append, below, List.map_map]
  simp only [Function.comp_def]
  rw [blank]
  simp only [frame, List.append_assoc]

theorem frame_length (short : Bool) : (frame short).length = frameDots short := by
  rw [frame_eq, List.length_map, List.length_range]

/-- No place of a frame comes twice. -/
theorem frame_nodup (short : Bool) : (frame short).Nodup := by
  rw [frame_eq]
  refine List.Nodup.map ?_ List.nodup_range
  exact (Function.LeftInverse.injective rank_ofRank).comp (rankAt_injective short)

theorem frame_get (short : Bool) {n : Nat} (h : n < frameDots short) :
    (frame short)[n]? = some (ofRank (rankAt short n)) := by
  rw [frame_eq, List.getElem?_map, List.getElem?_range h]
  rfl

end Position

namespace Video

open Position (rankAt frameDots)
open Ppu (nextRank dotsPerLine dotsPerFrame)

/-- Whether a frame leaves out a dot: it is odd, and both layers are shown as dot 339 before the
picture comes. -/
def shortens (schedule : Schedule) (video : Video) : Bool :=
  !video.ppu.evenFrame &&
    match call schedule 339 video with
    | .ok _ called => called.ppu.mask.showsBackground && called.ppu.mask.showsSprites
    | .error _ _ => false

/-- From the start of a frame the dots come in an order, and the one behind the last starts the next
frame. -/
structure Tours (schedule : Schedule) (video : Video) (order : List Position) : Prop where
  visits : ∀ n called, n < order.length → call schedule n video = .ok () called →
    order[n]? = some called.ppu.position ∧ called.ppu.evenFrame = video.ppu.evenFrame
  returns : ∀ after, run schedule order.length video = .ok () after →
    after.ppu.position = .start ∧ after.ppu.evenFrame = !video.ppu.evenFrame

variable {video after : Video} {schedule : Schedule} {value : Unit} {n : Nat}

theorem shortens_eq (h : call schedule 339 video = .ok value after)
    (same : after.ppu.evenFrame = video.ppu.evenFrame) :
    shortens schedule video = after.ppu.leavesOut := by
  unfold shortens Ppu.leavesOut
  rw [h, same]
  rfl

theorem nextRank_rankAt {short leaves : Bool} (last : n = 339 → short = leaves)
    (h : n + 1 < frameDots short) : nextRank leaves (rankAt short n) = rankAt short (n + 1) := by
  have hs := short.toNat_le
  have inFrame : rankAt short n + 1 ≠ dotsPerFrame := by
    unfold rankAt
    simp only [frameDots, dotsPerFrame, dotsPerLine] at *
    split <;> omega
  by_cases h339 : n = 339
  · subst h339
    obtain rfl := last rfl
    cases short with
    | false => exact Ppu.nextRank_succ inFrame fun short => by cases short
    | true => exact Ppu.nextRank_leap rfl rfl
  · have inLine : rankAt short n + 2 ≠ dotsPerLine := by
      unfold rankAt
      simp only [dotsPerLine]
      split <;> omega
    rw [Ppu.nextRank_succ inFrame fun _ => inLine]
    unfold rankAt
    split <;> split <;> omega

theorem start_placed (h : video.ppu.position = .start) : video.ppu.Placed := by
  have hphase : video.ppu.phase = .preRender := congrArg Position.phase h
  have hline : video.ppu.scanline.toNat = 0 := congrArg Position.line h
  have hdot : video.ppu.dot.toNat = 0 := congrArg Position.dot h
  constructor
  · rw [UInt16.le_iff_toNat_le, hdot]
    exact Nat.zero_le _
  · rw [hphase]
    exact UInt16.toNat_inj.1 hline

/-- Inside a frame the rank is that of the number of dots, and the parity stays. -/
theorem run_rank (h : video.ppu.position = .start) (hn : n < frameDots (shortens schedule video))
    (hr : run schedule n video = .ok value after) :
    after.ppu.beam.rank = rankAt (shortens schedule video) n ∧
      after.ppu.evenFrame = video.ppu.evenFrame := by
  induction n generalizing after with
  | zero =>
    cases hr
    refine ⟨?_, rfl⟩
    have hdot : video.ppu.dot.toNat = 0 := congrArg Position.dot h
    rw [Ppu.preRender_rank (congrArg Position.phase h), hdot]
    rfl
  | succ n ih =>
    obtain ⟨reached, called, hreach, hcall, same, steps⟩ := run_steps (start_placed h) hr
    obtain ⟨rank, parity⟩ := ih (Nat.lt_of_succ_lt hn) hreach
    have hrank : called.ppu.beam.rank = rankAt (shortens schedule video) n :=
      (rank_of_course same).trans rank
    have hparity : called.ppu.evenFrame = video.ppu.evenFrame :=
      (congrArg Ppu.Course.evenFrame same).trans parity
    have leaves : n = 339 → shortens schedule video = called.ppu.leavesOut := by
      rintro rfl
      exact shortens_eq hcall hparity
    have inFrame : rankAt (shortens schedule video) n + 1 ≠ dotsPerFrame := by
      have := (shortens schedule video).toNat_le
      unfold rankAt
      simp only [frameDots, dotsPerFrame, dotsPerLine] at *
      split <;> omega
    refine ⟨?_, ?_⟩
    · rw [steps.rank, hrank]
      exact nextRank_rankAt leaves hn
    · rw [steps.parity, hrank, if_neg inFrame]
      exact hparity

theorem call_rank (h : video.ppu.position = .start)
    (hn : n < frameDots (shortens schedule video))
    (hc : call schedule n video = .ok value after) :
    after.ppu.beam.rank = rankAt (shortens schedule video) n ∧
      after.ppu.evenFrame = video.ppu.evenFrame := by
  obtain ⟨reached, hr, hs⟩ := run_of_call hc
  obtain ⟨rank, parity⟩ := run_rank h hn hr
  have same := serveAll_course _ hs
  exact ⟨(rank_of_course same).trans rank, (congrArg Ppu.Course.evenFrame same).trans parity⟩

theorem start_tours (h : video.ppu.position = .start) (schedule : Schedule) :
    Tours schedule video (Position.frame (shortens schedule video)) where
  visits n called hn hc := by
    rw [Position.frame_length] at hn
    obtain ⟨rank, parity⟩ := call_rank h hn hc
    refine ⟨?_, parity⟩
    rw [Position.frame_get _ hn, Position.position_eq (call_placed (start_placed h) hc), rank]
  returns after hr := by
    rw [Position.frame_length] at hr
    have hs := (shortens schedule video).toNat_le
    obtain ⟨last, hlast⟩ : ∃ last, frameDots (shortens schedule video) = last + 1 :=
      ⟨262 * 341 - 1 - (shortens schedule video).toNat, by unfold frameDots; omega⟩
    rw [hlast] at hr
    obtain ⟨reached, called, -, hcall, -, steps⟩ := run_steps (start_placed h) hr
    obtain ⟨rank, parity⟩ := call_rank h (by omega) hcall
    have ends : called.ppu.beam.rank + 1 = dotsPerFrame := by
      rw [rank]
      simp only [rankAt, frameDots, dotsPerFrame, dotsPerLine] at *
      split <;> omega
    have first : after.ppu.beam.rank = 0 := by
      rw [steps.rank, Ppu.nextRank, if_pos ends]
    refine ⟨?_, ?_⟩
    · rw [Position.position_eq steps.toPlaced, first]
      rfl
    · rw [steps.parity, if_pos ends, parity]

/-! ## Idle programs -/

/-- Under an idle program the parity and the mask decide which frames are short. -/
theorem idle_shortens (h : video.ppu.position = .start) (shown : video.ppu.mask.isRendering = true)
    (idle : ∀ k ≤ 339, Idle (schedule k)) (hc : call schedule 339 video = .ok value after) :
    shortens schedule video = !video.ppu.evenFrame := by
  have within : 339 < frameDots (shortens schedule video) := by
    have := (shortens schedule video).toNat_le
    unfold frameDots
    omega
  have parity := (call_rank h within hc).2
  have mask : after.ppu.mask = video.ppu.mask :=
    congrArg Ppu.Programmed.mask (idle_programmed idle hc).1
  rw [shortens_eq hc parity, Ppu.leavesOut, mask, parity, shown, Bool.and_true]

/-- While a layer is hidden an idle program lets every dot come. -/
theorem idle_rank (placed : video.ppu.Placed) (hidden : video.ppu.mask.isRendering = false)
    (idle : ∀ k ≤ n, Idle (schedule k)) (hc : call schedule n video = .ok value after) :
    after.ppu.beam.rank = (video.ppu.beam.rank + n) % Ppu.dotsPerFrame := by
  have same : ∀ video : Video, ∀ accesses, (video.calm accesses).ppu.beam.rank =
      video.ppu.beam.rank :=
    calm_keeps (show Uninterrupted fun ppu => ppu.beam.rank from fun _ _ => rfl)
  induction n generalizing after with
  | zero =>
    obtain ⟨reached, hr, rfl⟩ := run_of_idle_call (idle 0 (Nat.le_refl 0)) hc
    cases hr
    rw [same]
    exact (Nat.mod_eq_of_lt placed.rank_lt).symm
  | succ n ih =>
    have before : ∀ k ≤ n, Idle (schedule k) := fun k hk => idle k (Nat.le_succ_of_le hk)
    obtain ⟨reached, hr, rfl⟩ := run_of_idle_call (idle (n + 1) (Nat.le_refl _)) hc
    obtain ⟨called, hcall, hdot⟩ := call_of_run hr
    have mask : called.ppu.mask = video.ppu.mask :=
      congrArg Ppu.Programmed.mask (idle_programmed before hcall).1
    have steps := Ppu.tick_steps (call_placed placed hcall) (dot_eq hdot).1
    have stays : called.ppu.leavesOut = false := by
      rw [Ppu.leavesOut, mask, hidden, Bool.and_false]
    rw [same, steps.rank, stays, ih before hcall, Ppu.nextRank]
    simp only [Ppu.dotsPerFrame, Ppu.dotsPerLine, Bool.false_eq_true, false_and, if_false]
    split <;> omega

/-! ## Whole frames -/

/-- From the start of a frame the dots go through every place of the frame once, in order, and come
back to the start with the other parity. The accesses of a program decide about nothing but the last
place before the picture, and memories that fit serve all of them. -/
theorem frame_walk (h : video.ppu.position = .start) (schedule : Schedule) :
    let order := Position.frame (shortens schedule video)
    order.Nodup ∧ order.length = 262 * 341 - (if shortens schedule video then 1 else 0) ∧
      Tours schedule video order ∧
      (∀ n reached, run schedule n video = .ok () reached →
        reached.ppu.totalDots.toNat = video.ppu.totalDots.toNat + n) ∧
      ∀ cartridge, video.Fits cartridge →
        video.ppu.totalDots.toNat + order.length < UInt64.size →
        (∀ n < order.length, ∃ called, call schedule n video = .ok () called) ∧
          ∃ after, run schedule order.length video = .ok () after := by
  intro order
  refine ⟨Position.frame_nodup _, ?_, start_tours h schedule, fun n reached => run_total, ?_⟩
  · rw [Position.frame_length, frameDots]
    cases shortens schedule video <;> rfl
  · intro cartridge fits room
    refine ⟨fun n hn => ?_, ?_⟩
    · obtain ⟨called, hc, -⟩ := call_answers (n := n) fits schedule (by omega)
      exact ⟨called, hc⟩
    · obtain ⟨after, hr, -⟩ := run_answers fits schedule room
      exact ⟨after, hr⟩

/-- The picture unit at power-on, but for the parity of the frame. -/
def odd (board : Board) : Video :=
  { powerOn .full board with ppu := { Ppu.powerOn .full with evenFrame := false } }

theorem odd_fits {cartridge : Cartridge} {board : Board}
    (h : Board.ofCartridge? cartridge = some board) : (odd board).Fits cartridge :=
  have fits := powerOn_fits .full h
  ⟨⟨fits.dot, fits.line⟩, fits.memory, fits.board, fits.sprites⟩

theorem odd_room (board : Board) {n : Nat} (h : n < 100000) :
    (odd board).ppu.totalDots.toNat + n < UInt64.size := by
  show 0 + n < UInt64.size
  exact Nat.lt_trans (by omega) (by decide : 100000 < UInt64.size)

/-- An idle program shows both layers, as they are at power-on. -/
theorem odd_shortens {cartridge : Cartridge} {board : Board}
    (h : Board.ofCartridge? cartridge = some board) :
    shortens (fun _ => []) (odd board) = true := by
  obtain ⟨called, hc, -⟩ := call_answers (odd_fits h) (fun _ => [])
    (odd_room board (by omega : 339 < 100000))
  exact idle_shortens rfl (by decide : Ppu.Mask.powerOn.isRendering = true) (fun _ _ => idle_nil) hc

/-- An odd frame under an idle program is one dot short. -/
theorem odd_frame_walks : ∃ board after, Board.ofCartridge? Image.polling = some board ∧
    (odd board).ppu.position = .start ∧
      run (fun _ => []) (262 * 341 - 1) (odd board) = .ok () after ∧
      after.ppu.position = .start ∧ after.ppu.evenFrame = true := by
  obtain ⟨board, hboard⟩ := @Board.ofCartridge?_isSome Image.polling (.inl rfl)
  have walk := @frame_walk (odd board) rfl fun _ => []
  rw [odd_shortens hboard] at walk
  obtain ⟨-, length, tours, -, answers⟩ := walk
  rw [if_pos rfl] at length
  obtain ⟨-, after, hr⟩ := answers Image.polling (odd_fits hboard)
    (by rw [length]; exact odd_room board (by omega))
  obtain ⟨place, parity⟩ := tours.returns after hr
  rw [length] at hr
  exact ⟨board, after, hboard, rfl, hr, place, parity⟩

end Video

end Famicom
