import Famicom.Proofs.Cpu.Events
import Famicom.Proofs.Handlers
import Famicom.Proofs.Ppu.Walk
import Famicom.Proofs.Quiet
import Famicom.Proofs.Safety

/-!
# Frame interrupts

How often the vertical blank starts while a console runs a frame of cycles, and that the processor
serves each interrupt that was raised, once, in the same frame of cycles.
-/

namespace Famicom

/-! ## From one vertical blank to the next -/

namespace Ppu

/-- The dots behind the start of the last vertical blank, in frames that leave out none. -/
def sinceVblank (rank : Nat) : Nat :=
  if vblankRank < rank then rank - vblankRank - 1 else rank + dotsPerFrame - vblankRank - 1

/-- The dots behind the start of the last vertical blank, in frames that leave out one. -/
def sinceVblankShort (rank : Nat) : Nat :=
  if dotsPerLine ≤ rank ∧ rank ≤ vblankRank then sinceVblank rank - 1 else sinceVblank rank

/-- From one picture unit to another the vertical blank may have started so often in so many dots. -/
structure Laps (ppu after : Ppu) (dots starts : Nat) : Prop where
  lower : sinceVblank ppu.beam.rank + dots ≤ starts * dotsPerFrame + sinceVblank after.beam.rank
  upper : starts * (dotsPerFrame - 1) + sinceVblankShort after.beam.rank ≤
    sinceVblankShort ppu.beam.rank + dots

variable {ppu moved after : Ppu} {dots more starts again : Nat}

theorem Laps.rest (h : after.beam.rank = ppu.beam.rank) : ppu.Laps after 0 0 := by
  constructor <;> rw [h] <;> omega

theorem Laps.trans (h : ppu.Laps moved dots starts) (ha : moved.Laps after more again) :
    ppu.Laps after (dots + more) (starts + again) := by
  obtain ⟨low, high⟩ := h
  obtain ⟨low', high'⟩ := ha
  constructor <;> rw [Nat.add_mul] <;> omega

theorem startsVblank_eq (h : ppu.Placed) :
    ppu.startsVblank = decide (ppu.beam.rank = vblankRank) := by
  rw [Bool.eq_iff_iff, decide_eq_true_eq]
  refine ⟨startsVblank_rank, fun hr => ?_⟩
  have hd := h.dot_le
  simp only [vblankRank, dotsPerLine] at hr
  cases hp : ppu.phase with
  | preRender =>
    rw [preRender_rank hp] at hr
    omega
  | render =>
    have hl := h.render_line hp
    rw [line_rank (by simp [hp])] at hr
    omega
  | postRender =>
    have hl := h.postRender_line hp
    rw [line_rank (by simp [hp])] at hr
    omega
  | verticalBlank =>
    rw [line_rank (by simp [hp])] at hr
    have hdot : ppu.dot = 1 := UInt16.toNat_inj.1 (show ppu.dot.toNat = 1 by omega)
    have hline : ppu.scanline = vblankLine :=
      UInt16.toNat_inj.1 (show ppu.scanline.toNat = 241 by omega)
    simp only [startsVblank, hp, hdot, hline, decide_true, Bool.and_self]

theorem nextRank_moves (short : Bool) (rank : Nat) : Moves rank (nextRank short rank) := by
  unfold Moves nextRank
  split
  · exact .inr (.inl ⟨‹_›, rfl⟩)
  split
  · rename_i left
    exact .inr (.inr ⟨left.2, left.2.symm⟩)
  · exact .inl rfl

theorem sinceVblank_cases (rank : Nat) :
    (82523 < rank ∧ sinceVblank rank = rank - 82524 ∧ sinceVblankShort rank = rank - 82524) ∨
      (341 ≤ rank ∧ rank ≤ 82523 ∧ sinceVblank rank = rank + 6818 ∧
        sinceVblankShort rank = rank + 6817) ∨
      (rank < 341 ∧ sinceVblank rank = rank + 6818 ∧ sinceVblankShort rank = rank + 6818) := by
  have vblank : vblankRank = 82523 := rfl
  have frame : dotsPerFrame = 89342 := rfl
  have line : dotsPerLine = 341 := rfl
  by_cases below : vblankRank < rank
  · have long : sinceVblank rank = rank - vblankRank - 1 := if_pos below
    have short : sinceVblankShort rank = sinceVblank rank := if_neg (by omega)
    omega
  · have long : sinceVblank rank = rank + dotsPerFrame - vblankRank - 1 := if_neg below
    by_cases above : rank < dotsPerLine
    · have short : sinceVblankShort rank = sinceVblank rank := if_neg (by omega)
      omega
    · have short : sinceVblankShort rank = sinceVblank rank - 1 := if_pos (by omega)
      omega

theorem Moves.sinceVblank {rank next : Nat} (h : Moves rank next) (hlt : rank < 262 * 341) :
    sinceVblank rank + 1 ≤
        (decide (rank = vblankRank)).toNat * dotsPerFrame + sinceVblank next ∧
      (decide (rank = vblankRank)).toNat * (dotsPerFrame - 1) + sinceVblankShort next ≤
        sinceVblankShort rank + 1 := by
  have before := sinceVblank_cases rank
  have behind := sinceVblank_cases next
  have vblank : vblankRank = 82523 := rfl
  have frame : dotsPerFrame = 89342 := rfl
  have line : dotsPerLine = 341 := rfl
  unfold Moves at h
  by_cases start : rank = vblankRank
  · rw [decide_eq_true start, Bool.toNat_true]
    omega
  · rw [decide_eq_false start, Bool.toNat_false]
    omega

theorem Steps.laps (h : ppu.Placed) (hs : ppu.Steps after) :
    ppu.Laps after 1 ppu.startsVblank.toNat := by
  have moves := nextRank_moves ppu.leavesOut ppu.beam.rank
  rw [← hs.rank] at moves
  obtain ⟨lower, upper⟩ := moves.sinceVblank h.rank_lt
  rw [startsVblank_eq h]
  exact ⟨lower, upper⟩

/-- A frame of cycles has one dot more than a frame. -/
theorem Laps.frame (h : ppu.Laps after (dotsPerFrame + 1) starts) (hp : ppu.Placed)
    (ha : after.Placed) : 1 ≤ starts ∧ starts ≤ 2 := by
  obtain ⟨lower, upper⟩ := h
  have before := sinceVblank_cases ppu.beam.rank
  have behind := sinceVblank_cases after.beam.rank
  have hlt := hp.rank_lt
  have hlt' := ha.rank_lt
  simp only [dotsPerFrame, dotsPerLine] at lower upper
  omega

end Ppu

/-! ## Dots of a machine -/

namespace Machine

open Cpu (Notes IsInstruction)
open Ppu (Laps)

variable {m n k : Machine} {cycles dots : Nat} {p : Ppu → Bool}

/-- The picture unit as a dot is due, counted from a machine on. -/
def ppuAt (m : Machine) (n : Nat) : Option Ppu :=
  match pass (n / dotsPerCycle) (n % dotsPerCycle) m with
  | .ok _ reached => some reached.bus.ppu
  | .error _ _ => none

/-- How many of the first dots find the picture unit as `p` says. -/
def dotsWhere (p : Ppu → Bool) (dots : Nat) (m : Machine) : Nat :=
  (List.range dots).countP fun n => (ppuAt m n).any p

theorem repeated_succ (action : Action Unit) (times : Nat) :
    repeated action (times + 1) = (do repeated action times; action) := by
  induction times with
  | zero =>
    show (do action; pure ()) = (do pure (); action)
    exact bind_pure action
  | succ times ih =>
    show (do action; repeated action (times + 1)) = (do (do action; repeated action times); action)
    rw [ih, bind_assoc]

theorem pass_dot (cycles dots : Nat) :
    pass cycles (dots + 1) = (do pass cycles dots; dot) := by
  unfold pass
  rw [repeated_succ, bind_assoc]

theorem pass_zero (cycles : Nat) : pass cycles 0 = repeated tick cycles :=
  bind_pure (repeated tick cycles)

theorem pass_cycle (cycles : Nat) :
    pass (cycles + 1) 0 = (do pass cycles dotsPerCycle; behindDots) := by
  rw [pass_zero, repeated_succ]
  unfold pass
  rw [bind_assoc]
  rfl

theorem ppuAt_pass (hd : dots < 3) (hk : pass cycles dots m = .ok () k) :
    ppuAt m (3 * cycles + dots) = some k.bus.ppu := by
  have quot : (3 * cycles + dots) / dotsPerCycle = cycles := by
    show (3 * cycles + dots) / 3 = cycles
    omega
  have rem : (3 * cycles + dots) % dotsPerCycle = dots := by
    show (3 * cycles + dots) % 3 = dots
    omega
  unfold ppuAt
  rw [quot, rem, hk]

theorem dotsWhere_succ (hd : dots < 3) (hk : pass cycles dots m = .ok () k) :
    dotsWhere p (3 * cycles + (dots + 1)) m =
      dotsWhere p (3 * cycles + dots) m + (p k.bus.ppu).toNat := by
  unfold dotsWhere
  rw [← Nat.add_assoc, List.range_succ, List.countP_append, List.countP_singleton,
    ppuAt_pass hd hk, Option.any_some]
  cases p k.bus.ppu <;> rfl

/-! ## What is noted of them -/

theorem dot_notes (m : Machine) :
    Notes dot m (if m.bus.ppu.raisesInterrupt then [.frameInterrupt] else []) := by
  intro trace
  unfold dot Cpu.Core.withTrace
  dsimp only
  cases m.bus.ppu.raisesInterrupt <;> split <;> rfl

/-- What a run of cycles, and some dots of the next one, came to. -/
structure Account (m : Machine) (cycles dots : Nat) (n : Machine) : Prop where
  reached : pass cycles dots m = .ok () n
  laps : m.bus.ppu.Laps n.bus.ppu (3 * cycles + dots)
    (dotsWhere Ppu.startsVblank (3 * cycles + dots) m)
  noted : ∃ events, Notes (pass cycles dots) m events ∧
    events.count .frameInterrupt = dotsWhere Ppu.raisesInterrupt (3 * cycles + dots) m ∧
    events.count (.interrupt .nmi) + n.bus.ppu.interruptPending.toNat =
      dotsWhere Ppu.raisesInterrupt (3 * cycles + dots) m
  entered : ∃ entries k, Entered m cycles entries k ∧ repeated dot dots k = .ok () n ∧
    entries + n.bus.ppu.interruptPending.toNat =
      dotsWhere Ppu.raisesInterrupt (3 * cycles + dots) m

variable {cartridge : Cartridge}

theorem Account.start (h : m.bus.ppu.interruptPending = false) : Account m 0 0 m where
  reached := rfl
  laps := .rest rfl
  noted := by
    refine ⟨[], fun _ => rfl, rfl, ?_⟩
    rw [h]
    rfl
  entered := by
    refine ⟨0, m, .start, rfl, ?_⟩
    rw [h]
    rfl

/-- A dot that raises the interrupt finds none that waits. -/
theorem Between.raises_calm {owed : UInt32} {run : UInt64}
    (h : Between cartridge Eq (fun _ _ => True) owed run dots m m)
    (raises : m.bus.ppu.raisesInterrupt = true) : m.bus.ppu.interruptPending = false := by
  obtain ⟨b, c, clock, _, _, _, _, _, _, _, rfl, _⟩ := h
  have starts : m.bus.ppu.startsVblank = true := (Bool.and_eq_true_iff.1 raises).1
  have place := Ppu.startsVblank_rank starts
  cases hp : m.bus.ppu.interruptPending with
  | false => rfl
  | true =>
    have := clock.interrupt hp
    omega

theorem Account.dot (sound : cartridge.Sound) (hm : m.Sound cartridge) (h : Account m cycles dots k)
    (hd : dots < 3) (hk : dot k = .ok () n) : Account m cycles (dots + 1) n := by
  obtain ⟨owed, run, between⟩ := pass_between sound hm (Nat.le_of_lt hd) h.reached
  have calm := between.raises_calm
  obtain ⟨b, c, _, _, _, _, _, _, fits, _⟩ := between
  have notes := dot_notes k
  obtain ⟨trace, heq⟩ := dot_eq k
  have hdot := hk
  rw [heq] at hk
  split at hk <;> cases hk
  rename_i ppu ht
  obtain ⟨-, pending⟩ := Ppu.tick_held ht
  have waits : ppu.interruptPending.toNat =
      k.bus.ppu.interruptPending.toNat + k.bus.ppu.raisesInterrupt.toNat := by
    rw [pending]
    cases hr : k.bus.ppu.raisesInterrupt with
    | false =>
      rw [Bool.or_false]
      rfl
    | true =>
      rw [calm hr]
      rfl
  refine ⟨?_, ?_, ?_, ?_⟩
  · rw [pass_dot, bind_ok h.reached, hdot]
  · rw [dotsWhere_succ hd h.reached]
    exact h.laps.trans ((Ppu.tick_steps fits.ppu.toPlaced ht).laps fits.ppu.toPlaced)
  · obtain ⟨events, before, raised, served⟩ := h.noted
    have silent : (if k.bus.ppu.raisesInterrupt then [Event.frameInterrupt] else []).count
        (.interrupt .nmi) = 0 := by
      cases k.bus.ppu.raisesInterrupt <;> rfl
    refine ⟨_, by rw [pass_dot]; exact before.bind h.reached notes, ?_, ?_⟩
    · rw [dotsWhere_succ hd h.reached, List.count_append, raised]
      cases k.bus.ppu.raisesInterrupt <;> rfl
    · rw [dotsWhere_succ hd h.reached, ← served, List.count_append, silent]
      show _ + ppu.interruptPending.toNat = _
      omega
  · obtain ⟨entries, began, run, moved, total⟩ := h.entered
    refine ⟨entries, began, run, by rw [repeated_succ, bind_ok moved, hdot], ?_⟩
    rw [dotsWhere_succ hd h.reached, ← total]
    show _ + ppu.interruptPending.toNat = _
    omega

theorem Account.moreDots (sound : cartridge.Sound) (hm : m.Sound cartridge)
    (h : Account m cycles 0 k) (hd : dots ≤ 3) (hk : repeated Machine.dot dots k = .ok () n) :
    Account m cycles dots n := by
  induction dots generalizing n with
  | zero =>
    cases hk
    exact h
  | succ dots ih =>
    rw [repeated_succ] at hk
    obtain ⟨_, moved, hrest, hlast⟩ := of_bind_ok hk
    exact (ih (Nat.le_of_succ_le hd) hrest).dot sound hm hd hlast

theorem takeInterrupt_notes : Cpu.NotesOnly (fun _ => False) takeInterrupt :=
  .silent fun _ _ => rfl

theorem serve_notes (m : Machine) :
    Notes serve m (if m.bus.ppu.interruptPending then [.interrupt .nmi] else []) := by
  let calm : Machine := { m with bus.ppu := m.bus.ppu.takeInterrupt.2 }
  have took : takeInterrupt m = .ok m.bus.ppu.interruptPending calm := rfl
  have taken := takeInterrupt_notes.none m
  cases pending : m.bus.ppu.interruptPending with
  | false =>
    rw [pending] at took
    exact taken.bind took fun _ => rfl
  | true =>
    rw [pending] at took
    exact taken.bind took (Cpu.interrupt_notes calm)

/-- Behind its dots a cycle notes the interrupt that waited, and instructions. -/
theorem behindDots_notes (m : Machine) : ∃ events, Notes behindDots m events ∧
    events.count .frameInterrupt = 0 ∧
    events.count (.interrupt .nmi) = m.bus.ppu.interruptPending.toNat := by
  have instructions (k : Machine) : ∀ event, ¬IsInstruction event →
      (Cpu.cycleEvents k).count event = 0 :=
    fun event he => List.count_eq_zero.2 fun hm => he (Cpu.isInstruction_of_cycle hm)
  have frameEvent : ¬IsInstruction .frameInterrupt := by rintro ⟨_, _, h⟩; cases h
  have nmiEvent : ¬IsInstruction (.interrupt .nmi) := by rintro ⟨_, _, h⟩; cases h
  have served := serve_notes m
  rw [behindDots_eq]
  cases hs : serve m with
  | error fault stopped =>
    refine ⟨_, served.stop hs, ?_, ?_⟩ <;> cases m.bus.ppu.interruptPending <;> rfl
  | ok _ calm =>
    refine ⟨_, served.bind hs (Cpu.cycle_notes calm), ?_, ?_⟩
    · rw [List.count_append, instructions calm _ frameEvent]
      cases m.bus.ppu.interruptPending <;> rfl
    · rw [List.count_append, instructions calm _ nmiEvent]
      cases m.bus.ppu.interruptPending <;> rfl

theorem Account.cycle (sound : cartridge.Sound) (hm : m.Sound cartridge)
    (h : Account m cycles dotsPerCycle k) (hk : behindDots k = .ok () n) :
    Account m (cycles + 1) 0 n ∧ n.Sound cartridge := by
  obtain ⟨owed, run, b, c, clock, -, hpair⟩ := pass_between sound hm (Nat.le_refl _) h.reached
  have hb : k.bus.ppu.beam = b := hpair.bus.left
  have coupled : Coupled (Cpu.Paired (Devices.Alike (Devices.Fits cartridge) Eq (· = false) b c) owed run)
      behindDots (fun _ => Level cartridge Eq (fun beam _ => beam = Clock.calmed b)
        (run.toNat + 1)) never :=
    behindDots_coupled Devices.eq_padsAlike sound clock rfl
  have alike := coupled k k hpair
  rw [hk] at alike
  cases alike with
  | ok hl =>
    have beam : n.bus.ppu.beam = Clock.calmed b := hl.twins.screens
    have calm : n.bus.ppu.interruptPending = false := hl.sound.clock.calm
    refine ⟨⟨?_, ?_, ?_, ?_⟩, hl.sound⟩
    · rw [pass_cycle, bind_ok h.reached, hk]
    · refine h.laps.trans (.rest ?_)
      rw [beam, hb]
      rfl
    · obtain ⟨events, before, raised, served⟩ := h.noted
      obtain ⟨later, behind, quiet, once⟩ := behindDots_notes k
      refine ⟨events ++ later, by rw [pass_cycle]; exact before.bind h.reached behind, ?_, ?_⟩
      · rw [List.count_append, quiet]
        exact raised
      · rw [List.count_append, once, calm]
        exact served
    · obtain ⟨entries, began, run, moved, total⟩ := h.entered
      refine ⟨_, n, run.next moved hk, rfl, ?_⟩
      rw [calm]
      exact total

/-- Sound machines run their cycles, and account for them. -/
theorem account (sound : cartridge.Sound) (h : m.Sound cartridge) (cycles : Nat)
    (room : 3 * (m.cpu.cycles.toNat + cycles) < UInt64.size) :
    ∃ n, Account m cycles 0 n ∧ n.Sound cartridge ∧
      n.cpu.cycles.toNat = m.cpu.cycles.toNat + cycles := by
  induction cycles with
  | zero => exact ⟨m, .start h.clock.calm, h, rfl⟩
  | succ cycles ih =>
    obtain ⟨k, hk, sound', count⟩ := ih (by omega)
    obtain ⟨n, ht, -, hcycles⟩ := tick_ok sound sound' (by omega)
    obtain ⟨_, moved, hdots, hend⟩ := of_bind_ok ht
    obtain ⟨hn, hsound⟩ := (hk.moreDots sound h (Nat.le_refl 3) hdots).cycle sound h hend
    exact ⟨n, hn, hsound, by omega⟩

end Machine

/-! ## Frames of a console -/

namespace Console

open Machine (cyclesPerFrame dotsPerCycle dotsWhere)

variable {cartridge : Cartridge} {c d : Console}

theorem onMachine_ok {action : Machine.Action Unit} (h : onMachine action c = .ok () d) :
    action c.machine = .ok () d.machine ∧ d.backup = c.backup := by
  unfold onMachine at h
  dsimp only at h
  split at h <;> cases h
  exact ⟨‹_›, rfl⟩

theorem reset_cycles (h : reset c = .ok () d) : d.machine.cpu.cycles = 0 := by
  obtain ⟨_, m, hcpu, hppu⟩ := of_bind_ok (onMachine_ok h).1
  obtain ⟨_, _, _, hcpu⟩ := of_bind_ok hcpu
  obtain ⟨_, _, _, hcpu⟩ := of_bind_ok hcpu
  cases hcpu
  injection hppu with _ hm
  rw [← hm]

/-- The console, and what it has backed up, stopped between two frames of cycles. -/
structure Framed (c : Console) : Prop where
  running : cyclesPerFrame ∣ c.machine.cpu.cycles.toNat
  backup : ∀ state, c.backup = some state → cyclesPerFrame ∣ state.cpu.cycles.toNat

theorem feed_framed (sound : cartridge.Sound) (hs : c.Sound cartridge) (h : c.Framed)
    {input : Input} (hf : feed input c = .ok () d) : d.Framed := by
  cases input with
  | press socket buttons =>
    cases hf
    match socket with
    | 0 => exact ⟨h.running, h.backup⟩
    | 1 => exact ⟨h.running, h.backup⟩
    | _ + 2 => exact h
  | poke cell value =>
    cases hf
    exact ⟨h.running, h.backup⟩
  | frame =>
    have kept := (onMachine_ok hf).2
    have alike := frame_alike Machine.anyScreens_shown Devices.eq_padsAlike sound hs.alike
    rw [show frame c = .ok () d from hf] at alike
    cases alike with
    | ok ha =>
      refine ⟨?_, kept ▸ h.backup⟩
      rw [ha.2]
      exact Nat.dvd_add h.running (Nat.dvd_refl _)
  | reset =>
    refine ⟨?_, (onMachine_ok hf).2 ▸ h.backup⟩
    rw [reset_cycles hf]
    exact Nat.dvd_zero _

theorem load_framed {state : Snapshot} (hs : state.Sound cartridge) (h : c.Framed)
    (hd : cyclesPerFrame ∣ state.cpu.cycles.toNat) : (c.load state).Framed := by
  rw [load_eq hs.stocked]
  exact ⟨hd, h.backup⟩

theorem restore_framed (hs : c.Sound cartridge) (h : c.Framed) : c.restore.Framed := by
  unfold restore
  cases hb : c.backup with
  | none => exact h
  | some state => exact load_framed (hs.backup state hb) h (h.backup state hb)

theorem insert_framed {variant : Ppu.Variant} (h : insert cartridge variant = .ok c) :
    c.Framed := by
  unfold insert at h
  split at h
  · cases h
  split at h <;> cases h
  rename_i hr
  refine ⟨?_, ?_⟩
  · rw [reset_cycles hr]
    exact Nat.dvd_zero _
  · intro state hs
    rw [(onMachine_ok hr).2] at hs
    cases hs

theorem Reachable.framed (h : Reachable cartridge c) (sound : cartridge.Sound) : c.Framed := by
  induction h with
  | insert h => exact insert_framed h
  | feed input hc hf ih => exact feed_framed sound (hc.sound sound) ih hf
  | backUp _ ih =>
    refine ⟨ih.running, ?_⟩
    intro state hs
    cases hs
    exact ih.running
  | restore hc ih => exact restore_framed (hc.sound sound) ih
  | load hc hd ih ihd => exact load_framed (hd.sound sound).machine.snapshot ih ihd.running
  | decode hc hd hdecode ih ihd =>
    rw [decode_encode (hc.sound sound).machine.stocked (hd.sound sound).machine.stocked]
      at hdecode
    cases hdecode
    exact ⟨ihd.running, ih.backup⟩

/-- How the clocks of a console stand between two frames of cycles, and what the next one does. -/
structure Timed (c : Console) : Prop where
  dots : c.machine.bus.ppu.totalDots.toNat = 3 * c.machine.cpu.cycles.toNat
  frames : 29781 ∣ c.machine.cpu.cycles.toNat
  calm : c.machine.bus.ppu.interruptPending = false
  frame : c.machine.bus.ppu.totalDots.toNat + 3 * 29781 < UInt64.size →
    ∃ next events, frame c = .ok () next ∧ Cpu.Notes Machine.frame c.machine events ∧
      1 ≤ dotsWhere Ppu.startsVblank (3 * 29781) c.machine ∧
      dotsWhere Ppu.startsVblank (3 * 29781) c.machine ≤ 2 ∧
      events.count (.interrupt .nmi) = dotsWhere Ppu.raisesInterrupt (3 * 29781) c.machine ∧
      events.count .frameInterrupt = dotsWhere Ppu.raisesInterrupt (3 * 29781) c.machine ∧
      Machine.Entered c.machine 29781 (dotsWhere Ppu.raisesInterrupt (3 * 29781) c.machine)
        next.machine

theorem Sound.timed (sound : cartridge.Sound) (h : c.Sound cartridge) (framed : c.Framed) :
    c.Timed where
  dots := h.machine.clock.total
  frames := framed.running
  calm := h.machine.clock.calm
  frame room := by
    have total : c.machine.bus.ppu.totalDots.toNat = 3 * c.machine.cpu.cycles.toNat :=
      h.machine.clock.total
    have room : 3 * (c.machine.cpu.cycles.toNat + cyclesPerFrame) < UInt64.size := by
      rw [Nat.mul_add, ← total]
      exact room
    obtain ⟨n, account, hn, -⟩ := Machine.account sound h.machine cyclesPerFrame room
    obtain ⟨events, notes, raised, served⟩ := account.noted
    obtain ⟨entries, _, run, ended, entered⟩ := account.entered
    cases ended
    obtain ⟨low, high⟩ := account.laps.frame h.machine.devices.ppu.toPlaced
      hn.devices.ppu.toPlaced
    have reached := account.reached
    have calm : n.bus.ppu.interruptPending = false := hn.clock.calm
    rw [Machine.pass_zero] at reached notes
    rw [calm] at served entered
    exact ⟨{ c with machine := n }, events, onMachine_eq reached, notes, low, high, served, raised,
      entered ▸ run⟩

/-- Whatever a host has done, three dots pass in a cycle and whole frames of cycles have passed. The
vertical blank starts once or twice in the next one. Each dot that starts it with the interrupt
enabled is noted, and within the frame the processor enters the handler as often: it saves where it
was and what its status was, masks interrupts and goes on where the vector says. -/
theorem frames_account {raw : ByteArray} (himage : Cartridge.ofImage raw = .ok cartridge)
    (h : Reachable cartridge c) : c.Timed := by
  have sound := Cartridge.ofImage_sound himage
  exact (h.sound sound).timed sound (h.framed sound)

theorem polling_accounts : ∃ c, insert Image.polling .full = .ok c ∧ c.Timed := by
  have sound := Cartridge.ofImage_sound Image.ofImage_pollingImage
  obtain ⟨board, hboard⟩ := @Board.ofCartridge?_isSome Image.polling (.inl rfl)
  obtain ⟨c, _, hc, -⟩ := insert_alike sound hboard .full .full
  exact ⟨c, hc, frames_account Image.ofImage_pollingImage (.insert hc)⟩

end Console

end Famicom
