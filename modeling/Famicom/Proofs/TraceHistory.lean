import Famicom.Proofs.AddressSpace
import Famicom.Proofs.Interrupts
import Famicom.Proofs.Ppu.StatusHistory
import Famicom.Proofs.TraceText

/-!
# What a log tells of a run

The events of a run, told from the states that its beats found, and the log that holds the newest of
them. A host may change anything but the log between the beats, and clear the log.
-/

namespace Famicom

/-- An action leaves its events behind those that were noted before. -/
theorem Cpu.Notes.trace {β : Type} {action : Cpu.Action β Unit} {core : Cpu.Core β}
    {events : List Event} (h : Cpu.Notes action core events) :
    (reached action core).trace = core.trace.pushAll events := by
  have noted : action core = Cpu.retrace (core.trace.pushAll events) (action core) := h core.trace
  unfold reached
  rw [noted]
  cases action core <;> rfl

namespace Machine

open Cpu (Notes IsInstruction cycleEvents)

/-- What is done to a machine, down to the parts of a cycle. -/
inductive Beat
  | dot
  | serve
  | cycle
  | request (kind : Interrupt)
  | host (cpu : Cpu) (bus : Devices)
  | clear

namespace Beat

def run : Beat → Action Unit
  | dot => Machine.dot
  | serve => Machine.serve
  | cycle => Cpu.cycle
  | request kind => Cpu.interrupt kind
  | host cpu bus => modify fun m => ⟨cpu, bus, m.trace⟩
  | clear => modify fun m => { m with trace := m.trace.clear }

/-- The machine behind a beat, where it stopped if it did. -/
def leaves (beat : Beat) (m : Machine) : Machine := reached beat.run m

/-- The events of a beat, told from the machine that it finds. -/
def events (beat : Beat) (m : Machine) : List Event :=
  match beat with
  | dot =>
    if m.bus.ppu.position = ⟨.verticalBlank, 241, 1⟩ ∧ m.bus.ppu.control.interruptEnabled then
      [.frameInterrupt]
    else []
  | serve => if m.bus.ppu.interruptPending then [.interrupt .nmi] else []
  | cycle => cycleEvents m
  | request kind => if kind = .irq ∧ m.cpu.status.interruptDisable then [] else [.interrupt kind]
  | host _ _ => []
  | clear => []

end Beat

/-- The machine behind beats, the last of them first. -/
def behind (m : Machine) (beats : List Beat) : Machine := beats.foldr Beat.leaves m

/-- The events of a run since its log was last cleared, the first of them first. -/
def recorded (m : Machine) : List Beat → List Event
  | [] => []
  | .clear :: _ => []
  | beat :: earlier => recorded m earlier ++ beat.events (behind m earlier)

variable {m after : Machine} {beats later earlier : List Beat} {capacity : Nat}

theorem behind_append : m.behind (later ++ earlier) = (m.behind earlier).behind later :=
  List.foldr_append

theorem recorded_cons {beat : Beat} (kept : beat ≠ .clear) :
    m.recorded (beat :: earlier) = m.recorded earlier ++ beat.events (m.behind earlier) := by
  cases beat with
  | clear => exact absurd rfl kept
  | _ => rfl

theorem recorded_append (kept : Beat.clear ∉ later) :
    m.recorded (later ++ earlier) = m.recorded earlier ++ (m.behind earlier).recorded later := by
  induction later with
  | nil => exact (List.append_nil _).symm
  | cons beat later ih =>
    have head : beat ≠ .clear := fun same => kept (same ▸ List.mem_cons_self)
    have tail : Beat.clear ∉ later := fun member => kept (List.mem_cons_of_mem beat member)
    rw [List.cons_append, recorded_cons head, recorded_cons head, ih tail, behind_append,
      List.append_assoc]

/-! ## One beat -/

theorem Beat.events_dot (m : Machine) : Beat.dot.events m =
    if m.bus.ppu.raisesInterrupt then [.frameInterrupt] else [] := by
  simp only [Beat.events, Ppu.raisesInterrupt, Bool.and_eq_true, Video.startsVblank_iff]

/-- A beat notes its events, and does the same whatever is in the log. -/
theorem Beat.notes {beat : Beat} (kept : beat ≠ .clear) (m : Machine) :
    Notes beat.run m (beat.events m) := by
  cases beat with
  | dot =>
    rw [events_dot]
    exact dot_notes m
  | serve => exact serve_notes m
  | cycle => exact Cpu.cycle_notes m
  | request kind =>
    have masks : kind.isMaskable = true ↔ kind = .irq := by cases kind <;> decide
    have noted := Cpu.request_notes kind m
    simp only [Bool.and_eq_true, masks] at noted
    exact noted
  | host cpu bus => exact fun _ => rfl
  | clear => exact absurd rfl kept

/-! ## Runs -/

/-- A log that was empty holds what was recorded. -/
theorem behind_trace (empty : m.trace = { capacity := capacity }) (beats : List Beat) :
    (m.behind beats).trace = ({ capacity := capacity } : Trace).pushAll (m.recorded beats) := by
  induction beats with
  | nil => exact empty
  | cons beat earlier ih =>
    by_cases clears : beat = .clear
    · -- Of what was recorded before only the room for it is left.
      subst clears
      have cleared : (m.behind (.clear :: earlier)).trace = (m.behind earlier).trace.clear := rfl
      rw [cleared, TraceLog.clear, ih, (TraceLog.pushAll_toList (TraceLog.empty_shaped _) _).2.2]
      rfl
    · rw [recorded_cons clears, TraceLog.pushAll_append, ← ih]
      exact (beat.notes clears (m.behind earlier)).trace

/-- Beats one after the other, up to one that stops. -/
def play : List Beat → Action Unit
  | [] => pure ()
  | beat :: rest => do
    beat.run
    play rest

theorem play_append (first second : List Beat) :
    play (first ++ second) = (do play first; play second) := by
  induction first with
  | nil => exact (pure_bind _ _).symm
  | cons beat rest ih =>
    show (do beat.run; play (rest ++ second)) = (do (do beat.run; play rest); play second)
    rw [ih, bind_assoc]

theorem repeated_play (beats : List Beat) (times : Nat) :
    repeated (play beats) times = play (List.replicate times beats).flatten := by
  induction times with
  | zero => rfl
  | succ times ih =>
    rw [List.replicate_succ, List.flatten_cons, play_append, ← ih]
    rfl

/-- How far a run of beats gets. -/
theorem play_reaches (m : Machine) (beats : List Beat) : ∃ done, done <+: beats ∧
    reached (play beats) m = m.behind done.reverse ∧
    ∀ after, play beats m = .ok () after → done = beats := by
  induction beats generalizing m with
  | nil => exact ⟨[], List.prefix_refl _, rfl, fun _ _ => rfl⟩
  | cons beat rest ih =>
    have behind (done : List Beat) :
        m.behind (beat :: done).reverse = (beat.leaves m).behind done.reverse := by
      rw [List.reverse_cons, behind_append]
      rfl
    cases ran : beat.run m with
    | ok _ moved =>
      obtain ⟨done, short, reaches, whole⟩ := ih moved
      have left : beat.leaves m = moved := reached_ok ran
      refine ⟨beat :: done, (List.prefix_cons_inj beat).2 short, ?_, fun after h => ?_⟩
      · rw [behind, left]
        exact (reached_bind_ok ran).trans reaches
      · rw [whole after ((bind_ok ran).symm.trans h)]
    | error fault stopped =>
      refine ⟨[beat], ⟨rest, rfl⟩, (reached_bind_error ran).trans (reached_error ran).symm, ?_⟩
      intro after h
      cases (bind_error ran).symm.trans h

/-- The beats of one processor cycle. -/
def tickBeats : List Beat := [.dot, .dot, .dot, .serve, .cycle]

theorem tick_eq_play : tick = play tickBeats := by
  show (do repeated dot dotsPerCycle; behindDots) =
    (do dot; dot; dot; serve; Cpu.cycle; pure ())
  rw [behindDots_eq, bind_pure]
  show (do (do dot; dot; dot; pure ()); serve; Cpu.cycle) = (do dot; dot; dot; serve; Cpu.cycle)
  simp only [bind_assoc, pure_bind]

/-- The beats of a frame of processor cycles. -/
def frameBeats : List Beat := (List.replicate cyclesPerFrame tickBeats).flatten

theorem frames_eq_play (frames : Nat) :
    repeated frame frames = play (List.replicate frames frameBeats).flatten := by
  rw [frame, tick_eq_play, repeated_play, repeated_play]
  rfl

/-- An interrupt waits behind a dot if it did before, or if the dot raised it. -/
theorem dot_pending (h : dot m = .ok () after) : after.bus.ppu.interruptPending =
    (m.bus.ppu.interruptPending || m.bus.ppu.raisesInterrupt) := by
  obtain ⟨trace, ticked⟩ := dot_eq m
  rw [ticked] at h
  split at h <;> cases h
  exact (Ppu.tick_held ‹_›).2

/-- Dots note what they raise, and it waits behind them. -/
theorem dots_raise {dots : Nat} (h : repeated dot dots m = .ok () after) :
    after = m.behind (List.replicate dots .dot) ∧
      (∀ event ∈ m.recorded (List.replicate dots .dot), event = .frameInterrupt) ∧
      (after.bus.ppu.interruptPending = true ↔
        m.bus.ppu.interruptPending = true ∨ m.recorded (List.replicate dots .dot) ≠ []) := by
  induction dots generalizing after with
  | zero =>
    cases h
    exact ⟨rfl, fun event member => absurd member List.not_mem_nil, by simp [recorded]⟩
  | succ dots ih =>
    rw [repeated_succ] at h
    obtain ⟨_, moved, rest, last⟩ := of_bind_ok h
    obtain ⟨rfl, raised, waits⟩ := ih rest
    have left : after = Beat.dot.leaves (m.behind (List.replicate dots .dot)) :=
      (reached_ok last).symm
    rw [List.replicate_succ, recorded_cons (by simp), Beat.events_dot, dot_pending last,
      Bool.or_eq_true, waits]
    refine ⟨left, ?_, ?_⟩
    · intro event member
      refine (List.mem_append.1 member).elim (raised event) fun here => ?_
      split at here
      · exact List.mem_singleton.1 here
      · cases here
    · cases (m.behind (List.replicate dots .dot)).bus.ppu.raisesInterrupt <;> simp

/-- The events of a cycle: an interrupt is raised before it is served, and what waited is served as
well, before an instruction runs. -/
def InOrder (waited : Bool) (events : List Event) : Prop :=
  ∃ raised served ran, events = raised ++ served ++ ran ∧
    (∀ event ∈ raised, event = .frameInterrupt) ∧
    served = (if waited ∨ raised ≠ [] then [.interrupt .nmi] else []) ∧
    ∀ event ∈ ran, IsInstruction event

theorem tick_inOrder (h : tick m = .ok () after) : after = m.behind tickBeats.reverse ∧
    InOrder m.bus.ppu.interruptPending (m.recorded tickBeats.reverse) := by
  have parts : (do repeated dot dotsPerCycle; behindDots) m = .ok () after := h
  obtain ⟨_, moved, dots, rest⟩ := of_bind_ok parts
  obtain ⟨rfl, raised, waits⟩ := dots_raise dots
  rw [behindDots_eq] at rest
  obtain ⟨_, served, serves, cycles⟩ := of_bind_ok rest
  obtain rfl := reached_ok serves
  obtain rfl := reached_ok cycles
  refine ⟨rfl, m.recorded [.dot, .dot, .dot], _, _, rfl, raised, ?_, ?_⟩
  · exact if_congr waits rfl rfl
  · exact fun _ ran => Cpu.isInstruction_of_cycle ran

/-- What a log with room for so many events tells of a run, and how whole frames and cycles are
runs. -/
structure Told (m : Machine) (capacity : Nat) (beats : List Beat) : Prop where
  held : (m.behind beats).trace.toList = (m.recorded beats).rtake capacity
  size : (m.behind beats).trace.size = min capacity (m.recorded beats).length
  dump : Numbered 0 ((m.recorded beats).rtake capacity)
    ((m.behind beats).trace.map Event.line).dump
  frames : ∀ frames, ∃ done, done <+: (List.replicate frames frameBeats).flatten ∧
    reached (repeated frame frames) (m.behind beats) = m.behind (done.reverse ++ beats) ∧
    ∀ after, repeated frame frames (m.behind beats) = .ok () after →
      done = (List.replicate frames frameBeats).flatten
  tick : ∀ after, tick (m.behind beats) = .ok () after →
    after = m.behind (tickBeats.reverse ++ beats) ∧ ∃ events,
      m.recorded (tickBeats.reverse ++ beats) = m.recorded beats ++ events ∧
      InOrder (m.behind beats).bus.ppu.interruptPending events

/-- Whatever is done from an empty log on, the log holds the newest of the events since it was last
cleared, the oldest of them first. Its dump has a line for each of them, numbered from zero in six
digits, with the registers that an instruction found. -/
theorem log_tells_run (empty : m.trace = { capacity := capacity }) (beats : List Beat) :
    Told m capacity beats := by
  obtain ⟨held, shaped, -⟩ := TraceLog.pushAll_toList (TraceLog.empty_shaped capacity)
    (m.recorded beats)
  rw [← behind_trace empty beats] at held shaped
  have held : (m.behind beats).trace.toList = (m.recorded beats).rtake capacity := held
  refine ⟨held, ?_, ?_, fun frames => ?_, fun after h => ?_⟩
  · have length := TraceLog.length_toList shaped.oldest_le
    rw [held, List.rtake, List.length_drop] at length
    rw [TraceLog.size, ← length]
    omega
  · rw [← held]
    exact dump_numbered (m.behind beats).trace
  · obtain ⟨done, short, reaches, whole⟩ :=
      play_reaches (m.behind beats) (List.replicate frames frameBeats).flatten
    rw [← frames_eq_play, ← behind_append] at reaches
    rw [← frames_eq_play] at whole
    exact ⟨done, short, reaches, whole⟩
  · obtain ⟨left, order⟩ := tick_inOrder h
    rw [behind_append, recorded_append (by simp [tickBeats])]
    exact ⟨left, _, rfl, order⟩

/-- Three events of four beats, as an interrupt is masked, and a log with room for two of them. -/
theorem newest_two_held :
    let m : Machine := ⟨{ Cpu.powerOn with pc := 0x10 }, Devices.unused, { capacity := 2 }⟩
    let beats : List Beat := [.request .nmi, .request .brk, .cycle, .request .irq]
    m.trace = { capacity := 2 } ∧ (m.recorded beats).length = 3 ∧
      (m.behind beats).trace.toList = [.interrupt .brk, .interrupt .nmi] :=
  ⟨rfl, by decide +kernel, (log_tells_run rfl _).held.trans (by decide +kernel)⟩

end Machine

end Famicom
