import Famicom.Machine
import Famicom.Proofs.Devices
import Famicom.Proofs.Ppu.Dot

/-!
# Twin machines

Machines that run alike: the same processor on devices that a program cannot tell apart. What holds of
one machine between two cycles holds of both and is kept by every cycle.
-/

namespace Famicom.Machine

open Ppu (Beam vblankRank Moves)
open Cpu (longestWait Paired Spent)

/-- The beam of a picture unit whose interrupt was taken. -/
def Clock.calmed (beam : Beam) : Beam := { beam with interruptPending := false }

/-- What a processor may owe, `dots` dots into a cycle. One that owes more than `base` was interrupted
not long ago. -/
structure Owing (base dots : Nat) (owed : UInt32) (beam : Beam) : Prop where
  owed : owed.toNat ≤ base ∨ (vblankRank < beam.rank ∧ beam.interruptPending = false ∧
    beam.rank + 3 * (owed.toNat - base) ≤ vblankRank + 21 + dots)
  interrupt : beam.interruptPending = true →
    vblankRank < beam.rank ∧ beam.rank ≤ vblankRank + dots

namespace Owing

variable {base dots : Nat} {owed left : UInt32} {beam next : Beam}

theorem advance (h : Owing base dots owed beam)
    (onward : vblankRank ≤ beam.rank → beam.rank ≤ vblankRank + 21 + dots →
      next.rank = beam.rank + 1)
    (raised : next.interruptPending = true →
      beam.interruptPending = true ∨ beam.rank = vblankRank) :
    Owing base (dots + 1) owed next := by
  constructor
  · rcases h.owed with ho | ⟨low, calm, high⟩
    · exact .inl ho
    · have hn := onward (Nat.le_of_lt low) (by omega)
      refine .inr ⟨by omega, ?_, by omega⟩
      cases hp : next.interruptPending with
      | false => rfl
      | true =>
        rcases raised hp with hb | hb
        · rw [calm] at hb
          cases hb
        · omega
  · intro hp
    rcases raised hp with hb | hb
    · obtain ⟨low, high⟩ := h.interrupt hb
      have hn := onward (Nat.le_of_lt low) (by omega)
      omega
    · have hn := onward (Nat.le_of_eq hb.symm) (by omega)
      omega

theorem ignore (h : Owing base dots owed beam) : Owing base dots owed (Clock.calmed beam) where
  owed := h.owed.imp id fun ⟨low, _, high⟩ => ⟨low, rfl, high⟩
  interrupt hp := by cases hp

theorem interrupted (h : Owing base 3 owed beam) (hp : beam.interruptPending = true)
    (hbase : base + 7 < UInt32.size) :
    owed.toNat ≤ base ∧ Owing base 3 (owed + 7) (Clock.calmed beam) := by
  obtain ⟨low, high⟩ := h.interrupt hp
  have ho : owed.toNat ≤ base := by
    rcases h.owed with ho | ⟨_, calm, _⟩
    · exact ho
    · rw [calm] at hp
      cases hp
  have hsum : (owed + 7).toNat = owed.toNat + 7 := by
    rw [UInt32.toNat_add]
    simp only [UInt32.reduceToNat, UInt32.size] at *
    omega
  refine ⟨ho, .inr ⟨low, rfl, ?_⟩, fun hp => by cases hp⟩
  show beam.rank + _ ≤ _
  rw [hsum]
  omega

theorem spend (h : Owing base 3 owed beam) (calm : beam.interruptPending = false)
    (hs : Spent owed left) (hbase : longestWait ≤ base) : Owing base 0 left beam := by
  refine ⟨?_, fun hp => by rw [calm] at hp; cases hp⟩
  rcases hs with ⟨hlt, rfl⟩ | hl
  · have hsub : (owed - 1).toNat = owed.toNat - 1 :=
      UInt32.toNat_sub_of_le _ _ (UInt32.le_of_lt hlt)
    rw [hsub]
    rcases h.owed with ho | ⟨low, _, high⟩
    · exact .inl (by omega)
    · by_cases hle : owed.toNat - 1 ≤ base
      · exact .inl hle
      · exact .inr ⟨low, calm, by omega⟩
  · exact .inl (Nat.le_trans hl hbase)

/-- No interrupt waits between cycles. -/
theorem calm (h : Owing base 0 owed beam) : beam.interruptPending = false := by
  cases hp : beam.interruptPending with
  | false => rfl
  | true =>
    have := h.interrupt hp
    omega

/-- What is owed once a waiting interrupt was served. -/
theorem served (h : Owing base 3 owed beam) (hbase : base + 7 < UInt32.size) :
    (beam.interruptPending = true → owed.toNat + 7 < UInt32.size) ∧
      Owing base 3 (if beam.interruptPending then owed + 7 else owed) (Clock.calmed beam) := by
  by_cases hp : beam.interruptPending = true
  · obtain ⟨ho, hint⟩ := h.interrupted hp hbase
    rw [if_pos hp]
    exact ⟨fun _ => by omega, hint⟩
  · rw [if_neg hp]
    exact ⟨fun h => absurd h hp, h.ignore⟩

end Owing

/-- What the clock of the processor and the beam know of each other, `dots` dots into a cycle. A
processor that owes more than an instruction was interrupted not long ago. -/
structure Clock (dots : Nat) (owed : UInt32) (run : UInt64) (beam : Beam) : Prop where
  total : beam.totalDots.toNat = 3 * run.toNat + dots
  owed : owed.toNat ≤ longestWait ∨ (vblankRank < beam.rank ∧ beam.interruptPending = false ∧
    beam.rank + 3 * (owed.toNat - longestWait) ≤ vblankRank + 21 + dots)
  interrupt : beam.interruptPending = true →
    vblankRank < beam.rank ∧ beam.rank ≤ vblankRank + dots

namespace Clock

variable {dots : Nat} {owed left : UInt32} {run : UInt64} {beam next : Beam}
variable {strokes : List Ppu.Stroke}

theorem owing (h : Clock dots owed run beam) : Owing longestWait dots owed beam :=
  ⟨h.owed, h.interrupt⟩

/-- No interrupt waits between cycles. -/
theorem calm (h : Clock 0 owed run beam) : beam.interruptPending = false := h.owing.calm

/-- The count of cycles is never near its end: that of the dots would be full long before. -/
theorem room (h : Clock 3 owed run beam) : run.toNat + 1 < UInt64.size := by
  have := beam.totalDots.toNat_lt
  have := h.total
  simp only [UInt64.size]
  omega

theorem advance (h : Clock dots owed run beam) (hd : dots < 3) (ha : beam.Advances next strokes) :
    Clock (dots + 1) owed run next := by
  have onward : vblankRank ≤ beam.rank → beam.rank ≤ vblankRank + 21 + dots →
      next.rank = beam.rank + 1 := by
    intro low high
    have hm := ha.rank
    simp only [Moves, Ppu.dotsPerFrame, Ppu.dotsPerLine, vblankRank] at *
    omega
  obtain ⟨owed, interrupt⟩ := h.owing.advance onward ha.interrupt
  refine ⟨?_, owed, interrupt⟩
  rw [ha.total, h.total]
  omega

theorem spend (h : Clock 3 owed run beam) (hs : Spent (if beam.interruptPending then owed + 7
      else owed) left) (hrun : run.toNat + 1 < UInt64.size) :
    Clock 0 left (run + 1) (calmed beam) := by
  obtain ⟨owed, interrupt⟩ := (h.owing.served (by decide)).2.spend rfl hs (Nat.le_refl _)
  have hsum : (run + 1).toNat = run.toNat + 1 := by
    rw [UInt64.toNat_add]
    exact Nat.mod_eq_of_lt hrun
  refine ⟨?_, owed, interrupt⟩
  show beam.totalDots.toNat = _
  rw [hsum, h.total]
  omega

end Clock

/-! ## Twins over a cycle -/

/-- What a machine keeps between two cycles. -/
structure Sound (cartridge : Cartridge) (m : Machine) : Prop where
  devices : m.bus.Fits cartridge
  idle : m.bus.transferRequested = false
  clock : Clock 0 m.cpu.pending m.cpu.cycles m.bus.ppu.beam

/-- A relation of what two beams put out that no dot breaks. -/
structure Shown (screens : Beam → Beam → Prop) : Prop where
  dot : ∀ {b c b' c' strokes}, screens b c → b.Advances b' strokes → c.Advances c' strokes →
    screens b' c'
  calm : ∀ {b c}, screens b c → screens (Clock.calmed b) (Clock.calmed c)

structure Twins (pads : Joypads → Joypads → Prop) (screens : Beam → Beam → Prop)
    (m n : Machine) : Prop where
  cpu : m.cpu = n.cpu
  bus : m.bus.Twins pads n.bus
  screens : screens m.bus.ppu.beam n.bus.ppu.beam

/-- Sound twins that have run a number of cycles. -/
structure Level (cartridge : Cartridge) (pads : Joypads → Joypads → Prop)
    (screens : Beam → Beam → Prop) (cycles : Nat) (m n : Machine) : Prop where
  sound : m.Sound cartridge
  twins : m.Twins pads screens n
  cycles : m.cpu.cycles.toNat = cycles

variable {cartridge : Cartridge} {fits : Devices → Prop} {pads : Joypads → Joypads → Prop}
variable {screens : Beam → Beam → Prop} {owed : UInt32} {run : UInt64}

/-- A machine is its own twin. -/
theorem Sound.level {m : Machine} (h : m.Sound cartridge) :
    Level cartridge Eq (fun _ _ => True) m.cpu.cycles.toNat m m :=
  ⟨h, ⟨rfl, ⟨rfl, rfl, rfl, rfl, rfl, rfl⟩, trivial⟩, rfl⟩

/-- Twins some dots into a cycle. -/
def Between (cartridge : Cartridge) (pads : Joypads → Joypads → Prop)
    (screens : Beam → Beam → Prop) (owed : UInt32) (run : UInt64) (dots : Nat)
    (m n : Machine) : Prop :=
  ∃ b c, Clock dots owed run b ∧ screens b c ∧
    Paired (Devices.Alike (Devices.Fits cartridge) pads (· = false) b c) owed run m n

/-- The count of all dots is full before so many of them. -/
structure Full (dots : Nat) (fault : Fault) (m n : Machine) : Prop where
  overflow : fault = .overflow
  reached : UInt64.size ≤ dots
  left : m.bus.ppu.CountFull
  right : n.bus.ppu.CountFull

theorem Full.mono {fewer dots : Nat} {fault : Fault} {m n : Machine} (h : Full fewer fault m n)
    (hd : fewer ≤ dots) : Full dots fault m n :=
  { h with reached := Nat.le_trans h.reached hd }

/-- A dot only reaches the picture unit and the log. -/
theorem dot_eq (m : Machine) : ∃ trace, dot m =
    match m.bus.ppu.tick m.bus.picture m.bus.board with
    | .ok _ ppu => .ok () ⟨m.cpu, { m.bus with ppu := ppu }, trace⟩
    | .error fault ppu => .error fault ⟨m.cpu, { m.bus with ppu := ppu }, trace⟩ :=
  ⟨_, rfl⟩

theorem dot_coupled (hs : Shown screens) {dots : Nat} (hd : dots < 3) :
    Coupled (Between cartridge pads screens owed run dots) dot
      (fun _ => Between cartridge pads screens owed run (dots + 1))
      (Full (3 * run.toNat + dots + 1)) := by
  rintro m n ⟨b, c, hc, hbc, hcpu, ho, hr, ht, hf, idle, rfl, rfl⟩
  obtain ⟨trace, hm⟩ := dot_eq m
  obtain ⟨trace', hn⟩ := dot_eq n
  have alike := Ppu.tick_alike hf.picture hf.board hf.ppu ht.ppu
  rw [hm, hn, ← ht.picture, ← ht.board]
  generalize m.bus.ppu.tick m.bus.picture m.bus.board = r₁ at alike
  generalize n.bus.ppu.tick m.bus.picture m.bus.board = r₂ at alike
  cases alike with
  | ok h =>
    obtain ⟨hin, htwin, strokes, hb, hc'⟩ := h
    refine .ok ⟨_, _, hc.advance hd hb, hs.dot hbc hb hc', hcpu, ho, hr, ?_⟩
    exact ⟨{ ht with ppu := htwin }, { hf with ppu := hin }, idle, rfl, rfl⟩
  | error h =>
    obtain ⟨overflow, full, left, right⟩ := h
    refine .error ⟨overflow, ?_, left, right⟩
    rw [← hc.total]
    exact full

/-- An action repeated, when each time takes one relation to the next. -/
theorem repeated_coupled {step : Nat → Machine → Machine → Prop} {action : Action Unit}
    {stop : Fault → Machine → Machine → Prop} {n : Nat}
    (h : ∀ k < n, Coupled (step k) action (fun _ => step (k + 1)) stop) :
    Coupled (step 0) (repeated action n) (fun _ => step n) stop := by
  -- Counted by the times that are still to come.
  have rest : ∀ m k, k + m = n → Coupled (step k) (repeated action m) (fun _ => step n) stop := by
    intro m
    induction m with
    | zero =>
      rintro k rfl
      exact .pure fun _ _ => id
    | succ m ih =>
      intro k hk
      exact (h k (by omega)).bind fun _ => ih (k + 1) (by omega)
  exact rest n 0 (Nat.zero_add n)

/-- No more dots than a cycle has. -/
theorem dots_coupled (hs : Shown screens) {dots : Nat} (hd : dots ≤ dotsPerCycle) :
    Coupled (Between cartridge pads screens owed run 0) (repeated dot dots)
      (fun _ => Between cartridge pads screens owed run dots) (Full (3 * run.toNat + dots)) := by
  refine repeated_coupled fun k hk => ?_
  have hk3 : k < 3 := Nat.lt_of_lt_of_le hk hd
  refine (dot_coupled hs hk3).mono (fun _ _ => id) (fun _ _ _ => id) ?_
  intro _ _ _ hf
  exact hf.mono (by omega)

theorem takeInterrupt_coupled (kept : Devices.Kept cartridge fits) {b c : Beam} :
    Coupled (Paired (Devices.Alike fits pads (· = false) b c) owed run) takeInterrupt
      (fun pending m n => b.interruptPending = pending ∧
        Paired (Devices.Alike fits pads (· = false) (Clock.calmed b) (Clock.calmed c))
          owed run m n) never := by
  rintro m n ⟨hcpu, ho, hr, ht, hf, idle, rfl, rfl⟩
  have same : m.bus.ppu.interruptPending = n.bus.ppu.interruptPending := by
    rw [ht.ppu]
    rfl
  show EndAlike _ _ (.ok m.bus.ppu.interruptPending _) (.ok n.bus.ppu.interruptPending _)
  rw [← same]
  have htwin : Ppu.Twin { m.bus.ppu with interruptPending := false }
      { n.bus.ppu with interruptPending := false } := by
    rw [ht.ppu]
    rfl
  exact .ok ⟨rfl, hcpu, ho, hr, { ht with ppu := htwin }, kept.calm hf, idle, rfl, rfl⟩

/-- A cycle behind its dots: the interrupt that waits is served first. -/
def behindDots : Action Unit := do
  if ← takeInterrupt then
    Cpu.interrupt .nmi
  Cpu.cycle

/-- The interrupt, if one was taken, and the cycle behind it, on any devices that are served. -/
theorem interrupted_spends {quiet loose : Devices → Devices → Prop}
    (served : Cpu.Served quiet loose) {pending : Bool}
    (howed : pending = true → owed.toNat + 7 < UInt32.size)
    (hrun : run.toNat + 1 < UInt64.size) :
    Coupled (Paired quiet owed run)
      (if pending then do Cpu.interrupt .nmi; Cpu.cycle else Cpu.cycle)
      (fun _ m n => ∃ left, Spent (if pending then owed + 7 else owed) left ∧
        Paired quiet left (run + 1) m n) never := by
  refine .ite (fun hpending => ?_) fun hcalm => ?_
  · rw [if_pos hpending]
    apply (Cpu.interrupt_coupled served.pushable (howed hpending)).bind
    intro _
    exact Cpu.cycle_coupled served hrun
  · rw [if_neg hcalm]
    exact Cpu.cycle_coupled served hrun

/-- Whatever the clock says, if nothing that is owed or run overflows. -/
theorem behindDots_spends (kept : Devices.Kept cartridge fits) (hpads : Devices.PadsAlike pads)
    (sound : cartridge.Sound) {b c : Beam}
    (howed : b.interruptPending = true → owed.toNat + 7 < UInt32.size)
    (hrun : run.toNat + 1 < UInt64.size) :
    Coupled (Paired (Devices.Alike fits pads (· = false) b c) owed run) behindDots
      (fun _ m n => ∃ left, Spent (if b.interruptPending then owed + 7 else owed) left ∧
        Paired (Devices.Alike fits pads (· = false) (Clock.calmed b) (Clock.calmed c))
          left (run + 1) m n) never := by
  have served := Devices.served kept hpads sound (Clock.calmed b) (Clock.calmed c)
  apply (takeInterrupt_coupled kept).bind
  intro pending
  apply Coupled.assume
  rintro rfl
  exact interrupted_spends served howed hrun

theorem behindDots_coupled (hpads : Devices.PadsAlike pads) (sound : cartridge.Sound) {b c : Beam}
    (hc : Clock 3 owed run b) (hbc : screens (Clock.calmed b) (Clock.calmed c)) :
    Coupled (Paired (Devices.Alike (Devices.Fits cartridge) pads (· = false) b c) owed run)
      behindDots (fun _ => Level cartridge pads screens (run.toNat + 1)) never := by
  have howed := (hc.owing.served (by decide)).1
  refine (behindDots_spends (Devices.fits_kept cartridge) hpads sound howed hc.room).strengthen ?_
  rintro _ m n ⟨left, hs, hcpu, rfl, hr, ht, hf, idle, hb, hb'⟩
  have hnext := hc.spend hs hc.room
  rw [← hr, ← hb] at hnext
  rw [← hb, ← hb'] at hbc
  refine ⟨⟨hf, idle, hnext⟩, ⟨hcpu, ht, hbc⟩, ?_⟩
  rw [hr, UInt64.toNat_add]
  exact Nat.mod_eq_of_lt hc.room

/-- Twins between two cycles have done no dot of the next one. -/
theorem Level.between {cycles : Nat} {m n : Machine}
    (h : Level cartridge pads screens cycles m n) :
    Between cartridge pads screens m.cpu.pending m.cpu.cycles 0 m n :=
  ⟨_, _, h.sound.clock, h.twins.screens, h.twins.cpu, rfl, rfl, h.twins.bus, h.sound.devices,
    h.sound.idle, rfl, rfl⟩

theorem tick_coupled (hs : Shown screens) (hpads : Devices.PadsAlike pads)
    (sound : cartridge.Sound) (cycles : Nat) :
    Coupled (Level cartridge pads screens cycles) tick
      (fun _ => Level cartridge pads screens (cycles + 1)) (Full (3 * cycles + 3)) := by
  intro m n h
  obtain rfl := h.cycles
  refine (dots_coupled hs (Nat.le_refl 3)).bind (fun _ => ?_) m n h.between
  rintro m' n' ⟨b, c, hc, hbc, hpair⟩
  exact (behindDots_coupled hpads sound hc (hs.calm hbc)).total m' n' hpair

/-- Sound twins run any number of cycles alike. -/
theorem ticks_coupled (hs : Shown screens) (hpads : Devices.PadsAlike pads)
    (sound : cartridge.Sound) (cycles n : Nat) :
    Coupled (Level cartridge pads screens cycles) (repeated tick n)
      (fun _ => Level cartridge pads screens (cycles + n)) (Full (3 * (cycles + n))) := by
  have cycle : ∀ k < n, Coupled (Level cartridge pads screens (cycles + k)) tick
      (fun _ => Level cartridge pads screens (cycles + (k + 1))) (Full (3 * (cycles + n))) := by
    intro k hk
    refine (tick_coupled hs hpads sound (cycles + k)).mono (fun _ _ => id) (fun _ _ _ => id) ?_
    intro _ _ _ hf
    exact hf.mono (by omega)
  exact repeated_coupled cycle

theorem frame_coupled (hs : Shown screens) (hpads : Devices.PadsAlike pads)
    (sound : cartridge.Sound) (cycles : Nat) :
    Coupled (Level cartridge pads screens cycles) frame
      (fun _ => Level cartridge pads screens (cycles + cyclesPerFrame))
      (Full (3 * (cycles + cyclesPerFrame))) :=
  ticks_coupled hs hpads sound cycles cyclesPerFrame

end Famicom.Machine
