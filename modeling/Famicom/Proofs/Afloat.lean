import Famicom.Handle
import Famicom.Proofs.Console
import Famicom.Proofs.Ppu.Adrift

/-!
# Machines off their lines

A machine whose beam is on no line of its phase still runs every frame, whatever its host does in
between, unless the beam is stranded. Then it ends no frame, now or later.
-/

namespace Famicom

open Ppu (Beam vblankRank)
open Cpu (longestWait Paired)
open Coupled (Alone)

variable {cartridge : Cartridge}

namespace Machine

variable {variant : Ppu.Variant} {m : Machine}

/-! ## Machines afloat -/

theorem Owing.relax {base base' dots : Nat} {owed : UInt32} {beam : Beam}
    (h : Owing base dots owed beam) (hb : base ≤ base') : Owing base' dots owed beam where
  owed := by
    rcases h.owed with ho | ⟨low, calm, high⟩
    · exact .inl (Nat.le_trans ho hb)
    · exact .inr ⟨low, calm, by omega⟩
  interrupt := h.interrupt

/-- Between cycles at most an interrupt is owed beside an instruction. -/
theorem Owing.owed_le {base : Nat} {owed : UInt32} {beam : Beam} (h : Owing base 0 owed beam) :
    owed.toNat ≤ base + 7 := by
  rcases h.owed with ho | ⟨low, _, high⟩ <;> omega

/-- What a machine keeps, some dots into a cycle, while its beam can go on. The beam and the debts
of the processor may be those of two machines. -/
structure Afloat (cartridge : Cartridge) (variant : Ppu.Variant) (dots : Nat) (m : Machine) :
    Prop where
  devices : m.bus.Stocked cartridge
  idle : m.bus.transferRequested = false
  variant : m.bus.ppu.variant = variant
  beam : m.bus.ppu.beam.Adrift
  owing : Owing (longestWait + 7) dots m.cpu.pending m.bus.ppu.beam

theorem Sound.afloat (h : m.Sound cartridge) : m.Afloat cartridge m.bus.ppu.variant 0 where
  devices := h.stocked
  idle := h.idle
  variant := rfl
  beam := h.devices.ppu.toPlaced.adrift
  owing := h.clock.owing.relax (Nat.le_add_right _ _)

/-- A machine afloat that has counted so many cycles and dots. -/
structure Counting (cartridge : Cartridge) (variant : Ppu.Variant) (cycles total dots : Nat)
    (m : Machine) : Prop extends Afloat cartridge variant dots m where
  cycles : m.cpu.cycles.toNat = cycles
  total : m.bus.ppu.totalDots.toNat = total

theorem dot_afloat {cycles total dots : Nat} (hd : dots < 3) (room : total + 1 < UInt64.size) :
    Coupled (Alone (Counting cartridge variant cycles total dots)) dot
      (fun _ => Alone (Counting cartridge variant cycles (total + 1) (dots + 1))) never := by
  rintro m _ ⟨rfl, h⟩
  obtain ⟨trace, hm⟩ := dot_eq m
  obtain ⟨after, ht⟩ := Ppu.tick_answers h.devices.picture h.devices.board h.beam
    h.devices.ppu.sprites (by rw [h.total]; exact room)
  have inside : vblankRank ≤ m.bus.ppu.beam.rank →
      m.bus.ppu.beam.rank ≤ vblankRank + 21 + dots →
      after.beam.rank = m.bus.ppu.beam.rank + 1 :=
    fun low high => Ppu.tick_inside h.beam.dot ht low (by omega)
  rw [ht] at hm
  rw [hm]
  refine .ok ⟨rfl, ⟨?_, h.idle, (Ppu.tick_variant ht).trans h.variant, Ppu.tick_adrift h.beam ht,
    h.owing.advance inside (Ppu.tick_raises ht)⟩, h.cycles, ?_⟩
  · exact { h.devices with ppu := Ppu.tick_tame h.devices.ppu ht }
  · rw [← h.total]
    exact Ppu.tick_total ht

theorem dots_afloat {cycles total : Nat} (room : total + 3 < UInt64.size) :
    Coupled (Alone (Counting cartridge variant cycles total 0)) (repeated dot dotsPerCycle)
      (fun _ => Alone (Counting cartridge variant cycles (total + 3) 3)) never := by
  have each : ∀ k < 3, Coupled (Alone (Counting cartridge variant cycles (total + k) k)) dot
      (fun _ => Alone (Counting cartridge variant cycles (total + (k + 1)) (k + 1))) never :=
    fun k hk => dot_afloat hk (by omega)
  exact repeated_coupled each

theorem calmed_adrift {beam : Beam} (h : beam.Adrift) : (Clock.calmed beam).Adrift where
  dot := h.dot
  line := h.line
  free stranded := h.free { stranded with }

theorem behindDots_afloat (sound : cartridge.Sound) {cycles total : Nat}
    (room : cycles + 1 < UInt64.size) :
    Coupled (Alone (Counting cartridge variant cycles total 3)) behindDots
      (fun _ => Alone (Counting cartridge variant (cycles + 1) total 0)) never := by
  rintro m n ⟨same, h⟩
  have hrun : m.cpu.cycles.toNat + 1 < UInt64.size := by rwa [h.cycles]
  obtain ⟨howed, hserved⟩ := h.owing.served (by decide)
  have spends := behindDots_spends (Devices.stocked_kept cartridge) Devices.eq_padsAlike sound
    (c := m.bus.ppu.beam) howed hrun
  refine (spends.alone (p := fun m' => m' = m) ?_ ?_) m n ⟨same, rfl⟩
  · rintro _ rfl
    exact ⟨rfl, rfl, rfl, ⟨rfl, rfl, rfl, rfl, rfl, rfl⟩, h.devices, h.idle, rfl, rfl⟩
  · rintro _ after ⟨_, hs, -, rfl, hr, -, stocked, idle, hb, -⟩
    have adrift := calmed_adrift h.beam
    have owing := hserved.spend rfl hs (Nat.le_add_right _ _)
    rw [← hb] at adrift owing
    refine ⟨⟨stocked, idle, (congrArg Beam.variant hb).trans h.variant, adrift, owing⟩, ?_, ?_⟩
    · rw [hr, UInt64.toNat_add, h.cycles]
      exact Nat.mod_eq_of_lt room
    · rw [← h.total]
      exact congrArg (fun beam => beam.totalDots.toNat) hb

theorem tick_afloat (sound : cartridge.Sound) {cycles total : Nat}
    (hcycles : cycles + 1 < UInt64.size) (hdots : total + 3 < UInt64.size) :
    Coupled (Alone (Counting cartridge variant cycles total 0)) tick
      (fun _ => Alone (Counting cartridge variant (cycles + 1) (total + 3) 0)) never :=
  (dots_afloat hdots).bind fun _ => behindDots_afloat sound hcycles

/-- Counters that so many more cycles, and their dots, do not fill. -/
def Room (m : Machine) (cycles : Nat) : Prop :=
  m.cpu.cycles.toNat + cycles < UInt64.size ∧
    m.bus.ppu.totalDots.toNat + 3 * cycles < UInt64.size

/-- A frame of a machine afloat runs to its end. -/
theorem frame_afloat (sound : cartridge.Sound) (h : m.Afloat cartridge variant 0)
    (room : m.Room cyclesPerFrame) : ∃ next, frame m = .ok () next ∧
      next.Afloat cartridge variant 0 ∧
      next.cpu.cycles.toNat = m.cpu.cycles.toNat + cyclesPerFrame := by
  obtain ⟨hcycles, hdots⟩ := room
  generalize hc : m.cpu.cycles.toNat = cycles at hcycles
  generalize ht : m.bus.ppu.totalDots.toNat = total at hdots
  have each : ∀ k < cyclesPerFrame,
      Coupled (Alone (Counting cartridge variant (cycles + k) (total + 3 * k) 0)) tick
        (fun _ => Alone (Counting cartridge variant (cycles + (k + 1)) (total + 3 * (k + 1)) 0))
        never :=
    fun k hk => tick_afloat sound (by omega) (by omega)
  obtain ⟨_, next, hn, counted⟩ := (repeated_coupled each).exists_alone ⟨h, hc, ht⟩
  exact ⟨next, hn, counted.toAfloat, counted.cycles⟩

theorem reset_afloat (sound : cartridge.Sound) (h : m.Afloat cartridge variant 0) :
    ∃ next, (do Cpu.reset; Console.resetPpu : Action Unit) m = .ok () next ∧
      next.Afloat cartridge variant 0 := by
  have served := Devices.served (Devices.stocked_kept cartridge) Devices.eq_padsAlike sound
    m.bus.ppu.beam m.bus.ppu.beam
  have start : Paired (Devices.Alike (Devices.Stocked cartridge) Eq (· = false) m.bus.ppu.beam
      m.bus.ppu.beam) m.cpu.pending m.cpu.cycles m m :=
    ⟨rfl, rfl, rfl, ⟨rfl, rfl, rfl, rfl, rfl, rfl⟩, h.devices, h.idle, rfl, rfl⟩
  obtain ⟨_, after, _, ha, -, -, owed, -, -, stocked, idle, hb, -⟩ :=
    (Cpu.reset_coupled served.pushable.toReadable m m start).exists_ok
  have fresh := Ppu.reset_inRange after.bus.ppu
  refine ⟨_, bind_ok ha, { stocked with ppu := fresh.tame }, idle, ?_, fresh.toPlaced.adrift, ?_⟩
  · exact (congrArg Beam.variant hb).trans h.variant
  refine ⟨.inl ?_, fun pending => by cases pending⟩
  show after.cpu.pending.toNat ≤ _
  rw [owed]
  exact Nat.zero_le _

/-! ## Stuck machines -/

/-- The beam of such a machine is stranded. -/
structure Stuck (cartridge : Cartridge) (m : Machine) : Prop where
  devices : m.bus.Stocked cartridge
  beam : m.bus.ppu.beam.Stranded

theorem dot_stuck (h : m.Stuck cartridge) (reached : 0 < m.bus.ppu.dot) :
    ∃ stopped, dot m = .error .indexOutOfRange stopped ∧ stopped.Stuck cartridge := by
  obtain ⟨trace, hm⟩ := dot_eq m
  obtain ⟨change, hc, ht⟩ := Ppu.tick_strands h.devices.picture h.devices.board
    h.devices.ppu.sprites h.beam reached
  rw [ht] at hm
  refine ⟨_, hm, { h.devices with ppu := hc.tame _ h.devices.ppu }, ?_⟩
  show (change m.bus.ppu).beam.Stranded
  rw [hc.beam]
  exact h.beam

/-- Before its first column a stranded beam still goes on, if that dot can be counted. -/
theorem dot_waits (h : m.Stuck cartridge) (first : m.bus.ppu.dot = 0) :
    (∃ next, dot m = .ok () next ∧ next.Stuck cartridge ∧ 0 < next.bus.ppu.dot) ∨
      ∃ stopped, dot m = .error .overflow stopped ∧ stopped.Stuck cartridge := by
  obtain ⟨trace, hm⟩ := dot_eq m
  have stocked : ∀ total,
      { m.bus with ppu := { m.bus.ppu with dot := 1, totalDots := total } }.Stocked cartridge :=
    fun total => { h.devices with ppu := { h.devices.ppu with } }
  have stranded : ∀ total, ({ m.bus.ppu with dot := 1, totalDots := total } : Ppu).beam.Stranded :=
    fun total => { h.beam with dot := (by decide : (1 : UInt16) ≤ Ppu.visibleDots) }
  rcases Ppu.tick_waits h.beam first with ⟨total, ht⟩ | ht
  · rw [ht] at hm
    exact .inl ⟨_, hm, ⟨stocked total, stranded total⟩, (by decide : (0 : UInt16) < 1)⟩
  · rw [ht] at hm
    exact .inr ⟨_, hm, stocked _, stranded _⟩

theorem dots_stuck (h : m.Stuck cartridge) : ∃ fault stopped,
    repeated dot dotsPerCycle m = .error fault stopped ∧ stopped.Stuck cartridge := by
  by_cases first : m.bus.ppu.dot = 0
  · rcases dot_waits h first with ⟨next, hd, hn, reached⟩ | ⟨stopped, hd, hs⟩
    · obtain ⟨stopped, hd', hs⟩ := dot_stuck hn reached
      exact ⟨_, stopped, (bind_ok hd).trans (bind_error hd'), hs⟩
    · exact ⟨_, stopped, bind_error hd, hs⟩
  · obtain ⟨stopped, hd, hs⟩ := dot_stuck h (UInt16.pos_iff_ne_zero.2 first)
    exact ⟨_, stopped, bind_error hd, hs⟩

/-- A frame of a stuck machine stops in its first cycle and leaves the machine stuck. -/
theorem frame_stuck (h : m.Stuck cartridge) :
    ∃ fault stopped, frame m = .error fault stopped ∧ stopped.Stuck cartridge := by
  obtain ⟨fault, stopped, hd, hs⟩ := dots_stuck h
  exact ⟨fault, stopped, bind_error (bind_error hd), hs⟩

end Machine

/-! ## Saved states -/

/-- What a machine afloat leaves to the machines of its variant. -/
structure Snapshot.Afloat (cartridge : Cartridge) (variant : Ppu.Variant) (state : Snapshot) : Prop
    extends Stocked cartridge state where
  beam : ∀ screen, (state.ppu.repaint variant screen).beam.Adrift
  owing : Machine.Owing (longestWait + 7) 0 state.cpu.pending state.ppu.beam

section
variable {variant : Ppu.Variant} {m : Machine} {state : Snapshot}

theorem Snapshot.Sound.afloat (h : state.Sound cartridge) (variant : Ppu.Variant) :
    state.Afloat cartridge variant where
  toStocked := h.stocked
  beam screen := (Ppu.repaint_inRange h.ppu variant screen).toPlaced.adrift
  owing := h.clock.owing.relax (Nat.le_add_right _ _)

theorem Machine.Afloat.snapshot (h : m.Afloat cartridge variant 0) :
    m.snapshot.Afloat cartridge variant where
  toStocked := ⟨h.devices.memory, h.devices.picture, h.devices.board, h.devices.ppu⟩
  beam screen := by
    refine ⟨h.beam.dot, h.beam.line, fun stranded => h.beam.free { stranded with full := ?_ }⟩
    exact h.variant.trans stranded.full
  owing := h.owing

theorem Machine.Afloat.resume (h : m.Afloat cartridge variant 0)
    (hs : state.Afloat cartridge variant) (screen : Ppu.Screen) :
    (m.resume state screen).Afloat cartridge variant 0 where
  devices := ⟨hs.memory, hs.picture, hs.board, { hs.ppu with }⟩
  idle := h.idle
  variant := h.variant
  beam := by
    show (state.ppu.repaint m.bus.ppu.variant screen).beam.Adrift
    rw [h.variant]
    exact hs.beam screen
  owing := ⟨hs.owing.owed, hs.owing.interrupt⟩

end

/-! ## Consoles -/

namespace Console

variable {variant : Ppu.Variant} {c d : Console} {state : Snapshot}

structure Afloat (cartridge : Cartridge) (variant : Ppu.Variant) (c : Console) : Prop where
  machine : c.machine.Afloat cartridge variant 0
  backup : ∀ state, c.backup = some state → state.Afloat cartridge variant

theorem Sound.afloat (h : c.Sound cartridge) : c.Afloat cartridge c.machine.bus.ppu.variant where
  machine := h.machine.afloat
  backup state hs := (h.backup state hs).afloat _

/-- A console afloat runs a frame to its end, if there is room for its cycles. -/
theorem frame_afloat (sound : cartridge.Sound) (h : c.Afloat cartridge variant)
    (room : c.machine.Room Machine.cyclesPerFrame) : ∃ next,
      frame c = .ok () next ∧ next.Afloat cartridge variant ∧
        next.machine.cpu.cycles.toNat =
          c.machine.cpu.cycles.toNat + Machine.cyclesPerFrame := by
  obtain ⟨next, hn, afloat, cycles⟩ := Machine.frame_afloat sound h.machine room
  exact ⟨_, onMachine_eq hn, ⟨afloat, h.backup⟩, cycles⟩

theorem reset_afloat (sound : cartridge.Sound) (h : c.Afloat cartridge variant) :
    ∃ next, reset c = .ok () next ∧ next.Afloat cartridge variant := by
  obtain ⟨next, hn, afloat⟩ := Machine.reset_afloat sound h.machine
  exact ⟨_, onMachine_eq hn, afloat, h.backup⟩

theorem press_afloat (h : c.Afloat cartridge variant) (socket : Nat) (buttons : UInt8) :
    ((c.press? socket buttons).getD c).Afloat cartridge variant := by
  have keep : ∀ pads, Afloat cartridge variant { c with machine.bus.pads := pads } := fun pads =>
    { h with machine := { h.machine with devices := { h.machine.devices with } } }
  match socket with
  | 0 => exact keep _
  | 1 => exact keep _
  | _ + 2 => exact h

theorem poke_afloat (h : c.Afloat cartridge variant) (cell : Fin 0x800) (value : UInt8) :
    (c.poke cell value).Afloat cartridge variant := by
  have memory := MainMemory.storeRam_fits h.machine.devices.memory cell value
  have devices : (c.poke cell value).machine.bus.Stocked cartridge :=
    { h.machine.devices with memory := memory }
  exact { h with machine := { h.machine with devices := devices } }

theorem backUp_afloat (h : c.Afloat cartridge variant) : c.backUp.Afloat cartridge variant where
  machine := h.machine
  backup _ hs := by
    cases hs
    exact h.machine.snapshot

theorem load_afloat (h : c.Afloat cartridge variant) (hs : state.Afloat cartridge variant) :
    (c.load state).Afloat cartridge variant := by
  rw [load_eq hs.toStocked]
  exact ⟨h.machine.resume hs _, h.backup⟩

theorem restore_afloat (h : c.Afloat cartridge variant) : c.restore.Afloat cartridge variant := by
  unfold restore
  cases hb : c.backup with
  | none => exact h
  | some state => exact load_afloat h (h.backup state hb)

theorem decode_afloat (h : c.Afloat cartridge variant) (hd : d.save.Afloat cartridge variant)
    (rest : List UInt8) : ∃ next,
      c.decode (d.encode ++ rest) = .ok rest next ∧ next.Afloat cartridge variant := by
  have stocked : d.machine.bus.Stocked cartridge := ⟨hd.memory, hd.picture, hd.board, hd.ppu⟩
  exact ⟨_, decode_encode h.machine.devices stocked rest, h.machine.resume hd _, h.backup⟩

theorem frame_stuck (h : c.machine.Stuck cartridge) :
    ∃ fault stopped, frame c = .error fault stopped ∧ stopped.machine.Stuck cartridge := by
  obtain ⟨fault, stopped, hf, hs⟩ := Machine.frame_stuck h
  exact ⟨fault, _, onMachine_stops hf, hs⟩

end Console

namespace Handle

open Machine (cyclesPerFrame)

theorem settle_ok {ε α : Type} {action : EStateM ε Console α} {value : α} {c next : Console}
    (h : action c = .ok value next) : settle action c = next := by
  rw [settle, h]

/-- What a handle can come to hold once it holds a console. Frames have room for their cycles.
States and bytes come from this handle, or from any sound console of the cartridge. -/
inductive Follows (cartridge : Cartridge) (start : Console) : Handle → Prop
  | start : Follows cartridge start (some start)
  | step {c : Console} : Follows cartridge start (some c) → c.machine.Room cyclesPerFrame →
      Follows cartridge start (step (some c))
  | reset {handle : Handle} : Follows cartridge start handle → Follows cartridge start handle.reset
  | press {handle : Handle} (socket : Int32) (buttons : UInt8) :
      Follows cartridge start handle → Follows cartridge start (handle.press socket buttons)
  | poke {handle : Handle} (cell : Fin 0x800) (value : UInt8) :
      Follows cartridge start handle → Follows cartridge start (handle.poke cell value)
  | backUp {handle : Handle} :
      Follows cartridge start handle → Follows cartridge start handle.backUp
  | restore {handle : Handle} :
      Follows cartridge start handle → Follows cartridge start handle.restore
  | load {handle earlier : Handle} :
      Follows cartridge start handle → Follows cartridge start earlier →
      Follows cartridge start (handle.load earlier.save)
  | decode {handle earlier : Handle} :
      Follows cartridge start handle → Follows cartridge start earlier →
      Follows cartridge start (handle.decode earlier.encode)
  | loadOther {handle : Handle} {other : Console} :
      Follows cartridge start handle → other.Sound cartridge →
      Follows cartridge start (handle.load (some other.save))
  | decodeOther {handle : Handle} {other : Console} (rest : List UInt8) :
      Follows cartridge start handle → other.Sound cartridge →
      Follows cartridge start (handle.decode (some (other.encode ++ rest)))

theorem decode_afloat {variant : Ppu.Variant} {c d : Console} (h : c.Afloat cartridge variant)
    (hd : d.save.Afloat cartridge variant) (rest : List UInt8) : ∃ next,
      decode (some c) (some (d.encode ++ rest)) = some next ∧ next.Afloat cartridge variant := by
  obtain ⟨next, hn, afloat⟩ := Console.decode_afloat h hd rest
  exact ⟨next, congrArg some (settle_ok hn), afloat⟩

/-- Whatever a host does with its handle, the console in it stays afloat. -/
theorem Follows.afloat {variant : Ppu.Variant} {start : Console} {handle : Handle}
    (h : Follows cartridge start handle) (sound : cartridge.Sound)
    (afloat : start.Afloat cartridge variant) :
    ∃ c, handle = some c ∧ c.Afloat cartridge variant := by
  induction h with
  | start => exact ⟨start, rfl, afloat⟩
  | step _ room ih =>
    obtain ⟨c, hc, afloat⟩ := ih
    cases hc
    obtain ⟨next, hn, afloat, -⟩ := Console.frame_afloat sound afloat room
    exact ⟨next, congrArg some (settle_ok hn), afloat⟩
  | reset _ ih =>
    obtain ⟨c, rfl, afloat⟩ := ih
    obtain ⟨next, hn, afloat⟩ := Console.reset_afloat sound afloat
    exact ⟨next, congrArg some (settle_ok hn), afloat⟩
  | press socket buttons _ ih =>
    obtain ⟨c, rfl, afloat⟩ := ih
    cases hs : socket? socket with
    | none =>
      refine ⟨c, ?_, afloat⟩
      simp [Handle.press, hs]
    | some socket =>
      refine ⟨_, ?_, Console.press_afloat afloat socket buttons⟩
      simp [Handle.press, hs]
  | poke cell value _ ih =>
    obtain ⟨c, rfl, afloat⟩ := ih
    exact ⟨_, rfl, Console.poke_afloat afloat cell value⟩
  | backUp _ ih =>
    obtain ⟨c, rfl, afloat⟩ := ih
    exact ⟨_, rfl, Console.backUp_afloat afloat⟩
  | restore _ ih =>
    obtain ⟨c, rfl, afloat⟩ := ih
    exact ⟨_, rfl, Console.restore_afloat afloat⟩
  | load _ _ ih ihe =>
    obtain ⟨c, rfl, afloat⟩ := ih
    obtain ⟨earlier, rfl, hearlier⟩ := ihe
    exact ⟨_, rfl, Console.load_afloat afloat hearlier.machine.snapshot⟩
  | decode _ _ ih ihe =>
    obtain ⟨c, rfl, afloat⟩ := ih
    obtain ⟨earlier, rfl, hearlier⟩ := ihe
    have hsave : earlier.save.Afloat cartridge variant := hearlier.machine.snapshot
    have decoded := decode_afloat afloat hsave []
    rwa [List.append_nil] at decoded
  | loadOther _ hother ih =>
    obtain ⟨c, rfl, afloat⟩ := ih
    exact ⟨_, rfl, Console.load_afloat afloat (hother.machine.snapshot.afloat variant)⟩
  | decodeOther rest _ hother ih =>
    obtain ⟨c, rfl, afloat⟩ := ih
    exact decode_afloat afloat (hother.machine.snapshot.afloat variant) rest

/-- Steps leave a stuck console stuck. -/
theorem steps_stuck {c : Console} (h : c.machine.Stuck cartridge) (n : Nat) :
    ∃ stuck, Nat.repeat step n (some c) = some stuck ∧ stuck.machine.Stuck cartridge := by
  induction n with
  | zero => exact ⟨c, rfl, h⟩
  | succ n ih =>
    obtain ⟨stuck, hn, hs⟩ := ih
    obtain ⟨fault, stopped, hf, hs⟩ := Console.frame_stuck hs
    refine ⟨stopped, ?_, hs⟩
    show step (Nat.repeat step n (some c)) = _
    rw [hn]
    show some (settle Console.frame stuck) = _
    rw [settle, hf]

end Handle

end Famicom
