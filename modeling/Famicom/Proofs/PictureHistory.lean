import Famicom.Proofs.Interrupts
import Famicom.Proofs.Ppu.StatusHistory

/-!
# The picture unit of a console

What a console does to its picture unit while it runs is dots, accesses and resets, and changes of
what is drawn from. So the picture unit has a history as long as no state is loaded, and what a
program reads of its status is what the history says.
-/

namespace Famicom

variable {cartridge : Cartridge}

/-! ## Machines that keep something -/

namespace Machine

/-- What nothing breaks that a machine does to its devices. -/
structure Lasting (kept : Devices → Prop) : Prop extends Cpu.Lasting kept where
  dot {d : Devices} {ppu : Ppu} {value : Unit} :
    kept d → d.ppu.tick d.picture d.board = .ok value ppu → kept { d with ppu := ppu }
  calm {d : Devices} : kept d → kept { d with ppu := d.ppu.takeInterrupt.2 }

variable {kept : Devices → Prop} {m n : Machine} {value : Unit} {cycles dots : Nat}

theorem dot_lasts (lasts : Lasting kept) (hm : kept m.bus) (h : dot m = .ok value n) :
    kept n.bus := by
  obtain ⟨trace, heq⟩ := dot_eq m
  rw [heq] at h
  split at h <;> cases h
  exact lasts.dot hm ‹_›

theorem dots_last (lasts : Lasting kept) (hm : kept m.bus)
    (h : repeated dot dots m = .ok value n) : kept n.bus := by
  induction dots generalizing m with
  | zero =>
    cases h
    exact hm
  | succ dots ih =>
    obtain ⟨_, moved, first, rest⟩ := of_bind_ok h
    exact ih (dot_lasts lasts hm first) rest

theorem behindDots_lasts (sound : cartridge.Sound) (lasts : Lasting kept) {owed : UInt32}
    {run : UInt64} (between : Between cartridge Eq (fun _ _ => True) owed run 3 m m)
    (hm : kept m.bus) (h : behindDots m = .ok value n) : kept n.bus := by
  obtain ⟨b, c, clock, -, pair⟩ := between
  have served := (Devices.served (Devices.fits_kept cartridge) Devices.eq_padsAlike sound
    (Clock.calmed b) (Clock.calmed c)).lasting lasts.toLasting
  obtain ⟨pending, calm, took, rest⟩ := of_bind_ok h
  have hcalm : kept calm.bus := by
    cases took
    exact lasts.calm hm
  have alike := takeInterrupt_coupled (Devices.fits_kept cartridge) m m pair
  rw [took] at alike
  cases alike with
  | ok both =>
    obtain ⟨rfl, hcpu, howed, hrun, hbus⟩ := both
    have ends := interrupted_spends served (clock.owing.served (by decide)).1 clock.room calm calm
      ⟨hcpu, howed, hrun, hbus, hcalm⟩
    obtain ⟨_, _, _, hn, -, _, -, last⟩ := ends.exists_ok
    cases hn.symm.trans rest
    exact last.bus.2

/-- It holds at every dot of a run of cycles. -/
theorem pass_lasts (sound : cartridge.Sound) (hs : m.Sound cartridge) (lasts : Lasting kept)
    (hm : kept m.bus) (h : pass cycles dots m = .ok () n) : kept n.bus := by
  induction cycles generalizing dots n with
  | zero => exact dots_last lasts hm h
  | succ cycles ih =>
    obtain ⟨_, cycled, run, rest⟩ := of_bind_ok h
    -- The last whole cycle goes through the end of its own dots, where the machine was sound.
    have whole : pass (cycles + 1) 0 m = .ok () cycled := by rw [pass_zero, run]
    rw [pass_cycle] at whole
    obtain ⟨_, found, before, behind⟩ := of_bind_ok whole
    obtain ⟨owed, count, between⟩ := pass_between sound hs (Nat.le_refl _) before
    exact dots_last lasts (behindDots_lasts sound lasts between (ih before) behind) rest

end Machine

/-! ## The history of a picture unit -/

namespace Devices

variable {d e : Devices} {value : UInt8}

/-- All that brought the picture unit here from power-on or a reset is work that was answered. -/
def HasPast (d : Devices) : Prop := ∃ moments, Video.History moments (Video.ofDevices d)

theorem HasPast.serveAll {accesses : List Access} (past : d.HasPast)
    (h : Video.serveAll accesses (Video.ofDevices d) = .ok () (Video.ofDevices e)) : e.HasPast := by
  obtain ⟨moments, past⟩ := past
  exact Video.serveAll_history past accesses h

theorem read_past {address : UInt16} (past : d.HasPast) (h : read address d = .ok value e) :
    e.HasPast := by
  unfold read at h
  cases hs : d.memory.source address with
  | error fault => simp only [hs, reduceCtorEq] at h
  | ok source =>
    rw [hs] at h
    cases source with
    | value =>
      cases h
      exact past
    | program place =>
      dsimp only at h
      split at h <;> cases h
      exact past
    | handler handler =>
      obtain ⟨accesses, served⟩ := Video.readHandler_serves h
      exact past.serveAll served

theorem write_past {address : UInt16} (past : d.HasPast) (h : write address value d = .ok () e) :
    e.HasPast := by
  unfold write at h
  cases hs : d.memory.sink address with
  | ram cell =>
    rw [hs] at h
    cases h
    exact past
  | extendedRam cell =>
    simp only [hs, modifyMemory] at h
    split at h <;> cases h
    exact past
  | program =>
    rw [hs] at h
    cases h
    obtain ⟨moments, past⟩ := past
    exact ⟨_, past.next (.rewire d.picture (d.board.writeProgram value)) rfl⟩
  | handler handler =>
    rw [hs] at h
    obtain ⟨accesses, served⟩ := Video.writeHandler_serves h
    exact past.serveAll served
  | nowhere =>
    rw [hs] at h
    cases h
    exact past

theorem hasPast_lasting : Machine.Lasting HasPast where
  read := read_past
  write := write_past
  takeTransfer past := past
  dot := by
    rintro d ppu _ ⟨moments, past⟩ ticked
    exact ⟨_, past.next .dot (by simp only [Video.Work.run, Video.dot, Video.ofDevices, ticked])⟩
  calm := by
    rintro d ⟨moments, past⟩
    exact ⟨_, past.next (.serve .takeInterrupt) rfl⟩

end Devices

/-! ## Consoles that load no state -/

namespace Console

variable {c d : Console}

/-- The consoles that hosts make of a cartridge without going back to a state. -/
inductive Played (cartridge : Cartridge) : Console → Prop
  | insert {variant : Ppu.Variant} {c : Console} :
      insert cartridge variant = .ok c → Played cartridge c
  | feed {c next : Console} (input : Input) :
      Played cartridge c → feed input c = .ok () next → Played cartridge next
  | backUp {c : Console} : Played cartridge c → Played cartridge c.backUp

theorem Played.reachable (h : Played cartridge c) : Reachable cartridge c := by
  induction h with
  | insert h => exact .insert h
  | feed input _ hf ih => exact .feed input ih hf
  | backUp _ ih => exact .backUp ih

theorem reset_hasPast (h : reset c = .ok () d) : d.machine.bus.HasPast := by
  obtain ⟨_, m, -, hppu⟩ := of_bind_ok (onMachine_ok h).1
  injection hppu with _ hm
  rw [← hm]
  exact ⟨[], .reset m.bus.ppu m.bus.picture m.bus.board⟩

theorem insert_hasPast {variant : Ppu.Variant} (h : insert cartridge variant = .ok c) :
    c.machine.bus.HasPast := by
  unfold insert at h
  split at h
  · cases h
  split at h <;> cases h
  exact reset_hasPast ‹_›

theorem feed_hasPast (sound : cartridge.Sound) (hs : c.Sound cartridge)
    (past : c.machine.bus.HasPast) {input : Input} (h : feed input c = .ok () d) :
    d.machine.bus.HasPast := by
  cases input with
  | press socket buttons =>
    cases h
    match socket with
    | 0 => exact past
    | 1 => exact past
    | _ + 2 => exact past
  | poke cell value =>
    cases h
    exact past
  | frame =>
    have ran : Machine.pass Machine.cyclesPerFrame 0 c.machine = .ok () d.machine :=
      (Machine.pass_zero _).symm ▸ (onMachine_ok h).1
    exact Machine.pass_lasts sound hs.machine Devices.hasPast_lasting past ran
  | reset => exact reset_hasPast h

theorem Played.hasPast (h : Played cartridge c) (sound : cartridge.Sound) :
    c.machine.bus.HasPast := by
  induction h with
  | insert h => exact insert_hasPast h
  | feed input hc hf ih => exact feed_hasPast sound (hc.reachable.sound sound) ih hf
  | backUp _ ih => exact ih

/-- At every dot of whatever a console runs that never went back to a state, the picture unit has a
history, and a read of its status tells of it: of the vertical blank if that marked the flag last, and
of sprite 0 if it hit the background since the frame began. -/
theorem status_read_tells {raw : ByteArray} (himage : Cartridge.ofImage raw = .ok cartridge)
    (h : Played cartridge c) {cycles dots : Nat} (hd : dots ≤ 3) {m : Machine}
    (hm : Machine.pass cycles dots c.machine = .ok () m) {address : UInt16}
    (register : Repeats 0x2002 address) :
    ∃ moments value after, Video.History moments (Video.ofDevices m.bus) ∧
      Devices.read address m.bus = .ok value after ∧
      (value &&& 0x80 ≠ 0 ↔ moments.findSome? Video.Moment.mark? = some .verticalBlank) ∧
      (value &&& 0x40 ≠ 0 ↔ ∃ moment ∈ Video.sinceFrame moments, moment.Hits) ∧
      value &&& 0x3F = 0 := by
  have sound := Cartridge.ofImage_sound himage
  have hs := (h.reachable.sound sound).machine
  have wired := (Machine.pass_fits sound hs hd hm).1.memory.wired
  obtain ⟨moments, past⟩ :=
    Machine.pass_lasts sound hs Devices.hasPast_lasting (h.hasPast sound) hm
  obtain ⟨vblank, hit, rest⟩ := Video.toByte_bits past.unloaded.overflow
  exact ⟨moments, _, _, past, (Devices.read_handled wired (.status register)).trans rfl,
    vblank.trans past.tells.vblank, hit.trans past.tells.hit, rest⟩

end Console

end Famicom
