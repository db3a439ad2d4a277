import Famicom.Proofs.Console
import Famicom.Proofs.Image

/-!
# Nothing fails

Consoles of supported boards can always be built, and none that a host can reach ever fails. The only
fault left is a dot counter that is full. Sums that are not counted by a counter of their own stay
inside their words as well.
-/

namespace Famicom

/-! ## Sums of the picture unit -/

namespace Ppu

/-- The sums that a dot can make stay inside their words, and the sprites that it can draw are in
sprite memory. -/
structure SumsFit (ppu : Ppu) : Prop where
  dot : ppu.dot.toNat + 1 < UInt16.size
  line : ppu.scanline.toNat + 1 < UInt16.size
  column : ppu.address.toNat + 1 < UInt16.size
  row : ppu.address.toNat + 0x1000 < UInt16.size
  background : ∀ tile, (ppu.backgroundRow tile).toNat + 8 < UInt16.size
  sprite : ∀ sprite : Sprite,
    (sprite.rowAddress ppu.control ppu.scanline).toNat + 8 < UInt16.size
  numbers : ∀ number ∈ ppu.lineSprites, number.toNat * 4 + 3 < 256
  room : ppu.lineSprites.length ≤ spritesPerLine

theorem Control.backgroundPage_lt (control : Control) : control.backgroundPage.toNat < 2 ^ 13 := by
  unfold Control.backgroundPage
  split <;> decide

theorem backgroundRow_lt (ppu : Ppu) (tile : UInt8) : (ppu.backgroundRow tile).toNat < 2 ^ 13 := by
  have htile := tile.toNat_lt
  rw [backgroundRow, UInt16.toNat_or]
  refine Nat.or_lt_two_pow ?_ ppu.control.backgroundPage_lt
  rw [UInt16.toNat_add, UInt16.toNat_mul, UInt16.toNat_mod, UInt8.toNat_toUInt16]
  simp only [UInt16.reduceToNat]
  omega

theorem Control.spriteHeight_bounds (control : Control) :
    control.tallSprites = true ∧ control.spriteHeight.toNat = 16 ∨
      control.tallSprites = false ∧ control.spriteHeight.toNat = 8 := by
  unfold Control.spriteHeight
  cases control.tallSprites
  · exact .inr ⟨rfl, rfl⟩
  · exact .inl ⟨rfl, rfl⟩

theorem Control.spritePage_le (control : Control) : control.spritePage.toNat ≤ 0x1000 := by
  unfold Control.spritePage
  split <;> decide

theorem Sprite.patternRow_lt (s : Sprite) {height : UInt16} (h : 0 < height.toNat)
    (line : UInt16) : (s.patternRow height line).toNat < height.toNat := by
  have hmod : ((line - (s.row + 1).toUInt16) % height).toNat < height.toNat := by
    rw [UInt16.toNat_mod]
    exact Nat.mod_lt _ h
  have hheight := height.toNat_lt
  dsimp only [patternRow]
  split
  · rw [UInt16.toNat_sub, UInt16.toNat_sub]
    simp only [UInt16.reduceToNat]
    omega
  · exact hmod

theorem Sprite.rowAddress_lt (s : Sprite) (control : Control) (line : UInt16) :
    (s.rowAddress control line).toNat < 2 ^ 13 := by
  have htile := s.tile.toNat_lt
  have hpage := control.spritePage_le
  dsimp only [rowAddress]
  rcases control.spriteHeight_bounds with ⟨tall, hheight⟩ | ⟨short, hheight⟩
  · have hrow := s.patternRow_lt (by omega : 0 < control.spriteHeight.toNat) line
    rw [if_pos tall, UInt16.toNat_or]
    refine Nat.or_lt_two_pow ?_ ?_
    · simp only [UInt16.toNat_add, UInt16.toNat_mul, UInt16.toNat_mod, UInt16.toNat_div,
        UInt8.toNat_toUInt16, UInt16.reduceToNat]
      omega
    · simp only [UInt16.toNat_mul, UInt16.toNat_mod, UInt8.toNat_toUInt16, UInt16.reduceToNat]
      omega
  · have hrow := s.patternRow_lt (by omega : 0 < control.spriteHeight.toNat) line
    rw [if_neg (by rw [short]; decide)]
    simp only [UInt16.toNat_add, UInt16.toNat_mul, UInt8.toNat_toUInt16, UInt16.reduceToNat]
    omega

theorem InRange.scanline_le {ppu : Ppu} (h : ppu.InRange) : ppu.scanline.toNat ≤ 260 := by
  cases hp : ppu.phase with
  | preRender =>
    have hline := h.line
    rw [hp] at hline
    rw [show ppu.scanline = 0 from hline]
    decide
  | render => exact Nat.le_of_lt (Nat.lt_of_lt_of_le (h.render_line hp) (by decide))
  | postRender => rw [h.postRender_line hp]; decide
  | verticalBlank => exact Nat.le_of_lt_succ (h.verticalBlank_line hp).2

theorem InRange.sumsFit {ppu : Ppu} (h : ppu.InRange) : ppu.SumsFit := by
  have hdot := h.dot_le
  have hline := h.scanline_le
  have haddress : ppu.address.toNat < 0x8000 := UInt16.lt_iff_toNat_lt.1 h.address
  have word : UInt16.size = 0x10000 := rfl
  refine ⟨by omega, by omega, by omega, by omega, fun tile => ?_, fun sprite => ?_,
    fun number hn => ?_, h.room⟩
  · have := ppu.backgroundRow_lt tile
    omega
  · have := sprite.rowAddress_lt ppu.control ppu.scanline
    omega
  · have : number.toNat < 64 := UInt8.lt_iff_toNat_lt.1 (h.sprites number hn)
    omega

end Ppu

/-! ## Moments of a run -/

namespace Machine

variable {cartridge : Cartridge} {m n : Machine}

/-- Some cycles, and some dots of the next one. -/
def pass (cycles dots : Nat) : Action Unit := do
  repeated tick cycles
  repeated dot dots

/-- A processor never owes more than its longest instruction and an interrupt. -/
theorem Clock.owed_le {dots : Nat} {owed : UInt32} {run : UInt64} {beam : Ppu.Beam}
    (h : Clock dots owed run beam) (hd : dots ≤ dotsPerCycle) :
    owed.toNat ≤ Cpu.longestWait + 7 := by
  have hd : dots ≤ 3 := hd
  rcases h.owed with ho | ⟨low, _, high⟩
  · omega
  · omega

/-- A sound machine is sound at each of these moments. -/
theorem pass_between (sound : cartridge.Sound) (h : m.Sound cartridge) {cycles dots : Nat}
    (hd : dots ≤ dotsPerCycle) (hp : pass cycles dots m = .ok () n) :
    ∃ owed run, Between cartridge Eq (fun _ _ => True) owed run dots n n := by
  have ticks := ticks_coupled anyScreens_shown Devices.eq_padsAlike sound m.cpu.cycles.toNat cycles
  have run : Coupled (Level cartridge Eq (fun _ _ => True) m.cpu.cycles.toNat) (pass cycles dots)
      (fun _ m n => ∃ owed run, Between cartridge Eq (fun _ _ => True) owed run dots m n)
      fun _ _ _ => True := by
    apply (ticks.mono (fun _ _ => id) (fun _ _ _ => id) fun _ _ _ _ => trivial).bind
    intro _ m n h
    exact (dots_coupled anyScreens_shown hd m n h.between).mono (fun _ _ _ hb => ⟨_, _, hb⟩)
      fun _ _ _ _ => trivial
  have alike := run m m h.level
  rw [hp] at alike
  cases alike with
  | ok hb => exact hb

theorem pass_fits (sound : cartridge.Sound) (h : m.Sound cartridge) {cycles dots : Nat}
    (hd : dots ≤ dotsPerCycle) (hp : pass cycles dots m = .ok () n) :
    n.bus.Fits cartridge ∧ n.cpu.pending.toNat ≤ Cpu.longestWait + 7 := by
  obtain ⟨owed, run, b, c, hc, _, _, rfl, _, _, fits, _⟩ := pass_between sound h hd hp
  exact ⟨fits, hc.owed_le hd⟩

end Machine

/-! ## Consoles -/

namespace Console

variable {cartridge : Cartridge} {c : Console}

/-- Whatever a host asks of the console is done. -/
structure Safe (cartridge : Cartridge) (c : Console) : Prop where
  reset : ∃ next, reset c = .ok () next
  decode : ∀ source rest, Reachable cartridge source →
    ∃ next, c.decode (source.encode ++ rest) = .ok rest next
  frame : c.machine.bus.ppu.totalDots.toNat + Machine.dotsPerCycle * Machine.cyclesPerFrame <
      UInt64.size →
    ∃ next, frame c = .ok () next ∧ next.machine.bus.ppu.totalDots.toNat =
      c.machine.bus.ppu.totalDots.toNat + Machine.dotsPerCycle * Machine.cyclesPerFrame
  fault : ∀ fault stopped, Console.frame c = .error fault stopped →
    fault = .overflow ∧ stopped.machine.bus.ppu.CountFull
  sums : ∀ cycles dots machine, dots ≤ Machine.dotsPerCycle →
    Machine.pass cycles dots c.machine = .ok () machine →
    machine.bus.ppu.SumsFit ∧ machine.cpu.pending.toNat ≤ Cpu.longestWait + 7

theorem Sound.safe (sound : cartridge.Sound) (h : c.Sound cartridge) : c.Safe cartridge where
  reset := by
    obtain ⟨_, next, _, hr, _⟩ := (reset_alike Devices.eq_padsAlike sound
      (fun _ _ => id) h.alike).exists_ok
    exact ⟨next, hr⟩
  decode source rest hs :=
    ⟨_, decode_encode h.machine.stocked (hs.sound sound).machine.stocked rest⟩
  frame room := by
    have total : c.machine.bus.ppu.totalDots.toNat = 3 * c.machine.cpu.cycles.toNat :=
      h.machine.clock.total
    have alike := frame_alike Machine.anyScreens_shown Devices.eq_padsAlike sound h.alike
    simp only [Machine.dotsPerCycle] at room ⊢
    generalize Console.frame c = r at alike
    cases alike with
    | @ok _ next _ ha =>
      have after : next.machine.bus.ppu.totalDots.toNat = 3 * next.machine.cpu.cycles.toNat :=
        ha.1.machine.sound.clock.total
      exact ⟨next, rfl, by omega⟩
    | error hf => omega
  fault fault stopped hr := by
    have alike := frame_alike Machine.anyScreens_shown Devices.eq_padsAlike sound h.alike
    rw [hr] at alike
    cases alike with
    | error hf => exact ⟨hf.1.fault, hf.1.left⟩
  sums cycles dots machine hd hp := by
    obtain ⟨fits, owed⟩ := Machine.pass_fits sound h.machine hd hp
    exact ⟨fits.ppu.sumsFit, owed⟩

/-- Both pipelines start on every supported board. Whatever a host does from then on, a reset and the
bytes of any console on the cartridge are taken, and frames run to their end: only a full count of
dots stops one, and no other sum on the way leaves its type. -/
theorem nothing_fails {raw : ByteArray} (himage : Cartridge.ofImage raw = .ok cartridge)
    (hboard : cartridge.board = 0 ∨ cartridge.board = 2 ∨ cartridge.board = 3) :
    (∀ variant, ∃ c, insert cartridge variant = .ok c) ∧
      ∀ c, Reachable cartridge c → c.Safe cartridge := by
  have sound := Cartridge.ofImage_sound himage
  obtain ⟨board, hb⟩ := Board.ofCartridge?_isSome hboard
  refine ⟨fun variant => ?_, fun c hc => (hc.sound sound).safe sound⟩
  obtain ⟨c, _, hi, _⟩ := insert_alike sound hb variant variant
  exact ⟨c, hi⟩

theorem polling_never_fails :
    (∀ variant, ∃ c, insert Image.polling variant = .ok c) ∧
      ∀ c, Reachable Image.polling c → c.Safe Image.polling :=
  nothing_fails Image.ofImage_pollingImage (by decide)

end Console

end Famicom
