import Famicom.Proofs.Console

/-!
# Configuration

What a cartridge decides once and for all: which handler serves each register, whether there is RAM at
$6000, where the name tables lie, and how its board is built. Half of it is stored in saved states and
loaded from them, the other half is made again after every load. In whatever way a host drives a
console, both halves stay as its cartridge has them.
-/

namespace Famicom

variable {cartridge : Cartridge}

namespace Board

/-- All of a board but its bank and the bytes of its pattern RAM. -/
structure Wiring where
  cartridge : Cartridge
  number : UInt8
  oneBank : Option Bool
  hasPatternRam : Option Bool
  lastBank : Option UInt64
  patternRamSize : Option Nat

def wiring (board : Board) : Wiring :=
  match board with
  | ⟨cartridge, .nrom state⟩ =>
    ⟨cartridge, board.number, some state.oneBank, some state.hasPatternRam, none,
      some state.patternRam.size⟩
  | ⟨cartridge, .uxrom state⟩ =>
    ⟨cartridge, board.number, none, some state.hasPatternRam, some state.lastBank,
      some state.patternRam.size⟩
  | ⟨cartridge, .cnrom state⟩ => ⟨cartridge, board.number, some state.oneBank, none, none, none⟩

/-- A board that fits its cartridge is wired as a fresh one. -/
theorem Fits.wiring_eq {board : Board} (h : board.Fits cartridge) :
    ∃ fresh, ofCartridge? cartridge = some fresh ∧ board.wiring = fresh.wiring := by
  obtain ⟨inserted, circuit⟩ := board
  obtain ⟨rfl, hc⟩ := h
  cases circuit with
  | nrom state =>
    obtain ⟨number, oneBank, ram, size⟩ := hc
    refine ⟨_, if_pos number, ?_⟩
    simp only [wiring, Board.number, oneBank, ram, size]
  | uxrom state =>
    obtain ⟨number, lastBank, ram, size⟩ := hc
    have first : inserted.board ≠ 0 := by
      rw [number]
      decide
    refine ⟨_, (if_neg first).trans (if_pos number), ?_⟩
    simp only [wiring, Board.number, lastBank, ram, size]
  | cnrom state =>
    obtain ⟨number, oneBank⟩ := hc
    have first : inserted.board ≠ 0 := by
      rw [number]
      decide
    have second : inserted.board ≠ 2 := by
      rw [number]
      decide
    refine ⟨_, (if_neg first).trans ((if_neg second).trans (if_pos number)), ?_⟩
    simp only [wiring, Board.number, oneBank]

end Board

/-- Memories and a board as the cartridge configures them. -/
structure Configured (cartridge : Cartridge) (memory : MainMemory) (picture : PictureMemory)
    (board : Board) : Prop where
  bindings : memory.bindings = .wired
  mapped : memory.hasExtendedRam = cartridge.extendedRam
  extendedRam : memory.extendedRam.size = if cartridge.extendedRam then 0x2000 else 0
  tables : picture.tables = .ofMirroring cartridge.mirroring
  board : ∃ fresh, Board.ofCartridge? cartridge = some fresh ∧ board.wiring = fresh.wiring

theorem Configured.of_fits {memory : MainMemory} {picture : PictureMemory} {board : Board}
    (hm : memory.Fits cartridge) (hp : picture.Fits cartridge) (hb : board.Fits cartridge) :
    Configured cartridge memory picture board where
  bindings := hm.wired
  mapped := hm.mapped
  extendedRam := hm.size
  tables := hp
  board := hb.wiring_eq

namespace Console

variable {c : Console}

def Configured (cartridge : Cartridge) (c : Console) : Prop :=
  Famicom.Configured cartridge c.machine.bus.memory c.machine.bus.picture c.machine.bus.board

/-- Whatever a host did, the console is configured as its cartridge says, and so is the state that it
would go back to: the registers are wired, extended RAM is there in full or not at all, and name
tables and board are arranged as for a fresh console. -/
theorem reachable_configured {raw : ByteArray} (himage : Cartridge.ofImage raw = .ok cartridge)
    (h : Reachable cartridge c) :
    c.Configured cartridge ∧ ∀ state, c.backup = some state →
      Famicom.Configured cartridge state.memory state.picture state.board := by
  have hc := h.sound (Cartridge.ofImage_sound himage)
  constructor
  · have fits := hc.machine.devices
    exact .of_fits fits.memory fits.picture fits.board
  · intro state hs
    have sound := hc.backup state hs
    exact .of_fits sound.memory sound.picture sound.board

theorem polling_configured : ∃ c, insert Image.polling .full = .ok c ∧
    (c.backUp.load (c.poke 0x10 7).save).Configured Image.polling ∧
    Famicom.Configured Image.polling c.save.memory c.save.picture c.save.board := by
  obtain ⟨c, hc, -⟩ := polling_inserts .full
  have poked : Reachable Image.polling (c.poke 0x10 7) := .feed (.poke 0x10 7) (.insert hc) rfl
  have loaded : Reachable Image.polling (c.backUp.load (c.poke 0x10 7).save) :=
    .load (.backUp (.insert hc)) poked
  obtain ⟨now, kept⟩ := reachable_configured Image.ofImage_pollingImage loaded
  exact ⟨c, hc, now, kept c.save rfl⟩

end Console

end Famicom
