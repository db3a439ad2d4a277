import Famicom.Proofs.Ppu.Scroll

/-!
# The background plane

The four name tables side by side are a plane of 512 by 480 pixels. The tile under an address shows
its pixels.
-/

namespace Famicom

namespace Plane

/-- Where the tile under a pixel stands. -/
def tileCell (column row : Nat) : Nat :=
  0x2000 + row / 240 * 0x800 + column / 256 * 0x400 + row % 240 / 8 * 32 + column % 256 / 8

/-- Where the palettes of the 32 by 32 pixels around a pixel stand. -/
def attributeCell (column row : Nat) : Nat :=
  0x2000 + row / 240 * 0x800 + column / 256 * 0x400 + 0x3C0 + row % 240 / 32 * 8 + column % 256 / 32

/-- A pixel of the plane, with the patterns of a page: two pattern bits, and above them the two
palette bits of its quadrant unless the pattern is zero. -/
def pixel (memory : PictureMemory) (board : Board) (page column row : Nat) : Except Fault UInt8 := do
  let tile ← memory.read board (UInt16.ofNat (tileCell column row))
  let line := page + tile.toNat * 16 + row % 8
  let low ← memory.read board (UInt16.ofNat line)
  let high ← memory.read board (UInt16.ofNat (line + 8))
  let bit := 7 - column % 8
  let pattern := low.toNat / 2 ^ bit % 2 + high.toNat / 2 ^ bit % 2 * 2
  if pattern = 0 then
    return 0
  let palettes ← memory.read board (UInt16.ofNat (attributeCell column row))
  let quadrant := row % 240 / 16 % 2 * 4 + column % 256 / 16 % 2 * 2
  return UInt8.ofNat (pattern + palettes.toNat / 2 ^ quadrant % 4 * 4)

end Plane

namespace Ppu

variable {ppu : Ppu} {memory : PictureMemory} {board : Board} {row column : Nat} {x : UInt8}

theorem ofNat_of_toNat {a : UInt16} {n : Nat} (h : a.toNat = n) : UInt16.ofNat n = a := by
  rw [← h, UInt16.ofNat_toNat]

theorem fineColumn_toNat (ppu : Ppu) (x : UInt8) :
    (ppu.fineColumn x).toNat = (ppu.fineX.toNat + x.toNat) % 8 := by
  unfold fineColumn
  rw [UInt8.toNat_mod, UInt8.toNat_add]
  simp only [UInt8.reduceToNat]
  omega

/-- Columns count from the left, bits from the right. -/
theorem fineShift_toNat (ppu : Ppu) (x : UInt8) :
    (7 - ppu.fineColumn x).toNat = 7 - (ppu.fineX.toNat + x.toNat) % 8 := by
  have fine := fineColumn_toNat ppu x
  have le : ppu.fineColumn x ≤ 7 := by
    rw [UInt8.le_iff_toNat_le, fine]
    exact Nat.le_of_lt_succ (Nat.mod_lt _ (by decide))
  rw [UInt8.toNat_sub_of_le _ _ le, fine]
  rfl

theorem planePixel_eq (low high : UInt8) {shift : UInt8} {bit : Nat} (h : shift.toNat = bit)
    (hb : bit < 8) : planePixel low high shift =
      UInt8.ofNat (low.toNat / 2 ^ bit % 2 + high.toNat / 2 ^ bit % 2 * 2) := by
  apply UInt8.toNat_inj.1
  unfold planePixel
  simp only [UInt8.toNat_add, UInt8.toNat_mul, UInt8.toNat_mod, UInt8.toNat_shiftRight,
    UInt8.toNat_ofNat', UInt8.reduceToNat, Nat.shiftRight_eq_div_pow, h, Nat.mod_eq_of_lt hb]
  omega

/-- The palette bits lie above the pattern bits. -/
theorem pattern_or_palette {pattern : Nat} (h : pattern < 4) (palettes : UInt8) {shift : UInt8}
    {quadrant : Nat} (hs : shift.toNat = quadrant) (hq : quadrant < 8) :
    UInt8.ofNat pattern ||| (palettes >>> shift) % 4 * 4 =
      UInt8.ofNat (pattern + palettes.toNat / 2 ^ quadrant % 4 * 4) := by
  have above : UInt8.toNat ((palettes >>> shift) % 4 * 4) =
      2 ^ 2 * (palettes.toNat / 2 ^ quadrant % 4) := by
    simp only [UInt8.toNat_mul, UInt8.toNat_mod, UInt8.toNat_shiftRight, UInt8.reduceToNat,
      Nat.shiftRight_eq_div_pow, hs, Nat.mod_eq_of_lt hq]
    omega
  apply UInt8.toNat_inj.1
  rw [UInt8.toNat_or, above, UInt8.toNat_ofNat_of_lt' (by simp only [UInt8.size]; omega),
    UInt8.toNat_ofNat', Nat.or_comm, ← Nat.two_pow_add_eq_or_of_lt (by omega)]
  omega

/-- The tile pixel at a position is that of the plane. -/
theorem tilePixel_plane (full : ppu.variant = .full) (h : Scrolled row (column / 8) ppu.address)
    (hx : (ppu.fineX.toNat + x.toNat) % 8 = column % 8) :
    ppu.tilePixel memory board x =
      Plane.pixel memory board ppu.control.backgroundPage.toNat column row := by
  have tileAt : UInt16.ofNat (Plane.tileCell column row) = tileAddress ppu.address := by
    apply ofNat_of_toNat
    rw [tileAddress_scrolled h]
    unfold Plane.tileCell
    omega
  have palettesAt : UInt16.ofNat (Plane.attributeCell column row) =
      attributeAddress ppu.address := by
    apply ofNat_of_toNat
    rw [attributeAddress_scrolled h]
    unfold Plane.attributeCell
    omega
  have shift : (7 - ppu.fineColumn x).toNat = 7 - column % 8 := by rw [fineShift_toNat, hx]
  have quadrant : (attributeShift ppu.address).toNat =
      row % 240 / 16 % 2 * 4 + column % 256 / 16 % 2 * 2 := by
    rw [attributeShift_scrolled h]
    omega
  unfold tilePixel Plane.pixel
  rw [tileAt, palettesAt]
  cases memory.read board (tileAddress ppu.address) with
  | error fault => rfl
  | ok tile =>
    have start := backgroundRow_scrolled h tile
    have below := ppu.control.backgroundPage_toNat
    have htile := tile.toNat_lt
    have lowAt : UInt16.ofNat (ppu.control.backgroundPage.toNat + tile.toNat * 16 + row % 8) =
        ppu.backgroundRow tile := ofNat_of_toNat start
    have highAt : UInt16.ofNat (ppu.control.backgroundPage.toNat + tile.toNat * 16 + row % 8 + 8) =
        ppu.backgroundRow tile + 8 := by
      apply ofNat_of_toNat
      rw [UInt16.toNat_add, start]
      simp only [UInt16.reduceToNat]
      omega
    simp only [bind, Except.bind, patternPixel, lowAt, highAt]
    cases memory.read board (ppu.backgroundRow tile) with
    | error fault => rfl
    | ok low =>
      cases memory.read board (ppu.backgroundRow tile + 8) with
      | error fault => rfl
      | ok high =>
        dsimp only
        rw [planePixel_eq low high shift (by omega)]
        generalize hn : low.toNat / 2 ^ (7 - column % 8) % 2 +
          high.toNat / 2 ^ (7 - column % 8) % 2 * 2 = pattern
        have small : pattern < 4 := by omega
        have zero : UInt8.ofNat pattern ≠ 0 ↔ pattern ≠ 0 := by
          refine not_congr ⟨fun h0 => ?_, fun h0 => by rw [h0]; rfl⟩
          have := congrArg UInt8.toNat h0
          rw [UInt8.toNat_ofNat_of_lt' (by simp only [UInt8.size]; omega)] at this
          exact this
        simp only [pure, Except.pure]
        by_cases transparent : pattern = 0
        · rw [if_pos transparent, if_neg fun h => zero.1 h.2 transparent, transparent]
          rfl
        · rw [if_neg transparent, if_pos ⟨full, zero.2 transparent⟩]
          cases memory.read board (attributeAddress ppu.address) with
          | error fault => rfl
          | ok palettes =>
            exact congrArg Except.ok (pattern_or_palette small palettes quadrant (by omega))

end Ppu

end Famicom
