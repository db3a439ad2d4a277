import Famicom.Ppu.Background
import Famicom.Proofs.Ppu.Range

/-!
# Scroll positions

The row of pixels and the column of tiles that an address holds, over the four name tables: 480 rows
and 64 columns. Rendering moves an address as these two numbers say.
-/

namespace Famicom.Ppu

/-! ## Positions -/

/-- An address as `yyy NN YYYYY XXXXX`, part by part, and the row of pixels and the column of tiles
that it holds. -/
structure Parts (fine below right tileRow tile row column : Nat) (address : UInt16) : Prop where
  fine_lt : fine < 8
  below_lt : below < 2
  right_lt : right < 2
  tileRow_lt : tileRow < 30
  tile_lt : tile < 32
  address_eq : address.toNat =
    fine * 0x1000 + below * 0x800 + right * 0x400 + tileRow * 0x20 + tile
  row_eq : row = 240 * below + 8 * tileRow + fine
  column_eq : column = 32 * right + tile

def Scrolled (row column : Nat) (address : UInt16) : Prop :=
  ∃ fine below right tileRow tile, Parts fine below right tileRow tile row column address

variable {row column : Nat} {address : UInt16}

theorem nextColumn_scrolled (h : Scrolled row column address) :
    Scrolled row ((column + 1) % 64) (nextColumn address) := by
  obtain ⟨fine, below, right, tileRow, tile, hf, hb, hr, hy, hx, place, rfl, rfl⟩ := h
  have low : (address &&& 0x001F).toNat = tile := by
    rw [toNat_and_field address 0x001F 5 0 rfl]
    simp only [Nat.reducePow]
    omega
  unfold nextColumn
  split
  · rename_i last
    rw [last] at low
    -- The next table to the right starts with tile 0.
    have cut := toNat_and_not address 0x001F
    have flip := toNat_xor_add (address &&& ~~~0x001F) 0x0400
    have bit : (address &&& ~~~0x001F &&& 0x0400).toNat = right * 0x400 := by
      rw [toNat_and_field _ 0x0400 1 10 rfl]
      simp only [last, UInt16.reduceToNat, Nat.reducePow] at *
      omega
    simp only [last, UInt16.reduceToNat] at *
    refine ⟨fine, below, 1 - right, tileRow, 0, hf, hb, by omega, hy, by decide, ?_, rfl, ?_⟩
    · omega
    · omega
  · rename_i more
    have more : tile ≠ 31 := fun he => more (UInt16.toNat_inj.1 (low.trans he))
    refine ⟨fine, below, right, tileRow, tile + 1, hf, hb, hr, hy, by omega, ?_, rfl, by omega⟩
    rw [UInt16.toNat_add]
    simp only [UInt16.reduceToNat]
    omega

/-- The row of tiles, where the attributes are not. -/
theorem nextRow_scrolled (h : Scrolled row column address) :
    Scrolled ((row + 1) % 480) column (nextRow address) := by
  obtain ⟨fine, below, right, tileRow, tile, hf, hb, hr, hy, hx, place, rfl, rfl⟩ := h
  have high : (address &&& 0x7000).toNat = fine * 0x1000 := by
    rw [toNat_and_field address 0x7000 3 12 rfl]
    simp only [Nat.reducePow]
    omega
  dsimp only [nextRow]
  split
  · rename_i more
    have more : fine ≠ 7 := by
      intro he
      refine more (UInt16.toNat_inj.1 ?_)
      rw [high, he]
      rfl
    refine ⟨fine + 1, below, right, tileRow, tile, by omega, hb, hr, hy, hx, ?_, by omega, rfl⟩
    rw [UInt16.toNat_add]
    simp only [UInt16.reduceToNat]
    omega
  rename_i last
  have last : fine = 7 := by
    have := congrArg UInt16.toNat (Decidable.not_not.1 last)
    rw [high] at this
    simp only [UInt16.reduceToNat] at this
    omega
  have cut : (address &&& ~~~0x7000).toNat =
      below * 0x800 + right * 0x400 + tileRow * 0x20 + tile := by
    have := toNat_and_not address 0x7000
    omega
  generalize address &&& ~~~0x7000 = first at cut
  have middle : (first &&& 0x03E0).toNat = tileRow * 0x20 := by
    rw [toNat_and_field first 0x03E0 5 5 rfl]
    simp only [Nat.reducePow]
    omega
  split
  · rename_i bottom
    have bottom : tileRow = 29 := by
      have := congrArg UInt16.toNat bottom
      rw [middle] at this
      simp only [UInt16.reduceToNat] at this
      omega
    have clear : (first &&& ~~~0x03E0).toNat = below * 0x800 + right * 0x400 + tile := by
      have := toNat_and_not first 0x03E0
      omega
    have flip := toNat_xor_add (first &&& ~~~0x03E0) 0x0800
    have bit : (first &&& ~~~0x03E0 &&& 0x0800).toNat = below * 0x800 := by
      rw [toNat_and_field _ 0x0800 1 11 rfl]
      simp only [Nat.reducePow]
      omega
    simp only [UInt16.reduceToNat] at flip
    exact ⟨0, 1 - below, right, 0, tile, by decide, by omega, hr, by decide, hx, by omega, by omega,
      rfl⟩
  · rename_i inside
    have inside : tileRow ≠ 29 := by
      intro he
      refine inside (UInt16.toNat_inj.1 ?_)
      rw [middle, he]
      rfl
    have notBelow : first &&& 0x03E0 ≠ 0x03E0 := by
      intro he
      have := congrArg UInt16.toNat he
      rw [middle] at this
      simp only [UInt16.reduceToNat] at this
      omega
    rw [if_neg notBelow]
    refine ⟨0, below, right, tileRow + 1, tile, by decide, hb, hr, by omega, hx, ?_, by omega, rfl⟩
    rw [UInt16.toNat_add]
    simp only [UInt16.reduceToNat]
    omega

/-! ## Copies -/

theorem copyBits_toNat (bits source target : UInt16) :
    (copyBits bits source target).toNat =
      (target &&& ~~~bits).toNat + (source &&& bits).toNat :=
  toNat_or_of_disjoint (and_not_disjoint target source bits)

/-- The copied bits are those of the source. -/
theorem copyBits_inside (bits source target : UInt16) :
    copyBits bits source target &&& bits = source &&& bits := by
  apply eq_of_bits
  intro i hi
  simp only [copyBits, UInt16.toBitVec_or, UInt16.toBitVec_and, UInt16.toBitVec_not,
    BitVec.getElem_or, BitVec.getElem_and, BitVec.getElem_not]
  cases bits.toBitVec[i] <;> simp

/-- All other bits stay. -/
theorem copyBits_outside {bits other : UInt16} (h : other &&& bits = 0) (source target : UInt16) :
    copyBits bits source target &&& other = target &&& other := by
  apply eq_of_bits
  intro i hi
  have apart : (other.toBitVec[i] && bits.toBitVec[i]) = false := by
    have := congrArg (fun word => word.toBitVec[i]) h
    simpa only [UInt16.toBitVec_and, BitVec.getElem_and, UInt16.toBitVec_zero, BitVec.getElem_zero]
      using this
  simp only [copyBits, UInt16.toBitVec_or, UInt16.toBitVec_and, UInt16.toBitVec_not,
    BitVec.getElem_or, BitVec.getElem_and, BitVec.getElem_not]
  revert apart
  cases other.toBitVec[i] <;> cases bits.toBitVec[i] <;> simp

theorem Parts.horizontal {fine below right tileRow tile : Nat}
    (h : Parts fine below right tileRow tile row column address) :
    (address &&& horizontalBits).toNat = right * 0x400 + tile := by
  obtain ⟨hf, hb, hr, hy, hx, place, rfl, rfl⟩ := h
  have fields : horizontalBits = 0x0400 ||| 0x001F := by decide
  rw [fields, toNat_and_or address (by decide), toNat_and_field address 0x0400 1 10 rfl,
    toNat_and_field address 0x001F 5 0 rfl]
  simp only [Nat.reducePow]
  omega

theorem copyHorizontal_scrolled {column' : Nat} {source : UInt16} {row' : Nat}
    (h : Scrolled row column address) (hs : Scrolled row' column' source) :
    Scrolled row column' (copyBits horizontalBits source address) := by
  obtain ⟨fine, below, right, tileRow, tile, parts⟩ := h
  obtain ⟨_, _, right', _, tile', parts'⟩ := hs
  have kept := toNat_and_not address horizontalBits
  have sum := copyBits_toNat horizontalBits source address
  rw [parts.horizontal] at kept
  rw [parts'.horizontal] at sum
  obtain ⟨hf, hb, hr, hy, hx, place, hrow, -⟩ := parts
  refine ⟨fine, below, right', tileRow, tile', hf, hb, parts'.right_lt, hy, parts'.tile_lt, ?_, hrow,
    parts'.column_eq⟩
  omega

/-- Both copies together copy an address. -/
theorem eq_of_copied {a b : UInt16} (ha : a < addressEnd) (hb : b < addressEnd)
    (horizontal : a &&& horizontalBits = b &&& horizontalBits)
    (vertical : a &&& verticalBits = b &&& verticalBits) : a = b := by
  have whole : ∀ c : UInt16, c < addressEnd →
      c.toNat = (c &&& horizontalBits).toNat + (c &&& verticalBits).toNat := by
    intro c hc
    have hlt : c.toNat < 0x8000 := UInt16.lt_iff_toNat_lt.1 hc
    rw [← toNat_and_or c (by decide), show horizontalBits ||| verticalBits = 0x7FFF by decide,
      toNat_and_field c 0x7FFF 15 0 rfl]
    simp only [Nat.reducePow]
    omega
  apply UInt16.toNat_inj.1
  rw [whole a ha, whole b hb, horizontal, vertical]

/-- The row of pixels that an address holds. -/
def rowOf (address : UInt16) : Nat :=
  240 * (address.toNat / 2 ^ 11 % 2) + 8 * (address.toNat / 2 ^ 5 % 2 ^ 5) +
    address.toNat / 2 ^ 12 % 2 ^ 3

/-- The column of tiles that an address holds. -/
def columnOf (address : UInt16) : Nat :=
  32 * (address.toNat / 2 ^ 10 % 2) + address.toNat % 2 ^ 5

theorem scrolled_of (h : address < addressEnd) (hy : address.toNat / 2 ^ 5 % 2 ^ 5 ≤ 29) :
    Scrolled (rowOf address) (columnOf address) address := by
  have hlt : address.toNat < 0x8000 := UInt16.lt_iff_toNat_lt.1 h
  refine ⟨address.toNat / 2 ^ 12 % 2 ^ 3, address.toNat / 2 ^ 11 % 2, address.toNat / 2 ^ 10 % 2,
    address.toNat / 2 ^ 5 % 2 ^ 5, address.toNat % 2 ^ 5, ?_, ?_, ?_, ?_, ?_, ?_, rfl, rfl⟩
  all_goals
    simp only [Nat.reducePow] at *
    omega

/-! ## What a position shows -/

theorem tileAddress_toNat (address : UInt16) :
    (tileAddress address).toNat = 0x2000 + address.toNat % 0x1000 := by
  have low : (address &&& 0x0FFF).toNat = address.toNat % 0x1000 := by
    rw [toNat_and_field address 0x0FFF 12 0 rfl]
    simp only [Nat.reducePow]
    omega
  have apart := and_masked (by decide : (0x2000 : UInt16) &&& 0x0FFF = 0) address
  unfold tileAddress
  rw [toNat_or_of_disjoint apart, low]
  rfl

theorem attributeAddress_toNat (address : UInt16) :
    (attributeAddress address).toNat = 0x23C0 + address.toNat / 0x400 % 4 * 0x400 +
      address.toNat / 0x80 % 8 * 8 + address.toNat / 4 % 8 := by
  have table : (address &&& 0x0C00).toNat = address.toNat / 0x400 % 4 * 0x400 :=
    toNat_and_field address 0x0C00 2 10 rfl
  have line : (address / 16 &&& 0x38).toNat = address.toNat / 0x80 % 8 * 8 := by
    rw [toNat_and_field _ 0x38 3 3 rfl, UInt16.toNat_div]
    simp only [UInt16.reduceToNat, Nat.reducePow]
    omega
  have place : (address / 4 &&& 0x07).toNat = address.toNat / 4 % 8 := by
    rw [toNat_and_field _ 0x07 3 0 rfl, UInt16.toNat_div]
    simp only [UInt16.reduceToNat, Nat.reducePow]
    omega
  have first := and_masked (by decide : (0x23C0 : UInt16) &&& 0x0C00 = 0) address
  have second := or_disjoint
    (and_masked (by decide : (0x23C0 : UInt16) &&& 0x38 = 0) (address / 16))
    (masked_disjoint (by decide : (0x0C00 : UInt16) &&& 0x38 = 0) address (address / 16))
  have third := or_disjoint (or_disjoint
    (and_masked (by decide : (0x23C0 : UInt16) &&& 0x07 = 0) (address / 4))
    (masked_disjoint (by decide : (0x0C00 : UInt16) &&& 0x07 = 0) address (address / 4)))
    (masked_disjoint (by decide : (0x38 : UInt16) &&& 0x07 = 0) (address / 16) (address / 4))
  unfold attributeAddress
  rw [toNat_or_of_disjoint third, toNat_or_of_disjoint second, toNat_or_of_disjoint first, table,
    line, place]
  rfl

theorem attributeShift_toNat (address : UInt16) :
    (attributeShift address).toNat = address.toNat / 0x40 % 2 * 4 + address.toNat / 2 % 2 * 2 := by
  have line : (address / 16 &&& 4).toNat = address.toNat / 0x40 % 2 * 4 := by
    rw [toNat_and_field _ 4 1 2 rfl, UInt16.toNat_div]
    simp only [UInt16.reduceToNat, Nat.reducePow]
    omega
  have side : (address &&& 2).toNat = address.toNat / 2 % 2 * 2 := toNat_and_field _ 2 1 1 rfl
  have apart := masked_disjoint (by decide : (4 : UInt16) &&& 2 = 0) (address / 16) address
  unfold attributeShift
  rw [UInt16.toNat_toUInt8, toNat_or_of_disjoint apart, line, side]
  omega

theorem tileAddress_scrolled (h : Scrolled row column address) :
    (tileAddress address).toNat =
      0x2000 + row / 240 * 0x800 + column / 32 * 0x400 + row % 240 / 8 * 0x20 + column % 32 := by
  obtain ⟨fine, below, right, tileRow, tile, hf, hb, hr, hy, hx, place, rfl, rfl⟩ := h
  have low : address.toNat % 0x1000 = below * 0x800 + right * 0x400 + tileRow * 0x20 + tile := by
    omega
  rw [tileAddress_toNat, low]
  omega

theorem attributeAddress_scrolled (h : Scrolled row column address) :
    (attributeAddress address).toNat =
      0x23C0 + row / 240 * 0x800 + column / 32 * 0x400 + row % 240 / 32 * 8 + column % 32 / 4 := by
  obtain ⟨fine, below, right, tileRow, tile, hf, hb, hr, hy, hx, place, rfl, rfl⟩ := h
  have table : address.toNat / 0x400 % 4 = below * 2 + right := by omega
  have line : address.toNat / 0x80 % 8 = tileRow / 4 := by omega
  have side : address.toNat / 4 % 8 = tile / 4 := by omega
  rw [attributeAddress_toNat, table, line, side]
  clear place table line side
  omega

theorem attributeShift_scrolled (h : Scrolled row column address) :
    (attributeShift address).toNat = row % 240 / 16 % 2 * 4 + column / 2 % 2 * 2 := by
  obtain ⟨fine, below, right, tileRow, tile, hf, hb, hr, hy, hx, place, rfl, rfl⟩ := h
  have upper : (240 * below + 8 * tileRow + fine) % 240 / 16 % 2 = tileRow / 2 % 2 := by omega
  have left : (32 * right + tile) / 2 % 2 = tile / 2 % 2 := by omega
  have line : address.toNat / 0x40 % 2 = tileRow / 2 % 2 := by omega
  have side : address.toNat / 2 % 2 = tile / 2 % 2 := by omega
  rw [attributeShift_toNat, upper, left, line, side]

/-- A bit of the control register chooses one of the two pattern tables. -/
theorem Control.page_toNat (control : Control) {mask : UInt8} {place : Nat}
    (h : mask.toNat = 2 ^ place) :
    (if control.bits &&& mask != 0 then 0x1000 else 0 : UInt16).toNat =
      control.bits.toNat / 2 ^ place % 2 * 0x1000 := by
  rw [and_bit_ne_zero control.bits h, Nat.testBit_eq_decide_div_mod_eq]
  split
  · rename_i set
    rw [of_decide_eq_true set]
    rfl
  · rename_i clear
    have clear := of_decide_eq_false (Bool.eq_false_iff.2 clear)
    rw [show control.bits.toNat / 2 ^ place % 2 = 0 by omega]
    rfl

theorem Control.backgroundPage_toNat (control : Control) :
    control.backgroundPage.toNat = control.bits.toNat / 2 ^ 4 % 2 * 0x1000 :=
  control.page_toNat (by decide : (0x10 : UInt8).toNat = 2 ^ 4)

theorem Control.spritePage_toNat (control : Control) :
    control.spritePage.toNat = control.bits.toNat / 2 ^ 3 % 2 * 0x1000 :=
  control.page_toNat (by decide : (0x08 : UInt8).toNat = 2 ^ 3)

theorem backgroundRow_toNat (ppu : Ppu) (tile : UInt8) : (ppu.backgroundRow tile).toNat =
    ppu.control.backgroundPage.toNat + tile.toNat * 16 + ppu.address.toNat / 0x1000 % 8 := by
  have htile := tile.toNat_lt
  have inside : (tile.toUInt16 * 16 + ppu.address / 0x1000 % 8).toNat =
      tile.toNat * 16 + ppu.address.toNat / 0x1000 % 8 := by
    rw [UInt16.toNat_add, UInt16.toNat_mul, UInt16.toNat_mod, UInt16.toNat_div,
      UInt8.toNat_toUInt16]
    simp only [UInt16.reduceToNat]
    omega
  have page : ppu.control.backgroundPage.toNat = 2 ^ 12 * (ppu.control.bits.toNat / 2 ^ 4 % 2) := by
    rw [Control.backgroundPage_toNat, Nat.mul_comm]
    rfl
  unfold backgroundRow
  rw [UInt16.toNat_or, inside, page, Nat.or_comm, ← Nat.two_pow_add_eq_or_of_lt (by omega)]
  omega

theorem backgroundRow_scrolled {ppu : Ppu} (h : Scrolled row column ppu.address) (tile : UInt8) :
    (ppu.backgroundRow tile).toNat =
      ppu.control.backgroundPage.toNat + tile.toNat * 16 + row % 8 := by
  obtain ⟨fine, below, right, tileRow, tile', hf, hb, hr, hy, hx, place, rfl, rfl⟩ := h
  have line : ppu.address.toNat / 0x1000 % 8 = fine := by omega
  rw [backgroundRow_toNat, line]
  omega

end Famicom.Ppu
