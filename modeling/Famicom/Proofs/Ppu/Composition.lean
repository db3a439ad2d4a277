import Famicom.Proofs.Ppu.Plane
import Famicom.Proofs.Ppu.SpriteLines

/-!
# Composition

The colour of a visible dot as a formula over numbers: the background under the current address, the
first opaque sprite of the list, whichever of them is in front, and the palette. A dot puts this
colour in its place on the screen and touches no other.
-/

namespace Famicom

namespace Ppu

/-! ## Sprites as numbers -/

/-- The four bytes of a sprite, in the order in which they lie in sprite memory. -/
def numbered (ppu : Ppu) (number : UInt8) : Sprite :=
  ⟨ppu.oam[number.toNat % 64 * 4], ppu.oam[number.toNat % 64 * 4 + 1],
    ppu.oam[number.toNat % 64 * 4 + 2], ppu.oam[number.toNat % 64 * 4 + 3]⟩

namespace Sprite

/-- A column of the screen is one of the eight of a sprite. -/
def Spans (s : Sprite) (x : Nat) : Prop := s.column.toNat ≤ x ∧ x < s.column.toNat + 8

instance (s : Sprite) (x : Nat) : Decidable (s.Spans x) := inferInstanceAs (Decidable (_ ∧ _))

/-- The row of the sprite's own picture that a line shows. Outside the sprite the rows repeat. -/
def tileRow (s : Sprite) (height y : Nat) : Nat :=
  let row := (((y : Int) - s.row.toNat - 1) % height).toNat
  if s.attributes.toNat.testBit 7 then height - 1 - row else row

/-- The column of the sprite's own picture that a column of the screen shows. -/
def tileColumn (s : Sprite) (x : Nat) : Nat :=
  let column := x - s.column.toNat
  if s.attributes.toNat.testBit 6 then 7 - column else column

end Sprite

/-- A layer is shown unless its bit is off, or in the first eight columns the bit of its edge. -/
def Mask.shows (mask : Mask) (layer edge x : Nat) : Bool :=
  mask.bits.toNat.testBit layer && (8 ≤ x || mask.bits.toNat.testBit edge)

end Ppu

namespace Video

/-! ## The picture as numbers -/

/-- What picture memory answers at a place. -/
def byteAt (video : Video) (place : Nat) : Nat :=
  match video.memory.read video.board (UInt16.ofNat place) with
  | .ok byte => byte.toNat
  | .error _ => 0

/-- A pixel of a tile: a bit of each of the two planes of its row. -/
def patternAt (video : Video) (page tile row column : Nat) : Nat :=
  let place := page * 0x1000 + tile * 16 + row
  let bit := 7 - column
  video.byteAt place / 2 ^ bit % 2 + video.byteAt (place + 8) / 2 ^ bit % 2 * 2

/-- The pattern of the tile under the current address. -/
def tileAt (video : Video) (x : Nat) : Nat :=
  let v := video.ppu.address.toNat
  let tile := video.byteAt (0x2000 + v % 0x1000)
  video.patternAt (video.ppu.control.bits.toNat / 2 ^ 4 % 2) tile (v / 0x1000 % 8)
    ((video.ppu.fineX.toNat + x) % 8)

/-- The background in a column: the pattern below the palette of its quadrant, or zero where it is
transparent. -/
def backgroundAt (video : Video) (x : Nat) : Nat :=
  let v := video.ppu.address.toNat
  let pattern := video.tileAt x
  if video.ppu.mask.shows 3 1 x ∧ pattern ≠ 0 then
    let palettes := video.byteAt (0x23C0 + v / 0x400 % 4 * 0x400 + v / 0x80 % 8 * 8 + v / 4 % 8)
    pattern + palettes / 2 ^ (v / 0x40 % 2 * 4 + v / 2 % 2 * 2) % 4 * 4
  else 0

/-- The pattern of a sprite at a pixel. The tiles of a tall sprite are an even one and the next, and
the low bit of its tile chooses their page. -/
def spriteAt (video : Video) (sprite : Ppu.Sprite) (x y : Nat) : Nat :=
  let control := video.ppu.control.bits.toNat
  let tile := sprite.tile.toNat
  if control.testBit 5 then
    let row := sprite.tileRow 16 y
    if row < 8 then video.patternAt (tile % 2) (tile &&& 0xFE) row (sprite.tileColumn x)
    else video.patternAt (tile % 2) (tile ||| 1) (row - 8) (sprite.tileColumn x)
  else
    video.patternAt (control / 2 ^ 3 % 2) tile (sprite.tileRow 8 y) (sprite.tileColumn x)

/-- A listed sprite has an opaque pixel here. -/
def isOpaqueAt (video : Video) (x y : Nat) (number : UInt8) : Bool :=
  let sprite := video.ppu.numbered number
  decide (sprite.Spans x) && video.spriteAt sprite x y != 0

/-- The sprite of a pixel: the first of the list that is opaque there, in front or not. -/
def selected? (video : Video) (x y : Nat) : Option UInt8 :=
  if video.ppu.mask.shows 4 2 x then video.ppu.lineSprites.find? (video.isOpaqueAt x y) else none

/-- The palette entry of a pixel. -/
def entryAt (video : Video) (x y : Nat) : Nat :=
  let background := video.backgroundAt x
  match video.selected? x y with
  | some number =>
    let sprite := video.ppu.numbered number
    if ¬sprite.attributes.toNat.testBit 5 ∨ background = 0 then
      0x10 + sprite.attributes.toNat % 4 * 4 + video.spriteAt sprite x y
    else background
  | none => background

/-- The first entry of each sprite palette is that of the background palette. -/
def paletteAt (video : Video) (entry : Nat) : UInt8 :=
  let place := entry % 0x20
  video.memory.palette[(if 0x10 ≤ place ∧ place % 4 = 0 then place - 0x10 else place) % 0x20]

/-- The colour of a pixel. -/
def colourAt (video : Video) (x y : Nat) : UInt32 :=
  let shade := video.paletteAt (video.entryAt x y) &&& 0x3F
  Ppu.systemPalette[
    (if video.ppu.mask.bits.toNat.testBit 0 then shade &&& 0x30 else shade).toNat % 64]

end Video

namespace Ppu

variable {ppu : Ppu} {x y height : Nat}

/-! ## Sprites -/

theorem sprite?_numbered {number : UInt8} (h : number < 64) :
    ppu.sprite? number = some (ppu.numbered number) := by
  have place : number.toNat % 64 = number.toNat := Nat.mod_eq_of_lt (UInt8.lt_iff_toNat_lt.1 h)
  unfold sprite? numbered
  simp only [place]
  exact dif_pos (UInt8.lt_iff_toNat_lt.1 h)

namespace Sprite

variable {s : Sprite}

theorem column_sub (hx : x < 256) (first : s.column.toNat ≤ x) :
    (UInt8.ofNat x - s.column).toNat = x - s.column.toNat := by
  have place : (UInt8.ofNat x).toNat = x := UInt8.toNat_ofNat_of_lt' hx
  have inside : s.column ≤ UInt8.ofNat x := by rwa [UInt8.le_iff_toNat_le, place]
  rw [UInt8.toNat_sub_of_le _ _ inside, place]

theorem covers_iff (hx : x < 256) : s.covers (UInt8.ofNat x) = true ↔ s.Spans x := by
  have place : (UInt8.ofNat x).toNat = x := UInt8.toNat_ofNat_of_lt' hx
  unfold covers Spans
  rw [Bool.and_eq_true, decide_eq_true_eq, decide_eq_true_eq, UInt8.le_iff_toNat_le, place]
  refine and_congr_right fun first => ?_
  rw [UInt8.lt_iff_toNat_lt, column_sub hx first]
  simp only [UInt8.reduceToNat]
  omega

theorem patternShift_toNat (hx : x < 256) (spans : s.Spans x) :
    (s.patternShift (UInt8.ofNat x)).toNat = 7 - s.tileColumn x := by
  obtain ⟨first, last⟩ := spans
  have inside := column_sub hx first
  have small : UInt8.ofNat x - s.column ≤ 7 := by
    rw [UInt8.le_iff_toNat_le, inside]
    simp only [UInt8.reduceToNat]
    omega
  unfold patternShift tileColumn flipsHorizontally
  rw [and_bit_ne_zero s.attributes (by decide : (0x40 : UInt8).toNat = 2 ^ 6)]
  dsimp only
  split
  · rw [inside]
    omega
  · rw [UInt8.toNat_sub_of_le _ _ small, inside]
    rfl

/-- The row byte wraps around, but both heights divide the size of a byte. -/
theorem patternRow_toNat (s : Sprite) {tall : UInt16} (h : tall.toNat = height)
    (either : height = 8 ∨ height = 16) (line : UInt16) :
    (s.patternRow tall line).toNat = s.tileRow height line.toNat := by
  subst h
  have hline := line.toNat_lt
  have hrow := s.row.toNat_lt
  have row : ((line - (s.row + 1).toUInt16) % tall).toNat =
      (((line.toNat : Int) - s.row.toNat - 1) % tall.toNat).toNat := by
    rw [UInt16.toNat_mod, UInt16.toNat_sub, UInt8.toNat_toUInt16, UInt8.toNat_add]
    simp only [UInt8.reduceToNat]
    rcases either with h | h
    · rw [h]
      omega
    · rw [h]
      omega
  have below : ((line - (s.row + 1).toUInt16) % tall).toNat < tall.toNat := by
    rw [UInt16.toNat_mod]
    exact Nat.mod_lt _ (by omega)
  unfold patternRow tileRow flipsVertically
  rw [and_bit_ne_zero s.attributes (by decide : (0x80 : UInt8).toNat = 2 ^ 7)]
  dsimp only
  split
  · have one : (tall - 1).toNat = tall.toNat - 1 := by
      have positive : 1 ≤ tall := by
        rw [UInt16.le_iff_toNat_le]
        simp only [UInt16.reduceToNat]
        omega
      rw [UInt16.toNat_sub_of_le _ _ positive]
      rfl
    rw [UInt16.toNat_sub_of_le _ _ (UInt16.le_iff_toNat_le.2 (by rw [one]; omega)), one, row]
  · exact row

theorem tileRow_lt (s : Sprite) (h : 0 < height) (y : Nat) : s.tileRow height y < height := by
  have := Int.emod_lt_of_pos ((y : Int) - s.row.toNat - 1) (by omega : (0 : Int) < height)
  unfold tileRow
  dsimp only
  split <;> omega

/-- A tall sprite has the rows of an even tile, and below them those of the next. -/
theorem rowAddress_tall (s : Sprite) {control : Control} (tall : control.tallSprites = true)
    (line : UInt16) :
    (s.rowAddress control line).toNat = s.tile.toNat % 2 * 0x1000 +
      (s.tile.toNat / 2 * 2 + s.tileRow 16 line.toNat / 8) * 16 + s.tileRow 16 line.toNat % 8 := by
  have high : control.spriteHeight = 16 := if_pos tall
  have row : (s.patternRow 16 line).toNat = s.tileRow 16 line.toNat :=
    s.patternRow_toNat rfl (.inr rfl) line
  have below := s.tileRow_lt (by decide : 0 < 16) line.toNat
  have htile := s.tile.toNat_lt
  generalize s.tileRow 16 line.toNat = r at *
  have inside : ((s.tile.toUInt16 / 2) * 32 + (s.patternRow 16 line % 8 +
      s.patternRow 16 line / 8 * 16)).toNat = s.tile.toNat / 2 * 32 + (r % 8 + r / 8 * 16) := by
    simp only [UInt16.toNat_add, UInt16.toNat_mul, UInt16.toNat_mod, UInt16.toNat_div,
      UInt8.toNat_toUInt16, UInt16.reduceToNat, row]
    omega
  have page : (s.tile.toUInt16 % 2 * 0x1000).toNat = 2 ^ 12 * (s.tile.toNat % 2) := by
    simp only [UInt16.toNat_mul, UInt16.toNat_mod, UInt8.toNat_toUInt16, UInt16.reduceToNat]
    omega
  unfold rowAddress
  dsimp only
  -- The page lies above all rows of its tiles.
  rw [if_pos tall, high, UInt16.toNat_or, inside, page, Nat.or_comm,
    ← Nat.two_pow_add_eq_or_of_lt (by omega)]
  omega

theorem rowAddress_small (s : Sprite) {control : Control} (small : control.tallSprites = false)
    (line : UInt16) :
    (s.rowAddress control line).toNat = control.bits.toNat / 2 ^ 3 % 2 * 0x1000 +
      s.tile.toNat * 16 + s.tileRow 8 line.toNat := by
  have low : control.spriteHeight = 8 := if_neg (by simp [small])
  have row : (s.patternRow 8 line).toNat = s.tileRow 8 line.toNat :=
    s.patternRow_toNat rfl (.inl rfl) line
  have below := s.tileRow_lt (by decide : 0 < 8) line.toNat
  have htile := s.tile.toNat_lt
  unfold rowAddress
  dsimp only
  rw [if_neg (by simp [small]), low]
  simp only [UInt16.toNat_add, UInt16.toNat_mul, UInt8.toNat_toUInt16, UInt16.reduceToNat, row,
    Control.spritePage_toNat]
  omega

end Sprite

end Ppu

namespace Video

variable {cartridge : Cartridge} {video : Video} {x y : Nat}

/-! ## Fetches -/

theorem ofNat_byteAt {address : UInt16} {place : Nat} {byte : UInt8} (same : address.toNat = place)
    (h : video.memory.read video.board address = .ok byte) :
    UInt8.ofNat (video.byteAt place) = byte := by
  unfold byteAt
  rw [Ppu.ofNat_of_toNat same, h]
  exact UInt8.ofNat_toNat

theorem read_byteAt (h : video.Fits cartridge) {address : UInt16} {place : Nat}
    (same : address.toNat = place) :
    video.memory.read video.board address = .ok (UInt8.ofNat (video.byteAt place)) := by
  obtain ⟨byte, hr⟩ := PictureMemory.read_ok h.memory h.board address
  rw [hr, ofNat_byteAt same hr]

/-- The bus of the picture unit has room for the address of every pattern. -/
theorem pattern_address {place : Nat} (hp : place < 0x2000) :
    (UInt16.ofNat place &&& 0x3FFF).toNat = place := by
  have whole : (UInt16.ofNat place).toNat = place :=
    UInt16.toNat_ofNat_of_lt' (by simp only [UInt16.size]; omega)
  rw [UInt16.toNat_and, whole]
  exact (Nat.and_two_pow_sub_one_eq_mod place 14).trans (Nat.mod_eq_of_lt (by omega))

theorem byteAt_lt (video : Video) (place : Nat) : video.byteAt place < 256 := by
  unfold byteAt
  split
  · exact UInt8.toNat_lt _
  · decide

theorem patternAt_lt (video : Video) (page tile row column : Nat) :
    video.patternAt page tile row column < 4 := by
  unfold patternAt
  dsimp only
  omega

/-- A pattern pixel that can be read is that of its tile. -/
theorem patternPixel_eq {address : UInt16} {shift pattern : UInt8} {page tile row column : Nat}
    (same : address.toNat = page * 0x1000 + tile * 16 + row)
    (inside : page * 0x1000 + tile * 16 + row < 0x2000) (bit : shift.toNat = 7 - column)
    (h : Ppu.patternPixel video.memory video.board address shift = .ok pattern) :
    pattern = UInt8.ofNat (video.patternAt page tile row column) := by
  have above : (address + 8).toNat = page * 0x1000 + tile * 16 + row + 8 := by
    rw [UInt16.toNat_add, same]
    simp only [UInt16.reduceToNat]
    omega
  unfold Ppu.patternPixel at h
  cases hl : video.memory.read video.board address with
  | error fault => simp [hl, bind, Except.bind] at h
  | ok low =>
    cases hh : video.memory.read video.board (address + 8) with
    | error fault => simp [hl, hh, bind, Except.bind] at h
    | ok high =>
      simp only [hl, hh, bind, Except.bind, pure, Except.pure, Except.ok.injEq] at h
      rw [← h, ← ofNat_byteAt same hl, ← ofNat_byteAt above hh,
        Ppu.planePixel_eq _ _ bit (by omega), UInt8.toNat_ofNat_of_lt' (video.byteAt_lt _),
        UInt8.toNat_ofNat_of_lt' (video.byteAt_lt _)]
      rfl

theorem tallSprites_eq (control : Ppu.Control) :
    control.tallSprites = control.bits.toNat.testBit 5 :=
  and_bit_ne_zero control.bits (by decide : (0x20 : UInt8).toNat = 2 ^ 5)

/-- The row of a tile that shows a sprite on a line, and where it lies. -/
theorem spriteAt_place (video : Video) (sprite : Ppu.Sprite) (x : Nat)
    (hy : video.ppu.scanline.toNat = y) : ∃ page tile row,
      (sprite.rowAddress video.ppu.control video.ppu.scanline).toNat =
        page * 0x1000 + tile * 16 + row ∧
      page * 0x1000 + tile * 16 + row < 0x2000 ∧
      video.spriteAt sprite x y = video.patternAt page tile row (sprite.tileColumn x) := by
  have htile := sprite.tile.toNat_lt
  have even := and_field sprite.tile.toNat 7 1
  have odd := or_one sprite.tile.toNat
  simp only [Nat.reducePow, Nat.reduceSub, Nat.reduceMul] at even
  unfold spriteAt
  dsimp only
  rw [← tallSprites_eq]
  subst hy
  by_cases tall : video.ppu.control.tallSprites = true
  · have place := sprite.rowAddress_tall tall video.ppu.scanline
    have below := sprite.tileRow_lt (by decide : 0 < 16) video.ppu.scanline.toNat
    rw [if_pos tall]
    generalize sprite.tileRow 16 video.ppu.scanline.toNat = row at *
    split
    · exact ⟨_, _, _, by omega, by omega, rfl⟩
    · exact ⟨_, _, _, by omega, by omega, rfl⟩
  · have small : video.ppu.control.tallSprites = false := Bool.eq_false_iff.2 tall
    have place := sprite.rowAddress_small small video.ppu.scanline
    have below := sprite.tileRow_lt (by decide : 0 < 8) video.ppu.scanline.toNat
    rw [if_neg tall]
    exact ⟨_, _, _, place, by omega, rfl⟩

theorem spritePattern_eq {sprite : Ppu.Sprite} {pattern : UInt8} (hx : x < 256)
    (spans : sprite.Spans x) (hy : video.ppu.scanline.toNat = y)
    (h : Ppu.patternPixel video.memory video.board
      (sprite.rowAddress video.ppu.control video.ppu.scanline)
      (sprite.patternShift (UInt8.ofNat x)) = .ok pattern) :
    pattern = UInt8.ofNat (video.spriteAt sprite x y) := by
  obtain ⟨page, tile, row, same, inside, shown⟩ := video.spriteAt_place sprite x hy
  rw [shown]
  exact patternPixel_eq same inside (Ppu.Sprite.patternShift_toNat hx spans) h

theorem spritePattern_at (h : video.Fits cartridge) {sprite : Ppu.Sprite} (hx : x < 256)
    (spans : sprite.Spans x) (hy : video.ppu.scanline.toNat = y) :
    Ppu.patternPixel video.memory video.board
        (sprite.rowAddress video.ppu.control video.ppu.scanline)
        (sprite.patternShift (UInt8.ofNat x)) =
      .ok (UInt8.ofNat (video.spriteAt sprite x y)) := by
  obtain ⟨pattern, found⟩ := Ppu.patternPixel_ok h.memory h.board
    (sprite.rowAddress video.ppu.control video.ppu.scanline) (sprite.patternShift (UInt8.ofNat x))
  rw [found, spritePattern_eq hx spans hy found]

theorem spriteAt_lt (video : Video) (sprite : Ppu.Sprite) (x y : Nat) :
    video.spriteAt sprite x y < 4 := by
  unfold spriteAt
  dsimp only
  split
  · split <;> exact video.patternAt_lt _ _ _ _
  · exact video.patternAt_lt _ _ _ _

/-! ## Layers -/

theorem shows_eq (mask : Ppu.Mask) {layer edge : UInt8} {bit edgeBit : Nat}
    (hl : layer.toNat = 2 ^ bit) (he : edge.toNat = 2 ^ edgeBit) (hx : x < 256) :
    ((mask.bits &&& layer != 0) && (!(mask.bits &&& edge == 0) || 8 ≤ UInt8.ofNat x)) =
      mask.shows bit edgeBit x := by
  have inside : (8 ≤ UInt8.ofNat x) ↔ 8 ≤ x := by
    rw [UInt8.le_iff_toNat_le, UInt8.toNat_ofNat_of_lt' hx]
    rfl
  have edges := and_bit_ne_zero mask.bits he
  unfold bne at edges
  unfold Ppu.Mask.shows
  rw [and_bit_ne_zero mask.bits hl, edges, decide_eq_decide.2 inside, Bool.or_comm (decide _)]

/-- What is chosen of a sprite that is opaque at a pixel. -/
def chosen (video : Video) (x y : Nat) (number : UInt8) : Ppu.SpritePixel where
  colour := UInt8.ofNat (0x10 + (video.ppu.numbered number).attributes.toNat % 4 * 4 +
    video.spriteAt (video.ppu.numbered number) x y)
  inFront := !(video.ppu.numbered number).attributes.toNat.testBit 5
  isZero := number == 0

theorem colour_or_pattern {pattern : Nat} (h : pattern < 4) (attributes : UInt8) :
    0x10 ||| attributes % 4 * 4 ||| UInt8.ofNat pattern =
      UInt8.ofNat (0x10 + attributes.toNat % 4 * 4 + pattern) := by
  have palette : (0x10 ||| attributes % 4 * 4).toNat = 2 ^ 2 * (4 + attributes.toNat % 4) := by
    rw [UInt8.toNat_or]
    have above : (attributes % 4 * 4).toNat = attributes.toNat % 4 * 4 := by
      simp only [UInt8.toNat_mul, UInt8.toNat_mod, UInt8.reduceToNat]
      omega
    rw [above, show (0x10 : UInt8).toNat = 2 ^ 4 * 1 from rfl,
      ← Nat.two_pow_add_eq_or_of_lt (by omega)]
    omega
  apply UInt8.toNat_inj.1
  rw [UInt8.toNat_or, palette, UInt8.toNat_ofNat_of_lt' (by simp only [UInt8.size]; omega),
    UInt8.toNat_ofNat_of_lt' (by simp only [UInt8.size]; omega),
    ← Nat.two_pow_add_eq_or_of_lt (by omega)]
  omega

theorem ofNat_eq_zero_iff {pixel : Nat} (h : pixel < 4) : UInt8.ofNat pixel = 0 ↔ pixel = 0 := by
  rw [← UInt8.toNat_inj, UInt8.toNat_ofNat_of_lt' (by simp only [UInt8.size]; omega)]
  rfl

theorem inFront_eq (sprite : Ppu.Sprite) :
    sprite.isInFront = !sprite.attributes.toNat.testBit 5 := by
  rw [← and_bit_ne_zero sprite.attributes (by decide : (0x20 : UInt8).toNat = 2 ^ 5)]
  exact (Bool.not_not _).symm

theorem firstSpritePixel_find (h : video.Fits cartridge) (hx : x < 256)
    (hy : video.ppu.scanline.toNat = y) {numbers : List UInt8}
    (listed : ∀ number ∈ numbers, number < 64) :
    video.ppu.firstSpritePixel video.memory video.board (UInt8.ofNat x) numbers =
      .ok ((numbers.find? (video.isOpaqueAt x y)).map (video.chosen x y)) := by
  induction numbers with
  | nil => rfl
  | cons number rest ih =>
    have later := ih fun number hn => listed number (List.mem_cons_of_mem _ hn)
    rw [Ppu.firstSpritePixel, Ppu.sprite?_numbered (listed number List.mem_cons_self)]
    dsimp only
    by_cases spans : (video.ppu.numbered number).Spans x
    · have pattern := spritePattern_at h hx spans hy
      have small := video.spriteAt_lt (video.ppu.numbered number) x y
      rw [if_pos ((Ppu.Sprite.covers_iff hx).2 spans), pattern]
      simp only [bind, Except.bind, pure, Except.pure, ofNat_eq_zero_iff small]
      by_cases transparent : video.spriteAt (video.ppu.numbered number) x y = 0
      · have clear : video.isOpaqueAt x y number = false := by simp [isOpaqueAt, transparent]
        rw [if_pos transparent, later, List.find?_cons_of_neg (by simp [clear])]
      · have solid : video.isOpaqueAt x y number = true := by
          simp [isOpaqueAt, spans, transparent]
        rw [if_neg transparent, List.find?_cons_of_pos solid, colour_or_pattern small, inFront_eq]
        rfl
    · have clear : video.isOpaqueAt x y number = false := by simp [isOpaqueAt, spans]
      rw [if_neg (mt (Ppu.Sprite.covers_iff hx).1 spans), later,
        List.find?_cons_of_neg (by simp [clear])]

theorem spritePixel_selected (h : video.Fits cartridge) (hx : x < 256)
    (hy : video.ppu.scanline.toNat = y) :
    video.ppu.spritePixel video.memory video.board (UInt8.ofNat x) =
      .ok ((video.selected? x y).map (video.chosen x y)) := by
  have shown := shows_eq video.ppu.mask (by decide : (0x10 : UInt8).toNat = 2 ^ 4)
    (by decide : (0x04 : UInt8).toNat = 2 ^ 2) hx
  unfold Ppu.spritePixel selected?
  rw [show (video.ppu.mask.showsSprites && (!video.ppu.mask.hidesEdgeSprites ||
    8 ≤ UInt8.ofNat x)) = video.ppu.mask.shows 4 2 x from shown]
  split
  · exact firstSpritePixel_find h hx hy h.sprites
  · rfl

theorem tileAt_lt (video : Video) (x : Nat) : video.tileAt x < 4 := video.patternAt_lt _ _ _ _

/-- A background with palette bits but no pattern does not occur. -/
theorem backgroundAt_parts (video : Video) (x : Nat) : video.backgroundAt x = 0 ∨
    video.backgroundAt x < 16 ∧ video.backgroundAt x % 4 ≠ 0 := by
  have small := video.tileAt_lt x
  unfold backgroundAt
  dsimp only
  split
  · right
    omega
  · exact .inl rfl

/-- The pattern of a tile that can be read is that under the current address. -/
theorem tilePattern_eq {tile pattern : UInt8} (hx : x < 256)
    (ht : video.memory.read video.board (Ppu.tileAddress video.ppu.address) = .ok tile)
    (hp : Ppu.patternPixel video.memory video.board (video.ppu.backgroundRow tile)
      (7 - video.ppu.fineColumn (UInt8.ofNat x)) = .ok pattern) :
    pattern = UInt8.ofNat (video.tileAt x) := by
  have number := video.byteAt_lt (0x2000 + video.ppu.address.toNat % 0x1000)
  have bit := Ppu.fineShift_toNat video.ppu (UInt8.ofNat x)
  have row := video.ppu.backgroundRow_toNat tile
  rw [UInt8.toNat_ofNat_of_lt' hx] at bit
  rw [← ofNat_byteAt (Ppu.tileAddress_toNat video.ppu.address) ht,
    UInt8.toNat_ofNat_of_lt' number, Ppu.Control.backgroundPage_toNat] at row
  rw [← ofNat_byteAt (Ppu.tileAddress_toNat video.ppu.address) ht] at hp
  exact patternPixel_eq row (by omega) bit hp

theorem tilePixel_at (h : video.Fits cartridge) (full : video.ppu.variant = .full) (hx : x < 256)
    (shown : video.ppu.mask.shows 3 1 x = true) :
    video.ppu.tilePixel video.memory video.board (UInt8.ofNat x) =
      .ok (UInt8.ofNat (video.backgroundAt x)) := by
  have palettes := read_byteAt h (Ppu.attributeAddress_toNat video.ppu.address)
  have quadrant := Ppu.attributeShift_toNat video.ppu.address
  obtain ⟨tile, ht⟩ := PictureMemory.read_ok h.memory h.board (Ppu.tileAddress video.ppu.address)
  obtain ⟨pattern, hp⟩ := Ppu.patternPixel_ok h.memory h.board (video.ppu.backgroundRow tile)
    (7 - video.ppu.fineColumn (UInt8.ofNat x))
  have small := video.tileAt_lt x
  unfold Ppu.tilePixel backgroundAt
  simp only [ht, hp, tilePattern_eq hx ht hp, bind, Except.bind, pure, Except.pure, full, shown,
    true_and, ne_eq, ofNat_eq_zero_iff small]
  by_cases transparent : video.tileAt x = 0
  · rw [if_neg (not_not_intro transparent), if_neg (not_not_intro transparent), transparent]
  · rw [if_pos transparent, if_pos transparent, palettes]
    dsimp only
    rw [Ppu.pattern_or_palette small _ quadrant (by omega),
      UInt8.toNat_ofNat_of_lt' (video.byteAt_lt _)]

theorem backgroundPixel_at (h : video.Fits cartridge) (full : video.ppu.variant = .full)
    (hx : x < 256) : video.ppu.backgroundPixel video.memory video.board (UInt8.ofNat x) =
      .ok (UInt8.ofNat (video.backgroundAt x)) := by
  have layer := shows_eq video.ppu.mask (by decide : (0x08 : UInt8).toNat = 2 ^ 3)
    (by decide : (0x02 : UInt8).toNat = 2 ^ 1) hx
  unfold Ppu.backgroundPixel
  rw [show (video.ppu.mask.showsBackground && (!video.ppu.mask.hidesEdgeBackground ||
    8 ≤ UInt8.ofNat x)) = video.ppu.mask.shows 3 1 x from layer]
  split
  · exact tilePixel_at h full hx ‹_›
  · rw [backgroundAt, if_neg fun shown => ‹¬_› shown.1]
    rfl

/-! ## Colours -/

theorem isOpaque_backgroundAt (video : Video) (x : Nat) :
    Ppu.isOpaque (UInt8.ofNat (video.backgroundAt x)) = (video.backgroundAt x != 0) := by
  have pattern : (UInt8.ofNat (video.backgroundAt x) &&& 0x03).toNat = video.backgroundAt x % 4 := by
    rw [UInt8.toNat_and, UInt8.toNat_ofNat']
    have := Nat.and_two_pow_sub_one_eq_mod (video.backgroundAt x % 2 ^ 8) 2
    simp only [Nat.reducePow, Nat.reduceSub, UInt8.reduceToNat] at this ⊢
    rw [this]
    omega
  have parts := video.backgroundAt_parts x
  unfold Ppu.isOpaque
  rw [Bool.eq_iff_iff, bne_iff_ne, bne_iff_ne, ne_eq, ← UInt8.toNat_inj, pattern]
  simp only [UInt8.reduceToNat]
  omega

theorem compose_at (video : Video) (x y : Nat) :
    Ppu.compose (UInt8.ofNat (video.backgroundAt x)) ((video.selected? x y).map (video.chosen x y)) =
      UInt8.ofNat (video.entryAt x y) := by
  have visible := video.isOpaque_backgroundAt x
  unfold entryAt
  cases video.selected? x y with
  | none =>
    simp only [Option.map_none, Ppu.compose, visible]
    by_cases transparent : video.backgroundAt x = 0
    · simp [transparent]
    · simp [transparent]
  | some number =>
    simp only [Option.map_some, Ppu.compose, visible, chosen]
    by_cases transparent : video.backgroundAt x = 0
    · simp [transparent]
    · by_cases behind : (video.ppu.numbered number).attributes.toNat.testBit 5
      · simp [transparent, behind]
      · simp [transparent, behind]

theorem entryAt_lt (video : Video) (x y : Nat) : video.entryAt x y < 0x20 := by
  have background := video.backgroundAt_parts x
  unfold entryAt
  dsimp only
  split
  · rename_i number selected
    have pattern := video.spriteAt_lt (video.ppu.numbered number) x y
    split <;> omega
  · omega

theorem colour_at (video : Video) {entry : Nat} (h : entry < 0x20) :
    video.memory.colour (UInt8.ofNat entry) = video.paletteAt entry := by
  have place : (UInt8.ofNat entry).toNat % 0x20 = entry := by
    rw [UInt8.toNat_ofNat_of_lt' (by simp only [UInt8.size]; omega)]
    exact Nat.mod_eq_of_lt h
  have same : entry % 0x20 = entry := Nat.mod_eq_of_lt h
  unfold PictureMemory.colour paletteAt
  simp only [place, same]
  by_cases first : entry % 4 = 0
  · rw [if_pos first]
    by_cases second : 0x10 ≤ entry
    · have index : (entry - 0x10) % 0x20 = entry % 0x10 := by omega
      simp only [second, first, and_self, if_true, index]
    · have index : entry % 0x20 = entry % 0x10 := by omega
      simp only [second, false_and, if_false, index]
  · rw [if_neg first]
    simp only [first, and_false, if_false, same]

/-- The colours of the system fill six bits. -/
theorem shade_toNat (shade : UInt8) : (shade &&& 0x3F).toNat % 64 = shade.toNat % 64 := by
  have cut := Nat.and_two_pow_sub_one_eq_mod shade.toNat 6
  rw [UInt8.toNat_and]
  simp only [Nat.reducePow, Nat.reduceSub, UInt8.reduceToNat] at cut ⊢
  rw [cut, Nat.mod_mod]

theorem resolve_at (video : Video) (x y : Nat) :
    Ppu.resolve video.ppu.mask video.memory (UInt8.ofNat (video.entryAt x y)) =
      video.colourAt x y := by
  have grey : video.ppu.mask.isGreyscale = video.ppu.mask.bits.toNat.testBit 0 :=
    and_bit_ne_zero video.ppu.mask.bits (by decide : (0x01 : UInt8).toNat = 2 ^ 0)
  have colour := colour_at video (video.entryAt_lt x y)
  refine getElem_congr_idx ?_
  rw [colour, grey]
  split
  · rw [UInt8.and_assoc, show (0x3F : UInt8) &&& 0x30 = 0x30 from rfl]
  · exact (shade_toNat _).symm

/-! ## A visible dot -/

/-- Behind a pixel: its place on the screen has its colour, sprite 0 may have hit the background, and
behind the last column of a tile the address is that of the next. -/
def drawn (video : Video) (x y : Nat) (place : 256 * y + x < Ppu.screenWidth * Ppu.screenHeight) :
    Ppu :=
  { video.ppu with
    screen := video.ppu.screen.set (256 * y + x) (video.colourAt x y) place
    status := { video.ppu.status with
      spriteZeroHit := video.ppu.status.spriteZeroHit ||
        video.backgroundAt x != 0 && video.selected? x y = some 0 }
    address :=
      if video.ppu.mask.bits.toNat.testBit 3 ∧ (video.ppu.fineX.toNat + x) % 8 = 7 then
        Ppu.nextColumn video.ppu.address
      else video.ppu.address }

theorem visible_place (hx : x < 256) (hy : y < 240) :
    256 * y + x < Ppu.screenWidth * Ppu.screenHeight := by
  simp only [Ppu.screenWidth, Ppu.screenHeight]
  omega

theorem advanceColumn_at (ppu : Ppu) (hx : x < 256) : ppu.advanceColumn (UInt8.ofNat x) =
    { ppu with
      address :=
        if ppu.mask.bits.toNat.testBit 3 ∧ (ppu.fineX.toNat + x) % 8 = 7 then
          Ppu.nextColumn ppu.address
        else ppu.address } := by
  have shown : ppu.mask.showsBackground = ppu.mask.bits.toNat.testBit 3 :=
    and_bit_ne_zero ppu.mask.bits (by decide : (0x08 : UInt8).toNat = 2 ^ 3)
  have last : ppu.fineColumn (UInt8.ofNat x) = 7 ↔ (ppu.fineX.toNat + x) % 8 = 7 := by
    rw [← UInt8.toNat_inj, Ppu.fineColumn_toNat, UInt8.toNat_ofNat_of_lt' hx]
    rfl
  unfold Ppu.advanceColumn
  simp only [shown, last, Bool.and_eq_true, decide_eq_true_eq]
  split <;> rfl

theorem latchHit_at (video : Video) (ppu : Ppu) (x y : Nat) :
    ppu.latchHit (UInt8.ofNat (video.backgroundAt x))
        ((video.selected? x y).map (video.chosen x y)) =
      { ppu with
        status := { ppu.status with
          spriteZeroHit := ppu.status.spriteZeroHit ||
            video.backgroundAt x != 0 && video.selected? x y = some 0 } } := by
  have zero : ((video.selected? x y).map (video.chosen x y)).any Ppu.SpritePixel.isZero =
      decide (video.selected? x y = some 0) := by
    cases video.selected? x y with
    | none => rfl
    | some number => exact decide_eq_decide.2 Option.some_inj.symm
  unfold Ppu.latchHit
  rw [video.isOpaque_backgroundAt, zero]
  split
  · rename_i hit
    rw [hit, Bool.or_true]
  · rename_i missed
    rw [Bool.eq_false_iff.2 missed, Bool.or_false]

theorem plot_at {ppu : Ppu} (hx : x < 256) (hy : ppu.scanline.toNat = y) (colour : UInt32)
    (place : 256 * y + x < Ppu.screenWidth * Ppu.screenHeight) :
    Ppu.plot (UInt8.ofNat x) colour ppu =
      .ok () { ppu with screen := ppu.screen.set (256 * y + x) colour place } := by
  have same : ppu.scanline.toNat * Ppu.screenWidth + (UInt8.ofNat x).toNat = 256 * y + x := by
    rw [hy, UInt8.toNat_ofNat_of_lt' hx, Nat.mul_comm]
    rfl
  unfold Ppu.plot
  simp only [same]
  exact dif_pos place

theorem drawPixel_at (h : video.Fits cartridge) (full : video.ppu.variant = .full) (hx : x < 256)
    (visible : video.ppu.position = ⟨.render, y, x + 1⟩)
    (place : 256 * y + x < Ppu.screenWidth * Ppu.screenHeight) :
    Ppu.drawPixel video.memory video.board video.ppu = .ok () (video.drawn x y place) := by
  have hy : video.ppu.scanline.toNat = y := congrArg Position.line visible
  obtain ⟨-, -, column⟩ := Ppu.visible_column hx (congrArg Position.dot visible)
  have background := backgroundPixel_at h full hx
  have sprite := spritePixel_selected h hx hy
  -- Sprites are searched behind the step to the next tile, and do not see it.
  rw [← Ppu.advanceColumn_keeps Ppu.spritePixel_undrawn video.ppu (UInt8.ofNat x)] at sprite
  unfold Ppu.drawPixel
  rw [bind_ok (get_ok _), column, bind_ok (Ppu.inspect_ok background), bind_ok (modify_ok _ _),
    bind_ok (Ppu.inspect_ok sprite), bind_ok (modify_ok _ _), bind_ok (get_ok _),
    advanceColumn_at video.ppu hx, latchHit_at, if_pos full, bind_ok (get_ok _), compose_at,
    resolve_at]
  apply plot_at hx
  exact hy

theorem renderDot_at (h : video.Fits cartridge) (full : video.ppu.variant = .full) (hx : x < 256)
    (visible : video.ppu.position = ⟨.render, y, x + 1⟩)
    (place : 256 * y + x < Ppu.screenWidth * Ppu.screenHeight) :
    Ppu.renderDot video.memory video.board video.ppu =
      .ok () { video.drawn x y place with dot := video.ppu.dot + 1 } := by
  have hd : video.ppu.dot.toNat = x + 1 := congrArg Position.dot visible
  obtain ⟨low, high, -⟩ := Ppu.visible_column hx hd
  have effect : Ppu.renderEffect video.memory video.board video.ppu =
      .ok () (video.drawn x y place) := by
    unfold Ppu.renderEffect
    rw [bind_ok (get_ok _), if_pos (by simp [low, high])]
    exact drawPixel_at h full hx visible place
  have within : ¬Ppu.lastDot ≤ (video.drawn x y place).dot := by
    show ¬Ppu.lastDot ≤ video.ppu.dot
    rw [UInt16.le_iff_toNat_le, hd, show Ppu.lastDot.toNat = 340 from rfl]
    omega
  unfold Ppu.renderDot
  rw [bind_ok effect, bind_ok (get_ok _), if_neg within]
  rfl

/-- A visible dot writes the colour of its pixel on the screen, in its place and nowhere else. Only
the count of all dots can stop it, and only behind the pixel. -/
theorem dot_composes (h : video.Fits cartridge) (full : video.ppu.variant = .full) (hx : x < 256)
    (visible : video.ppu.position = ⟨.render, y, x + 1⟩) :
    ∃ place : 256 * y + x < Ppu.screenWidth * Ppu.screenHeight,
      let after := { video.drawn x y place with dot := video.ppu.dot + 1 }
      dot video =
        if video.ppu.totalDots.toNat + 1 < UInt64.size then
          .ok () { video with ppu := { after with totalDots := video.ppu.totalDots + 1 } }
        else .error .overflow { video with ppu := after } := by
  have hp : video.ppu.phase = .render := congrArg Position.phase visible
  have hy : video.ppu.scanline.toNat = y := congrArg Position.line visible
  have place := visible_place hx (hy ▸ h.render_line hp)
  have drawn : Ppu.phaseDot video.memory video.board .render video.ppu = _ :=
    renderDot_at h full hx visible place
  refine ⟨place, ?_⟩
  unfold dot
  rw [Ppu.tick_eq, hp, bind_ok drawn]
  by_cases room : video.ppu.totalDots.toNat + 1 < UInt64.size
  · have sum : addCount64 video.ppu.totalDots 1 = .ok (video.ppu.totalDots + 1) := if_pos room
    simp only [Ppu.countDot, Video.drawn, sum, if_pos room]
  · have sum : addCount64 video.ppu.totalDots 1 = .error .overflow := if_neg room
    simp only [Ppu.countDot, Video.drawn, sum, if_neg room]

/-- Tile 0 is opaque all over. One dot stands in the third row of tile 4 of the upper page, in its
second column. -/
def motifByte (place : Nat) : UInt8 :=
  if place < 0x10 then 0xFF else if place = 0x1042 then 0x40 else 0

def motif : Cartridge :=
  { Image.polling with patterns := ⟨Array.ofFn fun place : Fin 0x2000 => motifByte place⟩ }

/-- The bytes of sprites 0 and 5, which share their place. Sprite 0 shows the motif upside down and
left to right; sprite 5 is transparent. -/
def motifOam (place : Nat) : UInt8 :=
  match place with
  | 0 | 20 => 9
  | 1 => 5
  | 2 => 0xC1
  | 3 | 23 => 100
  | 21 => 2
  | _ => 0

/-- A dot of the picture where two tall sprites lie over an opaque background. -/
def motifDot (board : Board) : Video :=
  { powerOn .full board with
    ppu := { Ppu.powerOn .full with
      phase := .render
      scanline := 23
      dot := 107
      fineX := 5
      control := ⟨0x20⟩
      oam := Vector.ofFn fun place => motifOam place
      lineSprites := [5, 0] }
    memory := { (powerOn .full board).memory with
      palette := Vector.ofFn fun entry => UInt8.ofNat entry } }

theorem motifDot_fits {board : Board} (h : Board.ofCartridge? motif = some board) :
    (motifDot board).Fits motif where
  dot := (by decide : (107 : UInt16) ≤ Ppu.lastDot)
  line := (by decide : (23 : UInt16) < Ppu.visibleLines)
  memory := (powerOn_fits .full h).memory
  board := (powerOn_fits .full h).board
  sprites := by
    show ∀ number ∈ [(5 : UInt8), 0], number < 64
    rw [List.forall_mem_cons, List.forall_mem_singleton]
    decide

theorem motifDot_byteAt {board : Board} (h : Board.ofCartridge? motif = some board) {place : Nat}
    (hp : place < 0x2000) : (motifDot board).byteAt place = (motifByte place).toNat := by
  have size : motif.patterns.size = 0x2000 := by
    simp only [motif, ByteArray.size, Array.size_ofFn]
  have low := pattern_address hp
  have index : (UInt16.ofNat place &&& 0x3FFF &&& 0x1FFF).toNat = place := by
    rw [UInt16.toNat_and, low]
    exact (Nat.and_two_pow_sub_one_eq_mod place 13).trans (Nat.mod_eq_of_lt (by omega))
  have patterns : UInt16.ofNat place &&& 0x3FFF < 0x2000 := by
    rw [UInt16.lt_iff_toNat_lt, low]
    exact hp
  unfold byteAt
  rw [show (motifDot board).board = board from rfl,
    patternRom_read h rfl (by rw [size]; decide) _ patterns, Board.fetchRom,
    dif_pos (by rw [size]; decide)]
  simp only [index, size, Nat.mod_eq_of_lt hp]
  simp only [motif, ByteArray.getElem_eq_getElem_data, Array.getElem_ofFn]

/-- The name tables are empty. -/
theorem motifDot_tables (board : Board) {address : UInt16} {place : Nat}
    (same : address.toNat = place) (low : ¬address &&& 0x3FFF < 0x2000)
    (high : address &&& 0x3FFF < 0x3F00) : (motifDot board).byteAt place = 0 := by
  have ram : (motifDot board).memory.ram = Vector.replicate 0x800 0 := rfl
  unfold byteAt PictureMemory.read
  rw [Ppu.ofNat_of_toNat same]
  dsimp only
  rw [if_neg low, if_pos high, PictureMemory.readTable]
  by_cases inside : (motifDot board).memory.cell (address &&& 0x3FFF) < 0x800
  · simp only [inside, dif_pos, ram, Vector.getElem_replicate]
    rfl
  · rw [dif_neg inside]

theorem motifDot_background {board : Board} (h : Board.ofCartridge? motif = some board) :
    (motifDot board).backgroundAt 106 = 3 := by
  have address : (motifDot board).ppu.address.toNat = 0 := rfl
  have tile : (motifDot board).byteAt (0x2000 + 0 % 0x1000) = 0 :=
    motifDot_tables board (by decide : (0x2000 : UInt16).toNat = _) (by decide) (by decide)
  have palettes : (motifDot board).byteAt
      (0x23C0 + 0 / 0x400 % 4 * 0x400 + 0 / 0x80 % 8 * 8 + 0 / 4 % 8) = 0 :=
    motifDot_tables board (by decide : (0x23C0 : UInt16).toNat = _) (by decide) (by decide)
  have pattern : (motifDot board).tileAt 106 = 3 := by
    have page : (motifDot board).ppu.control.bits.toNat / 2 ^ 4 % 2 = 0 := by
      rw [show (motifDot board).ppu.control.bits = 0x20 from rfl]
      decide
    have column : ((motifDot board).ppu.fineX.toNat + 106) % 8 = 7 := by
      rw [show (motifDot board).ppu.fineX = 5 from rfl]
      decide
    unfold tileAt
    dsimp only
    rw [address, page, column, tile, patternAt, motifDot_byteAt h (by decide),
      motifDot_byteAt h (by decide)]
    decide
  have shown : (motifDot board).ppu.mask.shows 3 1 106 = true :=
    (by decide : Ppu.Mask.shows ⟨0x1E⟩ 3 1 106 = true)
  unfold backgroundAt
  dsimp only
  rw [pattern, if_pos ⟨shown, by decide⟩, address, palettes]
  decide

theorem motifDot_sprite (board : Board) :
    (motifDot board).ppu.numbered 0 = ⟨9, 5, 0xC1, 100⟩ ∧
      (motifDot board).ppu.numbered 5 = ⟨9, 2, 0, 100⟩ := by
  constructor <;> simp only [motifDot, Ppu.numbered, Vector.getElem_ofFn] <;> rfl

theorem motifDot_pattern {board : Board} (h : Board.ofCartridge? motif = some board) :
    (motifDot board).spriteAt ⟨9, 5, 0xC1, 100⟩ 106 23 = 1 ∧
      (motifDot board).spriteAt ⟨9, 2, 0, 100⟩ 106 23 = 0 := by
  have tall : (motifDot board).ppu.control.bits.toNat.testBit 5 = true := by
    rw [show (motifDot board).ppu.control.bits = 0x20 from rfl]
    decide
  have third : Ppu.Sprite.tileRow ⟨9, 5, 0xC1, 100⟩ 16 23 = 2 := by decide
  have low : Ppu.Sprite.tileRow ⟨9, 2, 0, 100⟩ 16 23 = 13 := by decide
  unfold spriteAt
  dsimp only
  rw [if_pos tall, if_pos tall, third, low, if_pos (by decide), if_neg (by decide)]
  constructor
  · rw [patternAt, motifDot_byteAt h (by decide), motifDot_byteAt h (by decide)]
    decide
  · rw [patternAt, motifDot_byteAt h (by decide), motifDot_byteAt h (by decide)]
    decide

/-- Sprite 0 is the first of the list that shows something here. -/
theorem motifDot_selected {board : Board} (h : Board.ofCartridge? motif = some board) :
    (motifDot board).selected? 106 23 = some 0 := by
  obtain ⟨zero, five⟩ := motifDot_sprite board
  obtain ⟨dotted, clear⟩ := motifDot_pattern h
  have shown : (motifDot board).ppu.mask.shows 4 2 106 = true :=
    (by decide : Ppu.Mask.shows ⟨0x1E⟩ 4 2 106 = true)
  have passed : (motifDot board).isOpaqueAt 106 23 5 = false := by
    simp only [isOpaqueAt, five, clear, bne_self_eq_false, Bool.and_false]
  have solid : (motifDot board).isOpaqueAt 106 23 0 = true := by
    simp only [isOpaqueAt, zero, dotted]
    decide
  rw [selected?, if_pos shown, show (motifDot board).ppu.lineSprites = [5, 0] from rfl,
    List.find?_cons_of_neg (by simp [passed]), List.find?_cons_of_pos solid]

/-- Its second palette has colour $15 for the first pattern. -/
theorem motifDot_colour {board : Board} (h : Board.ofCartridge? motif = some board) :
    (motifDot board).colourAt 106 23 = 0xB71E7B := by
  obtain ⟨zero, -⟩ := motifDot_sprite board
  obtain ⟨dotted, -⟩ := motifDot_pattern h
  have front : ¬(0xC1 : UInt8).toNat.testBit 5 = true := by decide
  have entry : (motifDot board).entryAt 106 23 = 0x15 := by
    simp only [entryAt, motifDot_selected h, zero, dotted, if_pos (Or.inl front)]
    decide
  have colour : (motifDot board).paletteAt 0x15 = 0x15 := by
    simp only [paletteAt, motifDot, Vector.getElem_ofFn]
    decide
  have mask : (motifDot board).ppu.mask.bits.toNat.testBit 0 = false :=
    (by decide : Nat.testBit 0x1E 0 = false)
  unfold colourAt
  simp only [entry, colour, mask]
  rfl

/-- A sprite that is flipped both ways shows its dot in front of the background, in a colour of its
own; the background counts as hit, and its next tile is due. -/
theorem motif_composes : ∃ board after, Board.ofCartridge? motif = some board ∧
    dot (motifDot board) = .ok () after ∧ after.ppu.screen[256 * 23 + 106]? = some 0xB71E7B ∧
      after.ppu.status.spriteZeroHit = true ∧ after.ppu.address = 1 := by
  obtain ⟨board, hboard⟩ := @Board.ofCartridge?_isSome motif (.inl rfl)
  have visible : (motifDot board).ppu.position = ⟨.render, 23, 106 + 1⟩ := rfl
  obtain ⟨place, composes⟩ := dot_composes (motifDot_fits hboard) rfl (by decide) visible
  have room : (motifDot board).ppu.totalDots.toNat + 1 < UInt64.size :=
    (by decide : 0 + 1 < UInt64.size)
  refine ⟨board, _, hboard, composes.trans (if_pos room), ?_, ?_, ?_⟩
  · show ((motifDot board).ppu.screen.set (256 * 23 + 106) ((motifDot board).colourAt 106 23)
      place)[256 * 23 + 106]? = _
    rw [Vector.getElem?_set_self place, motifDot_colour hboard]
  · show (false || (motifDot board).backgroundAt 106 != 0 &&
      decide ((motifDot board).selected? 106 23 = some 0)) = true
    rw [motifDot_background hboard, motifDot_selected hboard]
    rfl
  · have last : (motifDot board).ppu.mask.bits.toNat.testBit 3 ∧
        ((motifDot board).ppu.fineX.toNat + 106) % 8 = 7 :=
      (by decide : Nat.testBit 0x1E 3 ∧ (5 + 106) % 8 = 7)
    exact (if_pos last).trans (by decide : Ppu.nextColumn 0 = 1)

end Video

end Famicom
