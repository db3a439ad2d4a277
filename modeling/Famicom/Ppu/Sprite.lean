import Famicom.Ppu.Background

/-!
# Sprites

Sprite memory holds 64 sprites of four bytes: row, tile, attributes, column. The attributes flip the
sprite vertically (bit 7) and horizontally (bit 6), put it behind the background (bit 5) and choose
its palette (bits 0 and 1). Each line draws up to eight sprites, found at the end of the line above.
-/

namespace Famicom.Ppu

structure Sprite where
  row : UInt8
  tile : UInt8
  attributes : UInt8
  column : UInt8
deriving DecidableEq, Repr

namespace Sprite

def flipsVertically (s : Sprite) : Bool := s.attributes &&& 0x80 != 0

def flipsHorizontally (s : Sprite) : Bool := s.attributes &&& 0x40 != 0

def isInFront (s : Sprite) : Bool := s.attributes &&& 0x20 == 0

def covers (s : Sprite) (x : UInt8) : Bool := s.column ≤ x && x - s.column < 8

/-- The row of the sprite that a line shows, counted as it lies in pattern memory. A sprite starts
on the line below its row byte. -/
def patternRow (s : Sprite) (height line : UInt16) : UInt16 :=
  let row := (line - (s.row + 1).toUInt16) % height
  if s.flipsVertically then height - 1 - row else row

/-- The shift that brings the pixel in column `x` to the low end of its row. -/
def patternShift (s : Sprite) (x : UInt8) : UInt8 :=
  if s.flipsHorizontally then x - s.column else 7 - (x - s.column)

/-- Where the pattern row lies. A tall sprite takes an even tile for its upper half and the next for
its lower one; the low bit of its tile number is the page. -/
def rowAddress (s : Sprite) (control : Control) (line : UInt16) : UInt16 :=
  let row := s.patternRow control.spriteHeight line
  if control.tallSprites then
    ((s.tile.toUInt16 / 2) * 32 + (row % 8 + row / 8 * 16)) ||| (s.tile.toUInt16 % 2 * 0x1000)
  else
    s.tile.toUInt16 * 16 + row + control.spritePage

end Sprite

/-- The pixel of a sprite that was chosen for the screen. -/
structure SpritePixel where
  colour : UInt8
  inFront : Bool
  /-- Whether it belongs to sprite 0. -/
  isZero : Bool
deriving DecidableEq, Repr

@[inline] def sprite? (ppu : Ppu) (number : UInt8) : Option Sprite :=
  if h : number.toNat < 64 then
    some ⟨ppu.oam[number.toNat * 4], ppu.oam[number.toNat * 4 + 1], ppu.oam[number.toNat * 4 + 2],
      ppu.oam[number.toNat * 4 + 3]⟩
  else
    none

/-- The first opaque pixel in column `x` of the listed sprites. -/
def firstSpritePixel (ppu : Ppu) (memory : PictureMemory) (board : Board) (x : UInt8) :
    List UInt8 → Except Fault (Option SpritePixel)
  | [] => .ok none
  | number :: rest =>
    match ppu.sprite? number with
    | none => .error .indexOutOfRange
    | some sprite =>
      if sprite.covers x then do
        let row := sprite.rowAddress ppu.control ppu.scanline
        let pattern ← patternPixel memory board row (sprite.patternShift x)
        if pattern = 0 then
          firstSpritePixel ppu memory board x rest
        else
          return some {
            colour := 0x10 ||| sprite.attributes % 4 * 4 ||| pattern
            inFront := sprite.isInFront
            isZero := number == 0 }
      else
        firstSpritePixel ppu memory board x rest

def spritePixel (ppu : Ppu) (memory : PictureMemory) (board : Board) (x : UInt8) :
    Except Fault (Option SpritePixel) :=
  if ppu.mask.showsSprites && (!ppu.mask.hidesEdgeSprites || 8 ≤ x) then
    ppu.firstSpritePixel memory board x ppu.lineSprites
  else
    .ok none

def isOnLine (ppu : Ppu) (number : UInt8) : Bool :=
  match ppu.sprite? number with
  | some sprite =>
    let first := sprite.row.toUInt16
    first ≤ ppu.scanline && ppu.scanline - first < ppu.control.spriteHeight
  | none => false

/-- The sprites from a number on that lie on this line, at most `room` of them. -/
def findSprites (ppu : Ppu) : Nat → Nat → List UInt8
  | _, 0 => []
  | number, room + 1 =>
    if h : number < 64 then
      if ppu.isOnLine (UInt8.ofNat number) then
        UInt8.ofNat number :: findSprites ppu (number + 1) room
      else
        findSprites ppu (number + 1) (room + 1)
    else
      []
termination_by number => 64 - number

def spritesPerLine : Nat := 8

/-- Chooses the sprites of the next line, starting with the one at the sprite address. -/
def evaluateSprites (ppu : Ppu) : Ppu :=
  { ppu with lineSprites := ppu.findSprites (ppu.oamAddress.toNat / 4) spritesPerLine }

end Famicom.Ppu
