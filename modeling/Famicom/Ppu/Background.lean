import Famicom.PictureMemory
import Famicom.Ppu.Scroll

/-!
# Background

The background pixel at the current address: two pattern bits below two palette bits. A pixel whose
pattern is zero is transparent. The bit planes of a pattern row lie eight bytes apart, for the
background as for sprites.
-/

namespace Famicom.Ppu

/-- One pixel of a row, counted from its right end. -/
@[inline] def planePixel (low high shift : UInt8) : UInt8 :=
  (low >>> shift) % 2 + (high >>> shift) % 2 * 2

@[inline] def patternPixel (memory : PictureMemory) (board : Board) (row : UInt16)
    (shift : UInt8) : Except Fault UInt8 := do
  let low ← memory.read board row
  let high ← memory.read board (row + 8)
  return planePixel low high shift

def isOpaque (pixel : UInt8) : Bool := pixel &&& 0x03 != 0

/-- The place of a column of the screen in its tile. -/
def fineColumn (ppu : Ppu) (x : UInt8) : UInt8 := (ppu.fineX + x) % 8

def tileAddress (address : UInt16) : UInt16 := 0x2000 ||| (address &&& 0x0FFF)

def attributeAddress (address : UInt16) : UInt16 :=
  0x23C0 ||| (address &&& 0x0C00) ||| (address / 16 &&& 0x38) ||| (address / 4 &&& 0x07)

/-- The shift that brings the quadrant of a tile to the low end of its attribute byte. -/
def attributeShift (address : UInt16) : UInt8 :=
  ((address / 16 &&& 4) ||| (address &&& 2)).toUInt8

/-- The row of pattern memory that a tile shows on this line. -/
def backgroundRow (ppu : Ppu) (tile : UInt8) : UInt16 :=
  (tile.toUInt16 * 16 + ppu.address / 0x1000 % 8) ||| ppu.control.backgroundPage

/-- The tile pixel under the current address. Palette bits are only looked up for the screen. -/
def tilePixel (ppu : Ppu) (memory : PictureMemory) (board : Board) (x : UInt8) :
    Except Fault UInt8 := do
  let tile ← memory.read board (tileAddress ppu.address)
  let pattern ← patternPixel memory board (ppu.backgroundRow tile) (7 - ppu.fineColumn x)
  if ppu.variant = .full ∧ pattern ≠ 0 then
    let quadrants ← memory.read board (attributeAddress ppu.address)
    return pattern ||| (quadrants >>> attributeShift ppu.address) % 4 * 4
  else
    return pattern

def backgroundPixel (ppu : Ppu) (memory : PictureMemory) (board : Board) (x : UInt8) :
    Except Fault UInt8 :=
  if ppu.mask.showsBackground && (!ppu.mask.hidesEdgeBackground || 8 ≤ x) then
    ppu.tilePixel memory board x
  else
    .ok 0

/-- Goes to the next tile behind the last column of this one. -/
def advanceColumn (ppu : Ppu) (x : UInt8) : Ppu :=
  if ppu.mask.showsBackground && ppu.fineColumn x = 7 then
    { ppu with address := nextColumn ppu.address }
  else
    ppu

end Famicom.Ppu
