import Famicom.Ppu.Basic

/-!
# Scrolling

How rendering moves the current address over the four name tables.
-/

namespace Famicom.Ppu

/-- The next tile to the right, on into the neighbouring table. -/
def nextColumn (address : UInt16) : UInt16 :=
  if address &&& 0x001F = 0x001F then (address &&& ~~~0x001F) ^^^ 0x0400
  else address + 1

/-- The next row of pixels. Row 29 is the last of a table; the two rows of tiles below it, where the
attributes lie, wrap without a change of table. -/
def nextRow (address : UInt16) : UInt16 :=
  if address &&& 0x7000 ≠ 0x7000 then address + 0x1000
  else
    let address := address &&& ~~~0x7000
    if address &&& 0x03E0 = 0x03A0 then (address &&& ~~~0x03E0) ^^^ 0x0800
    else if address &&& 0x03E0 = 0x03E0 then address &&& ~~~0x03E0
    else address + 0x0020

/-- The bits that choose the column: those of the tile and of the left or right table. -/
def horizontalBits : UInt16 := 0x041F

/-- The bits that choose the row. -/
def verticalBits : UInt16 := 0x7BE0

def copyBits (bits source target : UInt16) : UInt16 := (target &&& ~~~bits) ||| (source &&& bits)

def copyHorizontal (ppu : Ppu) : Ppu :=
  { ppu with address := copyBits horizontalBits ppu.nextAddress ppu.address }

def copyVertical (ppu : Ppu) : Ppu :=
  { ppu with address := copyBits verticalBits ppu.nextAddress ppu.address }

end Famicom.Ppu
