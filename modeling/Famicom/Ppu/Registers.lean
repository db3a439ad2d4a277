/-!
# Picture registers

The control and mask registers, which programs write, and the status register, which they read.
-/

namespace Famicom.Ppu

/-- VPHB SINN: frame interrupt, direction, sprite height, background page, sprite page, address
step, base name table. -/
structure Control where
  bits : UInt8
deriving DecidableEq, Repr

namespace Control

def powerOn : Control := ⟨0⟩

/-- Addresses step across a row or down a column. -/
def addressStep (c : Control) : UInt16 := if c.bits &&& 0x04 != 0 then 32 else 1

def interruptEnabled (c : Control) : Bool := c.bits &&& 0x80 != 0

def baseTable (c : Control) : UInt16 := (c.bits &&& 0x03).toUInt16

def backgroundPage (c : Control) : UInt16 := if c.bits &&& 0x10 != 0 then 0x1000 else 0

/-- Tall sprites choose their page by the tile number and ignore this. -/
def spritePage (c : Control) : UInt16 := if c.bits &&& 0x08 != 0 then 0x1000 else 0

def tallSprites (c : Control) : Bool := c.bits &&& 0x20 != 0

def spriteHeight (c : Control) : UInt16 := if c.tallSprites then 16 else 8

end Control

/-- BGRs bMmG: three emphasis bits, sprites, background, sprites and background in the eight
leftmost columns, greyscale. -/
structure Mask where
  bits : UInt8
deriving DecidableEq, Repr

namespace Mask

/-- Both layers are shown, up to the left edge. -/
def powerOn : Mask := ⟨0x1E⟩

def isGreyscale (m : Mask) : Bool := m.bits &&& 0x01 != 0

def hidesEdgeBackground (m : Mask) : Bool := m.bits &&& 0x02 == 0

def hidesEdgeSprites (m : Mask) : Bool := m.bits &&& 0x04 == 0

def showsBackground (m : Mask) : Bool := m.bits &&& 0x08 != 0

def showsSprites (m : Mask) : Bool := m.bits &&& 0x10 != 0

/-- The scroll copies and the short odd frame need both layers. -/
def isRendering (m : Mask) : Bool := m.showsBackground && m.showsSprites

end Mask

/-- Only the top three bits are driven. Nothing ever raises the sprite overflow. -/
structure Status where
  vblank : Bool
  spriteZeroHit : Bool
  spriteOverflow : Bool
deriving DecidableEq, Repr

namespace Status

def powerOn : Status := ⟨false, false, false⟩

def ofByte (v : UInt8) : Status := ⟨v &&& 0x80 != 0, v &&& 0x40 != 0, v &&& 0x20 != 0⟩

def toByte (s : Status) : UInt8 :=
  (if s.vblank then 0x80 else 0) ||| (if s.spriteZeroHit then 0x40 else 0) |||
  (if s.spriteOverflow then 0x20 else 0)

end Status

end Famicom.Ppu
