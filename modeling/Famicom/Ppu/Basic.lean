import Famicom.Fault
import Famicom.Ppu.Registers

/-!
# Picture unit

The state of the picture unit. It advances one dot at a time through 262 scanlines of 341 dots.

The address registers hold a scroll position: `yyy NN YYYYY XXXXX` is the row in a tile, the name
table, and the row and column of the tile.
-/

namespace Famicom

namespace Ppu

def screenWidth : Nat := 256
def screenHeight : Nat := 240

/-- Where a frame is. -/
inductive Phase
  | preRender
  | render
  | postRender
  | verticalBlank
deriving DecidableEq, Repr

namespace Phase

def name : Phase → String
  | preRender => "PreRender"
  | render => "Render"
  | postRender => "PostRender"
  | verticalBlank => "VerticalBlank"

def code : Phase → UInt8
  | preRender => 0
  | render => 1
  | postRender => 2
  | verticalBlank => 3

def ofCode? (code : UInt8) : Option Phase :=
  if code = 0 then some preRender
  else if code = 1 then some render
  else if code = 2 then some postRender
  else if code = 3 then some verticalBlank
  else none

end Phase

/-- The light variant keeps all timing but never resolves a colour nor writes the screen. -/
inductive Variant
  | full
  | light
deriving DecidableEq, Repr

namespace Variant

def ofHeadless (headless : Bool) : Variant := if headless then light else full

def name : Variant → String
  | full => "Full"
  | light => "Light"

end Variant

end Ppu

structure Ppu where
  variant : Ppu.Variant
  screen : Vector UInt32 (Ppu.screenWidth * Ppu.screenHeight)
  phase : Ppu.Phase
  dot : UInt16
  scanline : UInt16
  evenFrame : Bool
  /-- The current address, which rendering moves over the name tables. -/
  address : UInt16
  /-- The address at which the next frame starts. -/
  nextAddress : UInt16
  fineX : UInt8
  /-- Whether the next scroll or address write is the first of its pair. -/
  firstWrite : Bool
  readBuffer : UInt8
  control : Ppu.Control
  mask : Ppu.Mask
  status : Ppu.Status
  oam : Vector UInt8 256
  oamAddress : UInt8
  /-- The sprites to draw on the next line, by number. -/
  lineSprites : List UInt8
  interruptPending : Bool
  /-- The dots since the last reset. -/
  totalDots : UInt64

namespace Ppu

/-- The pipeline at power-on. Sprite memory and the screen keep what they hold. -/
def reset (ppu : Ppu) : Ppu :=
  { ppu with
    phase := .preRender
    dot := 0
    scanline := 0
    evenFrame := true
    address := 0
    nextAddress := 0
    fineX := 0
    firstWrite := true
    readBuffer := 0
    control := .powerOn
    mask := .powerOn
    status := .powerOn
    oamAddress := 0
    lineSprites := []
    interruptPending := false
    totalDots := 0 }

def powerOn (variant : Variant) : Ppu where
  variant := variant
  screen := Vector.replicate _ 0
  phase := .preRender
  dot := 0
  scanline := 0
  evenFrame := true
  address := 0
  nextAddress := 0
  fineX := 0
  firstWrite := true
  readBuffer := 0
  control := .powerOn
  mask := .powerOn
  status := .powerOn
  oam := Vector.replicate _ 0
  oamAddress := 0
  lineSprites := []
  interruptPending := false
  totalDots := 0

/-- Takes over the whole state of another picture unit, but not its variant. -/
def copyFrom (ppu source : Ppu) : Ppu := { source with variant := ppu.variant }

end Ppu

end Famicom
