import Famicom.Ppu.Background
import Famicom.Ppu.Sprite

/-!
# Dots

The work of a single dot in each phase of a frame.
-/

namespace Famicom.Ppu

def lastDot : UInt16 := 340
def visibleDots : UInt16 := 256
def visibleLines : UInt16 := 240
def vblankLine : UInt16 := 241
def frameLines : UInt16 := 261

/-- The 64 colours that the picture unit can put out, as 0x00RRGGBB. -/
def systemPalette : Vector UInt32 64 := #v[
  0x666666, 0x002A88, 0x1412A7, 0x3B00A4, 0x5C007E, 0x6E0040, 0x6C0600, 0x561D00,
  0x333500, 0x0B4800, 0x005200, 0x004F08, 0x00404D, 0x000000, 0x000000, 0x000000,
  0xADADAD, 0x155FD9, 0x4240FF, 0x7527FE, 0xA01ACC, 0xB71E7B, 0xB53120, 0x994E00,
  0x6B6D00, 0x388700, 0x0C9300, 0x008F32, 0x007C8D, 0x000000, 0x000000, 0x000000,
  0xFFFEFF, 0x64B0FF, 0x9290FF, 0xC676FF, 0xF36AFF, 0xFE6ECC, 0xFE8170, 0xEA9E22,
  0xBCBE00, 0x88D800, 0x5CE430, 0x45E082, 0x48CDDE, 0x4F4F4F, 0x000000, 0x000000,
  0xFFFEFF, 0xC0DFFF, 0xD3D2FF, 0xE8C8FF, 0xFBC2FF, 0xFEC4EA, 0xFECCC5, 0xF7D8A5,
  0xE4E594, 0xCFEF96, 0xBDF4AB, 0xB3F3CC, 0xB5EBF2, 0xB8B8B8, 0x000000, 0x000000]

abbrev Action (α : Type) := EStateM Fault Ppu α

@[inline] def inspect {α : Type} (f : Ppu → Except Fault α) : Action α := fun ppu =>
  match f ppu with
  | .ok value => .ok value ppu
  | .error fault => .error fault ppu

/-- The palette entry of a dot: the sprite wins where the background is transparent and where it is
in front; entry 0 is the backdrop. -/
def compose (background : UInt8) : Option SpritePixel → UInt8
  | some sprite => if !isOpaque background || sprite.inFront then sprite.colour else background
  | none => if isOpaque background then background else 0

/-- The colour that a palette entry puts on the screen. -/
def resolve (mask : Mask) (memory : PictureMemory) (entry : UInt8) : UInt32 :=
  let colour := memory.colour entry
  systemPalette[(if mask.isGreyscale then colour &&& 0x30 else colour).toNat % 64]

/-- Sprite 0 over an opaque background sets its flag for the rest of the frame. -/
def latchHit (ppu : Ppu) (background : UInt8) (sprite : Option SpritePixel) : Ppu :=
  if isOpaque background && sprite.any SpritePixel.isZero then
    { ppu with status := { ppu.status with spriteZeroHit := true } }
  else
    ppu

def plot (x : UInt8) (colour : UInt32) : Action Unit := fun ppu =>
  let place := ppu.scanline.toNat * screenWidth + x.toNat
  if h : place < screenWidth * screenHeight then
    .ok () { ppu with screen := ppu.screen.set place colour }
  else
    .error .indexOutOfRange ppu

def drawPixel (memory : PictureMemory) (board : Board) : Action Unit := do
  let x := ((← get).dot - 1).toUInt8
  let background ← inspect fun ppu => ppu.backgroundPixel memory board x
  modify fun ppu => ppu.advanceColumn x
  let sprite ← inspect fun ppu => ppu.spritePixel memory board x
  modify fun ppu => ppu.latchHit background sprite
  if (← get).variant = .full then
    plot x (resolve (← get).mask memory (compose background sprite))

def nextDot : Action Unit := modify fun ppu => { ppu with dot := ppu.dot + 1 }

def nextLine : Action Unit := fun ppu =>
  match addCount16 ppu.scanline 1 with
  | .ok scanline => .ok () { ppu with scanline := scanline, dot := 0 }
  | .error fault => .error fault ppu

/-- The vertical scroll is copied on these dots before a frame. -/
def copiesVertical (dot : UInt16) : Bool := 280 < dot && dot ≤ 304

/-- Odd frames are one dot short while both layers are shown. -/
def lastPreRenderDot (ppu : Ppu) : UInt16 :=
  if !ppu.evenFrame && ppu.mask.isRendering then lastDot - 1 else lastDot

def preRenderEffect (ppu : Ppu) : Ppu :=
  if ppu.dot = 1 then
    { ppu with status := { ppu.status with vblank := false, spriteZeroHit := false } }
  else if ppu.dot = visibleDots + 2 && ppu.mask.isRendering then
    ppu.copyHorizontal
  else if copiesVertical ppu.dot && ppu.mask.isRendering then
    ppu.copyVertical
  else
    ppu

def preRenderDot (ppu : Ppu) : Ppu :=
  let ppu := ppu.preRenderEffect
  if ppu.lastPreRenderDot ≤ ppu.dot then
    { ppu with phase := .render, dot := 0, scanline := 0 }
  else
    { ppu with dot := ppu.dot + 1 }

def renderEffect (memory : PictureMemory) (board : Board) : Action Unit := do
  let dot := (← get).dot
  if 0 < dot && dot ≤ visibleDots then
    drawPixel memory board
  else if dot = visibleDots + 1 && (← get).mask.showsBackground then
    modify fun ppu => { ppu with address := nextRow ppu.address }
  else if dot = visibleDots + 2 && (← get).mask.isRendering then
    modify copyHorizontal

def renderDot (memory : PictureMemory) (board : Board) : Action Unit := do
  renderEffect memory board
  if lastDot ≤ (← get).dot then
    modify evaluateSprites
    nextLine
    if visibleLines ≤ (← get).scanline then
      modify fun ppu => { ppu with phase := .postRender }
  else
    nextDot

def postRenderDot : Action Unit := do
  if lastDot ≤ (← get).dot then
    nextLine
    modify fun ppu => { ppu with phase := .verticalBlank }
  else
    nextDot

/-- Whether this dot starts the vertical blank. -/
def startsVblank (ppu : Ppu) : Bool :=
  ppu.phase = .verticalBlank && ppu.dot = 1 && ppu.scanline = vblankLine

/-- Whether this dot raises the frame interrupt. -/
def raisesInterrupt (ppu : Ppu) : Bool := ppu.startsVblank && ppu.control.interruptEnabled

def verticalBlankEffect (ppu : Ppu) : Ppu :=
  if ppu.startsVblank then
    { ppu with
      status := { ppu.status with vblank := true }
      interruptPending := ppu.interruptPending || ppu.control.interruptEnabled }
  else
    ppu

def verticalBlankDot : Action Unit := do
  modify verticalBlankEffect
  if lastDot ≤ (← get).dot then
    nextLine
    if frameLines ≤ (← get).scanline then
      modify fun ppu =>
        { ppu with phase := .preRender, scanline := 0, evenFrame := !ppu.evenFrame }
  else
    nextDot

def countDot : Action Unit := fun ppu =>
  match addCount64 ppu.totalDots 1 with
  | .ok total => .ok () { ppu with totalDots := total }
  | .error fault => .error fault ppu

/-- One dot. -/
def tick (memory : PictureMemory) (board : Board) : Action Unit := do
  match (← get).phase with
  | .preRender => modify preRenderDot
  | .render => renderDot memory board
  | .postRender => postRenderDot
  | .verticalBlank => verticalBlankDot
  countDot

/-- Takes the pending frame interrupt, if there is one. -/
def takeInterrupt (ppu : Ppu) : Bool × Ppu :=
  (ppu.interruptPending, { ppu with interruptPending := false })

end Famicom.Ppu
