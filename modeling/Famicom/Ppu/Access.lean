import Famicom.Ppu.Basic
import Famicom.PictureMemory

/-!
# Register access

What the eight registers of the picture unit do when the processor reads or writes them.
-/

namespace Famicom.Ppu

/-- Also selects the name table of the next frame. -/
def writeControl (ppu : Ppu) (value : UInt8) : Ppu :=
  let control : Control := ⟨value⟩
  { ppu with
    control := control
    nextAddress := (ppu.nextAddress &&& ~~~0x0C00) ||| control.baseTable * 0x400 }

def writeMask (ppu : Ppu) (value : UInt8) : Ppu := { ppu with mask := ⟨value⟩ }

/-- Reading the status ends the vertical blank for the program and starts a new pair of writes. -/
def readStatus (ppu : Ppu) : UInt8 × Ppu :=
  (ppu.status.toByte,
    { ppu with status := { ppu.status with vblank := false }, firstWrite := true })

def writeOamAddress (ppu : Ppu) (value : UInt8) : Ppu := { ppu with oamAddress := value }

def readOam (ppu : Ppu) : UInt8 :=
  have := ppu.oamAddress.toNat_lt
  ppu.oam[ppu.oamAddress.toNat]

def writeOam (ppu : Ppu) (value : UInt8) : Ppu :=
  have := ppu.oamAddress.toNat_lt
  { ppu with
    oam := ppu.oam.set ppu.oamAddress.toNat value
    oamAddress := ppu.oamAddress + 1 }

/-- The first write of a pair is the column, the second the row. -/
def writeScroll (ppu : Ppu) (value : UInt8) : Ppu :=
  if ppu.firstWrite then
    { ppu with
      nextAddress := (ppu.nextAddress &&& ~~~0x001F) ||| (value / 8).toUInt16
      fineX := value &&& 0x07
      firstWrite := false }
  else
    { ppu with
      nextAddress := (ppu.nextAddress &&& ~~~0x73E0) ||| (value &&& 0x07).toUInt16 * 0x1000 |||
        (value &&& 0xF8).toUInt16 * 4
      firstWrite := true }

/-- The first write of a pair is the high byte; the second completes the address. -/
def writeAddress (ppu : Ppu) (value : UInt8) : Ppu :=
  if ppu.firstWrite then
    { ppu with
      nextAddress := (ppu.nextAddress &&& 0x00FF) ||| (value &&& 0x3F).toUInt16 * 0x100
      firstWrite := false }
  else
    let address := (ppu.nextAddress &&& 0xFF00) ||| value.toUInt16
    { ppu with address := address, nextAddress := address, firstWrite := true }

def stepAddress (ppu : Ppu) : Ppu :=
  { ppu with address := (ppu.address + ppu.control.addressStep) &&& 0x7FFF }

/-- Below the palette a read answers what the read before it fetched. -/
def readData (ppu : Ppu) (memory : PictureMemory) (board : Board) : Except Fault (UInt8 × Ppu) := do
  let address := ppu.address &&& 0x3FFF
  let data ← memory.read board address
  if address < 0x3F00 then
    return (ppu.readBuffer, { ppu with readBuffer := data }.stepAddress)
  else
    return (data, ppu.stepAddress)

/-- Copies a page into sprite memory, from the sprite address on and around its end. -/
def transfer (ppu : Ppu) (page : Array UInt8) : Ppu :=
  if h : page.size = 256 then
    let start := ppu.oamAddress.toNat
    { ppu with oam := Vector.ofFn fun i => page[(i.val + 256 - start) % 256] }
  else
    ppu

end Famicom.Ppu
