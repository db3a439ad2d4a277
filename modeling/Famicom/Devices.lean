import Famicom.Cpu.Core
import Famicom.Joypad
import Famicom.MainMemory
import Famicom.Ppu.Access

/-!
# Devices

Everything behind the processor: main memory with its registers served by the picture unit and the
controllers, and the board that answers for the program.
-/

namespace Famicom

structure Devices where
  memory : MainMemory
  picture : PictureMemory
  board : Board
  ppu : Ppu
  pads : Joypads
  /-- Set by the write that starts a sprite transfer, until the processor takes note. -/
  transferRequested : Bool

namespace Devices

abbrev Action (α : Type) := EStateM Fault Devices α

/-- A socket without a controller reads as zero. -/
def readPad (pads : Joypads) : Nat → UInt8 × Joypads
  | 0 => match pads.first.read with
    | (value, pad) => (value, { pads with first := pad })
  | 1 => match pads.second.read with
    | (value, pad) => (value, { pads with second := pad })
  | _ => (0, pads)

/-- Both controllers hang on one strobe line. -/
def strobe (pads : Joypads) (value : UInt8) : Joypads :=
  ⟨pads.first.write value, pads.second.write value⟩

def readHandler (handler : ReadHandler) : Action UInt8
  | ⟨memory, picture, board, ppu, pads, requested⟩ =>
    match handler with
    | .pictureStatus =>
      match ppu.readStatus with
      | (value, ppu) => .ok value ⟨memory, picture, board, ppu, pads, requested⟩
    | .pictureData =>
      match ppu.readData picture board with
      | .ok (value, ppu) => .ok value ⟨memory, picture, board, ppu, pads, requested⟩
      | .error fault => .error fault ⟨memory, picture, board, ppu, pads, requested⟩
    | .oamData => .ok ppu.readOam ⟨memory, picture, board, ppu, pads, requested⟩
    | .controller socket =>
      match readPad pads socket with
      | (value, pads) => .ok value ⟨memory, picture, board, ppu, pads, requested⟩

@[inline] def modifyPpu (f : Ppu → Ppu) : Action Unit
  | ⟨memory, picture, board, ppu, pads, requested⟩ =>
    .ok () ⟨memory, picture, board, f ppu, pads, requested⟩

/-- Writes below the address of the picture unit and steps it. -/
def writePictureData (value : UInt8) : Action Unit
  | ⟨memory, picture, board, ppu, pads, requested⟩ =>
    match picture.write board ppu.address value with
    | .ok (picture, board) =>
      .ok () ⟨memory, picture, board, ppu.stepAddress, pads, requested⟩
    | .error fault => .error fault ⟨memory, picture, board, ppu, pads, requested⟩

/-- Pages outside RAM transfer nothing, but the processor waits all the same. -/
def startTransfer (page : UInt8) : Action Unit
  | ⟨memory, picture, board, ppu, pads, requested⟩ =>
    match memory.page? page with
    | .ok (some bytes) => .ok () ⟨memory, picture, board, ppu.transfer bytes, pads, true⟩
    | .ok none => .ok () ⟨memory, picture, board, ppu, pads, true⟩
    | .error fault => .error fault ⟨memory, picture, board, ppu, pads, requested⟩

def writeHandler (handler : WriteHandler) (value : UInt8) : Action Unit :=
  match handler with
  | .pictureControl => modifyPpu fun ppu => ppu.writeControl value
  | .pictureMask => modifyPpu fun ppu => ppu.writeMask value
  | .oamAddress => modifyPpu fun ppu => ppu.writeOamAddress value
  | .oamData => modifyPpu fun ppu => ppu.writeOam value
  | .pictureScroll => modifyPpu fun ppu => ppu.writeScroll value
  | .pictureAddress => modifyPpu fun ppu => ppu.writeAddress value
  | .pictureData => writePictureData value
  | .transfer => startTransfer value
  | .strobe => modify fun d => { d with pads := strobe d.pads value }

def read (address : UInt16) : Action UInt8 := fun d =>
  match d.memory.source address with
  | .ok (.value value) => .ok value d
  | .ok (.program address) =>
    match d.board.readProgram address with
    | .ok value => .ok value d
    | .error fault => .error fault d
  | .ok (.handler handler) => readHandler handler d
  | .error fault => .error fault d

@[inline] def modifyMemory (f : MainMemory → Except Fault MainMemory) : Action Unit
  | ⟨memory, picture, board, ppu, pads, requested⟩ =>
    match f memory with
    | .ok memory => .ok () ⟨memory, picture, board, ppu, pads, requested⟩
    | .error fault => .error fault ⟨memory, picture, board, ppu, pads, requested⟩

def write (address : UInt16) (value : UInt8) : Action Unit := fun d =>
  match d.memory.sink address with
  | .ram cell => modifyMemory (fun memory => .ok (memory.storeRam cell value)) d
  | .extendedRam cell => modifyMemory (fun memory => memory.storeExtended cell value) d
  | .program => .ok () { d with board := d.board.writeProgram value }
  | .handler handler => writeHandler handler value d
  | .nowhere => .ok () d

def takeTransfer (d : Devices) : Bool × Devices :=
  (d.transferRequested, { d with transferRequested := false })

end Devices

instance : Cpu.Bus Devices where
  read := Devices.read
  write := Devices.write
  takeTransfer := Devices.takeTransfer

end Famicom
