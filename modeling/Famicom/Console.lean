import Famicom.Cartridge.Image
import Famicom.Machine

/-!
# Console

A machine with a cartridge, which can be reset, run by frames, saved and loaded.
-/

namespace Famicom

/-- What a saved state keeps. The controllers belong to the host and are not part of it. -/
structure Snapshot where
  memory : MainMemory
  picture : PictureMemory
  cpu : Cpu
  ppu : Ppu
  board : Board

structure Console where
  cartridge : Cartridge
  machine : Machine
  backup : Option Snapshot

/-- Why a console could not be built. -/
inductive StartError
  | image (cause : ImageError)
  | unsupportedBoard (number : UInt8)
  | fault (cause : Fault)
deriving DecidableEq, Repr

/-- The outermost cause first. -/
def StartError.causes : StartError → List String
  | image cause => [s!"Invalid cartridge: {cause.message}", cause.message]
  | unsupportedBoard number => [s!"Unsupported Mapper: {number}"]
  | fault cause => [cause.message]

namespace Console

abbrev Action (α : Type) := EStateM Fault Console α

@[inline] def onMachine {α : Type} (action : Machine.Action α) : Action α
  | ⟨cartridge, machine, backup⟩ =>
    match action machine with
    | .ok value machine => .ok value ⟨cartridge, machine, backup⟩
    | .error fault machine => .error fault ⟨cartridge, machine, backup⟩

def resetPpu : Machine.Action Unit :=
  modify fun m => { m with bus.ppu := m.bus.ppu.reset }

/-- Power-on state of the processor and the picture unit. Memory and the cartridge stay. -/
def reset : Action Unit := onMachine do
  Cpu.reset
  resetPpu

/-- Inserts a cartridge and powers the console on. -/
def insert (cartridge : Cartridge) (variant : Ppu.Variant) : Except StartError Console :=
  match Board.ofCartridge? cartridge with
  | none => .error (.unsupportedBoard cartridge.board)
  | some board =>
    match reset ⟨cartridge, Machine.assemble board variant, none⟩ with
    | .ok () console => .ok console
    | .error fault _ => .error (.fault fault)

def ofImage (raw : ByteArray) (headless : Bool) : Except StartError Console :=
  match Cartridge.ofImage raw with
  | .ok cartridge => insert cartridge (.ofHeadless headless)
  | .error cause => .error (.image cause)

def frame : Action Unit := onMachine Machine.frame

def wire (console : Console) : Console :=
  { console with machine.bus.memory := console.machine.bus.memory.wire }

/-- Fits main memory to the board and binds all registers, as it must be after a change of state. -/
def rewire (console : Console) : Console :=
  let bus := console.machine.bus
  { console with
    machine.bus.memory := (bus.memory.fitExtendedRam bus.board.extendedRam).wire }

def save (console : Console) : Snapshot :=
  let machine := console.machine
  ⟨machine.bus.memory, machine.bus.picture, machine.cpu, machine.bus.ppu, machine.bus.board⟩

def load (console : Console) (state : Snapshot) : Console :=
  let machine := console.machine
  rewire { console with machine := { machine with
    cpu := state.cpu
    bus := { machine.bus with
      memory := state.memory
      picture := state.picture
      ppu := machine.bus.ppu.copyFrom state.ppu
      board := state.board } } }

/-- Keeps one snapshot, in place of any earlier one. -/
def backUp (console : Console) : Console := { console with backup := some console.save }

/-- Goes back to the snapshot, which is kept. -/
def restore (console : Console) : Console :=
  match console.backup with
  | some state => console.load state
  | none => console

/-- The whole state as bytes. -/
def encode (console : Console) : List UInt8 := console.machine.layout.encode console.machine

/-- Loads a state from the front of a buffer and answers what follows it. -/
def decode (buffer : List UInt8) : EStateM DecodeError Console (List UInt8) := fun console =>
  match console.machine.layout.load buffer console.machine with
  | .ok rest machine => .ok rest (rewire { console with machine := machine })
  | .error cause machine => .error cause { console with machine := machine }

/-- A write of the host into internal RAM. -/
def poke (console : Console) (cell : Fin 0x800) (value : UInt8) : Console :=
  match console with
  | ⟨cartridge, ⟨cpu, ⟨memory, picture, board, ppu, pads, requested⟩, trace⟩, backup⟩ =>
    ⟨cartridge, ⟨cpu, ⟨memory.storeRam cell value, picture, board, ppu, pads, requested⟩, trace⟩,
      backup⟩

/-- Sets the buttons of a controller, if the socket has one. -/
def press? (console : Console) (socket : Nat) (buttons : UInt8) : Option Console :=
  match socket with
  | 0 => some { console with machine.bus.pads.first.buttons := buttons }
  | 1 => some { console with machine.bus.pads.second.buttons := buttons }
  | _ => none

/-- The buttons of a controller. -/
def buttons? (console : Console) (socket : Nat) : Option UInt8 :=
  match socket with
  | 0 => some console.machine.bus.pads.first.buttons
  | 1 => some console.machine.bus.pads.second.buttons
  | _ => none

end Console

end Famicom
