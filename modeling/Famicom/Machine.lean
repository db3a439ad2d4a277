import Famicom.Cpu.Execute
import Famicom.Devices
import Famicom.Ppu.Dot
import Famicom.Ppu.State

/-!
# Machine

A processor with all devices behind it, in lockstep: three dots before each processor cycle.
-/

namespace Famicom

abbrev Machine := Cpu.Core Devices

namespace Machine

/-- The processor cycles of a frame. -/
def cyclesPerFrame : Nat := 29781

def dotsPerCycle : Nat := 3

abbrev Action (α : Type) := EStateM Fault Machine α

/-- A machine that was never reset. -/
def assemble (board : Board) (variant : Ppu.Variant) : Machine where
  cpu := .powerOn
  bus := {
    memory := (MainMemory.fresh.fitExtendedRam board.extendedRam).wire
    picture := PictureMemory.fresh.setMirroring board.mirroring
    board := board
    ppu := .powerOn variant
    pads := {}
    transferRequested := false }
  trace := .fresh

/-- One dot of the picture unit. -/
def dot : Action Unit
  | ⟨cpu, ⟨memory, picture, board, ppu, pads, requested⟩, trace⟩ =>
    let trace := if ppu.raisesInterrupt then trace.push .frameInterrupt else trace
    match ppu.tick picture board with
    | .ok _ ppu => .ok () ⟨cpu, ⟨memory, picture, board, ppu, pads, requested⟩, trace⟩
    | .error fault ppu => .error fault ⟨cpu, ⟨memory, picture, board, ppu, pads, requested⟩, trace⟩

/-- Whether a frame interrupt waits; it is taken. -/
def takeInterrupt : Action Bool
  | ⟨cpu, ⟨memory, picture, board, ppu, pads, requested⟩, trace⟩ =>
    match ppu.takeInterrupt with
    | (pending, ppu) => .ok pending ⟨cpu, ⟨memory, picture, board, ppu, pads, requested⟩, trace⟩

/-- Runs an action a number of times. -/
def repeated (action : Action Unit) : Nat → Action Unit
  | 0 => pure ()
  | n + 1 => do
    action
    repeated action n

/-- One processor cycle with the dots before it. -/
def tick : Action Unit := do
  repeated dot dotsPerCycle
  if ← takeInterrupt then
    Cpu.interrupt .nmi
  Cpu.cycle

/-- One frame of processor cycles. -/
def frame : Action Unit := repeated tick cyclesPerFrame

open Codec

def memoryLayout : Layout Machine :=
  MainMemory.layout.within (fun m => some m.bus.memory) fun change m =>
    { m with bus.memory := change m.bus.memory }

def pictureLayout : Layout Machine :=
  PictureMemory.layout.within (fun m => some m.bus.picture) fun change m =>
    { m with bus.picture := change m.bus.picture }

def cpuLayout : Layout Machine :=
  Cpu.layout.within (fun m => some m.cpu) fun change m => { m with cpu := change m.cpu }

def ppuLayout : Layout Machine :=
  Ppu.layout.within (fun m => some m.bus.ppu) fun change m =>
    { m with bus.ppu := change m.bus.ppu }

def boardLayout (board : Board) : Layout Machine :=
  board.layout.within (fun m => some m.bus.board) fun change m =>
    { m with bus.board := change m.bus.board }

/-- Main memory, picture memory, processor, picture unit and board, in this order. -/
def layout (machine : Machine) : Layout Machine :=
  memoryLayout ++ pictureLayout ++ cpuLayout ++ ppuLayout ++ boardLayout machine.bus.board

end Machine

end Famicom
