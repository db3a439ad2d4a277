import Famicom.Fault
import Famicom.Trace

/-!
# A processor at work

A core is a processor, the bus it works on and the log of what it did. Its actions keep the state
that they reached when they fault.
-/

namespace Famicom.Cpu

/-- What the processor asks of the memory behind it. -/
class Bus (β : Type) where
  read : UInt16 → EStateM Fault β UInt8
  write : UInt16 → UInt8 → EStateM Fault β Unit
  /-- Whether a write since the last call started a sprite transfer. -/
  takeTransfer : β → Bool × β

structure Core (β : Type) where
  cpu : Cpu
  bus : β
  trace : Trace

abbrev Action (β α : Type) := EStateM Fault (Core β) α

variable {β α : Type}

@[inline] def getCpu (f : Cpu → α) : Action β α := fun core => .ok (f core.cpu) core

@[inline] def modifyCpu (f : Cpu → Cpu) : Action β Unit
  | ⟨cpu, bus, trace⟩ => .ok () ⟨f cpu, bus, trace⟩

/-- Changes a counter of the processor, unless it is full. -/
@[inline] def tryCpu (f : Cpu → Except Fault Cpu) : Action β Unit
  | ⟨cpu, bus, trace⟩ =>
    match f cpu with
    | .ok cpu => .ok () ⟨cpu, bus, trace⟩
    | .error fault => .error fault ⟨cpu, bus, trace⟩

@[inline] def onBus (action : EStateM Fault β α) : Action β α
  | ⟨cpu, bus, trace⟩ =>
    match action bus with
    | .ok value bus => .ok value ⟨cpu, bus, trace⟩
    | .error fault bus => .error fault ⟨cpu, bus, trace⟩

def note (event : Event) : Action β Unit
  | ⟨cpu, bus, trace⟩ => .ok () ⟨cpu, bus, trace.push event⟩

variable [Bus β]

@[inline] def read (address : UInt16) : Action β UInt8 := onBus (Bus.read address)

@[inline] def write (address : UInt16) (value : UInt8) : Action β Unit :=
  onBus (Bus.write address value)

@[inline] def takeTransfer : Action β Bool
  | ⟨cpu, bus, trace⟩ =>
    match Bus.takeTransfer bus with
    | (started, bus) => .ok started ⟨cpu, bus, trace⟩

def word (low high : UInt8) : UInt16 := high.toUInt16 * 0x100 + low.toUInt16

/-- A word lies in memory with its low byte first. -/
def readWord (address : UInt16) : Action β UInt16 := do
  let low ← read address
  let high ← read (address + 1)
  return word low high

/-- The stack grows downwards in page 1 and wraps there. -/
def push (value : UInt8) : Action β Unit := do
  write (stackStart + (← getCpu Cpu.sp).toUInt16) value
  modifyCpu fun cpu => { cpu with sp := cpu.sp - 1 }

def pushWord (value : UInt16) : Action β Unit := do
  push (value >>> 8).toUInt8
  push value.toUInt8

def pop : Action β UInt8 := do
  modifyCpu fun cpu => { cpu with sp := cpu.sp + 1 }
  read (stackStart + (← getCpu Cpu.sp).toUInt16)

def popWord : Action β UInt16 := do
  let low ← pop
  let high ← pop
  return word low high

end Famicom.Cpu
