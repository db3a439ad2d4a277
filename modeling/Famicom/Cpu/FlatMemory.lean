import Famicom.Cpu.Core

/-!
# Flat memory

64 KiB of RAM for a processor without a console, and a bus that records what passes over it.
-/

namespace Famicom.Cpu

structure FlatMemory where
  bytes : Vector UInt8 0x10000
  transferRequested : Bool := false

namespace FlatMemory

def fetch (memory : FlatMemory) (address : UInt16) : UInt8 :=
  have := address.toNat_lt
  memory.bytes[address.toNat]

def poke (memory : FlatMemory) (address : UInt16) (value : UInt8) : FlatMemory :=
  have := address.toNat_lt
  match memory with
  | ⟨bytes, requested⟩ => ⟨bytes.set address.toNat value, requested⟩

/-- Where a write starts a sprite transfer. -/
def transferRegister : UInt16 := 0x4014

end FlatMemory

instance : Bus FlatMemory where
  read address memory := .ok (memory.fetch address) memory
  write address value memory :=
    let memory := memory.poke address value
    .ok () { memory with
      transferRequested := memory.transferRequested || address == FlatMemory.transferRegister }
  takeTransfer memory := (memory.transferRequested, { memory with transferRequested := false })

/-- One access of a processor. -/
structure Access where
  isWrite : Bool
  address : UInt16
  value : UInt8
deriving DecidableEq, Repr

/-- A bus that keeps the accesses that it answered, oldest first. -/
structure Recorded (β : Type) where
  bus : β
  accesses : Array Access := #[]

instance {β : Type} [Bus β] : Bus (Recorded β) where
  read address := fun ⟨bus, accesses⟩ =>
    match Bus.read address bus with
    | .ok value bus => .ok value ⟨bus, accesses.push ⟨false, address, value⟩⟩
    | .error fault bus => .error fault ⟨bus, accesses⟩
  write address value := fun ⟨bus, accesses⟩ =>
    match Bus.write address value bus with
    | .ok () bus => .ok () ⟨bus, accesses.push ⟨true, address, value⟩⟩
    | .error fault bus => .error fault ⟨bus, accesses⟩
  takeTransfer := fun ⟨bus, accesses⟩ =>
    match Bus.takeTransfer bus with
    | (started, bus) => (started, ⟨bus, accesses⟩)

end Famicom.Cpu
