import Famicom.Cpu.Core

/-!
# Operands

Where an instruction finds its operand, with the program counter at the first byte behind the
opcode.
-/

namespace Famicom.Cpu

structure Operand where
  address : UInt16
  /-- Whether indexing left the page of the base address. -/
  crossed : Bool

def samePage (a b : UInt16) : Bool := a / 0x100 == b / 0x100

def signExtend (offset : UInt8) : UInt16 :=
  if offset < 0x80 then offset.toUInt16 else offset.toUInt16 + 0xFF00

def indexed (base : UInt16) (index : UInt8) : Operand :=
  let address := base + index.toUInt16
  ⟨address, !samePage base address⟩

variable {β : Type} [Bus β]

/-- A pointer in the zero page wraps there. -/
def readZeroPageWord (pointer : UInt8) : Action β UInt16 := do
  let low ← read pointer.toUInt16
  let high ← read (pointer + 1).toUInt16
  return word low high

def locate (mode : Mode) : Action β Operand := do
  let pc ← getCpu Cpu.pc
  match mode with
  | .implied | .accumulator => return ⟨0, false⟩
  | .immediate => return ⟨pc, false⟩
  | .zeroPage => return ⟨(← read pc).toUInt16, false⟩
  | .zeroPageX =>
    let base ← read pc
    return ⟨(base + (← getCpu Cpu.x)).toUInt16, false⟩
  | .zeroPageY =>
    let base ← read pc
    return ⟨(base + (← getCpu Cpu.y)).toUInt16, false⟩
  | .absolute => return ⟨← readWord pc, false⟩
  | .absoluteX =>
    let base ← readWord pc
    return indexed base (← getCpu Cpu.x)
  | .absoluteY =>
    let base ← readWord pc
    return indexed base (← getCpu Cpu.y)
  | .indexedIndirect =>
    let base ← read pc
    return ⟨← readZeroPageWord (base + (← getCpu Cpu.x)), false⟩
  | .indirectIndexed =>
    let base ← readZeroPageWord (← read pc)
    return indexed base (← getCpu Cpu.y)
  | .indirect =>
    -- The high byte comes from the same page, so a pointer at its end wraps to its start.
    let pointer ← readWord pc
    let low ← read pointer
    let high ← read ((pointer &&& 0xFF00) ||| ((pointer + 1) &&& 0x00FF))
    return ⟨word low high, false⟩
  | .relative =>
    -- A branch counts from the instruction behind it.
    let offset ← read pc
    let next := pc + 1
    let target := next + signExtend offset
    return ⟨target, !samePage next target⟩

end Famicom.Cpu
