import Famicom.Codec.Layout
import Famicom.Cpu.Opcode

/-!
# Processor registers

The registers of the processor and what it still owes for the last instruction. An instruction takes
effect at once, on the first cycle it is due; the cycles it costs are then waited out in `pending`.
-/

namespace Famicom

structure Cpu where
  a : UInt8
  x : UInt8
  y : UInt8
  sp : UInt8
  status : Cpu.Status
  pc : UInt16
  /-- The cycles still owed: the next instruction starts on the last of them. -/
  pending : UInt32
  /-- The cycles since the last reset. -/
  cycles : UInt64
deriving DecidableEq, Repr

namespace Cpu

def stackStart : UInt16 := 0x0100
def stackReset : UInt8 := 0xFD
def resetVector : UInt16 := 0xFFFC

/-- A sprite transfer halts the processor this long, and one cycle more when it starts on an odd
cycle. -/
def transferCycles : UInt32 := 513

def powerOn : Cpu where
  a := 0
  x := 0
  y := 0
  sp := stackReset
  status := .powerOn
  pc := 0
  pending := 0
  cycles := 0

def register (cpu : Cpu) : Register → UInt8
  | .a => cpu.a
  | .x => cpu.x
  | .y => cpu.y

def describe (cpu : Cpu) (result : UInt8) : Cpu :=
  { cpu with status := cpu.status.describe result }

/-- Loading a register sets the flags that describe its value. -/
def setRegister (cpu : Cpu) (value : UInt8) : Register → Cpu
  | .a => { cpu with a := value, status := cpu.status.describe value }
  | .x => { cpu with x := value, status := cpu.status.describe value }
  | .y => { cpu with y := value, status := cpu.status.describe value }

def setA (cpu : Cpu) (value : UInt8) : Cpu := cpu.setRegister value .a

/-- Only a transfer to the stack pointer leaves the flags alone. -/
def transfer (cpu : Cpu) : Transfer → Cpu
  | .tax => cpu.setRegister cpu.a .x
  | .tay => cpu.setRegister cpu.a .y
  | .tsx => cpu.setRegister cpu.sp .x
  | .txa => cpu.setRegister cpu.x .a
  | .txs => { cpu with sp := cpu.x }
  | .tya => cpu.setRegister cpu.y .a

/-- Carry is the unsigned comparison; the other flags describe the difference. -/
def compare (cpu : Cpu) (r : Register) (value : UInt8) : Cpu :=
  let held := cpu.register r
  { cpu with status := { cpu.status.describe (held - value) with carry := value ≤ held } }

/-- Adds with carry. Overflow means that the operands share a sign that the sum has not. -/
def addWithCarry (cpu : Cpu) (value : UInt8) : Cpu :=
  let sum := cpu.a.toUInt16 + value.toUInt16 + (if cpu.status.carry then 1 else 0)
  let result := sum.toUInt8
  { cpu with
    a := result
    status := { cpu.status.describe result with
      overflow := (cpu.a ^^^ result) &&& 0x80 != 0 && (cpu.a ^^^ value) &&& 0x80 == 0
      carry := sum > 0xFF } }

/-- Subtraction adds the complement. -/
def combine (cpu : Cpu) (f : Alu) (value : UInt8) : Cpu :=
  match f with
  | .ora => cpu.setA (cpu.a ||| value)
  | .and => cpu.setA (cpu.a &&& value)
  | .eor => cpu.setA (cpu.a ^^^ value)
  | .adc => cpu.addWithCarry value
  | .sbc => cpu.addWithCarry (~~~value)
  | .cmp => cpu.compare .a value

/-- The new byte and the status with the bit that left in the carry. -/
def Update.apply (f : Update) (status : Status) (value : UInt8) : UInt8 × Status :=
  match f with
  | .asl => (value <<< 1, { status with carry := value &&& 0x80 != 0 })
  | .lsr => (value >>> 1, { status with carry := value &&& 0x01 != 0 })
  | .rol =>
    (value <<< 1 ||| (if status.carry then 0x01 else 0),
      { status with carry := value &&& 0x80 != 0 })
  | .ror =>
    (value >>> 1 ||| (if status.carry then 0x80 else 0),
      { status with carry := value &&& 0x01 != 0 })
  | .inc => (value + 1, status)
  | .dec => (value - 1, status)

/-- Tests a byte of memory against the accumulator without keeping the result. -/
def testBits (cpu : Cpu) (value : UInt8) : Cpu :=
  { cpu with status := { cpu.status with
      zero := cpu.a &&& value == 0
      overflow := value &&& 0x40 != 0
      negative := value &&& 0x80 != 0 } }

/-- ANC: AND, with the sign copied to the carry. -/
def andCopySign (cpu : Cpu) (value : UInt8) : Cpu :=
  let cpu := cpu.setA (cpu.a &&& value)
  { cpu with status := { cpu.status with carry := cpu.a &&& 0x80 != 0 } }

/-- ALR: AND, then a shift to the right. -/
def andShiftRight (cpu : Cpu) (value : UInt8) : Cpu :=
  let both := cpu.a &&& value
  let cpu := cpu.setA (both >>> 1)
  { cpu with status := { cpu.status with carry := both &&& 0x01 != 0 } }

/-- ARR: AND, then a rotation to the right; carry is bit 6, and overflow is whether bits 6 and 5
differ. -/
def andRotateRight (cpu : Cpu) (value : UInt8) : Cpu :=
  let both := cpu.a &&& value
  let result := both >>> 1 ||| (if cpu.status.carry then 0x80 else 0)
  let cpu := cpu.setA result
  { cpu with status := { cpu.status with
      carry := result &&& 0x40 != 0
      overflow := (result &&& 0x40 != 0) != (result &&& 0x20 != 0) } }

/-- SBX: X becomes the difference of A AND X and the operand, with the flags of a comparison. -/
def subtractFromBoth (cpu : Cpu) (value : UInt8) : Cpu :=
  let both := cpu.a &&& cpu.x
  let cpu := cpu.setRegister (both - value) .x
  { cpu with status := { cpu.status with carry := value ≤ both } }

open Codec

/-- How the processor lies in a state buffer. -/
def layout : Layout Cpu := [
  .of .u16 pc fun v s => { s with pc := v },
  .of .u8 sp fun v s => { s with sp := v },
  .of .u8 a fun v s => { s with a := v },
  .of .u8 x fun v s => { s with x := v },
  .of .u8 y fun v s => { s with y := v },
  .of .u8 (fun s => s.status.toByte) fun v s => { s with status := .ofByte v },
  .of .u32 pending fun v s => { s with pending := v },
  .of .u64 cycles fun v s => { s with cycles := v }]

end Cpu

/-- What makes the processor leave its program. -/
inductive Interrupt
  | nmi
  | irq
  | brk
deriving DecidableEq, Repr

namespace Interrupt

def name : Interrupt → String
  | nmi => "Nmi"
  | irq => "Irq"
  | brk => "Brk"

/-- Where the address of the handler stands. Software breaks share the vector of the IRQ. -/
def vector : Interrupt → UInt16
  | nmi => 0xFFFA
  | irq | brk => 0xFFFE

/-- The bits forced on in the pushed status; bit 4 marks a software break. -/
def pushedBits : Interrupt → UInt8
  | nmi | irq => 0x20
  | brk => 0x30

def cycles : Interrupt → UInt32
  | _ => 7

def isMaskable : Interrupt → Bool
  | irq => true
  | nmi | brk => false

end Interrupt

end Famicom
