import Famicom.Cpu.Matrix
import Famicom.Cpu.Operand

/-!
# Execution

The effect of one instruction, of an interrupt, of a reset and of a single cycle.
-/

namespace Famicom.Cpu

variable {β : Type} [Bus β]

/-- How an instruction ends: before the next one, or where it jumped. Both may cost extra cycles. -/
inductive Ending
  | next (extra : UInt32)
  | jumped (extra : UInt32)
deriving DecidableEq, Repr

def charge (crossed : Bool) : UInt32 := if crossed then 1 else 0

/-- Reads the operand; a crossed page costs a cycle. -/
def readOperand (mode : Mode) : Action β (UInt8 × UInt32) := do
  let operand ← locate mode
  let value ← read operand.address
  return (value, charge operand.crossed)

/-- An instruction that only reads its operand. -/
def consume (mode : Mode) (f : Cpu → UInt8 → Cpu) : Action β Ending := do
  let (value, extra) ← readOperand mode
  modifyCpu fun cpu => f cpu value
  return .next extra

/-- An instruction that only writes its operand pays no crossed page. -/
def store (mode : Mode) (f : Cpu → UInt8) : Action β Ending := do
  let operand ← locate mode
  write operand.address (← getCpu f)
  return .next 0

/-- Updates the accumulator or a byte of memory and answers the result. -/
def update (mode : Mode) (f : Update) : Action β UInt8 := do
  if mode = .accumulator then
    let (result, status) := f.apply (← getCpu Cpu.status) (← getCpu Cpu.a)
    modifyCpu fun cpu => { cpu with status := status }.setA result
    return result
  else
    let operand ← locate mode
    let value ← read operand.address
    let (result, status) := f.apply (← getCpu Cpu.status) value
    modifyCpu fun cpu => { cpu with status := status }
    write operand.address result
    modifyCpu fun cpu => cpu.describe result
    return result

def jump (address : UInt16) : Action β Unit := modifyCpu fun cpu => { cpu with pc := address }

def pullStatus : Action β Unit := do
  let value ← pop
  modifyCpu fun cpu => { cpu with status := .pulled value }

/-- Saves the program counter and the status and goes to the handler. -/
def enter (kind : Interrupt) : Action β Unit := do
  pushWord (← getCpu Cpu.pc)
  push ((← getCpu Cpu.status).toByte ||| kind.pushedBits)
  modifyCpu fun cpu => { cpu with status := { cpu.status with interruptDisable := true } }
  jump (← readWord kind.vector)

def advance (bytes : UInt16) : Action β Unit :=
  modifyCpu fun cpu => { cpu with pc := cpu.pc + bytes }

def finish (change : Cpu → Cpu) : Action β Ending := do
  modifyCpu change
  return .next 0

/-- Performs an operation, with the program counter behind the opcode. -/
def perform (mode : Mode) : Operation → Action β Ending
  | .brk => do
    -- The byte behind the opcode is padding.
    advance 1
    enter .brk
    return .jumped 0
  | .nop =>
    match mode with
    | .implied => return .next 0
    | _ => consume mode fun cpu _ => cpu
  | .jmp => do
    jump (← locate mode).address
    return .jumped 0
  | .jsr => do
    -- The last byte of the instruction is saved.
    let target ← locate mode
    pushWord ((← getCpu Cpu.pc) + 1)
    jump target.address
    return .jumped 0
  | .rts => do
    jump ((← popWord) + 1)
    return .jumped 0
  | .rti => do
    pullStatus
    jump (← popWord)
    return .jumped 0
  | .transfer t => finish fun cpu => cpu.transfer t
  | .setFlag flag value => finish fun cpu => { cpu with status := cpu.status.set value flag }
  | .branch flag wanted => do
    let target ← locate mode
    if (← getCpu Cpu.status).get flag == wanted then
      jump target.address
      return .jumped (1 + charge target.crossed)
    else
      return .next 0
  | .increment r => finish fun cpu => cpu.setRegister (cpu.register r + 1) r
  | .decrement r => finish fun cpu => cpu.setRegister (cpu.register r - 1) r
  | .pha => do
    push (← getCpu Cpu.a)
    return .next 0
  | .pla => do
    let value ← pop
    finish fun cpu => cpu.setA value
  | .php => do
    push ((← getCpu Cpu.status).toByte ||| Interrupt.brk.pushedBits)
    return .next 0
  | .plp => do
    pullStatus
    return .next 0
  | .bit => do
    let (value, _) ← readOperand mode
    finish fun cpu => cpu.testBits value
  | .load r => consume mode fun cpu value => cpu.setRegister value r
  | .store r => store mode fun cpu => cpu.register r
  | .update f => do
    let _ ← update mode f
    return .next 0
  | .alu f => consume mode fun cpu value => cpu.combine f value
  | .compare r => consume mode fun cpu value => cpu.compare r value
  | .combined f => do
    let value ← update mode f.update
    finish fun cpu => cpu.combine f.alu value
  | .lax => consume mode fun cpu value => (cpu.setA value).setRegister value .x
  | .sax => store mode fun cpu => cpu.a &&& cpu.x
  | .anc => consume mode andCopySign
  | .alr => consume mode andShiftRight
  | .arr => consume mode andRotateRight
  | .sbx => consume mode subtractFromBoth

/-- Owes more cycles. -/
def owe (cycles : UInt32) : Action β Unit :=
  tryCpu fun cpu => return { cpu with pending := ← addCount32 cpu.pending cycles }

/-- Waits for a sprite transfer. -/
def stall : Action β Unit := do
  let odd := (← getCpu Cpu.cycles) &&& 1
  owe (transferCycles + odd.toUInt32)

/-- Runs the instruction at the program counter. An opcode that means nothing is skipped in two
cycles and leaves no trace. -/
def step : Action β Unit := do
  let code ← read (← getCpu Cpu.pc)
  match decode? code with
  | none =>
    advance 1
    owe 2
  | some opcode =>
    note (.instruction (← getCpu id) opcode)
    advance 1
    match ← perform opcode.mode opcode.operation with
    | .next extra =>
      advance (opcode.size - 1).toUInt16
      owe (opcode.cycles + extra)
    | .jumped extra => owe (opcode.cycles + extra)
    if ← takeTransfer then
      stall

/-- One processor cycle: waits while cycles are owed, then runs an instruction. -/
def cycle : Action β Unit := do
  tryCpu fun cpu => return { cpu with cycles := ← addCount64 cpu.cycles 1 }
  if (← getCpu Cpu.pending) > 1 then
    modifyCpu fun cpu => { cpu with pending := cpu.pending - 1 }
  else
    modifyCpu fun cpu => { cpu with pending := 0 }
    step

/-- Serves an interrupt, unless it is masked. A requested break returns behind its padding byte. -/
def interrupt (kind : Interrupt) : Action β Unit := do
  unless kind.isMaskable && (← getCpu Cpu.status).interruptDisable do
    if kind = .brk then
      advance 1
    note (.interrupt kind)
    enter kind
    owe kind.cycles

/-- Power-on state, with the program counter taken from the reset vector. -/
def reset : Action β Unit := do
  modifyCpu fun cpu => { cpu with
    a := 0, x := 0, y := 0, sp := stackReset, status := .powerOn }
  let start ← readWord resetVector
  modifyCpu fun cpu => { cpu with pc := start, pending := 0, cycles := 0 }

end Famicom.Cpu
