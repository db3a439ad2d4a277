import Famicom.Cpu.Status

/-!
# Opcodes

What an opcode means: an operation, the way it finds its operand, its length and its cost.
-/

namespace Famicom.Cpu

/-- How an instruction finds its operand. -/
inductive Mode
  | implied
  | accumulator
  | immediate
  | zeroPage
  | zeroPageX
  | zeroPageY
  | absolute
  | absoluteX
  | absoluteY
  | indexedIndirect
  | indirectIndexed
  | indirect
  | relative
deriving DecidableEq, Repr

inductive Register
  | a | x | y
deriving DecidableEq, Repr

inductive Transfer
  | tax | tay | tsx | txa | txs | tya
deriving DecidableEq, Repr

/-- Operations that replace a byte by another. -/
inductive Update
  | asl | lsr | rol | ror | inc | dec
deriving DecidableEq, Repr

/-- Operations of the accumulator with a byte. -/
inductive Alu
  | ora | and | eor | adc | sbc | cmp
deriving DecidableEq, Repr

/-- Unofficial operations that update a byte of memory and then combine it with the
accumulator. -/
inductive Combined
  | slo | rla | sre | rra | dcp | isc
deriving DecidableEq, Repr

namespace Combined

def update : Combined → Update
  | slo => .asl
  | rla => .rol
  | sre => .lsr
  | rra => .ror
  | dcp => .dec
  | isc => .inc

def alu : Combined → Alu
  | slo => .ora
  | rla => .and
  | sre => .eor
  | rra => .adc
  | dcp => .cmp
  | isc => .sbc

end Combined

inductive Operation
  | brk
  | nop
  | jmp
  | jsr
  | rts
  | rti
  | transfer (t : Transfer)
  | setFlag (flag : Flag) (value : Bool)
  | branch (flag : Flag) (wanted : Bool)
  | increment (r : Register)
  | decrement (r : Register)
  | pha
  | pla
  | php
  | plp
  | bit
  | load (r : Register)
  | store (r : Register)
  | update (f : Update)
  | alu (f : Alu)
  | compare (r : Register)
  | combined (f : Combined)
  | lax
  | sax
  | anc
  | alr
  | arr
  | sbx
deriving DecidableEq, Repr

def Register.letter : Register → String
  | a => "A"
  | x => "X"
  | y => "Y"

def Transfer.mnemonic : Transfer → String
  | tax => "TAX"
  | tay => "TAY"
  | tsx => "TSX"
  | txa => "TXA"
  | txs => "TXS"
  | tya => "TYA"

def Update.mnemonic : Update → String
  | asl => "ASL"
  | lsr => "LSR"
  | rol => "ROL"
  | ror => "ROR"
  | inc => "INC"
  | dec => "DEC"

def Alu.mnemonic : Alu → String
  | ora => "ORA"
  | and => "AND"
  | eor => "EOR"
  | adc => "ADC"
  | sbc => "SBC"
  | cmp => "CMP"

def Combined.mnemonic : Combined → String
  | slo => "SLO"
  | rla => "RLA"
  | sre => "SRE"
  | rra => "RRA"
  | dcp => "DCP"
  | isc => "ISC"

/-- The letter by which the flag instructions name a flag. -/
def Flag.letter : Flag → String
  | carry => "C"
  | zero => "Z"
  | interruptDisable => "I"
  | decimal => "D"
  | overflow => "V"
  | negative => "N"

def branchMnemonic : Flag → Bool → String
  | .zero, true => "BEQ"
  | .zero, false => "BNE"
  | .negative, true => "BMI"
  | .negative, false => "BPL"
  | flag, true => "B" ++ flag.letter ++ "S"
  | flag, false => "B" ++ flag.letter ++ "C"

def Operation.mnemonic : Operation → String
  | brk => "BRK"
  | nop => "NOP"
  | jmp => "JMP"
  | jsr => "JSR"
  | rts => "RTS"
  | rti => "RTI"
  | transfer t => t.mnemonic
  | setFlag flag value => (if value then "SE" else "CL") ++ flag.letter
  | branch flag wanted => branchMnemonic flag wanted
  | increment r => "IN" ++ r.letter
  | decrement r => "DE" ++ r.letter
  | pha => "PHA"
  | pla => "PLA"
  | php => "PHP"
  | plp => "PLP"
  | bit => "BIT"
  | load r => "LD" ++ r.letter
  | store r => "ST" ++ r.letter
  | update f => f.mnemonic
  | alu f => f.mnemonic
  | compare r => "CP" ++ r.letter
  | combined f => f.mnemonic
  | lax => "LAX"
  | sax => "SAX"
  | anc => "ANC"
  | alr => "ALR"
  | arr => "ARR"
  | sbx => "SBX"

structure Opcode where
  operation : Operation
  mode : Mode
  /-- Bytes of the whole instruction. -/
  size : UInt8
  /-- Cycles without the charges for crossed pages and taken branches. -/
  cycles : UInt32
  official : Bool
deriving DecidableEq, Repr

/-- Unofficial opcodes are starred. -/
def Opcode.name (opcode : Opcode) : String :=
  (if opcode.official then "" else "*") ++ opcode.operation.mnemonic

end Famicom.Cpu
