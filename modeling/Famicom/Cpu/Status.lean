/-!
# Processor status

The eight bits of the status register. Bits 4 and 5 do nothing inside the processor; they tell what
pushed a copy of the register.
-/

namespace Famicom.Cpu

structure Status where
  negative : Bool
  overflow : Bool
  unused : Bool
  brk : Bool
  decimal : Bool
  interruptDisable : Bool
  zero : Bool
  carry : Bool
deriving DecidableEq, Repr

/-- The flags that instructions test or set one at a time. -/
inductive Flag
  | carry | zero | interruptDisable | decimal | overflow | negative
deriving DecidableEq, Repr

namespace Status

def ofByte (v : UInt8) : Status where
  negative := v &&& 0x80 != 0
  overflow := v &&& 0x40 != 0
  unused := v &&& 0x20 != 0
  brk := v &&& 0x10 != 0
  decimal := v &&& 0x08 != 0
  interruptDisable := v &&& 0x04 != 0
  zero := v &&& 0x02 != 0
  carry := v &&& 0x01 != 0

def toByte (s : Status) : UInt8 :=
  (if s.negative then 0x80 else 0) ||| (if s.overflow then 0x40 else 0) |||
  (if s.unused then 0x20 else 0) ||| (if s.brk then 0x10 else 0) |||
  (if s.decimal then 0x08 else 0) ||| (if s.interruptDisable then 0x04 else 0) |||
  (if s.zero then 0x02 else 0) ||| (if s.carry then 0x01 else 0)

/-- Interrupts are masked at power-on, and bit 5 is set. -/
def powerOn : Status where
  negative := false
  overflow := false
  unused := true
  brk := false
  decimal := false
  interruptDisable := true
  zero := false
  carry := false

def get (s : Status) : Flag → Bool
  | .carry => s.carry
  | .zero => s.zero
  | .interruptDisable => s.interruptDisable
  | .decimal => s.decimal
  | .overflow => s.overflow
  | .negative => s.negative

def set (s : Status) (value : Bool) : Flag → Status
  | .carry => { s with carry := value }
  | .zero => { s with zero := value }
  | .interruptDisable => { s with interruptDisable := value }
  | .decimal => { s with decimal := value }
  | .overflow => { s with overflow := value }
  | .negative => { s with negative := value }

/-- The flags that describe a result byte. -/
def describe (s : Status) (result : UInt8) : Status :=
  { s with zero := result == 0, negative := result &&& 0x80 != 0 }

/-- What the processor keeps of a pulled status byte: bit 4 is dropped and bit 5 set. -/
def pulled (v : UInt8) : Status := { ofByte v with brk := false, unused := true }

end Status

end Famicom.Cpu
