/-!
# Faults

What stops a console in the middle of a call, and what makes it refuse a state buffer.
-/

namespace Famicom

/-- Why a running console stopped: a memory was left too short for an access, a memory is empty, or
a counter is full. Each needs a cartridge or a state that no image and no saved console gives. -/
inductive Fault
  | indexOutOfRange
  | divisionByZero
  | overflow
deriving DecidableEq, Repr

def Fault.message : Fault → String
  | indexOutOfRange => "access outside a memory"
  | divisionByZero => "access to an empty memory"
  | overflow => "a counter is full"

/-- Why a state buffer was refused. -/
inductive DecodeError
  | truncated (needed remaining : Nat)
  | wrongLength (found expected : Nat)
  | tooManySprites (count : Nat)
  | unknownPhase (code : UInt8)
deriving DecidableEq, Repr

def DecodeError.message : DecodeError → String
  | truncated needed remaining =>
    s!"state buffer truncated: need {needed} bytes, {remaining} remaining"
  | wrongLength found expected =>
    s!"state buffer holds {found} bytes where {expected} were expected"
  | tooManySprites count => s!"state buffer holds {count} scanline sprites"
  | unknownPhase code => s!"invalid pipeline state in state buffer: {code}"

/-- Counters never wrap: one that is full faults. -/
@[inline] def addCount16 (a b : UInt16) : Except Fault UInt16 :=
  if a.toNat + b.toNat < UInt16.size then .ok (a + b) else .error .overflow

@[inline] def addCount32 (a b : UInt32) : Except Fault UInt32 :=
  if a.toNat + b.toNat < UInt32.size then .ok (a + b) else .error .overflow

@[inline] def addCount64 (a b : UInt64) : Except Fault UInt64 :=
  if a.toNat + b.toNat < UInt64.size then .ok (a + b) else .error .overflow

end Famicom
