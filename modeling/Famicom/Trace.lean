import Famicom.Cpu.Basic
import Famicom.TraceLog

/-!
# Trace events

What a console notes while it runs: each instruction with the registers it found, each interrupt
that was served, and each frame interrupt that the picture unit raised. Registers are shown in
hexadecimal digits.
-/

namespace Famicom

namespace Hex

/-- Lower-case digits behind enough zeros. -/
def digits (width n : Nat) : List Char :=
  let shown := Nat.toDigits 16 n
  List.replicate (width - shown.length) '0' ++ shown

def lower (width n : Nat) : String := String.ofList (digits width n)

def upper (width n : Nat) : String := String.ofList ((digits width n).map Char.toUpper)

end Hex

inductive Event
  | instruction (before : Cpu) (opcode : Cpu.Opcode)
  | interrupt (kind : Interrupt)
  | frameInterrupt
deriving DecidableEq, Repr

def Event.line : Event → String
  | instruction cpu opcode =>
    let byte (v : UInt8) := Hex.upper 2 v.toNat
    s!"PC:{Hex.upper 4 cpu.pc.toNat} {opcode.name} A:{byte cpu.a} X:{byte cpu.x} Y:{byte cpu.y} " ++
    s!"P:{byte cpu.status.toByte} SP:{byte cpu.sp} CYC:{cpu.cycles}"
  | interrupt kind => s!"[CPU] interrupt {kind.name}"
  | frameInterrupt => "[PPU] NMI raised"

abbrev Trace := TraceLog Event

/-- The log of a console that has not run. -/
def Trace.fresh : Trace := { capacity := 500000 }

end Famicom
