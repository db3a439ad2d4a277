import Famicom.Cartridge
import Famicom.Codec.Layout

/-!
# Boards

A board answers the processor at $8000-$FFFF and the picture unit at $0000-$1FFF. There are three:
number 0 with fixed banks, number 2 with a switched program bank, number 3 with a switched pattern
bank. Boards 0 and 2 bring 8 KiB of pattern RAM when the cartridge has no pattern ROM.
-/

namespace Famicom

/-- Board 0: one program bank appears twice, two appear in a row. -/
structure Nrom where
  oneBank : Bool
  hasPatternRam : Bool
  patternRam : Array UInt8

/-- Board 2: `bank` selects what answers at $8000; the last bank stays at $C000. -/
structure Uxrom where
  hasPatternRam : Bool
  lastBank : UInt64
  bank : UInt8
  patternRam : Array UInt8

/-- Board 3: `bank` selects the pattern bank. -/
structure Cnrom where
  oneBank : Bool
  bank : UInt8

inductive Circuit
  | nrom (state : Nrom)
  | uxrom (state : Uxrom)
  | cnrom (state : Cnrom)

structure Board where
  cartridge : Cartridge
  circuit : Circuit

namespace Board

def patternRamSize : Nat := 0x2000

/-- The number that images give this board. -/
def number (board : Board) : UInt8 :=
  match board.circuit with
  | .nrom _ => 0
  | .uxrom _ => 2
  | .cnrom _ => 3

/-- The selected bank, of the boards that have one. -/
def selectedBank? (board : Board) : Option UInt8 :=
  match board.circuit with
  | .nrom _ => none
  | .uxrom state => some state.bank
  | .cnrom state => some state.bank

def freshPatternRam (cartridge : Cartridge) : Array UInt8 :=
  if cartridge.patterns.size = 0 then Array.replicate patternRamSize 0 else #[]

/-- The board of a cartridge, or nothing for a number that no board has. -/
def ofCartridge? (cartridge : Cartridge) : Option Board :=
  if cartridge.board = 0 then
    some ⟨cartridge, .nrom {
      oneBank := cartridge.program.size == 0x4000
      hasPatternRam := cartridge.patterns.size == 0
      patternRam := freshPatternRam cartridge }⟩
  else if cartridge.board = 2 then
    some ⟨cartridge, .uxrom {
      hasPatternRam := cartridge.patterns.size == 0
      lastBank := UInt64.ofNat (cartridge.program.size - 0x4000)
      bank := 0
      patternRam := freshPatternRam cartridge }⟩
  else if cartridge.board = 3 then
    some ⟨cartridge, .cnrom { oneBank := cartridge.program.size == 0x4000, bank := 0 }⟩
  else
    none

/-- ROM repeats through a window larger than itself. -/
@[inline] def fetchRom (rom : ByteArray) (index : Nat) : Except Fault UInt8 :=
  if h : 0 < rom.size then
    have := Nat.mod_lt index h
    .ok rom[index % rom.size]
  else
    .error .divisionByZero

@[inline] def fetchRam (ram : Array UInt8) (index : Nat) : Except Fault UInt8 :=
  if h : index < ram.size then .ok ram[index] else .error .indexOutOfRange

@[inline] def storeRam (ram : Array UInt8) (index : Nat) (value : UInt8) :
    Except Fault (Array UInt8) :=
  if h : index < ram.size then .ok (ram.set index value) else .error .indexOutOfRange

/-- The place in program memory of an address on a board with fixed program banks. -/
@[inline] def fixedProgramIndex (oneBank : Bool) (address : UInt16) : Nat :=
  if oneBank then (address &&& 0x3FFF).toNat else (address &&& 0x7FFF).toNat

def readProgram (board : Board) (address : UInt16) : Except Fault UInt8 :=
  let rom := board.cartridge.program
  match board.circuit with
  | .nrom state => fetchRom rom (fixedProgramIndex state.oneBank address)
  | .cnrom state => fetchRom rom (fixedProgramIndex state.oneBank address)
  | .uxrom state =>
    let offset := (address &&& 0x3FFF).toNat
    if address < 0xC000 then
      fetchRom rom (state.bank.toNat * 0x4000 + offset)
    else if state.lastBank.toNat + offset < UInt64.size then
      fetchRom rom (state.lastBank.toNat + offset)
    else
      .error .overflow

/-- Writing program memory sets the bank register, if the board has one. -/
def writeProgram (board : Board) (value : UInt8) : Board :=
  match board.circuit with
  | .nrom _ => board
  | .uxrom state => { board with circuit := .uxrom { state with bank := value } }
  | .cnrom state => { board with circuit := .cnrom { state with bank := value &&& 0x03 } }

/-- Pattern memory of a board that never switches it. -/
@[inline] def readFixedPattern (rom : ByteArray) (hasRam : Bool) (ram : Array UInt8)
    (address : UInt16) : Except Fault UInt8 :=
  let index := (address &&& 0x1FFF).toNat
  if hasRam then fetchRam ram index else fetchRom rom index

@[inline] def readPattern (board : Board) (address : UInt16) : Except Fault UInt8 :=
  let rom := board.cartridge.patterns
  match board.circuit with
  | .nrom state => readFixedPattern rom state.hasPatternRam state.patternRam address
  | .uxrom state => readFixedPattern rom state.hasPatternRam state.patternRam address
  | .cnrom state =>
    if rom.size = 0 then .ok 0
    else fetchRom rom (state.bank.toNat * 0x2000 + (address &&& 0x1FFF).toNat)

/-- Pattern ROM ignores writes. -/
def writePattern (board : Board) (address : UInt16) (value : UInt8) : Except Fault Board :=
  let index := (address &&& 0x1FFF).toNat
  match board with
  | ⟨cartridge, .nrom ⟨oneBank, true, ram⟩⟩ => do
    let ram ← storeRam ram index value
    return ⟨cartridge, .nrom ⟨oneBank, true, ram⟩⟩
  | ⟨cartridge, .uxrom ⟨true, lastBank, bank, ram⟩⟩ => do
    let ram ← storeRam ram index value
    return ⟨cartridge, .uxrom ⟨true, lastBank, bank, ram⟩⟩
  | other => .ok other

def extendedRam (board : Board) : Bool := board.cartridge.extendedRam

def mirroring (board : Board) : Mirroring := board.cartridge.mirroring

end Board

open Codec

def Nrom.layout : Layout Nrom := [
  .of .bool oneBank fun v s => { s with oneBank := v },
  .of .bool hasPatternRam fun v s => { s with hasPatternRam := v },
  .of .bytes patternRam fun v s => { s with patternRam := v }]

def Uxrom.layout : Layout Uxrom := [
  .of .bool hasPatternRam fun v s => { s with hasPatternRam := v },
  .of .u64 lastBank fun v s => { s with lastBank := v },
  .of .u8 bank fun v s => { s with bank := v },
  .of .bytes patternRam fun v s => { s with patternRam := v }]

def Cnrom.layout : Layout Cnrom := [
  .of .bool oneBank fun v s => { s with oneBank := v },
  .of .u8 bank fun v s => { s with bank := v }]

namespace Circuit

def nrom? : Circuit → Option Nrom
  | nrom state => some state
  | _ => none

def uxrom? : Circuit → Option Uxrom
  | uxrom state => some state
  | _ => none

def cnrom? : Circuit → Option Cnrom
  | cnrom state => some state
  | _ => none

def modifyNrom (change : Nrom → Nrom) : Circuit → Circuit
  | nrom state => nrom (change state)
  | other => other

def modifyUxrom (change : Uxrom → Uxrom) : Circuit → Circuit
  | uxrom state => uxrom (change state)
  | other => other

def modifyCnrom (change : Cnrom → Cnrom) : Circuit → Circuit
  | cnrom state => cnrom (change state)
  | other => other

/-- The registers of a circuit. Which circuit it is is never stored: a state is loaded by a console
with the same cartridge. -/
def layout : Circuit → Layout Circuit
  | nrom _ => Nrom.layout.within nrom? modifyNrom
  | uxrom _ => Uxrom.layout.within uxrom? modifyUxrom
  | cnrom _ => Cnrom.layout.within cnrom? modifyCnrom

end Circuit

def Board.layout (board : Board) : Layout Board :=
  board.circuit.layout.within (fun b => some b.circuit) fun change b =>
    { b with circuit := change b.circuit }

end Famicom
