import Famicom.Board

/-!
# Picture memory

The 14-bit address space of the picture unit: pattern tables of the board below $2000, four logical
name tables over 2 KiB below $3F00, and 32 palette entries above.
-/

namespace Famicom

/-- Where each logical name table starts in picture memory. -/
structure NameTables where
  topLeft : UInt64
  topRight : UInt64
  bottomLeft : UInt64
  bottomRight : UInt64
deriving DecidableEq, Repr

namespace NameTables

/-- Four separate tables do not fit; such a cartridge gets the lower half for all. -/
def ofMirroring : Mirroring → NameTables
  | .horizontal => ⟨0, 0, 0x400, 0x400⟩
  | .vertical => ⟨0, 0x400, 0, 0x400⟩
  | .oneScreenLower | .fourScreen => ⟨0, 0, 0, 0⟩
  | .oneScreenHigher => ⟨0x400, 0x400, 0x400, 0x400⟩

/-- The start of the table that an address selects with bits 10 and 11. -/
@[inline] def start (tables : NameTables) (address : UInt16) : UInt64 :=
  if address &&& 0x0800 == 0 then
    if address &&& 0x0400 == 0 then tables.topLeft else tables.topRight
  else
    if address &&& 0x0400 == 0 then tables.bottomLeft else tables.bottomRight

end NameTables

structure PictureMemory where
  ram : Vector UInt8 0x800
  palette : Vector UInt8 0x20
  tables : NameTables

namespace PictureMemory

def fresh : PictureMemory where
  ram := Vector.replicate _ 0
  palette := Vector.replicate _ 0
  tables := ⟨0, 0, 0, 0⟩

def setMirroring (memory : PictureMemory) (mirroring : Mirroring) : PictureMemory :=
  { memory with tables := .ofMirroring mirroring }

/-- The cell of a name table address. $3000 repeats $2000. -/
@[inline] def cell (memory : PictureMemory) (address : UInt16) : Nat :=
  (memory.tables.start address).toNat + address.toNat % 0x400

/-- What an access outside the 2 KiB ends with. -/
def cellFault (cell : Nat) : Fault :=
  if cell < UInt64.size then .indexOutOfRange else .overflow

@[inline] def readTable (memory : PictureMemory) (address : UInt16) : Except Fault UInt8 :=
  let cell := memory.cell address
  if h : cell < 0x800 then .ok memory.ram[cell] else .error (cellFault cell)

@[inline] def read (memory : PictureMemory) (board : Board) (address : UInt16) :
    Except Fault UInt8 :=
  let address := address &&& 0x3FFF
  if address < 0x2000 then board.readPattern address
  else if address < 0x3F00 then memory.readTable address
  else .ok memory.palette[address.toNat % 0x20]

/-- Entry $10 doubles as entry $00 when written. -/
def writePalette (memory : PictureMemory) (address : UInt16) (value : UInt8) : PictureMemory :=
  match memory with
  | ⟨ram, palette, tables⟩ =>
    let entry := address.toNat % 0x20
    let palette := palette.set entry value
    ⟨ram, if entry = 0x10 then palette.set 0 value else palette, tables⟩

def writeTable (memory : PictureMemory) (address : UInt16) (value : UInt8) :
    Except Fault PictureMemory :=
  let cell := memory.cell address
  if h : cell < 0x800 then
    match memory with
    | ⟨ram, palette, tables⟩ => .ok ⟨ram.set cell value, palette, tables⟩
  else
    .error (cellFault cell)

def write (memory : PictureMemory) (board : Board) (address : UInt16) (value : UInt8) :
    Except Fault (PictureMemory × Board) := do
  let address := address &&& 0x3FFF
  if address < 0x2000 then
    return (memory, ← board.writePattern address value)
  else if address < 0x3F00 then
    return (← memory.writeTable address value, board)
  else
    return (memory.writePalette address value, board)

/-- The palette as the picture uses it: the first entry of each sprite palette is that of the
background palette. -/
@[inline] def colour (memory : PictureMemory) (index : UInt8) : UInt8 :=
  let entry := index.toNat % 0x20
  if entry % 4 = 0 then memory.palette[entry % 0x10] else memory.palette[entry]

open Codec

def layout : Layout PictureMemory := [
  .of (.memory 0x800) ram fun v s => { s with ram := v },
  .of (.memory 0x20) palette fun v s => { s with palette := v },
  .of .u64 (fun s => s.tables.topLeft) fun v s => { s with tables.topLeft := v },
  .of .u64 (fun s => s.tables.topRight) fun v s => { s with tables.topRight := v },
  .of .u64 (fun s => s.tables.bottomLeft) fun v s => { s with tables.bottomLeft := v },
  .of .u64 (fun s => s.tables.bottomRight) fun v s => { s with tables.bottomRight := v }]

end PictureMemory

end Famicom
