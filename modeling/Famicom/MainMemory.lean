import Famicom.Codec.Layout
import Famicom.Fault

/-!
# Main memory

The address space of the processor: 2 KiB of RAM repeated below $2000, eight registers of the
picture unit repeated below $4000, those of the sprite transfer and the controllers, RAM of the
cartridge at $6000, its program at $8000.

Registers are bound to handlers. Main memory answers what it holds itself and names the handler, or
the program address, for the rest.
-/

namespace Famicom

/-- The addresses that can be bound. -/
inductive MappedRegister
  | control | mask | status | oamAddress | oamData | scroll | address | data
  | transfer | pad1 | pad2
deriving DecidableEq, Repr

namespace MappedRegister

def location : MappedRegister → UInt16
  | control => 0x2000
  | mask => 0x2001
  | status => 0x2002
  | oamAddress => 0x2003
  | oamData => 0x2004
  | scroll => 0x2005
  | address => 0x2006
  | data => 0x2007
  | transfer => 0x4014
  | pad1 => 0x4016
  | pad2 => 0x4017

def all : List MappedRegister :=
  [control, mask, status, oamAddress, oamData, scroll, address, data, transfer, pad1, pad2]

def ofLocation? (location : UInt16) : Option MappedRegister :=
  all.find? fun register => register.location == location

def index : MappedRegister → Fin 11
  | control => 0
  | mask => 1
  | status => 2
  | oamAddress => 3
  | oamData => 4
  | scroll => 5
  | address => 6
  | data => 7
  | transfer => 8
  | pad1 => 9
  | pad2 => 10

end MappedRegister

inductive ReadHandler
  | pictureStatus
  | pictureData
  | oamData
  | controller (socket : Nat)
deriving DecidableEq, Repr

inductive WriteHandler
  | pictureControl
  | pictureMask
  | oamAddress
  | oamData
  | pictureScroll
  | pictureAddress
  | pictureData
  | transfer
  | strobe
deriving DecidableEq, Repr

/-- Which handler serves each register. -/
structure Bindings where
  reads : Vector (Option ReadHandler) 11
  writes : Vector (Option WriteHandler) 11
deriving DecidableEq, Repr

namespace Bindings

def empty : Bindings := ⟨Vector.replicate _ none, Vector.replicate _ none⟩

def bindRead (bindings : Bindings) (register : MappedRegister) (handler : ReadHandler) : Bindings :=
  { bindings with reads := bindings.reads.set register.index (some handler) }

def bindWrite (bindings : Bindings) (register : MappedRegister) (handler : WriteHandler) :
    Bindings :=
  { bindings with writes := bindings.writes.set register.index (some handler) }

/-- The bindings of a console. -/
def wired : Bindings :=
  empty
    |>.bindRead .status .pictureStatus
    |>.bindRead .data .pictureData
    |>.bindRead .oamData .oamData
    |>.bindRead .pad1 (.controller 0)
    |>.bindRead .pad2 (.controller 1)
    |>.bindWrite .control .pictureControl
    |>.bindWrite .mask .pictureMask
    |>.bindWrite .oamAddress .oamAddress
    |>.bindWrite .oamData .oamData
    |>.bindWrite .scroll .pictureScroll
    |>.bindWrite .address .pictureAddress
    |>.bindWrite .data .pictureData
    |>.bindWrite .transfer .transfer
    |>.bindWrite .pad1 .strobe

def reader? (bindings : Bindings) (location : UInt16) : Option ReadHandler :=
  (MappedRegister.ofLocation? location).bind fun register => bindings.reads[register.index]

def writer? (bindings : Bindings) (location : UInt16) : Option WriteHandler :=
  (MappedRegister.ofLocation? location).bind fun register => bindings.writes[register.index]

end Bindings

structure MainMemory where
  ram : Vector UInt8 0x800
  extendedRam : Array UInt8
  hasExtendedRam : Bool
  bindings : Bindings

/-- Where a read goes. -/
inductive Source
  | value (v : UInt8)
  | program (address : UInt16)
  | handler (h : ReadHandler)
deriving DecidableEq, Repr

/-- Where a write goes. -/
inductive Sink
  | ram (cell : Fin 0x800)
  | extendedRam (cell : Nat)
  | program
  | handler (h : WriteHandler)
  | nowhere
deriving DecidableEq, Repr

namespace MainMemory

def extendedRamSize : Nat := 0x2000

def fresh : MainMemory where
  ram := Vector.replicate _ 0
  extendedRam := #[]
  hasExtendedRam := false
  bindings := .empty

@[inline] def portLocation (address : UInt16) : UInt16 := 0x2000 + address % 8

@[inline] def readExtended (memory : MainMemory) (address : UInt16) : Except Fault UInt8 :=
  if memory.hasExtendedRam then
    let cell := (address - 0x6000).toNat
    if h : cell < memory.extendedRam.size then .ok memory.extendedRam[cell]
    else .error .indexOutOfRange
  else
    .ok 0

/-- The source of an address. Addresses that nothing answers read as zero. -/
@[inline] def source (memory : MainMemory) (address : UInt16) : Except Fault Source :=
  if address < 0x2000 then
    .ok (.value memory.ram[address.toNat % 0x800])
  else if 0x8000 ≤ address then
    .ok (.program address)
  else if address < 0x4000 then
    .ok (((memory.bindings.reader? (portLocation address)).map .handler).getD (.value 0))
  else if 0x4014 ≤ address && address ≤ 0x4017 then
    .ok (((memory.bindings.reader? address).map .handler).getD (.value 0))
  else if address < 0x6000 then
    .ok (.value 0)
  else do
    return .value (← memory.readExtended address)

/-- The sink of an address. -/
@[inline] def sink (memory : MainMemory) (address : UInt16) : Sink :=
  if address < 0x2000 then
    .ram ⟨address.toNat % 0x800, Nat.mod_lt _ (by decide)⟩
  else if 0x8000 ≤ address then
    .program
  else if address < 0x4000 then
    ((memory.bindings.writer? (portLocation address)).map .handler).getD .nowhere
  else if 0x4014 ≤ address && address ≤ 0x4016 then
    ((memory.bindings.writer? address).map .handler).getD .nowhere
  else if 0x6000 ≤ address && memory.hasExtendedRam then
    .extendedRam (address - 0x6000).toNat
  else
    .nowhere

def storeRam (memory : MainMemory) (cell : Fin 0x800) (value : UInt8) : MainMemory :=
  match memory with
  | ⟨ram, extendedRam, hasExtendedRam, bindings⟩ =>
    ⟨ram.set cell value, extendedRam, hasExtendedRam, bindings⟩

def storeExtended (memory : MainMemory) (cell : Nat) (value : UInt8) : Except Fault MainMemory :=
  match memory with
  | ⟨ram, extendedRam, hasExtendedRam, bindings⟩ =>
    if h : cell < extendedRam.size then
      .ok ⟨ram, extendedRam.set cell value, hasExtendedRam, bindings⟩
    else
      .error .indexOutOfRange

/-- The 256 bytes of a page of either RAM, for a sprite transfer. -/
def page? (memory : MainMemory) (page : UInt8) : Except Fault (Option (Array UInt8)) :=
  if page < 0x20 then
    let start := page.toNat % 8 * 0x100
    .ok (some (memory.ram.toArray.extract start (start + 0x100)))
  else if 0x60 ≤ page && page < 0x80 && memory.hasExtendedRam then
    let start := (page - 0x60).toNat * 0x100
    if start + 0x100 ≤ memory.extendedRam.size then
      .ok (some (memory.extendedRam.extract start (start + 0x100)))
    else
      .error .indexOutOfRange
  else
    .ok none

/-- Fits the RAM at $6000 to a cartridge. RAM of another size is cut or filled up with zeros. -/
def fitExtendedRam (memory : MainMemory) (present : Bool) : MainMemory :=
  if present then
    { memory with
      hasExtendedRam := true
      extendedRam := (memory.extendedRam ++
        Array.replicate (extendedRamSize - memory.extendedRam.size) 0).extract 0 extendedRamSize }
  else
    { memory with hasExtendedRam := false }

def wire (memory : MainMemory) : MainMemory := { memory with bindings := .wired }

open Codec

def layout : Layout MainMemory := [
  .of (.memory 0x800) ram fun v s => { s with ram := v },
  .of .bytes extendedRam fun v s => { s with extendedRam := v }]

end MainMemory

end Famicom
