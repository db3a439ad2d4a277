/-!
# Cartridges

What a cartridge holds: its program and pattern memory, the number of its board, and how it arranges
the name tables.
-/

namespace Famicom

/-- How the four logical name tables share the picture memory. -/
inductive Mirroring
  | horizontal
  | vertical
  | fourScreen
  | oneScreenLower
  | oneScreenHigher
deriving DecidableEq, Repr

namespace Mirroring

def name : Mirroring → String
  | horizontal => "Horizontal"
  | vertical => "Vertical"
  | fourScreen => "FourScreen"
  | oneScreenLower => "OneScreenLower"
  | oneScreenHigher => "OneScreenHigher"

def number : Mirroring → Nat
  | horizontal => 0
  | vertical => 1
  | fourScreen => 8
  | oneScreenLower => 9
  | oneScreenHigher => 10

end Mirroring

structure Cartridge where
  program : ByteArray
  patterns : ByteArray
  board : UInt8
  mirroring : Mirroring
  /-- Whether RAM of the cartridge answers at $6000. -/
  extendedRam : Bool

end Famicom
