/-!
# Controllers

A controller latches its buttons while its strobe falls and then gives one bit a read, button A
first.
-/

namespace Famicom

inductive Button
  | a | b | select | start | up | down | left | right
deriving DecidableEq, Repr

namespace Button

/-- All buttons in the order in which they shift out. -/
def all : List Button := [a, b, select, start, up, down, left, right]

/-- The bit of a button in the button byte. -/
def bit : Button → UInt8
  | a => 0x01
  | b => 0x02
  | select => 0x04
  | start => 0x08
  | up => 0x10
  | down => 0x20
  | left => 0x40
  | right => 0x80

end Button

structure Joypad where
  buttons : UInt8 := 0
  shift : UInt8 := 0
  strobe : Bool := false
deriving DecidableEq, Repr

namespace Joypad

/-- What the socket leaves on the other lines. -/
def openBus : UInt8 := 0x40

/-- While the strobe is high every read gives button A and shifts nothing. -/
def read (pad : Joypad) : UInt8 × Joypad :=
  if pad.strobe then
    ((pad.buttons &&& 1) ||| openBus, pad)
  else
    ((pad.shift &&& 1) ||| openBus, { pad with shift := pad.shift >>> 1 })

/-- Bit 0 is the strobe. A write that leaves it low latches the buttons. -/
def write (pad : Joypad) (value : UInt8) : Joypad :=
  if value &&& 1 = 1 then { pad with strobe := true }
  else { pad with strobe := false, shift := pad.buttons }

def press (pad : Joypad) (button : Button) (down : Bool) : Joypad :=
  { pad with
    buttons := if down then pad.buttons ||| button.bit else pad.buttons &&& ~~~button.bit }

def isPressed (pad : Joypad) (button : Button) : Bool := pad.buttons &&& button.bit != 0

end Joypad

/-- The controllers in the two sockets. -/
structure Joypads where
  first : Joypad := {}
  second : Joypad := {}
deriving DecidableEq, Repr

end Famicom
