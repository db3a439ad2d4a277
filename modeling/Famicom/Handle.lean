import Famicom.Console

/-!
# Handles

A host drives a console through a handle. The null handle takes every call and does nothing. No call
fails: a console that faults, or that refuses a buffer, keeps the state that it had reached.
-/

namespace Famicom

abbrev Handle := Option Console

namespace Handle

def null : Handle := none

/-- Powers on a console with the cartridge of an image. Without a readable image, or with one that
is refused, the handle is null. -/
def start (image : Option ByteArray) (headless : Bool) : Handle :=
  image.bind fun raw => (Console.ofImage raw headless).toOption

def isNull (handle : Handle) : Bool := handle.isNone

/-- What an action leaves of a console, whether it ends or stops. -/
def settle {ε α : Type} (action : EStateM ε Console α) (console : Console) : Console :=
  match action console with
  | .ok _ console => console
  | .error _ console => console

def reset (handle : Handle) : Handle := handle.map (settle Console.reset)

/-- Runs one frame. -/
def step (handle : Handle) : Handle := handle.map (settle Console.frame)

def backUp (handle : Handle) : Handle := handle.map Console.backUp

def restore (handle : Handle) : Handle := handle.map Console.restore

def save (handle : Handle) : Option Snapshot := handle.map Console.save

/-- Goes back to a snapshot; without one nothing happens. -/
def load (handle : Handle) (state : Option Snapshot) : Handle :=
  match state with
  | some state => handle.map fun console => console.load state
  | none => handle

def encode (handle : Handle) : Option (List UInt8) := handle.map Console.encode

def decode (handle : Handle) (buffer : Option (List UInt8)) : Handle :=
  match buffer with
  | some buffer => handle.map (settle (Console.decode buffer))
  | none => handle

/-- Hosts count sockets with signed numbers. -/
def socket? (socket : Int32) : Option Nat :=
  if socket < 0 then none else some socket.toNatClampNeg

def buttons? (handle : Handle) (socket : Int32) : Option UInt8 := do
  let console ← handle
  console.buttons? (← socket? socket)

/-- Sets the buttons in a socket that has a controller. -/
def press (handle : Handle) (socket : Int32) (buttons : UInt8) : Handle := do
  let console ← handle
  match socket? socket with
  | some socket => return (console.press? socket buttons).getD console
  | none => return console

def poke (handle : Handle) (cell : Fin 0x800) (value : UInt8) : Handle :=
  handle.map fun console => console.poke cell value

/-- Releases the console. -/
def close (_ : Handle) : Handle := null

end Handle

end Famicom
