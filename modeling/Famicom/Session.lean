import Famicom.Console

/-!
# Sessions

A session plays frames with the same buttons held, and checks that saved states play on alike.
-/

namespace Famicom

/-- What can stop a session. -/
inductive SessionError
  | fault (cause : Fault)
  | refused (cause : DecodeError)
deriving DecidableEq, Repr

def SessionError.message : SessionError → String
  | fault cause => cause.message
  | refused cause => cause.message

namespace Session

/-- The frames after which two consoles are compared. -/
def checkFrames : Nat := 10

def hold (buttons : UInt8) : Console.Action Unit :=
  modify fun console => (console.press? 0 buttons).getD console

/-- Plays frames with the buttons of the first controller held. -/
def play (buttons : UInt8) : Nat → Console.Action Unit
  | 0 => pure ()
  | frames + 1 => do
    hold buttons
    Console.frame
    play buttons frames

/-- Runs ahead of a backup and goes back: is the state what it was? -/
def checkBackup (buttons : UInt8) : Console.Action Bool := do
  let before := (← get).encode
  modify Console.backUp
  play buttons checkFrames
  modify Console.restore
  return (← get).encode == before

/-- Do two consoles agree after each of some frames? -/
def agree (buttons : UInt8) : Nat → Console → Console → Except Fault Bool
  | 0, _, _ => .ok true
  | frames + 1, a, b =>
    match play buttons 1 a with
    | .error cause _ => .error cause
    | .ok _ a =>
      match play buttons 1 b with
      | .error cause _ => .error cause
      | .ok _ b => if a.encode == b.encode then agree buttons frames a b else .ok false

/-- Does a fresh console that loads the state play on like this one? -/
def checkRoundTrip (buttons : UInt8) (console fresh : Console) : Except SessionError Bool :=
  let state := console.encode
  match Console.decode state fresh with
  | .error cause _ => .error (.refused cause)
  | .ok _ copy =>
    if copy.encode == state then
      (agree buttons checkFrames console copy).mapError .fault
    else
      .ok false

end Session

end Famicom
