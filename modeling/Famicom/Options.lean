import Famicom.Joypad
import Famicom.Text.Plain

/-!
# Command line options

One image, the frames to run, the buttons to hold and three switches. An option takes its value
attached (`--frames=5`, `-f5`, `-f=5`) or from the next argument. That value is looked at only when
the next option, the image or the end shows that it is complete; an argument that fits nowhere is
reported before it.
-/

namespace Famicom

namespace Text

/-- First and last character of each run of blanks: those to which Unicode gives the property
White_Space. -/
def blankRanges : List (Nat × Nat) := [
  (0x0009, 0x000D), (0x0020, 0x0020), (0x0085, 0x0085), (0x00A0, 0x00A0), (0x1680, 0x1680),
  (0x2000, 0x200A), (0x2028, 0x2029), (0x202F, 0x202F), (0x205F, 0x205F), (0x3000, 0x3000)]

def isBlank (c : Char) : Bool :=
  blankRanges.any fun (first, last) => first ≤ c.toNat && c.toNat ≤ last

/-- Without the blanks at both ends. -/
def trim (text : List Char) : List Char :=
  ((text.dropWhile isBlank).reverse.dropWhile isBlank).reverse

end Text

structure Options where
  rom : String
  frames : Nat
  buttons : UInt8
  headless : Bool
  checkRoundTrip : Bool
  checkBackup : Bool
deriving DecidableEq, Repr

/-- Where a value belongs. -/
inductive Slot
  | rom
  | frames
  | press
deriving DecidableEq, Repr

inductive Switch
  | headless
  | checkRoundTrip
  | checkBackup
deriving DecidableEq, Repr

/-- Why a text is no count of frames. -/
inductive CountError
  | empty
  | notADigit
  | tooLarge
deriving DecidableEq, Repr

def CountError.message : CountError → String
  | empty => "cannot parse integer from empty string"
  | notADigit => "invalid digit found in string"
  | tooLarge => "number too large to fit in target type"

inductive UsageError
  | missingImage
  | missingValue (slot : Slot)
  | repeatedSlot (slot : Slot)
  | repeatedSwitch (switch : Switch)
  | unexpected (argument : String)
  | unexpectedValue (value option : String)
  | invalidCount (text : String) (cause : CountError)
  | unknownButton (text name : String)
deriving DecidableEq, Repr

def Slot.usage : Slot → String
  | rom => "<ROM>"
  | frames => "--frames <FRAMES>"
  | press => "--press <PRESS>"

def Switch.option : Switch → String
  | headless => "--headless"
  | checkRoundTrip => "--check-roundtrip"
  | checkBackup => "--check-backup"

namespace UsageError

/-- Text between quotes, marked so that nothing in it reaches beyond them. -/
def quoted (text : String) : String := "'" ++ Text.mark text ++ "'"

/-- The complaint about a value, for a terminal. -/
def invalidValue (text : String) (slot : Slot) (reason : String) : String :=
  s!"invalid value {quoted text} for {quoted slot.usage}: {reason}"

/-- What is wrong, for a terminal. -/
def message : UsageError → String
  | missingImage =>
    s!"the following required arguments were not provided:\n  {Text.mark Slot.rom.usage}"
  | missingValue slot => s!"a value is required for {quoted slot.usage} but none was supplied"
  | repeatedSlot slot => s!"the argument {quoted slot.usage} cannot be used multiple times"
  | repeatedSwitch switch =>
    s!"the argument {quoted switch.option} cannot be used multiple times"
  | unexpected argument => s!"unexpected argument {quoted argument} found"
  | unexpectedValue value option =>
    s!"unexpected value {quoted value} for {quoted option} found; no more were expected"
  | invalidCount text cause => invalidValue text .frames cause.message
  | unknownButton text name => invalidValue text .press s!"unknown button '{name}'"

end UsageError

namespace Options

/-- How reading ends before there are options to run with. -/
inductive Ending
  | help
  | misuse (cause : UsageError)
deriving DecidableEq, Repr

/-- The digits so far with one more digit behind them. -/
def addDigit (n : Nat) (c : Char) : Except CountError Nat :=
  if c.isDigit then
    let n := n * 10 + (c.toNat - '0'.toNat)
    if n < UInt64.size then .ok n else .error .tooLarge
  else
    .error .notADigit

/-- A decimal number below 2^64, with an optional plus sign. The first fault is reported. -/
def count (text : String) : Except CountError Nat :=
  match text.toList with
  | [] => .error .empty
  | '+' :: c :: digits => (c :: digits).foldlM addDigit 0
  | digits => digits.foldlM addDigit 0

def button? (name : String) : Option Button :=
  match name with
  | "a" => some .a
  | "b" => some .b
  | "select" => some .select
  | "start" => some .start
  | "up" => some .up
  | "down" => some .down
  | "left" => some .left
  | "right" => some .right
  | _ => none

/-- The names in a list of buttons: between commas, without blanks around them, in lower case. -/
def buttonNames (text : String) : List String :=
  let names := (text.splitOn ",").map fun name => Text.trim name.toList
  (names.filter (· ≠ [])).map fun name => String.ofList (name.map Char.toLower)

/-- The button byte of a list of buttons. The first unknown name is reported. -/
def heldButtons (text : String) : Except UsageError UInt8 :=
  (buttonNames text).foldlM (fun held name =>
    match button? name with
    | some button => .ok (held ||| button.bit)
    | none => .error (.unknownButton text name)) 0

/-- What has been read so far. A pending slot waits for its value, or holds one that has not been
looked at. -/
structure Draft where
  rom : Option String := none
  frames : Option Nat := none
  buttons : Option UInt8 := none
  switches : List Switch := []
  pending : Option (Slot × Option String) := none

def Draft.isFilled (draft : Draft) : Slot → Bool
  | .rom => draft.rom.isSome
  | .frames => draft.frames.isSome
  | .press => draft.buttons.isSome

def misuse {α : Type} (cause : UsageError) : Except Ending α := .error (.misuse cause)

/-- Takes a value. -/
def Draft.fill (draft : Draft) (slot : Slot) (text : String) : Except Ending Draft :=
  if draft.isFilled slot then
    misuse (.repeatedSlot slot)
  else
    match slot with
    | .rom => if text = "" then misuse (.missingValue .rom) else .ok { draft with rom := some text }
    | .frames =>
      match count text with
      | .ok n => .ok { draft with frames := some n }
      | .error cause => misuse (.invalidCount text cause)
    | .press =>
      match heldButtons text with
      | .ok held => .ok { draft with buttons := some held }
      | .error cause => misuse cause

/-- Takes the pending value. -/
def Draft.settle (draft : Draft) : Except Ending Draft :=
  match draft.pending with
  | none => .ok draft
  | some (slot, none) => misuse (.missingValue slot)
  | some (slot, some text) => { draft with pending := none }.fill slot text

/-- Whether the next argument, if it is no option, is the value of the last one. -/
def Draft.waits (draft : Draft) : Option Slot :=
  match draft.pending with
  | some (slot, none) => some slot
  | _ => none

def Draft.turnOn (draft : Draft) (switch : Switch) : Except Ending Draft := do
  let draft ← draft.settle
  if switch ∈ draft.switches then
    misuse (.repeatedSwitch switch)
  else
    return { draft with switches := switch :: draft.switches }

/-- An option with its value attached, or with the value still to come. -/
def Draft.openSlot (draft : Draft) (slot : Slot) (attached : Option String) :
    Except Ending Draft := do
  let draft ← draft.settle
  match attached with
  | some text => draft.fill slot text
  | none => return { draft with pending := some (slot, none) }

def Draft.help (draft : Draft) : Except Ending Draft := do
  let _ ← draft.settle
  throw .help

/-- What an option name stands for. -/
inductive Meaning
  | slot (slot : Slot)
  | switch (switch : Switch)
  | help
deriving DecidableEq, Repr

def long? (name : String) : Option Meaning :=
  match name with
  | "frames" => some (.slot .frames)
  | "press" => some (.slot .press)
  | "headless" => some (.switch .headless)
  | "check-roundtrip" => some (.switch .checkRoundTrip)
  | "check-backup" => some (.switch .checkBackup)
  | "help" => some .help
  | _ => none

def short? (letter : Char) : Option Meaning :=
  match letter with
  | 'f' => some (.slot .frames)
  | 'p' => some (.slot .press)
  | 'h' => some .help
  | _ => none

/-- The text before the first equals sign, and the text behind it if there is one. -/
def splitValue (text : List Char) : String × Option String :=
  match text.span (· ≠ '=') with
  | (name, []) => (String.ofList name, none)
  | (name, _ :: value) => (String.ofList name, some (String.ofList value))

/-- An argument behind two dashes. -/
def Draft.long (draft : Draft) (text : List Char) : Except Ending Draft :=
  match splitValue text with
  | (name, attached) =>
    match long? name, attached with
    | some (.slot slot), _ => draft.openSlot slot attached
    | some (.switch switch), none => draft.turnOn switch
    | some .help, none => draft.help
    | some _, some value => misuse (.unexpectedValue value s!"--{name}")
    | none, _ => misuse (.unexpected s!"--{name}")

/-- The value attached to a short option, if any. -/
def attachedValue : List Char → Option String
  | [] => none
  | '=' :: value => some (String.ofList value)
  | value => some (String.ofList value)

/-- An argument behind a single dash. -/
def Draft.short (draft : Draft) : List Char → Except Ending Draft
  | [] => .ok draft
  | letter :: rest =>
    match short? letter with
    | some (.slot slot) => draft.openSlot slot (attachedValue rest)
    | some (.switch switch) => do
      let draft ← draft.turnOn switch
      draft.short rest
    | some .help => draft.help
    | none => misuse (.unexpected s!"-{letter}")

/-- An argument in the place of the image. Its value is pending, too. -/
def Draft.position (draft : Draft) (text : String) : Except Ending Draft :=
  if draft.rom.isSome ∨ draft.pending.any (fun p => p.1 = .rom) then
    misuse (.unexpected text)
  else do
    let draft ← draft.settle
    return { draft with pending := some (.rom, some text) }

/-- An argument that is no option. -/
def Draft.plain (draft : Draft) (text : String) : Except Ending Draft :=
  match draft.waits with
  | some slot => .ok { draft with pending := some (slot, some text) }
  | none => draft.position text

/-- Reads all arguments. Behind `--` none is an option. -/
def Draft.read : List String → Bool → Draft → Except Ending Draft
  | [], _, draft => draft.settle
  | text :: rest, true, draft => do
    read rest true (← draft.position text)
  | text :: rest, false, draft =>
    match text.toList with
    | ['-', '-'] => read rest true draft
    | '-' :: '-' :: name => do read rest false (← draft.long name)
    | '-' :: letter :: letters => do read rest false (← draft.short (letter :: letters))
    | _ => do read rest false (← draft.plain text)

def defaultFrames : Nat := 60

def Draft.finish (draft : Draft) : Except Ending Options :=
  match draft.rom with
  | none => misuse .missingImage
  | some rom => .ok {
      rom := rom
      frames := draft.frames.getD defaultFrames
      buttons := draft.buttons.getD 0
      headless := .headless ∈ draft.switches
      checkRoundTrip := .checkRoundTrip ∈ draft.switches
      checkBackup := .checkBackup ∈ draft.switches }

def parse (arguments : List String) : Except Ending Options := do
  (← Draft.read arguments false {}).finish

end Options

end Famicom
