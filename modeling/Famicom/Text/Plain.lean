/-!
# Plain text

Text for a terminal holds control sequences, which an escape character opens. Plain text is what is
left without them and without control characters other than tabs and line ends. Marked text stands
out on a terminal; a mark also closes what the text before it left open.
-/

namespace Famicom.Text

def escapeChar : Char := '\x1b'

/-- Emphasis on a terminal, none in plain text. -/
def mark (text : String) : String := "\x1b[1m" ++ text ++ "\x1b[0m"

/-- The part of a control sequence in which a character stands. -/
inductive Sequence
  | none
  | escape
  | escapeTail
  | parameters
  | deviceStart
  | deviceParameters
  | deviceTail
  | string
  | title
deriving DecidableEq, Repr

def isWithin (first last : Char) (c : Char) : Bool := first ≤ c && c ≤ last

/-- A string ends at the byte 9C, which may be a part of a longer character. -/
def endsString (c : Char) : Bool := (String.utf8EncodeChar c).contains 0x9C

/-- The kind of sequence that the character behind the escape opens. -/
def Sequence.opened (c : Char) : Sequence :=
  match c with
  | '[' => parameters
  | ']' => title
  | 'P' => deviceStart
  | 'X' | '^' | '_' => string
  | c =>
    if isWithin ' ' '/' c then escapeTail
    else if isWithin '0' '~' c then none
    else escape

/-- Where the next character stands. An escape opens a sequence everywhere, and two control
characters cancel every sequence. -/
def Sequence.next (sequence : Sequence) (c : Char) : Sequence :=
  if c = escapeChar then escape
  else if c = '\x18' ∨ c = '\x1a' then none
  else
    match sequence with
    | none => none
    | escape => opened c
    | escapeTail => if isWithin '0' '~' c then none else escapeTail
    | parameters => if isWithin '@' '~' c then none else parameters
    | deviceStart =>
      if isWithin ' ' '/' c then deviceTail
      else if isWithin '0' '?' c then deviceParameters
      else if isWithin '@' '~' c then string
      else deviceStart
    | deviceParameters =>
      if isWithin ' ' '/' c then deviceTail
      else if isWithin '<' '~' c then string
      else deviceParameters
    | deviceTail => if isWithin '0' '~' c then string else deviceTail
    | string => if endsString c then none else string
    | title => if c = '\x07' then none else title

/-- Sequences without a body act on tabs and line ends among their characters. -/
def Sequence.letsThrough : Sequence → Bool
  | escape | escapeTail | parameters => true
  | _ => false

/-- A tab or the end of a line. -/
def isBreak (c : Char) : Bool := c = '\t' || c = '\n' || c = '\x0c' || c = '\r'

def isShown (c : Char) : Bool := isBreak c || (' ' ≤ c && c != '\x7f')

/-- A reader of terminal text. Behind a break inside a sequence text is shown again, and the next
control character resumes the sequence. -/
structure Reader where
  sequence : Sequence := .none
  suspended : Bool := false
deriving DecidableEq, Repr

/-- Whether a character is shown, and the reader behind it. A character outside ASCII that is shown
drops a suspended sequence. -/
def Reader.read (reader : Reader) (c : Char) : Bool × Reader :=
  if reader.sequence = .none ∨ reader.suspended then
    if isShown c then
      (true, if c ≤ '\x7f' then reader else {})
    else
      (false, { sequence := reader.sequence.next c })
  else if reader.sequence.letsThrough ∧ isBreak c then
    (true, { reader with suspended := true })
  else
    (false, { reader with sequence := reader.sequence.next c })

def Reader.plain : Reader → List Char → List Char
  | _, [] => []
  | reader, c :: rest =>
    match reader.read c with
    | (true, reader) => c :: reader.plain rest
    | (false, reader) => reader.plain rest

/-- What is left of terminal text without its control sequences. -/
def plain (text : String) : String :=
  String.ofList (({} : Reader).plain text.toList)

end Famicom.Text
