import Famicom.Disk
import Famicom.Options
import Famicom.Report
import Famicom.Session

/-!
# The command

From the arguments and the bytes of an image to what is printed.
-/

namespace Famicom.Command

/-- What a run of the command leaves behind. -/
structure Outcome where
  exitCode : UInt32
  output : String
  errors : String
deriving DecidableEq, Repr

/-- Why there is no report. -/
inductive Failure
  | unreadable (cause : FileError)
  | start (cause : StartError)
  | session (cause : SessionError)

def help : String :=
  "Runs a cartridge image without a window and reports its state\n\n" ++
  "Usage: famicom [OPTIONS] <ROM>\n\n" ++
  "Arguments:\n" ++
  "  <ROM>  Path of the image\n\n" ++
  "Options:\n" ++
  "  -f, --frames <FRAMES>  Number of frames to run [default: 60]\n" ++
  "      --headless         Draw nothing\n" ++
  "      --check-roundtrip  Load the state into a fresh console and compare\n" ++
  "      --check-backup     Go back to a backup and compare\n" ++
  "  -p, --press <PRESS>    Buttons to hold, such as a,start\n" ++
  "  -h, --help             Print help\n"

/-- A complaint about the arguments. Control sequences in what it quotes are left out. -/
def usageError (cause : UsageError) : String :=
  Text.plain (Text.mark "error:" ++ " " ++ cause.message ++
    "\n\nFor more information, try " ++ UsageError.quoted "--help" ++ ".\n")

/-- The options to run with, or the outcome if there is nothing to run. -/
def options (arguments : List String) : Except Outcome Options :=
  match Options.parse arguments with
  | .ok options => .ok options
  | .error .help => .error ⟨0, help, ""⟩
  | .error (.misuse cause) => .error ⟨2, "", usageError cause⟩

/-- The outermost cause first. -/
def loadCauses : Failure → List String
  | .unreadable cause =>
    let reason := s!"Failed to read ROM file: {cause.message}"
    [s!"Invalid cartridge: {reason}", reason, cause.message]
  | .start cause => cause.causes
  | .session cause => [cause.message]

/-- Several causes are numbered. -/
def causeLines : List String → List String
  | [cause] => ["    " ++ cause]
  | causes => causes.mapIdx fun i cause => s!"    {i}: {cause}"

def loadError (path : String) (causes : List String) : String :=
  s!"Error: loading {path}\n\nCaused by:\n" ++ "\n".intercalate (causeLines causes) ++ "\n"

def failure (options : Options) (cause : Failure) : Outcome :=
  match cause with
  | .session cause => ⟨101, "", s!"Error: {cause.message}\n"⟩
  | cause => ⟨1, "", loadError options.rom (loadCauses cause)⟩

def backupOutcome (options : Options) (console : Console) :
    Except SessionError (Option Bool × Console) :=
  if options.checkBackup then
    match Session.checkBackup options.buttons console with
    | .ok holds console => .ok (some holds, console)
    | .error cause _ => .error (.fault cause)
  else
    .ok (none, console)

def roundTripOutcome (options : Options) (console fresh : Console) :
    Except SessionError (Option Bool) :=
  if options.checkRoundTrip then
    (Session.checkRoundTrip options.buttons console fresh).map some
  else
    .ok none

/-- Plays the frames and makes the checks. The backup is checked first: it leaves the console where
it was. -/
def session (options : Options) (fresh : Console) : Except SessionError Report := do
  match Session.play options.buttons options.frames fresh with
  | .error cause _ => throw (.fault cause)
  | .ok _ console =>
    let report := Report.ofConsole options.rom options.frames console
    let (backup, console) ← backupOutcome options console
    let roundTrip ← roundTripOutcome options console fresh
    return { report with roundTrip := roundTrip, backup := backup }

/-- The report on the image that was read, if it could be read. -/
def report (options : Options) (image : Except FileError ByteArray) : Except Failure Report := do
  let raw ← image.mapError .unreadable
  let fresh ← (Console.ofImage raw options.headless).mapError .start
  (session options fresh).mapError .session

/-- A report with a failed check is printed all the same. -/
def run (options : Options) (image : Except FileError ByteArray) : Outcome :=
  match report options image with
  | .error cause => failure options cause
  | .ok report =>
    if report.passes then ⟨0, report.render ++ "\n", ""⟩
    else ⟨1, report.render ++ "\n", "Error: state check failed\n"⟩

end Famicom.Command
