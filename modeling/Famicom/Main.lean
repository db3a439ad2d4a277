import Famicom.Command

/-! The program: reads the image, prints what the command says, and ends with its code. -/

namespace Famicom

/-- The code of a path through something that is no directory, and its negation. -/
def notDirectoryCodes : List UInt32 := [20, 0 - 20]

/-- The code of a name or a path that is too long, and its negation. -/
def nameTooLongCodes : List UInt32 := [36, 0 - 36]

def fileError : IO.Error → FileError
  | .noFileOrDirectory .. => .notFound
  | .permissionDenied .. => .accessDenied
  | .inappropriateType _ code _ =>
    if code ∈ notDirectoryCodes then .notDirectory else .isDirectory
  | .invalidArgument filename code details =>
    if code ∈ nameTooLongCodes then .nameTooLong
    else .other (toString (IO.Error.invalidArgument filename code details))
  | cause => .other (toString cause)

def readImage (path : String) : IO (Except FileError ByteArray) := do
  try
    return .ok (← IO.FS.readBinFile path)
  catch cause =>
    return .error (fileError cause)

def outcome (arguments : List String) : IO Command.Outcome := do
  match Command.options arguments with
  | .error outcome => return outcome
  | .ok options => return Command.run options (← readImage options.rom)

end Famicom

def main (arguments : List String) : IO UInt32 := do
  let outcome ← Famicom.outcome arguments
  IO.print outcome.output
  IO.eprint outcome.errors
  return outcome.exitCode
