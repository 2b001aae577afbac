import TreeSchema.CommandLine

/-!
# The program

Carries out requests on the files of the machine, and prints what a run reports.
-/

namespace TreeSchema

/-- The domain's word for a failure of the operating system, whose codes come with either sign. -/
def OsError.ofSystem (e : IO.Error) : OsError :=
  match e with
  | .noFileOrDirectory .. => .notFound
  | .alreadyExists .. => .exists
  | .resourceBusy .. => .busy
  | .inappropriateType _ code _ =>
    if code = 21 ∨ code + 21 = 0 then .isDirectory else .notDirectory
  | .invalidArgument _ code _ =>
    if code = 36 ∨ code + 36 = 0 then .nameTooLong else .invalidArgument
  | e => .other (toString e)

namespace Machine

/-- Run an action and keep its failure as an answer. -/
def attempt {α : Type} (action : IO α) : BaseIO (Except OsError α) := do
  return (← action.toBaseIO).mapError OsError.ofSystem

def readText (path : String) : BaseIO (Except OsError String) := do
  match ← attempt (IO.FS.readBinFile path) with
  | .error e => return .error e
  | .ok bytes =>
    match String.fromUTF8? bytes with
    | some text => return .ok text
    | none => return .error .notText

/-- Create an empty file under the first name that is free, with a limit on the tries. -/
def createTemp (directory : String) : Nat → Nat → BaseIO (Except OsError String)
  | 0, _ => return .error .exists
  | tries + 1, number => do
    let path := directory ++ "/.tmp" ++ toString number
    match ← attempt (IO.FS.Handle.mk path .writeNew) with
    | .ok _ => return .ok path
    | .error .exists => createTemp directory tries (number + 1)
    | .error e => return .error e

end Machine

open Machine (attempt)

/-- Carry out a program on the machine. -/
def FileProgram.perform {α : Type} : FileProgram α → BaseIO α
  | done a => return a
  | readText path next => do (next (← Machine.readText path)).perform
  | createDirs path next => do (next (← attempt (IO.FS.createDirAll path))).perform
  | createTemp directory next => do
    (next (← Machine.createTemp directory 65536 0)).perform
  | writeText path text next => do (next (← attempt (IO.FS.writeFile path text))).perform
  | rename source target next => do (next (← attempt (IO.FS.rename source target))).perform
  | remove path next => do
    let _ ← attempt (IO.FS.removeFile path)
    next.perform

namespace CommandLine

def UsageError.message : UsageError → String
  | unknownArgument => "error: unexpected argument found"
  | invalidValue => "error: a value is required, and a path must not be empty"
  | argumentConflict => "error: an argument cannot be used multiple times"
  | tooManyValues => "error: a flag takes no value"
  | help =>
    "generate AST node types, identity/position accessors and the `NodeKind` view " ++
      "from a YAML schema\n\n" ++
      "Usage: astgen [OPTIONS]\n\n" ++
      "Options:\n" ++
      "      --schema <SCHEMA>  schema file (.yaml, or .json)\n" ++
      "  -o, --out <OUT>        output .rs file\n" ++
      "      --import <PATH>    import path for the generated file; may be repeated\n" ++
      "      --strict-spans     fail on sum variants with no derivable position\n" ++
      "      --check            compare against the existing output instead of writing it\n" ++
      "      --no-op            print the options and do nothing\n" ++
      "  -h, --help             print this text"

/-- What is printed about a failed run. -/
def Failure.account (f : Failure) : String :=
  "Error: " ++ f.message ++ match f.cause? with
    | some cause => "\n\nCaused by:\n    " ++ cause.message
    | none => ""

end CommandLine

end TreeSchema

open TreeSchema CommandLine in
def main (args : List String) : IO UInt32 := do
  match parse args with
  | .error .help =>
    IO.println UsageError.help.message
    return 0
  | .error e =>
    IO.eprintln e.message
    return e.exitCode.toUInt32
  | .ok options =>
    let report ← (run options).perform
    IO.print report.stdout
    IO.eprint report.stderr
    match report.failure with
    | none => return 0
    | some failure =>
      IO.eprintln failure.account
      return 1
