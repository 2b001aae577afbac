import TreeSchema.Job
import TreeSchema.Text.Quoted

/-!
# The command line

Options with a value, flags, and what a run prints. A value may follow its option as the next
word, or in the same word.
-/

namespace TreeSchema.CommandLine

/-- Why arguments are not accepted; asking for help ends the program as well. -/
inductive UsageError where
  | unknownArgument
  | invalidValue
  | argumentConflict
  | tooManyValues
  | help
  deriving DecidableEq, Repr

def UsageError.exitCode : UsageError → Nat
  | help => 0
  | _ => 2

/-- The options that take a value. -/
inductive Key where
  | schema
  | out
  | imported
  deriving DecidableEq, Repr

inductive Flag where
  | strict
  | check
  | noOp
  | help
  deriving DecidableEq, Repr

/-- What a long name stands for. -/
def longName? (name : String) : Option (Key ⊕ Flag) :=
  match name with
  | "schema" => some (.inl .schema)
  | "out" => some (.inl .out)
  | "import" => some (.inl .imported)
  | "strict-spans" => some (.inr .strict)
  | "check" => some (.inr .check)
  | "no-op" => some (.inr .noOp)
  | "help" => some (.inr .help)
  | _ => none

/-- What has been read so far. -/
structure State where
  schema : Option String := none
  out : Option String := none
  imports : List String := []
  strict : Bool := false
  check : Bool := false
  noOp : Bool := false
  /-- The last option, with its value as soon as there is one. -/
  pending : Option (Key × Option String) := none
  /-- Only positional arguments may follow. -/
  trailing : Bool := false
  deriving DecidableEq, Repr

abbrev Result := Except UsageError State

/-- A path is given once and is not empty. -/
def setPath (old : Option String) (value : String) : Except UsageError String :=
  if old.isSome then .error .argumentConflict
  else if value.isEmpty then .error .invalidValue
  else .ok value

def setValue (st : State) (key : Key) (value : String) : Result :=
  match key with
  | .schema => (setPath st.schema value).map fun v => { st with schema := some v }
  | .out => (setPath st.out value).map fun v => { st with out := some v }
  | .imported => .ok { st with imports := st.imports ++ [value] }

/-- Settle the last option, which must have its value by now. -/
def resolvePending (st : State) : Result :=
  match st.pending with
  | none => .ok st
  | some (_, none) => .error .invalidValue
  | some (key, some value) => setValue { st with pending := none } key value

/-- A flag is given once. -/
def setFlag (old : Bool) (set : State) : Result :=
  if old then .error .argumentConflict else .ok set

def applyFlag (st : State) : Flag → Result
  | .strict => setFlag st.strict { st with strict := true }
  | .check => setFlag st.check { st with check := true }
  | .noOp => setFlag st.noOp { st with noOp := true }
  | .help => .error .help

/-- An option, with its value if that is in the same word. -/
def startOption (st : State) (key : Key) (value : Option String) : Result := do
  let st ← resolvePending st
  match value with
  | some value => setValue st key value
  | none => return { st with pending := some (key, none) }

/-- A word with two leading dashes: a name, and a value after an equals sign. -/
def readLong (st : State) (word : List Char) : Result :=
  let name := String.ofList (word.takeWhile (· != '='))
  let value := match word.dropWhile (· != '=') with
    | [] => none
    | _ :: rest => some (String.ofList rest)
  match longName? name, value with
  | none, _ => .error .unknownArgument
  | some (.inl key), value => startOption st key value
  | some (.inr _), some _ => .error .tooManyValues
  | some (.inr flag), none => do applyFlag (← resolvePending st) flag

/-- A word with one leading dash: a letter, and for an option its value right after. -/
def readShort (st : State) (word : List Char) : Result :=
  match word with
  | 'o' :: [] => startOption st .out none
  | 'o' :: '=' :: rest => startOption st .out (some (String.ofList rest))
  | 'o' :: rest => startOption st .out (some (String.ofList rest))
  | 'h' :: _ => do applyFlag (← resolvePending st) .help
  | _ => .error .unknownArgument

/-- Any other word is the value of the option before it. -/
def readWord (st : State) (word : String) : Result :=
  match st.pending with
  | some (key, none) => .ok { st with pending := some (key, some word) }
  | _ => .error .unknownArgument

def readArgument (st : State) (arg : String) : Result :=
  if st.trailing then .error .unknownArgument
  else
    match arg.toList with
    | ['-', '-'] => .ok { st with trailing := true }
    | '-' :: '-' :: word => readLong st word
    | '-' :: c :: word => readShort st (c :: word)
    | _ => readWord st arg

def readArguments : State → List String → Result
  | st, [] => resolvePending st
  | st, arg :: rest => do readArguments (← readArgument st arg) rest

/-- What the arguments ask for. -/
structure Options where
  schema : String
  out : String
  imports : List String
  strict : Bool
  check : Bool
  noOp : Bool
  deriving DecidableEq, Repr

def parse (args : List String) : Except UsageError Options := do
  let st ← readArguments {} args
  let base : Config := {}
  return {
    schema := st.schema.getD base.schemaPath
    out := st.out.getD base.outPath
    imports := st.imports
    strict := st.strict
    check := st.check
    noOp := st.noOp }

namespace Options

/-- Imports that are given replace the standard ones. -/
def config (o : Options) : Config :=
  let base : Config := { schemaPath := o.schema, outPath := o.out, strict := o.strict }
  if o.imports.isEmpty then base else { base with imports := o.imports }

/-- The options as a text, one to a line. -/
def describe (o : Options) : String :=
  let imports :=
    if o.imports.isEmpty then "[]"
    else "[\n" ++ String.join (o.imports.map fun i => "        " ++ Text.quoted i ++ ",\n") ++
      "    ]"
  "CommandLineInterface \x7b\n" ++
    "    schema: " ++ Text.quoted o.schema ++ ",\n" ++
    "    out: " ++ Text.quoted o.out ++ ",\n" ++
    "    imports: " ++ imports ++ ",\n" ++
    "    strict_spans: " ++ toString o.strict ++ ",\n" ++
    "    check: " ++ toString o.check ++ ",\n" ++
    "    no_op: " ++ toString o.noOp ++ ",\n" ++
    "\x7d\n"

end Options

/-- Why a run failed. -/
inductive Failure where
  | generation (schemaPath : String) (cause : Error)
  | outOfDate (path : String)
  deriving DecidableEq, Repr

namespace Failure

def message : Failure → String
  | generation schemaPath _ => s!"failed to generate from `{schemaPath}`"
  | outOfDate path => s!"{path} is out of date; run astgen without --check"

def cause? : Failure → Option Error
  | generation _ cause => some cause
  | outOfDate _ => none

end Failure

/-- What a run prints, and how it ends. -/
structure Report where
  stdout : String := ""
  stderr : String := ""
  failure : Option Failure := none
  deriving DecidableEq, Repr

def report (c : Config) : Except Error Job.Outcome → Report
  | .error cause => { failure := some (.generation c.schemaPath cause) }
  | .ok (.written _ _) => { stdout := "AST file generated.\n" }
  | .ok (.upToDate path) => { stdout := s!"{path} is up to date.\n" }
  | .ok (.stale path) => { failure := some (.outOfDate path) }

def run (o : Options) : FileProgram Report :=
  if o.noOp then .done { stderr := o.describe }
  else (Job.run o.config o.check).map (report o.config)

end TreeSchema.CommandLine
