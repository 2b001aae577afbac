import TreeSchema.Artifact
import TreeSchema.Files.Program
import TreeSchema.Path
import TreeSchema.Schema.Load

/-!
# Jobs

Load a schema, write the artifact, and put it in its place, or compare it with what is there.
-/

namespace TreeSchema.Job

inductive Outcome where
  | written (path : String) (bytes : Nat)
  | upToDate (path : String)
  | stale (path : String)
  deriving DecidableEq, Repr

/-- Read a schema; its notation follows from the path. -/
def load (path : String) : FileProgram (Except Error Schema) :=
  .readText path fun
    | .error cause => .done (.error (.unreadable path cause))
    | .ok text => .done (Schema.parse path (Path.format path) text)

/-- The directory that a file is put into. -/
def directoryOf (path : String) : String :=
  match Path.parent? path with
  | none => "."
  | some parent => if parent.isEmpty then "." else parent

/-- Give up a temporary file. -/
def discard {α : Type} (temp : String) (result : α) : FileProgram α :=
  .remove temp (.done result)

/-- Write a text to a temporary file in the directory of the path, then give that file the path.
Whatever fails, the file at the path is the old one and the temporary one is gone. -/
def writeAtomic (path text : String) : FileProgram (Except Error Unit) :=
  let failed (cause : OsError) : Except Error Unit := .error (.unwritable path cause)
  .createDirs (directoryOf path) fun
    | .error cause => .done (failed cause)
    | .ok () => .createTemp (directoryOf path) fun
      | .error cause => .done (failed cause)
      | .ok temp => .writeText temp text fun
        | .error cause => discard temp (failed cause)
        | .ok () => .rename temp path fun
          | .error cause => discard temp (failed cause)
          | .ok () => .done (.ok ())

/-- Compare a text with the file at a path. A file that is not there differs from every text. -/
def compare (path text : String) : FileProgram (Except Error Outcome) :=
  .readText path fun
    | .ok current => .done (.ok (if current = text then .upToDate path else .stale path))
    | .error .notFound => .done (.ok (.stale path))
    | .error cause => .done (.error (.unwritable path cause))

/-- Put a text in its place. -/
def write (path text : String) : FileProgram (Except Error Outcome) :=
  (writeAtomic path text).map fun r => r.map fun () => .written path text.utf8ByteSize

def run (c : Config) (checkOnly : Bool) : FileProgram (Except Error Outcome) :=
  (load c.schemaPath).bind fun r =>
    match r.bind fun s => Artifact.generate s c with
    | .error e => .done (.error e)
    | .ok text => if checkOnly then compare c.outPath text else write c.outPath text

end TreeSchema.Job
