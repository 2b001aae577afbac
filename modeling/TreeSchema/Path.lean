import TreeSchema.Document.Tree
import TreeSchema.Text.Split

/-!
# Paths

Paths are texts with components between slashes. Empty components and single dots mean nothing,
except for a dot at the start.
-/

namespace TreeSchema.Path

/-- The pieces between slashes. -/
def pieces (path : String) : List String := (Text.split '/' path.toList).map String.ofList

def isAbsolute (path : String) : Bool := path.startsWith "/"

/-- The pieces that mean something. -/
def components (path : String) : List String :=
  let meant (p : String) : Bool := p != "" && p != "."
  match pieces path with
  | "." :: rest => "." :: rest.filter meant
  | ps => ps.filter meant

/-- The last component, unless it is made of dots only. -/
def fileName? (path : String) : Option String :=
  (components path).getLast?.filter fun p => p != "." && p != ".."

/-- What stands after the last dot of a file name, unless that dot starts it. -/
def extension? (path : String) : Option String := do
  let name ← fileName? path
  let after := name.toList.reverse.takeWhile (· != '.')
  if after.length + 1 < name.length then some (String.ofList after.reverse) else none

/-- The path without its last component. -/
def parent? (path : String) : Option String :=
  match components path with
  | [] => none
  | cs =>
    let body := "/".intercalate cs.dropLast
    some (if isAbsolute path then "/" ++ body else body)

/-- The notation of a file, which is the strict one for the extension `json` only. -/
def format (path : String) : Document.Format :=
  if extension? path = some "json" then .json else .yaml

end TreeSchema.Path
