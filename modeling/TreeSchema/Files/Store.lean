import TreeSchema.Files.Program
import TreeSchema.Path
import TreeSchema.Text.Utf8

/-!
# Stores

A file system in memory: directories and files by location, with the answers that requests get
there. Paths start at the topmost directory.
-/

namespace TreeSchema

/-- The names on the way from the topmost directory. -/
abbrev Location := List String

inductive StoreItem where
  | directory
  | file (bytes : ByteArray)

structure Store where
  items : List (Location × StoreItem)

namespace Store

def empty : Store := ⟨[]⟩

/-- What is at a location; the topmost directory is always there. -/
def item? (s : Store) (loc : Location) : Option StoreItem :=
  if loc = [] then some .directory else s.items.lookup loc

def isDirectory (s : Store) (loc : Location) : Bool :=
  match s.item? loc with
  | some .directory => true
  | _ => false

def erase (s : Store) (loc : Location) : Store := ⟨s.items.filter (·.1 != loc)⟩

def set (s : Store) (loc : Location) (item : StoreItem) : Store :=
  ⟨(s.erase loc).items ++ [(loc, item)]⟩

/-- What is wrong with a path before anything is looked up: a path has fewer than 4096 bytes, and
no zero among them. -/
def refusal? (path : String) : Option OsError :=
  if path.isEmpty then some .notFound
  else if path.toList.any (·.toNat == 0) then some .endInPath
  else if path.utf8ByteSize ≥ 4096 then some .nameTooLong
  else none

/-- A name has at most 255 bytes. -/
def isTooLong (name : String) : Bool := name.utf8ByteSize > 255

/-- Follow the pieces of a path. All but the last must be directories. -/
def walk (s : Store) : Location → List String → Except OsError Location
  | loc, [] => .ok loc
  | loc, piece :: rest =>
    if !s.isDirectory loc then .error .notDirectory
    else if piece = "" ∨ piece = "." then s.walk loc rest
    else if piece = ".." then s.walk loc.dropLast rest
    else if isTooLong piece then .error .nameTooLong
    else if (s.item? (loc ++ [piece])).isSome then s.walk (loc ++ [piece]) rest
    else .error .notFound

/-- The location of something that is there. -/
def find (s : Store) (path : String) : Except OsError Location :=
  match refusal? path with
  | some e => .error e
  | none => s.walk [] (Path.pieces path)

def isDirectoryPath (s : Store) (path : String) : Bool :=
  match s.find path with
  | .ok loc => s.isDirectory loc
  | .error _ => false

/-- Where a path leads, except for its last piece, which need not be there. -/
structure Target where
  directory : Location
  name : String
  /-- The path ends in a slash. -/
  slash : Bool

/-- The name is one that can be given. -/
def Target.isPlain (t : Target) : Bool := t.name != "" && t.name != "." && t.name != ".."

def Target.location (t : Target) : Location := t.directory ++ [t.name]

def target (s : Store) (path : String) : Except OsError Target :=
  match refusal? path with
  | some e => .error e
  | none =>
    match (Path.pieces path).reverse.dropWhile (· == "") with
    | [] => .ok ⟨[], "", true⟩
    | name :: above =>
      match s.walk [] above.reverse with
      | .error e => .error e
      | .ok loc =>
        if !s.isDirectory loc then .error .notDirectory
        else if isTooLong name then .error .nameTooLong
        else .ok ⟨loc, name, (Path.pieces path).getLast? == some ""⟩

/-- Create one directory. -/
def makeDirectory (s : Store) (path : String) : Except OsError Store :=
  match s.target path with
  | .error e => .error e
  | .ok t =>
    if !t.isPlain || (s.item? t.location).isSome then .error .exists
    else .ok (s.set t.location .directory)

/-- Accept an error if the directory is there anyway. -/
def settleDirectory (s : Store) (path : String) :
    Except OsError Store → Except OsError Unit × Store
  | .ok s' => (.ok (), s')
  | .error e => if s.isDirectoryPath path then (.ok (), s) else (.error e, s)

/-- Create a directory, and first those above it that are missing. -/
def createDirs : Nat → String → Store → Except OsError Unit × Store
  | 0, _, s => (.error .notFound, s)
  | n + 1, path, s =>
    if path.isEmpty then (.ok (), s)
    else
      match s.makeDirectory path with
      | .error .notFound =>
        match Path.parent? path with
        | none => (.error (.other "failed to create whole tree"), s)
        | some parent =>
          match createDirs n parent s with
          | (.error e, s) => (.error e, s)
          | (.ok (), s) => s.settleDirectory path (s.makeDirectory path)
      | r => s.settleDirectory path r

def readBytes (s : Store) (path : String) : Except OsError ByteArray :=
  match s.find path with
  | .error e => .error e
  | .ok loc =>
    match s.item? loc with
    | none => .error .notFound
    | some .directory => .error .isDirectory
    | some (.file bytes) => .ok bytes

def readText (s : Store) (path : String) : Except OsError String :=
  match s.readBytes path with
  | .error e => .error e
  | .ok bytes =>
    match String.fromUTF8? bytes with
    | some text => .ok text
    | none => .error .notText

/-- The contents of a file as far as they are a text. -/
def showText (s : Store) (path : String) : Except OsError String :=
  (s.readBytes path).map fun bytes => Text.decodeDamaged bytes.toList

/-- The letters and digits that end the names of temporary files. -/
def tempAlphabet : List Char :=
  "0123456789ABCDEFGHIJKLMNOPQRSTUVWXYZabcdefghijklmnopqrstuvwxyz".toList

/-- The last places of a number, written in that alphabet from the lowest place on. -/
def tempEnding : Nat → Nat → List Char
  | 0, _ => []
  | places + 1, n => tempAlphabet.getD (n % 62) '0' :: tempEnding places (n / 62)

/-- The names of temporary files, in the order in which they are tried. -/
def tempName (n : Nat) : String := ".tmp" ++ String.ofList (tempEnding 6 n)

/-- How many names there are for temporary files. -/
def tempNameCount : Nat := Nat.pow 62 6

/-- The first name of a temporary file that is free in a directory. In a store with fewer items than
there are names, it is one of as many names as there are items, and one more. -/
def freeName? (s : Store) (directory : Location) : Option String :=
  ((List.range (s.items.length + 1)).map tempName).find? fun name =>
    (s.item? (directory ++ [name])).isNone

/-- Create a temporary file; its path must be one that can be used. -/
def createTemp (s : Store) (directory : String) : Except OsError (String × Store) :=
  match s.find directory with
  | .error e => .error e
  | .ok loc =>
    if !s.isDirectory loc then .error .notDirectory
    else
      match s.freeName? loc with
      | none => .error .exists
      | some name =>
        match refusal? (directory ++ "/" ++ name) with
        | some e => .error e
        | none =>
          .ok (directory ++ "/" ++ name, s.set (loc ++ [name]) (.file ByteArray.empty))

def writeBytes (s : Store) (path : String) (bytes : ByteArray) : Except OsError Store :=
  match s.target path with
  | .error e => .error e
  | .ok t =>
    if !t.isPlain || t.slash || s.isDirectory t.location then .error .isDirectory
    else .ok (s.set t.location (.file bytes))

/-- Give a file another name. A directory is not replaced. -/
def rename (s : Store) (source path : String) : Except OsError Store :=
  match s.find source, s.target path with
  | .error e, _ => .error e
  | _, .error .endInPath => .error .invalidArgument
  | _, .error e => .error e
  | .ok loc, .ok t =>
    if !t.isPlain then .error .busy
    else if t.slash then .error .notDirectory
    else if s.isDirectory t.location then .error .isDirectory
    else
      match s.item? loc with
      | none => .error .notFound
      | some item => .ok ((s.erase loc).set t.location item)

def remove (s : Store) (path : String) : Store :=
  match s.find path with
  | .ok loc => s.erase loc
  | .error _ => s

/-- All paths, directories with a slash at the end, in order. -/
def list (s : Store) : List String :=
  (s.items.map fun (loc, item) => "/".intercalate loc ++ match item with
    | .directory => "/"
    | .file _ => "").mergeSort fun a b => a ≤ b

/-- A request that fails whatever the store holds. -/
structure Fault where
  error : OsError
  /-- How many bytes of a text are written before that. -/
  reached : Nat := 0

/-- Which of the requests to come fail by themselves. -/
abbrev Faults := List (Option Fault)

/-- The answer to a request that may fail by itself. -/
def answer {α : Type} (faults : Faults) (r : Except OsError α) : Except OsError α :=
  match faults.head?.join with
  | some fault => .error fault.error
  | none => r

/-- What gets written of some bytes. -/
def reached (faults : Faults) (bytes : ByteArray) : ByteArray :=
  match faults.head?.join with
  | some fault => bytes.extract 0 fault.reached
  | none => bytes

/-- The store after a request: unchanged by one that failed. -/
def after (s : Store) : Except OsError Store → Store
  | .ok s' => s'
  | .error _ => s

end Store

namespace FileProgram

/-- Carry out a program on a store. A request that fails leaves all files as they are, but for the
file that is being written, which may hold a part of the text, and directories may have been made;
removing a file does not fail. -/
def run {α : Type} : FileProgram α → Store.Faults → Store → α × Store
  | done a, _, s => (a, s)
  | readText path next, faults, s =>
    (next (Store.answer faults (s.readText path))).run faults.tail s
  | createDirs path next, faults, s =>
    let (r, s') := Store.createDirs ((Path.components path).length + 1) path s
    (next (Store.answer faults r)).run faults.tail s'
  | createTemp directory next, faults, s =>
    let r := Store.answer faults (s.createTemp directory)
    (next (r.map Prod.fst)).run faults.tail (s.after (r.map Prod.snd))
  | writeText path text next, faults, s =>
    let r := s.writeBytes path (Store.reached faults text.toUTF8)
    (next (Store.answer faults (r.map fun _ => ()))).run faults.tail (s.after r)
  | rename source target next, faults, s =>
    let r := Store.answer faults (s.rename source target)
    (next (r.map fun _ => ())).run faults.tail (s.after r)
  | remove path next, faults, s => next.run faults.tail (s.remove path)

end FileProgram

end TreeSchema
