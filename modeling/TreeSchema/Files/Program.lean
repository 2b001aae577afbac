import TreeSchema.Error

/-!
# Programs on files

What is done to the file system, as a tree of requests: each request is followed by what happens
for every answer to it. How requests are answered is said elsewhere.
-/

namespace TreeSchema

inductive FileProgram (α : Type) where
  | done (result : α)
  | readText (path : String) (next : Except OsError String → FileProgram α)
  /-- Create a directory and those above it, unless they are there. -/
  | createDirs (path : String) (next : Except OsError Unit → FileProgram α)
  /-- Create an empty file of a new name in a directory; the answer is its path. -/
  | createTemp (directory : String) (next : Except OsError String → FileProgram α)
  | writeText (path text : String) (next : Except OsError Unit → FileProgram α)
  /-- Give a file another name, in place of a file that has it. -/
  | rename (source target : String) (next : Except OsError Unit → FileProgram α)
  | remove (path : String) (next : FileProgram α)

namespace FileProgram

variable {α β : Type}

def bind : FileProgram α → (α → FileProgram β) → FileProgram β
  | done a, f => f a
  | readText path next, f => .readText path fun r => (next r).bind f
  | createDirs path next, f => .createDirs path fun r => (next r).bind f
  | createTemp directory next, f => .createTemp directory fun r => (next r).bind f
  | writeText path text next, f => .writeText path text fun r => (next r).bind f
  | rename source target next, f => .rename source target fun r => (next r).bind f
  | remove path next, f => .remove path (next.bind f)

def map (f : α → β) (p : FileProgram α) : FileProgram β := p.bind fun a => .done (f a)

end FileProgram

end TreeSchema
