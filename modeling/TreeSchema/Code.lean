import TreeSchema.Gate

/-!
# Source text in the making

A `Writer` holds the text written so far and the current indentation. Source text is rendered as the
requests that are made of a writer, one after the other. A block is started by one request and ended
by another, and nothing in a list of requests says that the two come in pairs.
-/

namespace TreeSchema

structure Writer where
  text : String := ""
  depth : Nat := 0
  deriving DecidableEq, Repr

namespace Writer

def empty : Writer := {}

/-- Four blanks for each open block. -/
def indentation (depth : Nat) : String := String.ofList (List.replicate (4 * depth) ' ')

/-- A line at the current indentation; an empty line gets none. -/
def line (w : Writer) (text : String) : Writer :=
  if text.isEmpty then { w with text := w.text ++ "\n" }
  else { w with text := w.text ++ (indentation w.depth ++ (text ++ "\n")) }

/-- A line after which the text is indented one level more. -/
def openBlock (w : Writer) (text : String) : Writer :=
  let w := w.line text
  { w with depth := w.depth + 1 }

/-- A line one level further out. At the left margin there is no such level, and the line stays
there. -/
def closeBlock (w : Writer) (text : String) : Writer :=
  { w with depth := w.depth - 1 }.line text

/-- A line one level further out, after which the text is indented again. -/
def reopenBlock (w : Writer) (text : String) : Writer :=
  let w := w.closeBlock text
  { w with depth := w.depth + 1 }

def blank (w : Writer) : Writer := { w with text := w.text ++ "\n" }

/-- The attribute line of a gate. -/
def gate (w : Writer) : Option Gate → Writer
  | none => w
  | some g => w.line g.cfgAttribute

end Writer

/-- What a writer is asked to do. -/
inductive Request where
  | line (text : String)
  | blank
  | openBlock (text : String)
  | closeBlock (text : String)
  | reopenBlock (text : String)
  | gate (gate : Option Gate)

def Request.obey (w : Writer) : Request → Writer
  | line text => w.line text
  | blank => w.blank
  | openBlock text => w.openBlock text
  | closeBlock text => w.closeBlock text
  | reopenBlock text => w.reopenBlock text
  | gate g => w.gate g

/-- Source text as the requests by which it is written. -/
abbrev Code := List Request

/-- Requests carried out one after the other. -/
def Writer.obey (w : Writer) (code : Code) : Writer := code.foldl Request.obey w

/-- The text of some code at the left margin. -/
def Code.text (code : Code) : String := (Writer.empty.obey code).text

end TreeSchema
