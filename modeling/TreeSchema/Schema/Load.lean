import TreeSchema.Error
import TreeSchema.Schema.Basic
import TreeSchema.Text.Split

/-!
# From drafts to schemas

Each entry of a draft is classified on its own. Some keys of a definition configure the entry; all
others are its fields or variants, in order.
-/

namespace TreeSchema

namespace Entry

open Draft (Value Body)

/-- The keys that configure an entry. -/
inductive Setting where
  | shape
  | derives
  | identity
  | children
  | gate
  | rename
  | position

/-- The setting that a key stands for; `span` is one only with a truth value. -/
def setting? (key : String) (value : Value) : Option Setting :=
  match key with
  | "as" => some .shape
  | "derive" => some .derives
  | "node" => some .identity
  | "children" => some .children
  | "feature" => some .gate
  | "rename" => some .rename
  | "span" =>
    match value with
    | .flag _ => some .position
    | _ => none
  | _ => none

abbrev Result := Except ShapeFault

def parseType (text : String) : Result TypeExpr :=
  match TypeExpr.parse text with
  | .ok t => .ok t
  | .error f => .error (.type f)

def expected {α : Type} (key what : String) (found : Value) : Result α :=
  .error (.expected key what found.describe)

/-- Trait names in a list, or in a text between commas. -/
def parseDerives (value : Value) : Result (List String) := do
  let items ← match value with
    | .text t => .ok ((Text.split ',' t.toList).map String.ofList)
    | .list items => .ok items
    | other => expected "derive" "a string or a list" other
  let items := (items.map Text.trim).filter fun t => !t.isEmpty
  match items.find? fun t => !Name.isPath t with
  | some bad => .error (.derivedTrait bad)
  | none => .ok items

def parseChild (text : String) : Result ChildRef :=
  match ChildRef.parse? text with
  | some ref => .ok ref
  | none => .error (.child text)

def isSelf (text : String) : Bool := Text.trim text == "self"

/-- The word `self`, or references. -/
def parseChildren (value : Value) : Result ChildrenSpec := do
  let items ← match value with
    | .text t => .ok [t]
    | .list items => .ok items
    | other => expected "children" "a list" other
  match items with
  | [only] => if isSelf only then return .variants else return .refs [← parseChild only]
  | items => return .refs (← items.mapM parseChild)

def parseGate (value : Value) : Result Gate :=
  match value with
  | .text t =>
    match Gate.parse? t with
    | some g => .ok g
    | none => .error (.gate t)
  | other => expected "feature" "a string" other

def parseRename (value : Value) : Result String :=
  match value with
  | .text t => if Name.isIdent t then .ok t else .error (.rename t)
  | other => expected "rename" "a string" other

def parseIdentity (value : Value) : Result Bool :=
  match value with
  | .flag b => .ok b
  | other => expected "node" "a boolean" other

/-- One member of a variant with fields. A truth value for `node` says whether the variant has an
identity. -/
def parseVariantMember (variant : String) (acc : Fields × Bool) (key : String) (value : Value) :
    Result (Fields × Bool) :=
  match value with
  | .flag b =>
    if key = "node" then .ok (acc.1, b)
    else .error (.variantField variant key value.describe)
  | .text t =>
    if !Name.isIdent key then .error (.variantFieldName variant key)
    else do return (acc.1 ++ [(key, ← parseType t)], acc.2)
  | other => .error (.variantField variant key other.describe)

/-- The members of a variant in turn. -/
def parseVariantMembers (variant : String) :
    Fields × Bool → List (String × Value) → Result (Fields × Bool)
  | acc, [] => .ok acc
  | acc, (key, value) :: rest => do
    let acc ← parseVariantMember variant acc key value
    parseVariantMembers variant acc rest

/-- Nothing or a blank text is a unit, another text the payload's type, a mapping the fields. -/
def parseVariant (variant : String) (value : Value) : Result Variant :=
  match value with
  | .null => .ok .unit
  | .text t =>
    if (Text.trim t).isEmpty then .ok .unit
    else do return .wrap (← parseType t)
  | .mapping members => do
    let (fields, hasId) ← parseVariantMembers variant ([], true) members
    return .struct fields hasId
  | other => expected variant "a payload type or a field mapping" other

/-- The entry read so far, with its fields or variants. -/
structure Partial where
  entry : Entry
  fields : Fields := []
  variants : List (String × Variant) := []

/-- Apply a setting. The shape is settled beforehand. -/
def configure (p : Partial) (setting : Setting) (value : Value) : Result Partial :=
  match setting with
  | .shape => .ok p
  | .derives => do
    let extraDerives ← parseDerives value
    return { p with entry := { p.entry with extraDerives } }
  | .identity => do
    let hasIdentity ← parseIdentity value
    return { p with entry := { p.entry with hasIdentity } }
  | .children => do
    let spec ← parseChildren value
    return { p with entry := { p.entry with children := some spec } }
  | .gate => do
    let gate ← parseGate value
    return { p with entry := { p.entry with gate := some gate } }
  | .rename => do
    let displayName ← parseRename value
    return { p with entry := { p.entry with displayName } }
  | .position =>
    let forcePosition := match value with
      | .flag b => b
      | _ => false
    .ok { p with entry := { p.entry with forcePosition } }

/-- Append a field or a variant. -/
def addMember (isSum : Bool) (p : Partial) (key : String) (value : Value) : Result Partial :=
  if isSum then
    if !Name.isIdent key then .error (.variantName key)
    else do
      let variant ← parseVariant key value
      return { p with variants := p.variants ++ [(key, variant)] }
  else if !Name.isIdent key then .error (.fieldName key)
  else
    match value with
    | .text t => do
      let type ← parseType t
      return { p with fields := p.fields ++ [(key, type)] }
    | other => expected key "a type expression" other

/-- A setting, or else a field or a variant. -/
def addPair (isSum : Bool) (p : Partial) (key : String) (value : Value) : Result Partial :=
  match setting? key value with
  | some setting => configure p setting value
  | none => addMember isSum p key value

/-- The members of a definition in turn. -/
def addMembers (isSum : Bool) : Partial → List (String × Value) → Result Partial
  | p, [] => .ok p
  | p, (key, value) :: rest => do
    let p ← addPair isSum p key value
    addMembers isSum p rest

/-- A definition is a sum if it says so. -/
def parseSum (members : List (String × Value)) : Result Bool :=
  match members.lookup "as" with
  | none => .ok false
  | some (.text t) =>
    if t = "Enum" then .ok true else .error (.notEnum (Value.text t).describe)
  | some other => .error (.notEnum other.describe)

def parseBody (name : String) : Body → Result Entry
  | .aliasOf target => do
    let t ← parseType target
    return { name, displayName := name, shape := .aliasOf t }
  | .definition members => do
    let isSum ← parseSum members
    let start : Entry := { name, displayName := name, shape := .product [] }
    let p ← addMembers isSum { entry := start } members
    return { p.entry with shape := if isSum then .sum p.variants else .product p.fields }

/-- Classify an entry of a draft. -/
def parse (name : String) (body : Body) : Except Error Entry :=
  if !Name.isIdent name then .error (.shape name .entryName)
  else
    match parseBody name body with
    | .error f => .error (.shape name f)
    | .ok e => .ok e

theorem name_configure {p q : Partial} {setting : Setting} {value : Value}
    (h : configure p setting value = .ok q) : q.entry.name = p.entry.name := by
  cases setting <;> simp only [configure, bind, Except.bind, pure, Except.pure] at h
  case shape => cases h; rfl
  case position => cases h; rfl
  all_goals
    split at h
    · cases h
    · cases h; rfl

theorem name_addMember {isSum : Bool} {p q : Partial} {key : String} {value : Value}
    (h : addMember isSum p key value = .ok q) : q.entry.name = p.entry.name := by
  unfold addMember at h
  simp only [expected, bind, Except.bind, pure, Except.pure] at h
  repeat' split at h
  all_goals first | cases h; rfl | cases h

theorem name_addPair {isSum : Bool} {p q : Partial} {key : String} {value : Value}
    (h : addPair isSum p key value = .ok q) : q.entry.name = p.entry.name := by
  unfold addPair at h
  split at h
  · exact name_configure h
  · exact name_addMember h

theorem name_addMembers {isSum : Bool} {p q : Partial} {members : List (String × Value)}
    (h : addMembers isSum p members = .ok q) : q.entry.name = p.entry.name := by
  induction members generalizing p with
  | nil => cases h; rfl
  | cons m rest ih =>
    obtain ⟨key, value⟩ := m
    simp only [addMembers, bind, Except.bind] at h
    split at h
    · cases h
    · next p' hp => rw [ih h, name_addPair hp]

/-- An entry keeps the name it has in the draft. -/
theorem name_parse {name : String} {body : Body} {e : Entry} (h : parse name body = .ok e) :
    e.name = name := by
  unfold parse at h
  split at h
  · cases h
  · split at h
    · cases h
    · next e' he =>
      cases h
      cases body with
      | aliasOf target =>
        simp only [parseBody, bind, Except.bind, pure, Except.pure] at he
        split at he
        · cases he
        · cases he; rfl
      | definition members =>
        simp only [parseBody, bind, Except.bind, pure, Except.pure] at he
        split at he
        · cases he
        · split at he
          · cases he
          · next p hp => cases he; exact name_addMembers hp

end Entry

namespace Schema

/-- The entries of a draft in turn. -/
def parseEntries : List (String × Draft.Body) → Except Error (List Entry)
  | [] => .ok []
  | (name, body) :: rest =>
    match Entry.parse name body with
    | .error f => .error f
    | .ok e =>
      match parseEntries rest with
      | .error f => .error f
      | .ok es => .ok (e :: es)

theorem names_parseEntries {items : List (String × Draft.Body)} {es : List Entry}
    (h : parseEntries items = .ok es) : es.map Entry.name = items.map Prod.fst := by
  induction items generalizing es with
  | nil => cases h; rfl
  | cons item rest ih =>
    obtain ⟨name, body⟩ := item
    simp only [parseEntries] at h
    split at h
    · cases h
    · next e he =>
      split at h
      · cases h
      · next es' hes =>
        cases h
        simp [Entry.name_parse he, ih hes]

/-- Classify all entries; the first fault is reported. -/
def ofDraft (d : Draft) : Except Error Schema :=
  match h : parseEntries d.entries with
  | .error f => .error f
  | .ok es => .ok ⟨es, (names_parseEntries h) ▸ d.nodup⟩

/-- Read a schema from a text; the path is only a label in errors. -/
def parse (path : String) (format : Document.Format) (text : String) : Except Error Schema :=
  match Draft.parse format text with
  | .error f => .error (.document path f)
  | .ok d => ofDraft d

end Schema

end TreeSchema
