import TreeSchema.Document.Yaml.Token.Stream

/-!
# Events

The structure of a document as the list of its scalars and of the starts and ends of its
containers. Events are produced as far as the tokens go; what comes before a fault is kept.
-/

namespace TreeSchema.Document.Yaml

inductive Event where
  | aliasOf (name : String)
  | scalar (text : String) (plain : Bool) (anchor : Option String) (tag : Option Tag)
  | sequenceStart (anchor : Option String) (tag : Option Tag)
  | sequenceEnd
  | mappingStart (anchor : Option String) (tag : Option Tag)
  | mappingEnd
  deriving DecidableEq, Repr

/-- What is expected next. -/
inductive Goal where
  /-- The content of a document after an explicit start. -/
  | content
  /-- A value; in a block, or as the value of a key, more kinds of values are possible. -/
  | node (block ofKey : Bool)
  | blockEntries
  | keyEntries
  | blockKeys
  | blockValue
  | flowEntries (first : Bool)
  | pairKey
  | pairValue
  | pairEnd
  | flowKeys (first : Bool)
  | flowValue
  | flowNoValue
  deriving DecidableEq, Repr

namespace Event

/-- A value that is not written at all. -/
def nothing : Event := .scalar "" true none none

/-- The handles of tags and what they stand for. -/
abbrev Handles := List (String × Tag)

/-- The tag of a standard type, which starts as the standard handle says. -/
def standardTag (name : String) : Tag :=
  ("tag:yaml.org,2002:" ++ name).toList.map (·.toNat.toUInt8)

def standardHandles : Handles := [("!", [Token.exclamation]), ("!!", standardTag "")]

/-- What one goal leads to: events, and goals that come before the others. -/
structure Step where
  events : List Event := []
  goals : List Goal := []
  stream : Stream

def resolveTag (handles : Handles) (handle : String) (suffix : Tag) : Option Tag :=
  if handle.isEmpty then some suffix else (handles.lookup handle).map (· ++ suffix)

/-- What the tag before a value stands for, if there is one. -/
def tagOf? (handles : Handles) : Option (String × Tag) → Option (Option Tag)
  | none => some none
  | some (handle, suffix) => (resolveTag handles handle suffix).map some

/-- The anchor and tag before a value, each at most once and in either order. -/
def readProperties (s : Stream) :
    Option (Option String × Option (String × Tag) × Token × Stream) := do
  let (t, s) ← s.peek
  match t with
  | .anchor a =>
    let (t, s) ← s.peekNext
    match t with
    | .tag h x => let (t, s) ← s.peekNext; return (some a, some (h, x), t, s)
    | _ => return (some a, none, t, s)
  | .tag h x =>
    let (t, s) ← s.peekNext
    match t with
    | .anchor a => let (t, s) ← s.peekNext; return (some a, some (h, x), t, s)
    | _ => return (none, some (h, x), t, s)
  | _ => return (none, none, t, s)

def node (handles : Handles) (block ofKey : Bool) (s : Stream) : Option Step := do
  let (t, s) ← s.peek
  match t with
  | .aliasOf name => return { events := [.aliasOf name], stream := s.drop }
  | _ =>
    let (anchor, properties, t, s) ← readProperties s
    let tag ← tagOf? handles properties
    match t with
    | .blockEntry =>
      if ofKey then
        return { events := [.sequenceStart anchor tag], goals := [.keyEntries], stream := s }
      else unwritten anchor tag s
    | .scalar text plain =>
      return { events := [.scalar text plain anchor tag], stream := s.drop }
    | .flowSequenceStart =>
      return { events := [.sequenceStart anchor tag], goals := [.flowEntries true],
               stream := s.drop }
    | .flowMappingStart =>
      return { events := [.mappingStart anchor tag], goals := [.flowKeys true], stream := s.drop }
    | .blockSequenceStart =>
      if block then
        return { events := [.sequenceStart anchor tag], goals := [.blockEntries],
                 stream := s.drop }
      else unwritten anchor tag s
    | .blockMappingStart =>
      if block then
        return { events := [.mappingStart anchor tag], goals := [.blockKeys], stream := s.drop }
      else unwritten anchor tag s
    | _ => unwritten anchor tag s
where
  /-- An anchor or tag may stand before nothing. -/
  unwritten (anchor : Option String) (tag : Option Tag) (s : Stream) : Option Step :=
    if anchor.isSome || tag.isSome then
      some { events := [.scalar "" true anchor tag], stream := s }
    else none

/-- A value unless one of the given tokens shows that there is none. -/
def nodeUnless (ends : List Token) (block ofKey : Bool) (after : List Goal) (s : Stream) :
    Option Step := do
  let (t, s) ← s.peek
  if ends.contains t then return { events := [nothing], goals := after, stream := s }
  else return { goals := .node block ofKey :: after, stream := s }

/-- An entry of a bracketed sequence, which may be a single pair, or its end. -/
def flowEntry (s : Stream) : Option Step := do
  let (t, s) ← s.peek
  match t with
  | .flowSequenceEnd => return { events := [.sequenceEnd], stream := s.drop }
  | .key =>
    return { events := [.mappingStart none none], goals := [.pairKey, .flowEntries false],
             stream := s.drop }
  | _ => return { goals := [.node false false, .flowEntries false], stream := s }

/-- A key of a bracketed mapping, or its end. -/
def flowKey (s : Stream) : Option Step := do
  let (t, s) ← s.peek
  match t with
  | .flowMappingEnd => return { events := [.mappingEnd], stream := s.drop }
  | .key =>
    nodeUnless [.value, .flowEntry, .flowMappingEnd] false false [.flowValue, .flowKeys false]
      s.drop
  | _ => return { goals := [.node false false, .flowNoValue, .flowKeys false], stream := s }

/-- In a bracketed collection, a comma stands before every item but the first. -/
def flowItem (first : Bool) (close : Token) (item : Stream → Option Step) (s : Stream) :
    Option Step := do
  let (t, s) ← s.peek
  if first || t == close then item s
  else if t == .flowEntry then item s.drop
  else none

/-- One goal against the next tokens; nothing if they do not fit. -/
def step (handles : Handles) (g : Goal) (s : Stream) : Option Step := do
  match g with
  | .content =>
    let (t, s) ← s.peek
    match t with
    | .version _ _ | .tagDirective _ _ | .documentStart | .documentEnd | .streamEnd =>
      return { events := [nothing], stream := s }
    | _ => return { goals := [.node true false], stream := s }
  | .node block ofKey => node handles block ofKey s
  | .blockEntries =>
    let (t, s) ← s.peek
    match t with
    | .blockEntry => nodeUnless [.blockEntry, .blockEnd] true false [.blockEntries] s.drop
    | .blockEnd => return { events := [.sequenceEnd], stream := s.drop }
    | _ => none
  | .keyEntries =>
    let (t, s) ← s.peek
    match t with
    | .blockEntry =>
      nodeUnless [.blockEntry, .key, .value, .blockEnd] true false [.keyEntries] s.drop
    | _ => return { events := [.sequenceEnd], stream := s }
  | .blockKeys =>
    let (t, s) ← s.peek
    match t with
    | .key => nodeUnless [.key, .value, .blockEnd] true true [.blockValue] s.drop
    | .blockEnd => return { events := [.mappingEnd], stream := s.drop }
    | _ => none
  | .blockValue =>
    let (t, s) ← s.peek
    match t with
    | .value => nodeUnless [.key, .value, .blockEnd] true true [.blockKeys] s.drop
    | _ => return { events := [nothing], goals := [.blockKeys], stream := s }
  | .flowEntries first => flowItem first .flowSequenceEnd flowEntry s
  | .pairKey =>
    let (t, s) ← s.peek
    if t == .value || t == .flowEntry || t == .flowSequenceEnd then
      return { events := [nothing], goals := [.pairValue], stream := s.drop }
    else return { goals := [.node false false, .pairValue], stream := s }
  | .pairValue =>
    let (t, s) ← s.peek
    if t == .value then nodeUnless [.flowEntry, .flowSequenceEnd] false false [.pairEnd] s.drop
    else return { events := [nothing], goals := [.pairEnd], stream := s }
  | .pairEnd =>
    let (_, s) ← s.peek
    return { events := [.mappingEnd], stream := s }
  | .flowKeys first => flowItem first .flowMappingEnd flowKey s
  | .flowValue =>
    let (t, s) ← s.peek
    if t == .value then nodeUnless [.flowEntry, .flowMappingEnd] false false [] s.drop
    else return { events := [nothing], stream := s }
  | .flowNoValue =>
    let (_, s) ← s.peek
    return { events := [nothing], stream := s }

/-- Reach the goals in turn. The second part is the stream after the last goal, unless the tokens
stop fitting. -/
def run (handles : Handles) : Nat → List Goal → Stream → List Event × Option Stream
  | 0, _, _ => ([], none)
  | _ + 1, [], s => ([], some s)
  | fuel + 1, g :: goals, s =>
    match step handles g s with
    | none => ([], none)
    | some step =>
      let (events, rest) := run handles fuel (step.goals ++ goals) step.stream
      (step.events ++ events, rest)

/-- The directives before a document. -/
def readDirectives : Nat → Bool → Handles → Stream → Option (Handles × Stream)
  | 0, _, _, _ => none
  | fuel + 1, versioned, handles, s => do
    let (t, s) ← s.peek
    match t with
    | .version major minor =>
      if versioned || major != 1 || (minor != 1 && minor != 2) then none
      else readDirectives fuel true handles s.drop
    | .tagDirective handle meaning =>
      if (handles.lookup handle).isSome then none
      else readDirectives fuel versioned (handles ++ [(handle, meaning)]) s.drop
    | _ => return (handles, s)

/-- How the first document starts: its goal, or nothing if there is no document. -/
def start (fuel : Nat) (s : Stream) : Option (Option Goal × Handles × Stream) := do
  let (t, s) ← s.peek
  match t with
  | .streamEnd => return (none, [], s)
  | .version _ _ | .tagDirective _ _ | .documentStart =>
    let (handles, s) ← readDirectives fuel false [] s
    let (t, s) ← s.peek
    if t == .documentStart then
      return (some .content, handles ++ standardHandles, s.drop)
    else none
  | _ => return (some (.node true false), standardHandles, s)

/-- Nothing but ends of documents follows. -/
def atEnd : Nat → Stream → Bool
  | 0, _ => false
  | fuel + 1, s =>
    match s.peek with
    | some (.documentEnd, s) => atEnd fuel s.drop
    | some (.streamEnd, _) => true
    | _ => false

/-- The events of a text's only document, and whether the whole text is well formed. -/
def ofText (text : List Char) : List Event × Bool :=
  let fuel := 20 * text.length + 100
  match start fuel (Stream.ofChars text) with
  | none => ([], false)
  | some (none, _, _) => ([], true)
  | some (some goal, handles, s) =>
    let (events, rest) := run handles fuel [goal] s
    (events, rest.any (atEnd fuel))

end Event

end TreeSchema.Document.Yaml
