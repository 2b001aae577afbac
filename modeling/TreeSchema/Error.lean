import TreeSchema.Draft
import TreeSchema.Gate
import TreeSchema.TypeExpr

/-!
# Errors

Why a schema cannot be loaded or turned into source text. Each cause is a constructor; the wording
is in the `message` functions.
-/

namespace TreeSchema

/-- What the file system reports. -/
inductive OsError where
  | notFound
  | busy
  | exists
  | notDirectory
  | isDirectory
  /-- A name, or a path as a whole, has too many bytes. -/
  | nameTooLong
  | invalidArgument
  /-- A path holds the character that ends paths. -/
  | endInPath
  /-- The file is not a text. -/
  | notText
  | other (description : String)
  deriving DecidableEq, Repr

def OsError.message : OsError → String
  | notFound => "No such file or directory (os error 2)"
  | busy => "Device or resource busy (os error 16)"
  | «exists» => "File exists (os error 17)"
  | notDirectory => "Not a directory (os error 20)"
  | isDirectory => "Is a directory (os error 21)"
  | nameTooLong => "File name too long (os error 36)"
  | invalidArgument => "Invalid argument (os error 22)"
  | endInPath => "file name contained an unexpected NUL byte"
  | notText => "stream did not contain valid UTF-8"
  | other description => description

namespace Document

/-- A fault in words. Where values are refused, the way to them stands first. -/
def Fault.message (written : List Branch) : Fault → String
  | malformed => "malformed document"
  | nesting => "recursion limit exceeded"
  | repetition => "repetition limit exceeded"
  | tag description => located description
  | key found => located s!"invalid type: {found}, expected a string"
  | wide n => located ("invalid type: " ++ describeInteger n ++ ", expected any value")
where
  located (text : String) : String :=
    if written.isEmpty then text else Branch.way written ++ ": " ++ text

end Document

namespace Draft.Fault

/-- Where a structural fault lies: the way to it, or a dot for the document itself. -/
def location : Fault → String
  | notMapping _ => "."
  | repeatedKey _ => "."
  | entry key => key
  | document way _ => Document.Branch.way way.meant

def message : Fault → String
  | notMapping found => s!"invalid type: {found}, expected a mapping with unique keys"
  | repeatedKey key => s!"duplicate key `{key}`"
  | entry _ => "data did not match any variant of untagged enum RawEntry"
  | document way fault => fault.message way.written

end Draft.Fault

/-- What is wrong with a single entry of the schema. -/
inductive ShapeFault where
  | entryName
  | notEnum (found : String)
  | expected (key what found : String)
  | gate (text : String)
  | rename (text : String)
  | variantName (key : String)
  | fieldName (key : String)
  | type (fault : TypeExpr.Fault)
  | derivedTrait (text : String)
  | child (text : String)
  | variantFieldName (variant key : String)
  | variantField (variant key found : String)
  deriving DecidableEq, Repr

def ShapeFault.message : ShapeFault → String
  | entryName => "entry names must be identifiers"
  | notEnum found => s!"`as` must be `Enum`, found {found}"
  | expected key what found => s!"`{key}` must be {what}, found {found}"
  | gate text => s!"invalid feature gate `{text}`"
  | rename text => s!"`rename` must be an identifier, found `{text}`"
  | variantName key => s!"variant `{key}` is not an identifier"
  | fieldName key => s!"field `{key}` is not an identifier"
  | type fault => fault.message
  | derivedTrait text => s!"`{text}` is not a derivable trait name"
  | child text => s!"invalid children entry `{text}`"
  | variantFieldName variant key => s!"variant field `{variant}.{key}` is not an identifier"
  | variantField variant key found =>
    s!"variant field `{variant}.{key}` must be a type expression, found {found}"

/-- The role of a name that is not declared. -/
inductive Role where
  | type
  | field
  | delegate
  | identityType
  | positionType
  | trait
  deriving DecidableEq, Repr

def Role.word : Role → String
  | type => "type"
  | field => "field"
  | delegate => "node for identity delegation"
  | identityType => "identity type"
  | positionType => "position type"
  | trait => "trait"

/-- Why a declared name cannot be used where it is. -/
inductive BadUse where
  | gated (gate : Gate)
  | wrapsNoKind (variant : String)
  | wrapsNoIdentity (variant : String)
  | childPosition
  | childNoKind (name : String)
  | childOutside (name : String)
  deriving DecidableEq, Repr

def BadUse.message : BadUse → String
  | gated gate =>
    "the referenced kind is only defined under `" ++ gate.cfgAttribute ++
      "`; guard the referring kind the same way"
  | wrapsNoKind variant =>
    s!"variant `{variant}` wraps a value that is not a node kind, " ++
      "so it has no identity to delegate to"
  | wrapsNoIdentity variant =>
    s!"variant `{variant}` delegates identity to a kind marked `node: false`"
  | childPosition => "a bare position is not a node and cannot be a child"
  | childNoKind name => s!"`{name}` is not a node kind and cannot be a child"
  | childOutside name => s!"`{name}` is outside the polymorphic view and cannot be a child"

/-- A rule that a schema as a whole must keep. -/
inductive Rule where
  | distinctName (name : String)
  | aliasChildren
  | idField
  | forcedPosition
  | someVariant
  | variantIdField (variant : String)
  | childrenInView
  | selfPayload (variant : String)
  | selfOnSum
  | qualifiedOnSum (field : String)
  | knownField (field : String)
  | qualified (field : String)
  | knownVariantField (field : String)
  | optionalField (field : String)
  | aliasPosition
  | productPosition
  | derivablePosition (variant : String)
  | reservedName (name : String)
  | someKind
  | ownMethod (method : String)
  | distinctAccessor (accessor other : String)
  deriving DecidableEq, Repr

def Rule.message : Rule → String
  | distinctName name =>
    s!"type name `{name}` is emitted more than once without mutually exclusive feature gates"
  | aliasChildren => "aliases cannot declare children"
  | idField => "field `id` collides with the synthesized identity field"
  | forcedPosition => "`span: true` on a product kind without a position field"
  | someVariant => "sum kinds need at least one variant"
  | variantIdField variant =>
    s!"field `{variant}.id` collides with the synthesized identity field"
  | childrenInView => "children declared on a kind outside the polymorphic view"
  | selfPayload variant =>
    s!"`children: self` requires wrapping variants, but `{variant}` has named fields"
  | selfOnSum => "`children: self` is only valid on sum kinds"
  | qualifiedOnSum field =>
    s!"`self.{field}` only applies to sum kinds with field-bearing variants"
  | knownField field => s!"children refers to missing field `{field}`"
  | qualified field => s!"children of a sum kind must be written `self.{field}`"
  | knownVariantField field => s!"children refers to `self.{field}`, which no variant declares"
  | optionalField field => s!"`{field}?` marks a field that is not an `Option`"
  | aliasPosition => "aliases have no position accessor"
  | productPosition => "positioned product kind without a position field"
  | derivablePosition variant => s!"variant `{variant}` has no derivable position"
  | reservedName name => s!"`{name}` is reserved for the polymorphic view"
  | someKind => "no kind participates in the polymorphic view"
  | ownMethod method => s!"accessor `{method}` collides with a method of `Node`"
  | distinctAccessor accessor other =>
    s!"accessor name `{accessor}` is also derived from `{other}`"

/-- Why there is no source text. -/
inductive Error where
  | unreadable (path : String) (cause : OsError)
  | document (path : String) (fault : Draft.Fault)
  | shape (entry : String) (fault : ShapeFault)
  | undeclared (entry : String) (role : Role) (name : String)
  | badUse (entry name : String) (reason : BadUse)
  | broken (entry : String) (rule : Rule)
  /-- The type of a child contains itself, so that following it never ends. -/
  | endless (entry field : String)
  | unwritable (path : String) (cause : OsError)
  deriving DecidableEq, Repr

def Error.message : Error → String
  | unreadable path cause => s!"failed to read schema `{path}`: " ++ cause.message
  | document path fault =>
    s!"failed to parse schema `{path}` at " ++ fault.location ++ ": " ++ fault.message
  | shape entry fault => s!"schema entry `{entry}`: " ++ fault.message
  | undeclared entry role name =>
    s!"`{entry}` refers to undeclared " ++ role.word ++ s!" `{name}`"
  | badUse entry name reason => s!"`{entry}` refers to `{name}`: " ++ reason.message
  | broken entry rule => s!"`{entry}`: " ++ rule.message
  | endless entry field => s!"`{entry}` refers to `{field}`: its type contains itself"
  | unwritable path cause => s!"cannot access output `{path}`: " ++ cause.message

end TreeSchema
