import Ili.Catalog.Basic
import Ili.Catalog.MetaAttributes
import Ili.Outline

/-!
# From trees to catalogs

One walk over the tree of a file notes its definitions and references in the order they are met.
Nothing is looked up. What has no name is left out, together with everything below it; nodes that
hold what no rule could place are passed over.
-/

namespace Ili

structure FileContext where
  index : LineIndex
  uri : Option String
  schemaVersion : Option String

structure Draft where
  definitions : Array Definition
  references : Array Reference
  models : List Nat

def Draft.empty : Draft :=
  ⟨#[], #[], []⟩

/-- A step of the walk. -/
abbrev Drafting := StateM Draft

structure Heading where
  name : String
  span : Span
  nameSpan : Span
  metaAttributes : Dict String
  deriving Repr

namespace Drafting

def nextDefinition : Drafting Nat :=
  fun draft => (draft.definitions.size, draft)

def define (heading : Heading) (parent : Option Nat) (data : DefinitionData) : Drafting Unit :=
  fun draft =>
    let definition : Definition :=
      ⟨heading.name, parent, heading.span, heading.nameSpan, heading.metaAttributes, .empty, data⟩
    ((), { draft with definitions := draft.definitions.push definition })

def addModel (id : Nat) : Drafting Unit :=
  fun draft => ((), { draft with models := draft.models ++ [id] })

def addReference (reference : Reference) : Drafting Nat :=
  fun draft =>
    (draft.references.size, { draft with references := draft.references.push reference })

end Drafting

namespace Site

def span (site : Site) (file : FileContext) : Span :=
  file.index.span site.start site.stop

def headingAt (site : Site) (file : FileContext) (name : String) (token : Site) : Heading :=
  ⟨name, site.span file, token.span file, site.metaAttributes⟩

def heading? (site : Site) (file : FileContext) : Option Heading :=
  site.nameToken?.map fun token => site.headingAt file token.text token

def modifiers (site : Site) : Modifiers :=
  ⟨site.hasProperty "ABSTRACT", site.hasProperty "EXTENDED", site.hasProperty "FINAL",
    site.hasProperty "EXTERNAL"⟩

/-- The bounds of a cardinality; a single one counts for both. A bound that does not fit is open. -/
def cardinality (site : Site) : Cardinality :=
  let bounds := (site.visibleTokens.filter fun c => c.kind == .integer || c.kind == .star).map
    fun c => parseNumber? c.text
  match bounds with
  | [] => ⟨none, none⟩
  | [single] => ⟨single, single⟩
  | min :: max :: _ => ⟨min, max⟩

def cardinality? (site : Site) : Option Cardinality :=
  (site.child? .cardinality).map cardinality

/-- The bounds of a numeric type as written, each with its sign. -/
def numericBounds (site : Site) : List String :=
  let signed := site.visibleTokens.foldl (fun (bounds, sign) c =>
    if c.kind == .minus then (bounds, "-")
    else if c.kind == .integer || c.kind == .decimal then (bounds ++ [sign ++ c.text], "")
    else (bounds, sign)) ([], "")
  signed.1

def textKind (site : Site) : TextKind :=
  match (site.visibleTokens.find? fun c => c.kind.isKeyword).map kind with
  | some .mtextKw => .mtext
  | some .nameKw => .name
  | some .uriKw => .uri
  | _ => .text

def roleKind (role : Site) : RoleKind :=
  let operator? := role.visibleTokens.find? fun c => Grammar.roleOperators.contains c.kind
  match operator?.map kind with
  | some .aggregationRole => .aggregation
  | some .compositionRole => .composition
  | _ => .association

/-- Some property list of the site has this word. -/
def anyProperty (site : Site) (word : String) : Bool :=
  (site.childrenOf .properties).any fun properties => properties.words.contains word

end Site

/-- The value that an element of an enumeration stands for. An element without a name is left out
with everything below it. -/
def enumValue? (element : Site) : Option EnumValue :=
  element.name?.map fun name =>
    let children :=
      match _hinner : element.child? .enumType with
      | none => []
      | some inner =>
        (inner.childrenOf .enumElement).attach.filterMap fun ⟨below, _⟩ => enumValue? below
    .mk name
      (element.has .finalKw || (element.child? .enumType).any fun inner => inner.has .finalKw)
      children
termination_by sizeOf element.tree
decreasing_by
  exact Nat.lt_trans (Site.sizeOf_lt_of_mem_childrenOf (by assumption))
    (Site.sizeOf_lt_of_child? _hinner)

def enumValues (enumeration : Site) : List EnumValue :=
  (enumeration.childrenOf .enumElement).filterMap enumValue?

namespace Catalog

open Drafting

def refer (file : FileContext) (source : Nat) (expected : Expected) (path : Site) : Drafting Nat :=
  addReference ⟨path.segments, path.span file, source, expected, .unbound⟩

def referTo? (file : FileContext) (source : Nat) (expected : Expected) (path : Option Site) :
    Drafting (Option Nat) :=
  match path with
  | none => pure none
  | some path => some <$> refer file source expected path

/-- The type that a node describes. Where a path is missing the type is kept as it is written. -/
def typeOf (file : FileContext) (source : Nat) (site : Site) : Drafting TypeDef :=
  match site.kind with
  | .textType =>
    pure (.text site.textKind ((site.child? .integer).bind fun c => parseNumber? c.text))
  | .numericType => do
    let bounds := site.numericBounds
    return .numeric bounds[0]? bounds[1]? (← referTo? file source .unit (site.child? .path))
  | .booleanType => pure .boolean
  | .enumType => pure (.enumeration (enumValues site) (site.has .finalKw))
  | .referenceType => do
    let targets ← (site.childrenOf .path).mapM (refer file source .classLike)
    return .reference targets (site.hasProperty "EXTERNAL")
  | .listType =>
    match site.child? .path with
    | none => pure (.raw (collapseBlanks site.text))
    | some path => return .structures (site.has .listKw) (← refer file source .classLike path)
  | .blackboxType => pure (.blackbox (if site.has .xmlKw then .xml else .binary))
  | .typeRef =>
    match site.child? .path with
    | none => pure (.raw (collapseBlanks site.text))
    | some path => return .named (← refer file source .type path)
  | _ => pure (.raw (collapseBlanks site.text))

/-- The type below a definition; without one, an empty text stands for it. -/
def typeBelow (file : FileContext) (source : Nat) (site : Site) : Drafting TypeDef :=
  match site.type? with
  | none => pure (.raw "")
  | some type => typeOf file source type

/-- Notes the elements of an enumeration as definitions, each in front of those below it. -/
def defineElements (file : FileContext) (parent : Nat) (enumeration : Site) : Drafting Unit :=
  (enumeration.childrenOf .enumElement).attach.forM fun ⟨element, _⟩ =>
    match element.heading? file with
    | none => pure ()
    | some heading => do
      let id ← nextDefinition
      define heading (some parent) (.enumValue (element.has .finalKw))
      match _hinner : element.child? .enumType with
      | none => pure ()
      | some inner => defineElements file id inner
termination_by sizeOf enumeration.tree
decreasing_by
  exact Nat.lt_trans (Site.sizeOf_lt_of_child? _hinner)
    (Site.sizeOf_lt_of_mem_childrenOf (by assumption))

def defineValues (file : FileContext) (owner : Nat) (site : Site) : Drafting Unit :=
  match site.type? with
  | none => pure ()
  | some type => if type.kind = .enumType then defineElements file owner type else pure ()

def defineUnit (file : FileContext) (parent : Nat) (site : Site) : Drafting Unit :=
  match site.heading? file with
  | none => pure ()
  | some heading => do
    let id ← nextDefinition
    let shortName :=
      (((site.childrenOf .name)[1]?).bind fun name => name.child? .ident).map Site.text
    let base ← referTo? file id .unit site.extended?
    let modifiers := { Modifiers.none with isAbstract := site.hasProperty "ABSTRACT" }
    define heading (some parent) (.unit ⟨shortName, modifiers, base⟩)

def defineDomain (file : FileContext) (parent : Nat) (site : Site) : Drafting Unit :=
  match site.heading? file with
  | none => pure ()
  | some heading => do
    let id ← nextDefinition
    let base ← referTo? file id .domain site.extended?
    let type ← typeBelow file id site
    define heading (some parent) (.domain ⟨type, site.has .mandatoryKw, site.modifiers, base⟩)
    defineValues file id site

def defineRole (file : FileContext) (parent : Nat) (site : Site) : Drafting Unit :=
  match site.heading? file with
  | none => pure ()
  | some heading => do
    let id ← nextDefinition
    let targets ← (site.childrenOf .path).mapM (refer file id .classLike)
    let type := TypeDef.role site.roleKind targets (site.anyProperty "EXTERNAL")
    define heading (some parent) (.attributeLike ⟨type, false, site.cardinality?⟩)

def defineAttribute (file : FileContext) (parent : Nat) (site : Site) : Drafting Unit :=
  match site.heading? file with
  | none => pure ()
  | some heading => do
    let id ← nextDefinition
    let cardinality := (site.type?.filter fun type => type.kind == .listType).bind Site.cardinality?
    let type ← typeBelow file id site
    define heading (some parent) (.attributeLike ⟨type, site.has .mandatoryKw, cardinality⟩)
    defineValues file id site

/-- Notes the roles of a class or an association, then its attributes. -/
def defineMembers (file : FileContext) (owner : Nat) (site : Site) : Drafting Unit := do
  (site.childrenOf .role).forM (defineRole file owner)
  (site.childrenOf .attributeDef).forM (defineAttribute file owner)

def defineClass (file : FileContext) (parent : Nat) (site : Site) : Drafting Unit :=
  match site.heading? file with
  | none => pure ()
  | some heading => do
    let id ← nextDefinition
    let base ← referTo? file id .classLike site.extended?
    let oidPath := (site.child? .oidDecl).bind fun oid => oid.child? .path
    let oid ← referTo? file id .domain oidPath
    define heading (some parent)
      (.classLike ⟨site.has .structureKw, site.modifiers, base, oid⟩)
    defineMembers file id site

/-- The heading of an association. Without a name of its own it is named after its roles, at the
word it begins with. -/
def associationHeading? (file : FileContext) (site : Site) : Option Heading :=
  (site.heading? file).or <|
    let name := String.join ((site.childrenOf .role).filterMap Site.name?)
    if name.isEmpty then none else site.children.head?.map (site.headingAt file name)

def defineAssociation (file : FileContext) (parent : Nat) (site : Site) : Drafting Unit :=
  match associationHeading? file site with
  | none => pure ()
  | some heading => do
    let id ← nextDefinition
    let base ← referTo? file id .association site.extended?
    let cardinality := (site.child? .cardinalityDecl).bind Site.cardinality?
    define heading (some parent) (.association ⟨site.modifiers, base, cardinality⟩)
    defineMembers file id site

def defineMember (file : FileContext) (parent : Nat) (member : Site) : Drafting Unit :=
  match member.kind with
  | .unitSection => (member.childrenOf .unitDef).forM (defineUnit file parent)
  | .domainSection => (member.childrenOf .domainDef).forM (defineDomain file parent)
  | .classDef => defineClass file parent member
  | .association => defineAssociation file parent member
  | _ => pure ()

/-- Notes the references of a member in the head of a topic. A later declaration of an identifier
domain replaces an earlier one. -/
def readTopicHead (file : FileContext) (id : Nat) (data : TopicData) (member : Site) :
    Drafting TopicData :=
  match member.kind with
  | .oidDecl => do
    let target ← referTo? file id .domain (member.child? .path)
    return if member.has .basketKw then { data with basketOid := target }
      else { data with oid := target }
  | .dependsOn => do
    let targets ← (member.childrenOf .path).mapM (refer file id .topic)
    return { data with dependsOn := data.dependsOn ++ targets }
  | _ => pure data

def defineTopic (file : FileContext) (parent : Nat) (site : Site) : Drafting Unit :=
  match site.heading? file with
  | none => pure ()
  | some heading => do
    let id ← nextDefinition
    let base ← referTo? file id .topic site.extended?
    let data ← site.members.foldlM (readTopicHead file id) ⟨site.modifiers, base, [], none, none⟩
    define heading (some parent) (.topic data)
    site.members.forM (defineMember file id)

/-- The import that an item stands for, if it names a model. -/
def readImport (file : FileContext) (id : Nat) (item : Site) : Drafting (List Import) :=
  match item.child? .path with
  | none => pure []
  | some path => return [⟨← refer file id .model path, item.isUnqualified⟩]

def defineModel (file : FileContext) (site : Site) : Drafting Unit :=
  match site.heading? file with
  | none => pure ()
  | some heading => do
    let id ← nextDefinition
    let translationOf ← referTo? file id .model site.translated?
    let imports ← site.importItems.mapM (readImport file id)
    define heading none <| .model
      { schemaVersion := file.schemaVersion
        language := site.language?
        issuer := site.stringBehind? .atKw
        version := site.stringBehind? .versionKw
        translationOf
        imports := imports.flatten
        sourceUri := file.uri }
    addModel id
    site.members.forM fun member =>
      if member.kind = .topic then defineTopic file id member else defineMember file id member

/-- The names by which the definitions directly below `parent` are found, with their numbers. Where
a name comes twice the later definition has it. -/
def contentOf (definitions : List Definition) (parent : Nat) : Dict Nat :=
  .ofList <| definitions.zipIdx.flatMap fun (definition, id) =>
    if definition.parent = some parent then definition.names.map fun name => (name, id) else []

def ofTree (text : String) (tree : Tree) (uri : Option String) : Catalog :=
  let root := Site.root tree
  let file : FileContext := ⟨.ofText text, uri, root.schemaVersion?⟩
  let draft := ((root.models.forM (defineModel file)).run Draft.empty).2
  let definitions := draft.definitions.mapIdx fun id definition =>
    { definition with content := contentOf draft.definitions.toList id }
  ⟨uri, file.schemaVersion, definitions, draft.references, draft.models⟩

def ofText (text : String) (uri : Option String) : Catalog :=
  ofTree text (parse text).tree uri

end Catalog

end Ili
