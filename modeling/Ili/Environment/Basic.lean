import Ili.Predefined

/-!
# Environments

An environment holds the catalogs of several files and knows which definition each model name
stands for. The first file is always the one of the predefined model. A file is added behind the
others, and the models it brings are entered unless their names are taken; a name once entered
keeps its definition.
-/

namespace Ili

structure Environment where
  /-- The version in the header of the file added first. -/
  version : Option String
  files : Array Catalog
  models : Dict DefinitionId
  deriving Repr

namespace Environment

/-- Enters the models of the file with number `file` under the names that are free. -/
def enterModels (models : Dict DefinitionId) (file : Nat) (catalog : Catalog) :
    Dict DefinitionId :=
  catalog.models.foldl
    (fun models model => models.insertNew (catalog.nameOf model) ⟨file, model⟩) models

def append (env : Environment) (catalog : Catalog) : Environment :=
  { env with
    files := env.files.push catalog
    models := enterModels env.models env.files.size catalog }

def initial : Environment :=
  append ⟨none, #[], .empty⟩ predefinedCatalog

def knowsModel (env : Environment) (name : String) : Bool :=
  env.models.contains name

/-- Adds a file that brings a new model; the version is left as it is. A file that brings none is
dropped. -/
def merge (env : Environment) (catalog : Catalog) : Environment × Option Nat :=
  if catalog.modelNames.all env.knowsModel then (env, none)
  else (env.append catalog, some env.files.size)

/-- Adds a file, of which the first one sets the version. The version is set before it is known
whether the file will be dropped. -/
def add (env : Environment) (catalog : Catalog) : Environment × Option Nat :=
  if env.files.size ≤ 1 then merge { env with version := catalog.schemaVersion } catalog
  else merge env catalog

def file? (env : Environment) (index : Nat) : Option Catalog :=
  env.files[index]?

def fileAt? (env : Environment) (uri : String) : Option Nat :=
  env.files.findIdx? fun file => file.uri == some uri

def model? (env : Environment) (name : String) : Option DefinitionId :=
  env.models.get? name

def isPredefined (id : DefinitionId) : Bool :=
  id.file == 0

def predefinedModel? (env : Environment) : Option DefinitionId :=
  ((env.file? 0).bind fun file => file.models.head?).map fun model => ⟨0, model⟩

def userModels (env : Environment) : List String :=
  (env.models.entries.filter fun entry => !isPredefined entry.2).map Prod.fst

def definition? (env : Environment) (id : DefinitionId) : Option Definition :=
  (env.file? id.file).bind fun file => file.definition? id.index

def kind? (env : Environment) (id : DefinitionId) : Option DefinitionKind :=
  (env.definition? id).map Definition.kind

def uri? (env : Environment) (id : DefinitionId) : Option String :=
  (env.file? id.file).bind Catalog.uri

def parent? (env : Environment) (id : DefinitionId) : Option DefinitionId :=
  ((env.definition? id).bind Definition.parent).map fun parent => ⟨id.file, parent⟩

def children (env : Environment) (id : DefinitionId) : List (String × DefinitionId) :=
  match env.definition? id with
  | none => []
  | some definition =>
    definition.content.entries.map fun (name, child) => (name, ⟨id.file, child⟩)

def child? (env : Environment) (id : DefinitionId) (name : String) : Option DefinitionId :=
  ((env.definition? id).bind fun d => d.content.get? name).map fun child => ⟨id.file, child⟩

def chain (env : Environment) (id : DefinitionId) : List DefinitionId :=
  match env.file? id.file with
  | none => [id]
  | some file => (file.chain id.index).map fun index => ⟨id.file, index⟩

/-- The model that a definition belongs to; a model belongs to itself. -/
def modelOf (env : Environment) (id : DefinitionId) : DefinitionId :=
  (env.chain id).getLastD id

def nameOf (env : Environment) (id : DefinitionId) : String :=
  ((env.definition? id).map Definition.name).getD ""

/-- The model of the definition is the one that its name stands for. -/
def isReachable (env : Environment) (id : DefinitionId) : Bool :=
  env.model? (env.nameOf (env.modelOf id)) == some (env.modelOf id)

def qualifiedName (env : Environment) (id : DefinitionId) : String :=
  ".".intercalate ((env.chain id).map env.nameOf).reverse

def descend? (env : Environment) (start : DefinitionId) (names : List String) :
    Option DefinitionId :=
  names.foldlM env.child? start

/-- The definition at a dotted path that begins with the name of a model. -/
def lookupPath? (env : Environment) (path : String) : Option DefinitionId :=
  match (splitWhere (· == '.') path.toList).map String.ofList with
  | [] => none
  | name :: rest => (env.model? name).bind fun model => env.descend? model rest

/-- What a model imports: every import with the reference that names the other model. -/
def importsOf (env : Environment) (model : DefinitionId) : List (Import × Reference) :=
  match env.file? model.file, (env.definition? model).map Definition.data with
  | some file, some (.model data) =>
    data.imports.filterMap fun item =>
      (file.references[item.model]?).map fun reference => (item, reference)
  | _, _ => []

/-- The references of a file that are written in reachable definitions. -/
def referencesOf (env : Environment) (file : Nat) : List (ReferenceId × Reference) :=
  match env.file? file with
  | none => []
  | some catalog =>
    catalog.references.toList.zipIdx.filterMap fun (reference, index) =>
      if env.isReachable ⟨file, reference.source⟩ then some (⟨file, index⟩, reference) else none

/-- The references written in reachable definitions of all files but the predefined one. -/
def references (env : Environment) : List (ReferenceId × Reference) :=
  ((List.range env.files.size).drop 1).flatMap env.referencesOf

end Environment

end Ili
