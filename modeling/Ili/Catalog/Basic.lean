import Ili.Catalog.Kind
import Ili.Catalog.TypeDef
import Ili.Dict
import Ili.Text.Position

/-!
# Catalogs

A catalog holds what one file declares: its definitions and the references written in them. Both
are numbered in the order they are met, and point at each other by number. A definition is younger
than the one that holds it.
-/

namespace Ili

structure DefinitionId where
  file : Nat
  index : Nat
  deriving DecidableEq, Repr

structure ReferenceId where
  file : Nat
  index : Nat
  deriving DecidableEq, Repr

structure Modifiers where
  isAbstract : Bool
  isExtended : Bool
  isFinal : Bool
  isExternal : Bool
  deriving DecidableEq, Repr

def Modifiers.none : Modifiers :=
  ⟨false, false, false, false⟩

structure Import where
  model : Nat
  unqualified : Bool
  deriving DecidableEq, Repr

structure ModelData where
  schemaVersion : Option String
  language : Option String
  issuer : Option String
  version : Option String
  translationOf : Option Nat
  imports : List Import
  sourceUri : Option String
  deriving DecidableEq, Repr

structure TopicData where
  modifiers : Modifiers
  base : Option Nat
  dependsOn : List Nat
  oid : Option Nat
  basketOid : Option Nat
  deriving DecidableEq, Repr

structure ClassData where
  isStructure : Bool
  modifiers : Modifiers
  base : Option Nat
  oid : Option Nat
  deriving DecidableEq, Repr

structure AssociationData where
  modifiers : Modifiers
  base : Option Nat
  cardinality : Option Cardinality
  deriving DecidableEq, Repr

structure AttributeData where
  type : TypeDef
  isMandatory : Bool
  cardinality : Option Cardinality
  deriving Repr

structure DomainData where
  type : TypeDef
  isMandatory : Bool
  modifiers : Modifiers
  base : Option Nat
  deriving Repr

structure UnitData where
  shortName : Option String
  modifiers : Modifiers
  base : Option Nat
  deriving DecidableEq, Repr

inductive DefinitionData where
  | model (data : ModelData)
  | topic (data : TopicData)
  | classLike (data : ClassData)
  | association (data : AssociationData)
  | attributeLike (data : AttributeData)
  | domain (data : DomainData)
  | enumValue (isFinal : Bool)
  | unit (data : UnitData)
  deriving Repr

namespace DefinitionData

def kind : DefinitionData → DefinitionKind
  | model _ => .model
  | topic _ => .topic
  | classLike _ => .classLike
  | association _ => .association
  | attributeLike _ => .attributeLike
  | domain _ => .domain
  | enumValue _ => .enumValue
  | unit _ => .unit

def references : DefinitionData → List Nat
  | model data => data.translationOf.toList ++ data.imports.map Import.model
  | topic data => data.base.toList ++ data.basketOid.toList ++ data.oid.toList ++ data.dependsOn
  | classLike data => data.base.toList ++ data.oid.toList
  | association data => data.base.toList
  | attributeLike data => data.type.references
  | domain data => data.base.toList ++ data.type.references
  | enumValue _ => []
  | unit data => data.base.toList

def base? : DefinitionData → Option Nat
  | topic data => data.base
  | classLike data => data.base
  | association data => data.base
  | domain data => data.base
  | unit data => data.base
  | model _ | attributeLike _ | enumValue _ => none

def type? : DefinitionData → Option TypeDef
  | attributeLike data => some data.type
  | domain data => some data.type
  | _ => none

def isStructure : DefinitionData → Bool
  | classLike data => data.isStructure
  | _ => false

end DefinitionData

structure Definition where
  name : String
  parent : Option Nat
  span : Span
  nameSpan : Span
  metaAttributes : Dict String
  /-- The definitions directly below, by name; a unit is also there under its short name. -/
  content : Dict Nat
  data : DefinitionData
  deriving Repr

namespace Definition

def kind (definition : Definition) : DefinitionKind :=
  definition.data.kind

/-- The names a definition has in the one that holds it. -/
def names (definition : Definition) : List String :=
  match definition.data with
  | .unit data => definition.name :: data.shortName.toList
  | _ => [definition.name]

end Definition

inductive Binding where
  | unbound
  | resolved (target : DefinitionId)
  | unresolved
  deriving DecidableEq, Repr

structure Reference where
  path : List String
  span : Span
  /-- The definition it is written in. -/
  source : Nat
  expected : Expected
  state : Binding
  deriving DecidableEq, Repr

namespace Reference

def text (reference : Reference) : String :=
  ".".intercalate reference.path

def target? (reference : Reference) : Option DefinitionId :=
  match reference.state with
  | .resolved target => some target
  | _ => none

end Reference

structure Catalog where
  uri : Option String
  schemaVersion : Option String
  definitions : Array Definition
  references : Array Reference
  models : List Nat
  deriving Repr

namespace Catalog

def definition? (catalog : Catalog) (index : Nat) : Option Definition :=
  catalog.definitions[index]?

def nameOf (catalog : Catalog) (index : Nat) : String :=
  ((catalog.definition? index).map Definition.name).getD ""

def modelNames (catalog : Catalog) : List String :=
  catalog.models.map catalog.nameOf

/-- A definition and those that hold it, innermost first, up to `bound` of them. -/
def chainUpTo (catalog : Catalog) (index : Nat) : Nat → List Nat
  | 0 => []
  | bound + 1 =>
    index ::
      match (catalog.definition? index).bind Definition.parent with
      | none => []
      | some parent => catalog.chainUpTo parent bound

def chain (catalog : Catalog) (index : Nat) : List Nat :=
  catalog.chainUpTo index (index + 1)

end Catalog

end Ili
