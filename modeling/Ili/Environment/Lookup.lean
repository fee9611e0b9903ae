import Ili.Environment.Basic

/-!
# What a path names

The first name of a path is looked for in several places in turn, the names behind it below what
has been found. A single name prefers elements to models. With names behind it, it prefers a model
to what is known without being written nearby: imported elements and the predefined ones.
-/

namespace Ili

inductive Lookup where
  | found (target : DefinitionId)
  | wrongKind (target : DefinitionId)
  | notFound
  deriving DecidableEq, Repr

namespace Environment

def element? (env : Environment) (scope : DefinitionId) (name : String) : Option DefinitionId :=
  (env.child? scope name).filter fun child => (env.kind? child).any DefinitionKind.isElement

/-- An element of the definitions that hold `source`, the innermost first. -/
def scopedElement? (env : Environment) (source : DefinitionId) (name : String) :
    Option DefinitionId :=
  (env.chain source).tail.findSome? fun scope => env.element? scope name

/-- The models that the model of `source` imports for use without their names, in order. -/
def openModels (env : Environment) (source : DefinitionId) : List DefinitionId :=
  ((env.importsOf (env.modelOf source)).filter fun (item, _) => item.unqualified).filterMap
    fun (_, reference) => reference.path.head?.bind env.model?

def openElement? (env : Environment) (source : DefinitionId) (name : String) :
    Option DefinitionId :=
  (env.openModels source).findSome? fun model => env.element? model name

def predefinedElement? (env : Environment) (name : String) : Option DefinitionId :=
  env.predefinedModel?.bind fun model => env.element? model name

def lookupFirst? (env : Environment) (source : DefinitionId) (name : String) (qualified : Bool) :
    Option DefinitionId :=
  (env.scopedElement? source name).or <|
    if qualified then
      (env.model? name).or ((env.openElement? source name).or (env.predefinedElement? name))
    else
      (env.openElement? source name).or ((env.predefinedElement? name).or (env.model? name))

def lookup? (env : Environment) (source : DefinitionId) : List String → Option DefinitionId
  | [] => none
  | name :: rest =>
    (env.lookupFirst? source name (!rest.isEmpty)).bind fun start => env.descend? start rest

/-- The definition that a reference names. An import names a model, never an element that has the
same name. -/
def named? (env : Environment) (id : ReferenceId) (reference : Reference) :
    Option DefinitionId :=
  match reference.expected, reference.path with
  | .model, [name] => env.model? name
  | .model, _ => none
  | _, path => env.lookup? ⟨id.file, reference.source⟩ path

/-- Looks a reference up and checks the kind of what it names. -/
def lookupReference (env : Environment) (id : ReferenceId) (reference : Reference) : Lookup :=
  match env.named? id reference with
  | none => .notFound
  | some target =>
    if (env.kind? target).any reference.expected.accepts then .found target
    else .wrongKind target

end Environment

end Ili
