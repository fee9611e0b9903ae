import Ili.Environment.Lookup
import Ili.Diagnostic

/-!
# Binding

Binding looks up all references at once: what a reference is bound to does not depend on what
others have been bound to. References that stay without a target are reported, except for imports
that have been reported before.
-/

namespace Ili

def Lookup.binding : Lookup → Binding
  | .found target => .resolved target
  | .wrongKind _ | .notFound => .unresolved

namespace Environment

def isImportOf (reported : List String) (reference : Reference) : Bool :=
  match reference.expected, reference.path with
  | .model, [name] => reported.contains name
  | _, _ => false

/-- What is wrong with a reference, apart from the imports reported before. -/
def referenceFinding? (env : Environment) (reported : List String) (id : ReferenceId)
    (reference : Reference) : Option Finding :=
  match env.lookupReference id reference with
  | .found _ => none
  | .wrongKind target =>
    some <| .wrongKind reference.text reference.expected.describe
      (((env.kind? target).map DefinitionKind.display).getD "")
  | .notFound =>
    if isImportOf reported reference then none else some (.unresolvedReference reference.text)

def referenceFindings (env : Environment) (reported : List String) : List Diagnostic :=
  env.references.filterMap fun (id, reference) =>
    (env.referenceFinding? reported id reference).map fun finding =>
      ⟨(env.file? id.file).bind Catalog.uri, reference.span, finding⟩

/-- The reference as it is after binding. What is not reachable stays as it is. -/
def boundReference (env : Environment) (id : ReferenceId) (reference : Reference) : Reference :=
  if id.file ≠ 0 ∧ env.isReachable ⟨id.file, reference.source⟩ then
    { reference with state := (env.lookupReference id reference).binding }
  else reference

def bind (env : Environment) : Environment :=
  { env with
    files := env.files.mapIdx fun file catalog =>
      { catalog with
        references := catalog.references.mapIdx fun index reference =>
          env.boundReference ⟨file, index⟩ reference } }

end Environment

end Ili
