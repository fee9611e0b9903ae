import Ili.Environment.Binding
import Ili.Environment.Closure

/-!
# Resolution

Resolving an environment first gets the models that it imports and then binds its references. A run
that is called off leaves the references as they are; the models it got by then stay.
-/

namespace Ili

structure Resolution where
  env : Environment
  isComplete : Bool
  diagnostics : List Diagnostic
  queries : List (String × Option String)
  deriving Repr

namespace Environment

/-- Resolves an environment. Models are asked for in the version of the environment unless another
filter is given. -/
def resolve (env : Environment) (access : RepositoryAccess) (filter : Option String) :
    Resolution :=
  let closure := Closure.run access (filter.or (env.version.map schemaLanguage)) env
  if closure.isAborted || access.isCalledOff closure.queries.length then
    ⟨closure.env, false, Diagnostic.sort closure.diagnostics, closure.queries⟩
  else
    let findings := closure.env.referenceFindings closure.reported
    ⟨closure.env.bind, true, Diagnostic.sort (closure.diagnostics ++ findings), closure.queries⟩

end Environment

end Ili
