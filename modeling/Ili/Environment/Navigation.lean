import Ili.Environment.Basic

/-!
# Navigation

From the places where definitions are named to the places where they are declared.
-/

namespace Ili

structure Link where
  span : Span
  target : DefinitionId
  /-- The predefined model has no address. -/
  targetUri : Option String
  targetNameSpan : Span
  name : String
  deriving DecidableEq, Repr

namespace Environment

def link? (env : Environment) (reference : Reference) : Option Link :=
  reference.target?.bind fun target =>
    (env.definition? target).map fun definition =>
      ⟨reference.span, target, env.uri? target, definition.nameSpan, env.qualifiedName target⟩

def linksIn (env : Environment) (uri : String) : List Link :=
  match env.fileAt? uri with
  | none => []
  | some file =>
    (env.references.filter fun (id, _) => id.file == file).filterMap fun (_, reference) =>
      env.link? reference

/-- The links at a position of a file that lead to a file. -/
def linksAt (env : Environment) (uri : String) (position : Position) : List Link :=
  (env.linksIn uri).filter fun link => link.span.contains position && link.targetUri.isSome

end Environment

end Ili
