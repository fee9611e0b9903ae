/-!
# Kinds of definitions

What a definition can be, and what a reference may ask for.
-/

namespace Ili

/-- The kind of a definition. Structures are classes, and roles are attributes. -/
inductive DefinitionKind where
  | model | topic | classLike | association | attributeLike | domain | enumValue | unit
  deriving DecidableEq, Repr

namespace DefinitionKind

def all : List DefinitionKind :=
  [.model, .topic, .classLike, .association, .attributeLike, .domain, .enumValue, .unit]

def display : DefinitionKind → String
  | .model => "model"
  | .topic => "topic"
  | .classLike => "class"
  | .association => "association"
  | .attributeLike => "attribute"
  | .domain => "domain"
  | .enumValue => "enumeration value"
  | .unit => "unit"

/-- Kinds whose names may begin a path. Attributes and enumeration values are reached only through
the path of what holds them. -/
def isElement : DefinitionKind → Bool
  | .attributeLike | .enumValue => false
  | _ => true

end DefinitionKind

/-- What a reference asks for. A type is a domain or a structure. -/
inductive Expected where
  | model | topic | classLike | association | domain | unit | type
  deriving DecidableEq, Repr

namespace Expected

def accepts : Expected → DefinitionKind → Bool
  | .model, kind => kind == .model
  | .topic, kind => kind == .topic
  | .classLike, kind => kind == .classLike
  | .association, kind => kind == .association
  | .domain, kind => kind == .domain
  | .unit, kind => kind == .unit
  | .type, kind => kind == .domain || kind == .classLike

def describe : Expected → String
  | .model => "a model"
  | .topic => "a topic"
  | .classLike => "a class"
  | .association => "an association"
  | .domain => "a domain"
  | .unit => "a unit"
  | .type => "a domain or structure"

end Expected

end Ili
