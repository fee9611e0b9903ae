import Ili.Tree.View
import Ili.Parse

/-!
# Outlines

What a file declares at the top: its version, its models with their imports and members, and the
types written anywhere in it.
-/

namespace Ili

structure MemberOutline where
  kind : Kind
  start : Nat
  deriving DecidableEq, Repr

structure TopicOutline where
  name : Option String
  properties : Option (List String)
  members : List MemberOutline
  deriving DecidableEq, Repr

structure ImportOutline where
  unqualified : Bool
  path : Option (List String)
  deriving DecidableEq, Repr

structure ModelOutline where
  name : Option String
  language : Option String
  issuer : Option String
  version : Option String
  translationOf : Option (List String)
  imports : List ImportOutline
  members : List MemberOutline
  topics : List TopicOutline
  deriving DecidableEq, Repr

/-- A file. Types are given with the text they were written in, outer ones before inner ones. -/
structure FileOutline where
  version : Option String
  models : List ModelOutline
  types : List (Kind × String)
  deriving DecidableEq, Repr

namespace Site

def memberOutlines (site : Site) : List MemberOutline :=
  site.members.map fun member => ⟨member.kind, member.start⟩

def topicOutline (topic : Site) : TopicOutline :=
  ⟨topic.name?, topic.properties?, topic.memberOutlines⟩

def modelOutline (model : Site) : ModelOutline where
  name := model.name?
  language := model.language?
  issuer := model.stringBehind? .atKw
  version := model.stringBehind? .versionKw
  translationOf := model.translated?.map segments
  imports := model.importItems.map fun item =>
    ⟨item.isUnqualified, (item.child? .path).map segments⟩
  members := model.memberOutlines
  topics := (model.members.filter fun m => m.kind == .topic).map topicOutline

end Site

def Tree.outline (tree : Tree) : FileOutline where
  version := (Site.root tree).schemaVersion?
  models := (Site.root tree).models.map Site.modelOutline
  types := (tree.nodes.filter fun node => node.kind.isType).map fun node => (node.kind, node.text)

end Ili
