import Ili.Tree.Site
import Ili.Text.Blank

/-!
# What nodes say

Reading names, paths, property lists and the like off the nodes that hold them. Everything here
looks at children by kind and takes the first one that fits, so it also answers for malformed text.
-/

namespace Ili.Site

def nameToken? (site : Site) : Option Site :=
  (site.child? .name).bind fun name => name.child? .ident

def name? (site : Site) : Option String :=
  site.nameToken?.map text

def segments (path : Site) : List String :=
  (path.visibleTokens.filter fun c => c.kind != .dot).map text

def words (properties : Site) : List String :=
  (properties.visibleTokens.filter fun c => c.kind.isKeyword || c.kind == .ident).map text

/-- The words of the first property list. -/
def properties? (site : Site) : Option (List String) :=
  (site.child? .properties).map words

def hasProperty (site : Site) (word : String) : Bool :=
  (site.properties?.getD []).contains word

def extended? (site : Site) : Option Site :=
  (site.child? .extendsClause).bind fun clause => clause.child? .path

def type? (site : Site) : Option Site :=
  site.children.find? fun c => c.kind.isType

def members (site : Site) : List Site :=
  site.children.filter fun c => c.kind.isMember

def language? (model : Site) : Option String :=
  (model.tokenBehind? .lParen .ident).map text

def stringBehind? (model : Site) (keyword : Kind) : Option String :=
  (model.tokenBehind? keyword .string).map fun string =>
    String.ofList (unquote string.text.toList)

def translated? (model : Site) : Option Site :=
  (model.child? .translationOf).bind fun clause => clause.child? .path

def importItems (model : Site) : List Site :=
  (model.childrenOf .imports).flatMap fun imports => imports.childrenOf .importItem

/-- An import item whose elements can be named without naming the model. -/
def isUnqualified (item : Site) : Bool :=
  item.has .unqualifiedKw

def models (file : Site) : List Site :=
  file.childrenOf .model

def schemaVersion? (file : Site) : Option String :=
  (file.child? .header).bind fun header => (header.child? .decimal).map text

/-- The names of the models of a file; a model without a name is left out. -/
def modelNames (file : Site) : List String :=
  file.models.filterMap name?

end Ili.Site
