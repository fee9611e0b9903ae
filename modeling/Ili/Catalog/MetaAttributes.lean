import Ili.Dict
import Ili.Text.Blank
import Ili.Tree.Site

/-!
# Meta attributes

Comments that begin with `!!@` and stand directly in front of a definition attach values to it:
`!!@ key = value; key = "value"`.
-/

namespace Ili

/-- Splits at semicolons that do not stand between double quotes. -/
def splitItems (quoted : Bool) : List Char → List (List Char)
  | [] => [[]]
  | c :: cs =>
    if c = ';' ∧ quoted = false then [] :: splitItems false cs
    else
      match splitItems (quoted != (c == '"')) cs with
      | [] => [[c]]
      | item :: items => (c :: item) :: items

/-- The key and the value of an item. Without an equals sign or a key there is none. -/
def metaAttribute? (item : List Char) : Option (String × String) :=
  (splitAtFirst? '=' item).bind fun (before, after) =>
    let key := trim before
    if key.isEmpty then none
    else some (String.ofList key, String.ofList (unquote (trim after)))

def metaBody : List Char → List Char
  | '!' :: '!' :: '@' :: body => body
  | text => text

def parseMetaComment (text : String) : List (String × String) :=
  (splitItems false (metaBody text.toList)).filterMap metaAttribute?

/-- The attributes written in front of a site; a later value of a key counts. -/
def Site.metaAttributes (site : Site) : Dict String :=
  .ofList <|
    ((site.before.filter fun t => t.kind == .metaComment).reverse).flatMap
      fun comment => parseMetaComment comment.text

end Ili
