import Ili.Dict
import Ili.FileTree

/-!
# Editor configuration

The assignments of the `.editorconfig` file nearest to a path. Only flat `key = value` lines are
read; section headings carry no equals sign and fall away, so every assignment of the file counts.
Keys do not distinguish ASCII case, and of two assignments to a key the later one counts.
-/

namespace Ili

structure EditorConfig where
  path : Option String
  values : Dict String
  deriving DecidableEq, Repr

namespace EditorConfig

def fileName : String := ".editorconfig"

def empty : EditorConfig :=
  ⟨none, .empty⟩

/-- Lower case for the letters of ASCII. -/
def foldCase (text : String) : String :=
  String.ofList (text.toList.map Char.toLower)

/-- The assignment on a line. Comments start with a hash or a semicolon; neither key nor value may
be blank. -/
def assignment? (line : List Char) : Option (String × String) :=
  let line := trim line
  if line.head? = some '#' ∨ line.head? = some ';' then none
  else
    match splitAtFirst? '=' line with
    | none => none
    | some (before, after) =>
      let key := trim before
      let value := trim after
      if key.isEmpty || value.isEmpty then none
      else some (foldCase (String.ofList key), String.ofList value)

/-- The assignments of a text, in order of their keys' first occurrence. -/
def parse (text : String) : EditorConfig :=
  ⟨none, .ofList ((splitWhere (· == '\n') text.toList).filterMap assignment?)⟩

def get? (config : EditorConfig) (key : String) : Option String :=
  config.values.get? (foldCase key)

/-- The nearest configuration file: in the directory at the path, or else around the path, or
further up. -/
def nearest? (tree : FileTree) (path : String) : Option (String × ByteArray) :=
  let start := if tree.isDirectory path then some path else Path.parent? path
  (start.map Path.ancestors).bind fun directories =>
    directories.findSome? fun directory =>
      let candidate := Path.join directory fileName
      (tree.file? candidate).map fun content => (candidate, content)

def load (tree : FileTree) (path : String) : Except ReadError EditorConfig :=
  match nearest? tree path with
  | none => .ok empty
  | some (found, content) =>
    match String.fromUTF8? content with
    | none => .error (.notText found)
    | some text => .ok { parse text with path := some found }

end EditorConfig

def parseFlag? (value : String) : Option Bool :=
  match EditorConfig.foldCase value with
  | "true" => some true
  | "false" => some false
  | _ => none

end Ili
