import Ili.EditorConfig
import Ili.Text.Number

/-!
# Layout options
-/

namespace Ili

structure LayoutOptions where
  /-- Spaces per level of indentation. -/
  tabSize : Nat
  insertSpaces : Bool
  trimFinalNewlines : Bool
  insertFinalNewline : Bool
  deriving DecidableEq, Repr

namespace LayoutOptions

/-- Two spaces per level and one line feed at the end. -/
def standard : LayoutOptions :=
  ⟨2, true, true, true⟩

instance : Inhabited LayoutOptions := ⟨standard⟩

def indent (options : LayoutOptions) (level : Nat) : String :=
  if options.insertSpaces then "".pushn ' ' (options.tabSize * level) else "".pushn '\t' level

def resize (options : LayoutOptions) (value : String) : LayoutOptions :=
  match parseNumber? value with
  | some (size + 1) => { options with tabSize := size + 1 }
  | _ => options

/-- Takes over one assignment. A value that does not fit its key changes nothing. -/
def apply (options : LayoutOptions) (key value : String) : LayoutOptions :=
  match key with
  | "indent_style" =>
    match EditorConfig.foldCase value with
    | "space" => { options with insertSpaces := true }
    | "tab" => { options with insertSpaces := false }
    | _ => options
  | "indent_size" =>
    if EditorConfig.foldCase value = "tab" then { options with insertSpaces := false }
    else options.resize value
  | "tab_width" => options.resize value
  | "insert_final_newline" =>
    match parseFlag? value with
    | some flag => { options with insertFinalNewline := flag }
    | none => options
  | "trim_trailing_newlines" =>
    match parseFlag? value with
    | some flag => { options with trimFinalNewlines := flag }
    | none => options
  | _ => options

def ofConfig (config : EditorConfig) : LayoutOptions :=
  config.values.entries.foldl (fun options (key, value) => options.apply key value) standard

end LayoutOptions

end Ili
