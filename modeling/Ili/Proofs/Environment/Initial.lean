import Ili.Environment.Basic

/-!
# The initial environment, computed

Taking a text apart into characters costs far more than reading them. The predefined text is spelled
once, so that what holds of sessions can be computed from its characters; so are other texts.
-/

namespace Ili

def treeOfChars (chars : List Char) : Tree :=
  .node .sourceFile
    (Rule.run Grammar.enumType Grammar.file
      (Input.ofTokens 0 [] (Lexer.tokensAfter 0 chars))).trees

theorem tree_parse_of_eq {text : String} {chars : List Char} (h : text = String.ofList chars) :
    (parse text).tree = treeOfChars chars := by
  have htokens : tokenize text = Lexer.tokensAfter 0 chars :=
    congrArg (Lexer.tokensAfter 0) ((congrArg String.toList h).trans String.toList_ofList)
  rw [parse, Input.ofText, htokens, treeOfChars]

set_option maxRecDepth 10000 in
def predefinedSpelling : { chars : List Char // predefinedText = String.ofList chars } :=
  ⟨_, rfl⟩

theorem predefinedCatalog_eq :
    predefinedCatalog = .ofTree predefinedText (treeOfChars predefinedSpelling.1) none := by
  rw [predefinedCatalog, Catalog.ofText, tree_parse_of_eq predefinedSpelling.2]

namespace Environment

/-- The initial environment with the predefined text spelled out. -/
def spelledInitial : Environment :=
  append ⟨none, #[], .empty⟩ (.ofTree predefinedText (treeOfChars predefinedSpelling.1) none)

theorem initial_eq_spelledInitial : initial = spelledInitial := by
  rw [initial, predefinedCatalog_eq, spelledInitial]

end Environment

end Ili
