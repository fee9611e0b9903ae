import Ili.Grammar.Models

/-!
# Parsing

Parsing a text never fails: it yields a tree over all tokens of the text and the errors met, in the
order they were met.
-/

namespace Ili

def Kind.display : Kind → String
  | .semicolon => "';'"
  | .colon => "':'"
  | .comma => "','"
  | .dot => "'.'"
  | .dotDot => "'..'"
  | .eq => "'='"
  | .lParen => "'('"
  | .rParen => "')'"
  | .lBracket => "'['"
  | .rBracket => "']'"
  | .lBrace => "'\x7b'"
  | .rBrace => "'\x7d'"
  | .ident => "identifier"
  | .string => "string"
  | .decimal => "version number"
  | .integer => "integer"
  | .interlisKw => "'INTERLIS'"
  | .modelKw => "'MODEL'"
  | .endKw => "'END'"
  | .ofKw => "'OF'"
  | .toKw => "'TO'"
  | .onKw => "'ON'"
  | .asKw => "'AS'"
  | .oidKw => "'OID'"
  | _ => "token"

def Place.display : Place → String
  | .model => "model"
  | .topic => "topic"
  | .classBody => "class body"

def SyntaxError.message (error : SyntaxError) : String :=
  match error.problem with
  | .missing kind => "expected " ++ kind.display
  | .missingHeader => "expected 'INTERLIS 2.x;' header"
  | .notAModel => "expected model definition, found " ++ error.found.label
  | .unexpectedMember place =>
    "unexpected token in " ++ place.display ++ ": " ++ error.found.label
  | .missingName => "expected name"
  | .missingPath => "expected name or qualified path"
  | .missingBound => "expected cardinality bound"
  | .missingNumber => "expected number"
  | .missingBlackboxKind => "expected BINARY or XML"
  | .missingElement => "expected enumeration element"
  | .missingEnd => "expected END"
  | .missingEndName => "expected name after END"

structure Parse where
  tree : Tree
  errors : List SyntaxError
  deriving Repr

def Parse.ok (parse : Parse) : Bool :=
  parse.errors.isEmpty

def parse (text : String) : Parse :=
  let outcome := Rule.run Grammar.enumType Grammar.file (Input.ofText text)
  ⟨.node .sourceFile outcome.trees, outcome.errors⟩

end Ili
