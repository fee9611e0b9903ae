import Ili.Grammar.Rule

/-!
# Names, paths and lists

The pieces shared by all definitions. Productions are written above their rules: quoted words stand
for themselves, `[x]` is an optional part, `{x}` a repeated one.
-/

namespace Ili.Grammar

open Rule

/-- A reserved word that names a definition: it stands directly before an equals sign, as in
`BOOLEAN = BOOLEAN`. -/
def seesKeywordName : Guard :=
  .both .seesKeyword (.thenSees [.eq])

/-- An identifier, or a reserved word that names a definition. -/
def seesDefinitionName : Guard :=
  .either (.sees [.ident]) seesKeywordName

def keywordName : Rule :=
  .node .name (.bumpAs .ident)

/-- Name = Identifier. A reserved word directly before an equals sign is a name too. -/
def name : Rule :=
  cases [(.sees [.ident], .node .name .bump), (seesKeywordName, keywordName)]
    (.report .missingName)

def pathStarts : List Kind := [.ident, .interlisKw]

/-- Path = Segment {'.' Segment}. Behind a dot any word is a segment, so that `INTERLIS.BOOLEAN` is
a path; a dot with no word behind it is left alone. -/
def path : Rule :=
  .choose (.sees pathStarts)
    (.node .path <| .seq .bump <|
      .many (.both (.sees [.dot]) (.either (.thenSees [.ident]) .thenSeesKeyword))
        (.seq .bump .bump))
    (.report .missingPath)

/-- Properties = '(' Property {',' Property} ')'. The list may be empty, and its last comma may
have nothing behind it. -/
def properties : Rule :=
  .node .properties <| row
    [expect .lParen,
      when (.either .seesKeyword (.sees [.ident])) (row
        [.bump,
          .many (.both (.sees [.comma]) (.either .thenSeesKeyword (.thenSees [.ident])))
            (.seq .bump .bump),
          eat .comma]),
      expect .rParen]

def optionalProperties : Rule :=
  when (.sees [.lParen]) properties

/-- Extends = 'EXTENDS' Path -/
def extendsClause : Rule :=
  .node .extendsClause (.seq (expect .extendsKw) path)

def optionalExtends : Rule :=
  when (.sees [.extendsKw]) extendsClause

/-- Bound = Integer | '*' -/
def bound : Rule :=
  .choose (.sees [.integer, .star]) .bump (.report .missingBound)

/-- Cardinality = '{' Bound ['..' Bound] '}' -/
def cardinality : Rule :=
  .node .cardinality <| row
    [expect .lBrace, bound, eatThen .dotDot bound, expect .rBrace]

def optionalCardinality : Rule :=
  when (.sees [.lBrace]) cardinality

/-- Paths = Path {'OR' Path} -/
def alternatives : Rule :=
  separatedBy .orKw path

end Ili.Grammar
