import Ili.Grammar.Pieces

/-!
# Types of attributes and domains

A type is read by the rule its first token calls for. Whatever is left in front of the tokens that
may end it joins it in a node of its own, so that types the rules do not describe stay in one piece.
-/

namespace Ili.Grammar

open Rule

/-- Text = ('TEXT' | 'MTEXT') ['*' Integer] -/
def sizedText : Rule :=
  .node .textType (.seq .bump (eatThen .star (expect .integer)))

/-- Number = ['-'] (Integer | Decimal) -/
def number : Rule :=
  .seq (eat .minus) (.choose (.sees [.integer, .decimal]) .bump (.report .missingNumber))

/-- Numeric = Number '..' Number ['[' Path ']'] -/
def numericType : Rule :=
  .node .numericType <| row
    [number, expect .dotDot, number, eatThen .lBracket (.seq path (expect .rBracket))]

/-- Element = Name [Enumeration | 'FINAL'] -/
def enumElement : Rule :=
  .choose (.sees [.ident])
    (.node .enumElement <| .seq name <|
      .choose (.sees [.lParen]) .nested (eat .finalKw))
    (recover .missingElement [.comma, .rParen, .semicolon])

/-- Enumeration = '(' ('FINAL' | Element {',' Element} [':' 'FINAL']) ')' ['ORDERED' | 'CIRCULAR'].
The single `FINAL` closes an extensible enumeration without new elements. -/
def enumType : Rule :=
  .node .enumType <| row
    [expect .lParen,
      .choose (.sees [.finalKw]) .bump
        (.seq (separatedBy .comma enumElement) (eatThen .colon (expect .finalKw))),
      expect .rParen,
      when (.both (.sees [.ident]) (.seesWord ["ORDERED", "CIRCULAR"])) .bump]

/-- Reference = 'REFERENCE' 'TO' [Properties] Path {'OR' Path} -/
def referenceType : Rule :=
  .node .referenceType <| row
    [expect .referenceKw, expect .toKw, optionalProperties, alternatives]

/-- List = ('BAG' | 'LIST') [Cardinality] 'OF' Path -/
def listType : Rule :=
  .node .listType <| row [.bump, optionalCardinality, expect .ofKw, path]

/-- Blackbox = 'BLACKBOX' ('BINARY' | 'XML') -/
def blackboxType : Rule :=
  .node .blackboxType <| .seq .bump <|
    .choose (.sees [.binaryKw, .xmlKw]) .bump (.report .missingBlackboxKind)

/-- The rule called for by the first token of a type; none for a token that starts no type. -/
def describedType : Rule :=
  cases
    [(.sees [.textKw, .mtextKw], sizedText),
      (.sees [.nameKw, .uriKw], .node .textType .bump),
      (.sees [.booleanKw], .node .booleanType .bump),
      (.sees [.integer, .decimal, .minus], numericType),
      (.sees [.lParen], .nested),
      (.sees [.referenceKw], referenceType),
      (.sees [.bagKw, .listKw], listType),
      (.sees [.blackboxKw], blackboxType),
      (.sees pathStarts, .node .typeRef path)]
    .skip

def typeUpTo (stops : List Kind) : Rule :=
  .extendAs .rawType describedType (.both .more (.negate (.sees stops))) (.balancedTo stops)

end Ili.Grammar
