import Ili.Grammar.Topics

/-!
# Files and models

A file is a header followed by models. What stands between models is set aside up to the next word
a model can start with, so one malformed stretch does not reach into its neighbours.
-/

namespace Ili.Grammar

open Rule

/-- Header = 'INTERLIS' Decimal ';' -/
def header : Rule :=
  .node .header <| row [expect .interlisKw, expect .decimal, expect .semicolon]

/-- TranslationOf = 'TRANSLATION' 'OF' Path ['[' String ']'] -/
def translationOf : Rule :=
  .node .translationOf <| row
    [expect .translationKw, expect .ofKw, path,
      eatThen .lBracket (.seq (expect .string) (expect .rBracket))]

/-- ImportItem = ['UNQUALIFIED'] Path -/
def importItem : Rule :=
  .node .importItem (.seq (eat .unqualifiedKw) path)

/-- Imports = 'IMPORTS' ImportItem {',' ImportItem} ';' -/
def imports : Rule :=
  .node .imports <| row [expect .importsKw, separatedBy .comma importItem, expect .semicolon]

/-- UnitDef = Name [Properties] ['[' Name ']'] [Extends] ['=' Expression] ';' -/
def unitDef : Rule :=
  .node .unitDef <| row
    [name, optionalProperties, eatThen .lBracket (.seq name (expect .rBracket)), optionalExtends,
      eatThen .eq (.balancedTo statementEnds), expect .semicolon]

/-- UnitSection = 'UNIT' {UnitDef} -/
def unitSection : Rule :=
  .node .unitSection <| .seq (expect .unitKw) (.many (.sees [.ident]) unitDef)

def modelMember : Rule :=
  cases
    [(.sees [.importsKw], imports),
      (.sees [.unitKw], unitSection),
      (.sees [.domainKw], domainSection),
      (.sees [.topicKw], topic),
      (.sees [.classKw, .structureKw], classDef),
      (.sees [.associationKw], association),
      (seesRawBlock, rawBlock),
      (.seesKeyword, rawStatement)]
    (misplaced .model)

def modelStarts : List Kind := [.modelKw, .contractedKw, .typeKw, .refsystemKw, .symbologyKw]

/-- Model = ['CONTRACTED'] ['TYPE' | 'REFSYSTEM' | 'SYMBOLOGY'] 'MODEL' Name ['(' Language ')']
['AT' String] ['VERSION' String] [TranslationOf] '=' {Member} 'END' Name '.'. The built-in model is
named by a reserved word. -/
def model : Rule :=
  .node .model <| row
    [eat .contractedKw,
      when (.sees [.typeKw, .refsystemKw, .symbologyKw]) .bump,
      expect .modelKw,
      .choose (.sees [.interlisKw]) keywordName name,
      eatThen .lParen (.seq (expect .ident) (expect .rParen)),
      eatThen .atKw (expect .string),
      eatThen .versionKw (expect .string),
      when (.sees [.translationKw]) translationOf,
      expect .eq,
      .many (.both .more (.negate (.sees [.endKw]))) modelMember,
      expectThen .endKw
        (.seq (.choose (.sees [.interlisKw]) (.bumpAs .ident) (expect .ident)) (expect .dot))]

/-- File = Header {Model} -/
def file : Rule :=
  row [.choose (.sees [.interlisKw]) header (.report .missingHeader),
    .many .more (.choose (.sees modelStarts) model (recover .notAModel modelStarts)),
    .flush]

end Ili.Grammar
