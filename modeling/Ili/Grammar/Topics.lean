import Ili.Grammar.Types

/-!
# Topics and what they hold

Topics, classes, structures and associations with their attributes, roles and constraints. A member
no rule fits is set aside up to its semicolon. Constructs that are kept as plain runs of tokens
(views, graphics, functions and the like) are delimited only: a statement ends at a semicolon, a
block at its `END`.
-/

namespace Ili.Grammar

open Rule

def statementEnds : List Kind := [.semicolon, .endKw]

def memberStarts : List Kind :=
  [.semicolon, .endKw, .topicKw, .classKw, .structureKw, .associationKw, .domainKw, .unitKw]

/-- Sets one malformed member aside, with its semicolon if that comes before another member. -/
def misplaced (place : Place) : Rule :=
  .seq (.report (.unexpectedMember place)) <| .node .error <|
    .seq
      (when (.negate (.sees [.semicolon]))
        (.seq .bump (.many (.both .more (.negate (.sees memberStarts))) .bump)))
      (eat .semicolon)

/-- Statement = Keyword Token* ';' -/
def rawStatement : Rule :=
  .node .rawStatement <| row [.bump, .balancedTo statementEnds, expect .semicolon]

/-- Block = Keyword Token* 'END' [Name] ';' -/
def rawBlock : Rule :=
  .node .rawBlock <| row
    [.bump, .balancedTo [.endKw], expectThen .endKw (.seq (eat .ident) (expect .semicolon))]

/-- A block kept as a run of tokens: a view, a graphic, or constraints of another class. -/
def seesRawBlock : Guard :=
  .either (.sees [.viewKw, .graphicKw]) (.both (.sees [.constraintsKw]) (.thenSees [.ofKw]))

/-- OidDecl = ['BASKET'] 'OID' 'AS' Path ';' | 'NO' 'OID' ';' -/
def oidDecl : Rule :=
  .node .oidDecl <| .seq
    (.choose (.sees [.noKw]) (.seq .bump (expect .oidKw))
      (row [eat .basketKw, expect .oidKw, expect .asKw, path]))
    (expect .semicolon)

/-- DependsOn = 'DEPENDS' 'ON' Path {',' Path} ';' -/
def dependsOn : Rule :=
  .node .dependsOn <| row
    [expect .dependsKw, expect .onKw, separatedBy .comma path, expect .semicolon]

def optionalValue : Rule :=
  eatThen .colonEq (.balancedTo statementEnds)

/-- The semicolon behind an attribute or a role. What stands in front of it is set aside, unless a
name or an `END` shows that it was forgotten. -/
def memberEnd : Rule :=
  cases
    [(.sees [.semicolon], .bump),
      (.either (.negate .more) (.sees [.endKw, .ident]), .report (.missing .semicolon))]
    (.seq (recover (.missing .semicolon) [.semicolon, .endKw, .ident]) (eat .semicolon))

/-- Attribute = Name [Properties] ':' ['MANDATORY'] Type [':=' Value] ';' -/
def attributeDef : Rule :=
  .node .attributeDef <| row
    [name, optionalProperties,
      expectThen .colon (.seq (eat .mandatoryKw) (typeUpTo [.semicolon, .colonEq, .endKw])),
      optionalValue, memberEnd]

def roleOperators : List Kind := [.assocRole, .aggregationRole, .compositionRole]

/-- Role = Name [Properties] Operator [Cardinality] [Properties] Path {'OR' Path} [':=' Value]
';' -/
def role : Rule :=
  .node .role <| row
    [name, optionalProperties, .bump, optionalCardinality, optionalProperties, alternatives,
      optionalValue, memberEnd]

/-- CardinalityDecl = 'CARDINALITY' '=' Cardinality ';' -/
def cardinalityDecl : Rule :=
  .node .cardinalityDecl <| row
    [expect .cardinalityKw, expect .eq, cardinality, expect .semicolon]

def constraintStarts : List Kind :=
  [.mandatoryKw, .constraintKw, .uniqueKw, .existenceKw, .setKw]

/-- Constraint = Word Expression ';' -/
def constraint : Rule :=
  .node .constraint <| row [.bump, .balancedTo statementEnds, expect .semicolon]

def outerStarts : List Kind := [.classKw, .structureKw, .associationKw, .topicKw]

def classMember : Rule :=
  cases
    [(.sees [.attributeKw, .parameterKw], .bump),
      (.sees [.oidKw, .noKw], oidDecl),
      (.sees [.cardinalityKw], cardinalityDecl),
      (.sees constraintStarts, constraint),
      (.both (.sees [.ident]) (.sentenceOf roleOperators), role),
      (.sees [.ident], attributeDef)]
    (misplaced .classBody)

/-- ClassBody = {Member}. Another definition shows that the end is missing; it is left to the body
around this one. -/
def classBody : Rule :=
  .seq
    (.many (.both .more (.negate (.sees (.endKw :: outerStarts)))) classMember)
    (when (.sees outerStarts) (.report .missingEnd))

/-- ClassRest = [Properties] [Extends] '=' ClassBody 'END' [Name] ';' -/
def classRest : Rule :=
  row [optionalProperties, optionalExtends, expect .eq, classBody,
    expectThen .endKw (.seq (eat .ident) (expect .semicolon))]

/-- Class = ('CLASS' | 'STRUCTURE') Name ClassRest -/
def classDef : Rule :=
  .node .classDef <| row [.bump, name, classRest]

/-- Association = 'ASSOCIATION' [Name] ClassRest -/
def association : Rule :=
  .node .association <| row [expect .associationKw, when (.sees [.ident]) name, classRest]

/-- DomainConstraint = Name ':' Expression -/
def domainConstraint : Rule :=
  .node .domainConstraint <| row
    [name, expect .colon, .balancedTo [.comma, .semicolon, .endKw]]

/-- DomainConstraints = 'CONSTRAINTS' DomainConstraint {',' DomainConstraint} -/
def domainConstraints : Rule :=
  .node .domainConstraints <|
    .seq (expect .constraintsKw) (separatedBy .comma domainConstraint)

/-- DomainDef = Name [Properties] [Extends] '=' ['MANDATORY'] Type [DomainConstraints] ';' -/
def domainDef : Rule :=
  .node .domainDef <| row
    [name, optionalProperties, optionalExtends, expect .eq, eat .mandatoryKw,
      typeUpTo [.semicolon, .constraintsKw, .endKw],
      when (.sees [.constraintsKw]) domainConstraints, expect .semicolon]

/-- DomainSection = 'DOMAIN' {DomainDef} -/
def domainSection : Rule :=
  .node .domainSection <| .seq (expect .domainKw) (.many seesDefinitionName domainDef)

def topicMember : Rule :=
  cases
    [(.either (.sees [.oidKw, .noKw]) (.both (.sees [.basketKw]) (.thenSees [.oidKw])), oidDecl),
      (.sees [.dependsKw], dependsOn),
      (.sees [.classKw, .structureKw], classDef),
      (.sees [.associationKw], association),
      (.sees [.domainKw], domainSection),
      (seesRawBlock, rawBlock),
      (.either .seesKeyword (.both (.sees [.ident]) (.seesWord ["SIGN"])), rawStatement)]
    (misplaced .topic)

/-- Topic = 'TOPIC' Name [Properties] [Extends] '=' {Member} 'END' Name ';' -/
def topic : Rule :=
  .node .topic <| row
    [expect .topicKw, name, optionalProperties, optionalExtends, expect .eq,
      .many (.both .more (.negate (.sees [.endKw]))) topicMember,
      expectThen .endKw
        (.seq (.choose (.sees [.ident]) .bump (.report .missingEndName)) (expect .semicolon))]

end Ili.Grammar
