import Ili.Layout.Skeleton

/-!
# Layout rules

A rule says what goes between two adjacent children of a node. It is attached to the child before
or the child behind the join, may ask for a separator, and may shift the indentation of everything
that follows in the node. Which rules hold depends on the kind of the node; large or nested
enumerations and blocks kept as token runs are looked into.
-/

namespace Ili.Layout

inductive Insert where
  | space | nothing | newline | blankLine
  deriving DecidableEq, Repr

inductive Shift where
  | deeper | shallower
  deriving DecidableEq, Repr

/-- The level after a shift; there is none above zero. -/
def Shift.apply (level : Nat) : Shift → Nat
  | deeper => level + 1
  | shallower => level - 1

inductive Side where
  | before | behind
  deriving DecidableEq, Repr

/-- One child of a join: its kind, and how many children of that kind came earlier. -/
structure Neighbour where
  kind : Kind
  ordinal : Nat
  deriving DecidableEq, Repr

/-- A layout rule. A rule before its child matches the child behind the join, a rule behind its
child the one in front of it. -/
structure Rule where
  side : Side
  kinds : List Kind
  /-- Only the child with this ordinal. -/
  ordinal : Option Nat
  insert : Option Insert
  shift : Option Shift
  onlyAfter : Option Kind
  notAfter : Option Kind
  deriving DecidableEq, Repr

namespace Rule

def before (kinds : List Kind) (insert : Insert) : Rule :=
  ⟨.before, kinds, none, some insert, none, none, none⟩

def behind (kinds : List Kind) (insert : Insert) : Rule :=
  ⟨.behind, kinds, none, some insert, none, none, none⟩

def shifting (rule : Rule) (shift : Shift) : Rule :=
  { rule with shift := some shift }

def matchesJoin (rule : Rule) (previous : Option Neighbour) (next : Neighbour) : Bool :=
  let fits (n : Neighbour) : Bool :=
    rule.kinds.contains n.kind && rule.ordinal.all fun ordinal => n.ordinal == ordinal
  let previousKind := previous.map Neighbour.kind
  (rule.onlyAfter.all fun kind => previousKind == some kind) &&
    (rule.notAfter.all fun kind => previousKind != some kind) &&
    match rule.side with
    | .before => fits next
    | .behind => previous.any fits

end Rule

structure Ruling where
  insert : Option Insert
  shifts : List Shift
  deriving DecidableEq, Repr

/-- The combined effect of rules on a join. The separator of a rule before the next child counts
more than that of a rule behind the previous one, and a later rule more than an earlier one on the
same side. Shifts behind the previous child come first. -/
def rulingOf (rules : List Rule) (previous : Option Neighbour) (next : Neighbour) : Ruling :=
  let active (side : Side) :=
    rules.filter fun rule => rule.side == side && rule.matchesJoin previous next
  let insertOf (side : Side) := ((active side).filterMap Rule.insert).getLast?
  ⟨(insertOf .before).or (insertOf .behind),
    (active .behind ++ active .before).filterMap Rule.shift⟩

/-- Definitions set apart by blank lines in models and topics. -/
def definitions : List Kind :=
  [.unitSection, .domainSection, .topic, .classDef, .association, .rawStatement, .rawBlock, .error]

def classItems : List Kind :=
  [.attributeDef, .role, .constraint, .oidDecl, .cardinalityDecl, .error]

def sectionWords : List Kind := [.attributeKw, .parameterKw]

def topicItems : List Kind := [.oidDecl, .dependsOn]

/-- Enumerations with more elements than this have one element per line. -/
def maxInlineElements : Nat := 3

/-- The enumeration is large, or one of its elements holds an enumeration. -/
def breaksElements (children : List Skeleton) : Bool :=
  let elements := children.filter fun c => c.kind == .enumElement
  maxInlineElements < elements.length ||
    elements.any fun e => e.children.any fun c => c.kind == .enumType

/-- The end of a model or a topic: on a line of its own, behind a blank line unless the body is
empty. -/
def blockEnd : List Rule :=
  [(Rule.before [.endKw] .newline).shifting .shallower,
    { Rule.before [.endKw] .blankLine with notAfter := some .eq }]

def rulesFor (kind : Kind) (children : List Skeleton) : List Rule :=
  match kind with
  | .sourceFile => [.before [.model] .blankLine]
  | .model =>
    [.before [.atKw] .newline, .before [.translationOf] .newline,
      (Rule.behind [.eq] .newline).shifting .deeper,
      .before [.imports] .newline, .before definitions .blankLine] ++ blockEnd
  | .topic =>
    [.before [.extendsClause] .newline, (Rule.behind [.eq] .newline).shifting .deeper,
      .before topicItems .newline, .before definitions .blankLine] ++ blockEnd
  | .classDef | .association =>
    [.before [.extendsClause] .newline, (Rule.behind [.eq] .newline).shifting .deeper,
      .before classItems .newline,
      (Rule.before sectionWords .newline).shifting .shallower,
      (Rule.behind sectionWords .newline).shifting .deeper,
      (Rule.before [.endKw] .newline).shifting .shallower,
      { Rule.before [.endKw] .space with onlyAfter := some .eq }]
  | .domainSection =>
    [(Rule.behind [.domainKw] .newline).shifting .deeper,
      { Rule.before [.domainDef] .blankLine with notAfter := some .domainKw }]
  | .unitSection =>
    [(Rule.behind [.unitKw] .newline).shifting .deeper, .before [.unitDef] .newline]
  | .domainDef => [(Rule.before [.domainConstraints] .newline).shifting .deeper]
  | .domainConstraints =>
    [(Rule.behind [.constraintsKw] .newline).shifting .deeper, .behind [.comma] .newline]
  | .textType => [.before [.star] .nothing, .behind [.star] .nothing]
  | .cardinality => [.before [.dotDot] .nothing, .behind [.dotDot] .nothing]
  | .numericType => [.behind [.minus] .nothing]
  | .enumType =>
    if breaksElements children then
      [(Rule.behind [.lParen] .newline).shifting .deeper, .behind [.comma] .newline]
    else []
  | .rawBlock =>
    let bodyRules :=
      if children.any fun c => c.kind == .eq then
        [{ (Rule.behind [.eq] .newline).shifting .deeper with ordinal := some 0 },
          (Rule.before [.endKw] .newline).shifting .shallower]
      else [.before [.endKw] .newline]
    .behind [.semicolon] .newline :: bodyRules
  | _ => []

end Ili.Layout
