import Ili.Text.Number

/-!
# Types

The type of an attribute or a domain. Where a type names another definition it holds the number of
a reference of its file.
-/

namespace Ili

/-- How often something may occur. A bound that is absent is open. -/
structure Cardinality where
  min : Option Nat
  max : Option Nat
  deriving DecidableEq, Repr

namespace Cardinality

def isUnbounded (cardinality : Cardinality) : Bool :=
  cardinality.max.isNone

def boundText : Option Nat → String
  | none => "*"
  | some n => toString n

/-- A cardinality as it is written; equal bounds are written once. -/
def display (cardinality : Cardinality) : String :=
  if cardinality.min = cardinality.max then
    "\x7b" ++ boundText cardinality.min ++ "\x7d"
  else "\x7b" ++ boundText cardinality.min ++ ".." ++ boundText cardinality.max ++ "\x7d"

end Cardinality

inductive RoleKind where
  | association | aggregation | composition
  deriving DecidableEq, Repr

inductive TextKind where
  | text | mtext | name | uri
  deriving DecidableEq, Repr

inductive BlackboxKind where
  | binary | xml
  deriving DecidableEq, Repr

inductive EnumValue where
  | mk (name : String) (isFinal : Bool) (children : List EnumValue)
  deriving Repr

namespace EnumValue

def name : EnumValue → String
  | mk name _ _ => name

mutual

/-- The values without values below them, each written as a dotted path. -/
def leaves : EnumValue → List String
  | mk name _ [] => [name]
  | mk name _ (child :: rest) =>
    (child.leaves ++ leavesOf rest).map fun leaf => name ++ "." ++ leaf

def leavesOf : List EnumValue → List String
  | [] => []
  | value :: rest => value.leaves ++ leavesOf rest

end

mutual

/-- All values with their depth, each before those below it. -/
def preorder (depth : Nat) : EnumValue → List (Nat × String × Bool)
  | mk name isFinal children => (depth, name, isFinal) :: preorderOf (depth + 1) children

def preorderOf (depth : Nat) : List EnumValue → List (Nat × String × Bool)
  | [] => []
  | value :: rest => preorder depth value ++ preorderOf depth rest

end

end EnumValue

inductive TypeDef where
  | text (kind : TextKind) (length : Option Nat)
  /-- Bounds are kept as they are written. -/
  | numeric (min max : Option String) (unit : Option Nat)
  | boolean
  | enumeration (values : List EnumValue) (isFinal : Bool)
  | reference (targets : List Nat) (external : Bool)
  | role (kind : RoleKind) (targets : List Nat) (external : Bool)
  | blackbox (kind : BlackboxKind)
  | named (target : Nat)
  /-- A bag, or a list if it is ordered, of structures. -/
  | structures (ordered : Bool) (target : Nat)
  /-- A type that is not described, as it is written. -/
  | raw (text : String)
  deriving Repr

def TypeDef.references : TypeDef → List Nat
  | numeric _ _ unit => unit.toList
  | reference targets _ | role _ targets _ => targets
  | named target | structures _ target => [target]
  | text _ _ | boolean | enumeration _ _ | blackbox _ | raw _ => []

end Ili
