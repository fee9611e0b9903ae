/-!
# Positions and spans

A position counts lines from zero and columns in UTF-16 code units, the way editors do. A span is a
pair of positions and holds both of its ends.
-/

namespace Ili

/-- A place in a text: line and column, both from zero. -/
structure Position where
  line : Nat
  column : Nat
  deriving DecidableEq, Repr, Inhabited

namespace Position

protected def le (a b : Position) : Prop :=
  a.line < b.line ∨ a.line = b.line ∧ a.column ≤ b.column

instance : LE Position := ⟨Position.le⟩

instance (a b : Position) : Decidable (a ≤ b) :=
  inferInstanceAs (Decidable (_ ∨ _))

instance : Ord Position :=
  ⟨fun a b => (compare a.line b.line).then (compare a.column b.column)⟩

theorem le_def {a b : Position} :
    a ≤ b ↔ a.line < b.line ∨ a.line = b.line ∧ a.column ≤ b.column :=
  Iff.rfl

/-- People count lines and columns from one. -/
def display (position : Position) : String :=
  toString (position.line + 1) ++ ":" ++ toString (position.column + 1)

end Position

structure Span where
  start : Position
  stop : Position
  deriving DecidableEq, Repr, Inhabited

/-- Both ends of a span belong to it. -/
def Span.contains (span : Span) (position : Position) : Bool :=
  span.start ≤ position && position ≤ span.stop

end Ili
