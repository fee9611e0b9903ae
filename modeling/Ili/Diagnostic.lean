import Ili.Lint.Rule
import Ili.Text.Position

/-!
# Diagnostics

A diagnostic says what is wrong and where. The finding is kept as what it is; its severity, code
and wording follow from it. Diagnostics are put in order by file, place, code and wording, and
those that agree in all of these stay as they came.
-/

namespace Ili

inductive Severity where
  | error | warning | info | hint
  deriving DecidableEq, Repr

def Severity.number : Severity → Nat
  | .error => 1
  | .warning => 2
  | .info => 3
  | .hint => 4

inductive Finding where
  | unresolvedReference (path : String)
  /-- A path names something of another kind than is asked for; both are given as worded. -/
  | wrongKind (path wanted found : String)
  | versionMismatch (model : String) (found wanted : Option String)
  | modelNotFound (model : String)
  | ambiguousModel (model : String) (candidates : List String)
  | style (rule : LintRule)
  | remark (severity : Severity) (code : Option String) (text : String)
  deriving DecidableEq, Repr

def describeVersion : Option String → String
  | some version => "INTERLIS " ++ version
  | none => "no INTERLIS header"

namespace Finding

/-- The severity of a finding. What a repository lacks is a warning. -/
def severity : Finding → Severity
  | unresolvedReference _ | wrongKind _ _ _ | versionMismatch _ _ _ => .error
  | modelNotFound _ | ambiguousModel _ _ | style _ => .warning
  | remark severity _ _ => severity

def code : Finding → Option String
  | unresolvedReference _ => some "E0001"
  | wrongKind _ _ _ => some "E0002"
  | versionMismatch _ _ _ => some "E0003"
  | modelNotFound _ => some "W0001"
  | ambiguousModel _ _ => some "W0002"
  | style rule => some rule.id
  | remark _ code _ => code

def message : Finding → String
  | unresolvedReference path => "unresolved reference: '" ++ path ++ "'"
  | wrongKind path wanted found =>
    "wrong kind: '" ++ path ++ "' is a " ++ found ++ ", expected " ++ wanted
  | versionMismatch model found wanted =>
    "version mismatch: model '" ++ model ++ "' has " ++ describeVersion found ++ ", expected " ++
      describeVersion wanted
  | modelNotFound model => "model not found: '" ++ model ++ "'"
  | ambiguousModel model candidates =>
    "ambiguous model: '" ++ model ++ "' could be: " ++ ", ".intercalate candidates
  | style rule => rule.advice
  | remark _ _ text => text

end Finding

structure Diagnostic where
  uri : Option String
  span : Span
  finding : Finding
  deriving DecidableEq, Repr

namespace Diagnostic

def order (a b : Diagnostic) : Ordering :=
  (compare a.uri b.uri).then <|
    (compare a.span.start b.span.start).then <|
      (compare a.span.stop b.span.stop).then <|
        (compare a.finding.code b.finding.code).then <|
          compare a.finding.message b.finding.message

def sort (diagnostics : List Diagnostic) : List Diagnostic :=
  diagnostics.mergeSort fun a b => (a.order b).isLE

def count (severity : Severity) (diagnostics : List Diagnostic) : Nat :=
  diagnostics.countP fun d => d.finding.severity == severity

def hasErrors (diagnostics : List Diagnostic) : Bool :=
  diagnostics.any fun d => d.finding.severity == .error

theorem sort_perm (diagnostics : List Diagnostic) : (sort diagnostics).Perm diagnostics :=
  List.mergeSort_perm _ _

theorem hasErrors_iff (diagnostics : List Diagnostic) :
    hasErrors diagnostics = true ↔ 0 < count .error diagnostics := by
  simp [hasErrors, count, List.countP_pos_iff]

end Diagnostic

end Ili
