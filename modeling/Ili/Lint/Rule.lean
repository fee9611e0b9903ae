import Ili.EditorConfig

/-!
# Style rules

Rules about how models are written. They can be switched on and off one by one; a switch that is
not set leaves a rule at its default.
-/

namespace Ili

inductive LintRule where
  /-- Flags are declared with the predefined domain, not with the reserved word. -/
  | booleanType
  deriving DecidableEq, Repr

namespace LintRule

def all : List LintRule :=
  [.booleanType]

def id : LintRule → String
  | .booleanType => "interlis.boolean-type"

def advice : LintRule → String
  | .booleanType => "Use INTERLIS.BOOLEAN instead of BOOLEAN"

def isDefault : LintRule → Bool
  | .booleanType => true

def key (rule : LintRule) : String :=
  "dotnet_diagnostic." ++ rule.id ++ ".enabled"

end LintRule

/-- The rules that have been switched; of two switches for a rule the first counts. -/
structure LintConfig where
  switches : List (LintRule × Bool)
  deriving DecidableEq, Repr

namespace LintConfig

def standard : LintConfig :=
  ⟨[]⟩

def isEnabled (config : LintConfig) (rule : LintRule) : Bool :=
  (config.switches.lookup rule).getD rule.isDefault

def switch (config : LintConfig) (rule : LintRule) (enabled : Bool) : LintConfig :=
  ⟨(rule, enabled) :: config.switches⟩

/-- The switches in a configuration. What is neither true nor false switches nothing. -/
def ofConfig (config : EditorConfig) : LintConfig :=
  ⟨LintRule.all.filterMap fun rule =>
    ((config.get? rule.key).bind parseFlag?).map fun enabled => (rule, enabled)⟩

theorem isEnabled_switch (config : LintConfig) (rule other : LintRule) (enabled : Bool) :
    (config.switch rule enabled).isEnabled other =
      if other = rule then enabled else config.isEnabled other := by
  by_cases h : other = rule <;> simp [isEnabled, switch, h]

end LintConfig

end Ili
