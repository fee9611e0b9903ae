import Ili.Diagnostic
import Ili.Environment.Basic

/-!
# Checking style

Style never affects what references are bound to. A rule looks at one definition at a time, and
what it finds is reported at the name of the definition.
-/

namespace Ili

def Definition.breaks (definition : Definition) : LintRule → Bool
  | .booleanType => definition.data.type? matches some .boolean

namespace Catalog

def styleFindings (catalog : Catalog) (config : LintConfig) : List Diagnostic :=
  catalog.definitions.toList.flatMap fun definition =>
    (LintRule.all.filter fun rule => config.isEnabled rule && definition.breaks rule).map
      fun rule => ⟨catalog.uri, definition.nameSpan, .style rule⟩

def lint (catalog : Catalog) (config : LintConfig) : List Diagnostic :=
  Diagnostic.sort (catalog.styleFindings config)

end Catalog

def Environment.lint (env : Environment) (config : LintConfig) : List Diagnostic :=
  Diagnostic.sort ((env.files.toList.drop 1).flatMap fun file => file.styleFindings config)

end Ili
