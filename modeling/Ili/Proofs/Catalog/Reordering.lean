import Ili.Proofs.Catalog.Forest
import Ili.Proofs.Catalog.Stripped

/-!
# Catalogs that differ in the order of imports

Two catalogs are the same but for the order in which their models import others, and but for places.
References are numbered as they are met, so those that are not imports have the same numbers in
both, and the imports have the same numbers in some order.
-/

namespace Ili

/-- What look-ups read of a definition. -/
def Definition.skeleton (definition : Definition) :
    String × Option Nat × Dict Nat × DefinitionKind :=
  (definition.name, definition.parent, definition.content, definition.kind)

def Import.written (entry : Import × Reference) : List String × Bool :=
  (entry.2.path, entry.1.unqualified)

def DefinitionData.imports : DefinitionData → List Import
  | .model data => data.imports
  | _ => []

def Definition.importsIn (references : Array Reference) (definition : Definition) :
    List (Import × Reference) :=
  definition.data.imports.filterMap fun item =>
    (references[item.model]?).map fun reference => (item, reference)

namespace Catalog

def importsAt (catalog : Catalog) (index : Nat) : List (Import × Reference) :=
  match catalog.definition? index with
  | none => []
  | some definition => definition.importsIn catalog.references

def IsImport (catalog : Catalog) (number : Nat) : Prop :=
  ∃ index, ∃ entry ∈ catalog.importsAt index, entry.1.model = number

theorem isImport_iff_lt (catalog : Catalog) (number : Nat) :
    catalog.IsImport number ↔ ∃ index, index < catalog.definitions.size ∧
      ∃ entry ∈ catalog.importsAt index, entry.1.model = number := by
  refine ⟨fun ⟨index, entry, hentry, hnumber⟩ => ⟨index, ?_, entry, hentry, hnumber⟩,
    fun ⟨index, _, hentry⟩ => ⟨index, hentry⟩⟩
  by_contra hge
  have hnone : catalog.definition? index = none := Array.getElem?_eq_none (by omega)
  rw [importsAt, hnone] at hentry
  cases hentry

instance (catalog : Catalog) (number : Nat) : Decidable (catalog.IsImport number) :=
  decidable_of_iff _ (catalog.isImport_iff_lt number).symm

/-- The catalogs are the same but for the order of imports and for places. -/
structure Reordered (catalog other : Catalog) : Prop where
  uri : catalog.uri = other.uri
  schemaVersion : catalog.schemaVersion = other.schemaVersion
  models : catalog.models = other.models
  definitions : ∀ index : Nat, (catalog.definition? index).map Definition.skeleton =
    (other.definition? index).map Definition.skeleton
  imports : ∀ index : Nat, ((catalog.importsAt index).map Import.written).Perm
    ((other.importsAt index).map Import.written)
  isImport : ∀ number : Nat, catalog.IsImport number ↔ other.IsImport number
  references : ∀ number : Nat, ¬catalog.IsImport number →
    (catalog.references[number]?).map Reference.stripped =
      (other.references[number]?).map Reference.stripped
  references_perm : (catalog.references.toList.map Reference.stripped).Perm
    (other.references.toList.map Reference.stripped)

variable {catalog other : Catalog}

theorem Reordered.refl (catalog : Catalog) : catalog.Reordered catalog :=
  ⟨rfl, rfl, rfl, fun _ => rfl, fun _ => .refl _, fun _ => .rfl, fun _ _ => rfl, .refl _⟩

namespace Reordered

variable (h : catalog.Reordered other)

include h

theorem definition?_map {α : Type} {f : Definition → α}
    (hf : ∀ definition other : Definition, definition.skeleton = other.skeleton →
      f definition = f other) (index : Nat) :
    (catalog.definition? index).map f = (other.definition? index).map f := by
  have hskeleton := h.definitions index
  cases hleft : catalog.definition? index with
  | none =>
    rw [hleft, Option.map_none, eq_comm, Option.map_eq_none_iff] at hskeleton
    rw [hskeleton]
  | some definition =>
    rw [hleft, Option.map_some] at hskeleton
    obtain ⟨definition', hright, hsame⟩ := Option.map_eq_some_iff.mp hskeleton.symm
    rw [hright, Option.map_some, Option.map_some, hf _ _ hsame.symm]

theorem nameOf_eq (index : Nat) : catalog.nameOf index = other.nameOf index :=
  congrArg (Option.getD · "")
    (h.definition?_map (fun _ _ hsame => congrArg Prod.fst hsame) index)

theorem modelNames_eq : catalog.modelNames = other.modelNames := by
  rw [modelNames, modelNames, h.models, funext h.nameOf_eq]

theorem chain_eq (index : Nat) : catalog.chain index = other.chain index := by
  refine chain_congr (fun index => ?_) index
  have hparents := h.definition?_map (fun a b hsame =>
    show a.parent = b.parent from congrArg (fun skeleton => skeleton.2.1) hsame) index
  simpa only [Option.bind_map, Function.id_comp] using congrArg (Option.bind · id) hparents

end Reordered

end Catalog

/-! ### Any order will do -/

def Import.putFirst (item : Import) (imports : List Import) : List Import :=
  if item ∈ imports then item :: imports.erase item else imports

theorem Import.putFirst_perm (item : Import) (imports : List Import) :
    (item.putFirst imports).Perm imports := by
  rw [putFirst]
  split
  · next hmem => exact (List.perm_cons_erase hmem).symm
  · exact .refl _

def Definition.reorder (order : List Import → List Import) (definition : Definition) :
    Definition :=
  match definition.data with
  | .model data => { definition with data := .model { data with imports := order data.imports } }
  | _ => definition

section Reorder

variable {order : List Import → List Import}

theorem Definition.skeleton_reorder (definition : Definition) :
    (definition.reorder order).skeleton = definition.skeleton := by
  obtain ⟨name, parent, span, nameSpan, metaAttributes, content, data⟩ := definition
  cases data <;> rfl

theorem Definition.imports_reorder (horder : ∀ imports, (order imports).Perm imports)
    (definition : Definition) :
    (definition.reorder order).data.imports = order definition.data.imports := by
  obtain ⟨name, parent, span, nameSpan, metaAttributes, content, data⟩ := definition
  cases data
  case model => rfl
  all_goals exact (List.perm_nil.mp (horder [])).symm

namespace Catalog

def reorder (catalog : Catalog) (index : Nat) (order : List Import → List Import) : Catalog :=
  { catalog with definitions := catalog.definitions.modify index (Definition.reorder order) }

theorem definition?_reorder (catalog : Catalog) (index other : Nat) :
    (catalog.reorder index order).definition? other =
      if index = other then (catalog.definition? other).map (Definition.reorder order)
      else catalog.definition? other :=
  Array.getElem?_modify

theorem reordered_reorder (horder : ∀ imports, (order imports).Perm imports) (catalog : Catalog)
    (index : Nat) : catalog.Reordered (catalog.reorder index order) := by
  have hperm (definition : Definition) : (definition.importsIn catalog.references).Perm
      ((definition.reorder order).importsIn catalog.references) := by
    rw [Definition.importsIn, Definition.importsIn, Definition.imports_reorder horder]
    exact ((horder _).symm).filterMap _
  have himports (other : Nat) :
      (catalog.importsAt other).Perm ((catalog.reorder index order).importsAt other) := by
    rw [importsAt, importsAt, definition?_reorder]
    by_cases heq : index = other
    · rw [if_pos heq]
      cases catalog.definition? other with
      | none => exact .refl _
      | some definition => exact hperm definition
    · rw [if_neg heq]
      exact .refl _
  refine ⟨rfl, rfl, rfl, fun other => ?_, fun other => (himports other).map _, fun number => ?_,
    fun _ _ => rfl, .refl _⟩
  · rw [definition?_reorder]
    split
    · rw [Option.map_map]
      exact congrArg (Option.map · _) (funext fun definition =>
        (Definition.skeleton_reorder definition).symm)
    · rfl
  · simp only [IsImport, (himports _).mem_iff]

end Catalog

end Reorder

end Ili
