import Ili.Proofs.Catalog.Numbers
import Ili.Proofs.Catalog.Reordering
import Ili.Proofs.Catalog.WellFormed

/-!
# Catalogs that differ in their numbers

Two catalogs may declare the same in another order. Then definitions and references have other
numbers, and where a definition points at another one it does so by the number that this one has in
its own catalog. In the content of a definition a name stands for the same definition, provided that
of the definitions that share a name there the same one comes last.
-/

namespace Ili

/-- What a definition says of itself, without places and comments. -/
def Definition.said (definition : Definition) : Definition :=
  { definition.seen .visible with content := .empty }

def Reference.said (reference : Reference) : Reference :=
  { reference with span := default, state := .unbound }

structure Definition.Renumbered (number reference : Nat → Nat) (definition other : Definition) :
    Prop where
  said : other.said = definition.said.renumber number reference
  content : ∀ name, other.content.get? name = (definition.content.get? name).map number

namespace Definition.Renumbered

variable {number reference : Nat → Nat} {definition other : Definition}
variable (h : definition.Renumbered number reference other)

theorem refl (definition : Definition) : definition.Renumbered id id definition :=
  ⟨definition.said.renumber_id.symm, fun _ => (Option.map_id_apply ..).symm⟩

include h

theorem name_eq : other.name = definition.name :=
  show other.said.name = definition.said.name by rw [h.said]; rfl

theorem parent_eq : other.parent = definition.parent.map number :=
  show other.said.parent = definition.said.parent.map number by rw [h.said]; rfl

theorem data_seen_eq :
    other.data.seen .visible = (definition.data.seen .visible).renumber reference :=
  show other.said.data = definition.said.data.renumber reference by rw [h.said]; rfl

theorem kind_eq : other.kind = definition.kind := by
  have hseen (data : DefinitionData) : (data.seen .visible).kind = data.kind := by
    cases data <;> rfl
  have hkind := congrArg DefinitionData.kind h.data_seen_eq
  rwa [DefinitionData.kind_renumber, hseen, hseen] at hkind

theorem imports_eq :
    other.data.imports = definition.data.imports.map (Import.renumber reference) := by
  have hseen (data : DefinitionData) : (data.seen .visible).imports = data.imports := by
    cases data <;> rfl
  have hrenumber (data : DefinitionData) :
      (data.renumber reference).imports = data.imports.map (Import.renumber reference) := by
    cases data <;> rfl
  rw [← hseen, h.data_seen_eq, hrenumber, hseen]

end Definition.Renumbered

namespace Catalog

/-- The catalogs declare the same under other numbers. Models are entered in the same order. -/
structure Renumbered (number reference : Nat → Nat) (catalog other : Catalog) : Prop where
  uri : other.uri = catalog.uri
  schemaVersion : other.schemaVersion = catalog.schemaVersion
  models : other.models = catalog.models.map number
  definition : ∀ index, Option.Rel (Definition.Renumbered number reference)
    (catalog.definition? index) (other.definition? (number index))
  reference : ∀ index : Nat, Option.Rel (fun first second =>
      second.said = first.said.renumber number)
    catalog.references[index]? other.references[reference index]?

theorem Renumbered.refl (catalog : Catalog) : catalog.Renumbered id id catalog where
  uri := rfl
  schemaVersion := rfl
  models := (List.map_id _).symm
  definition index := by
    change Option.Rel _ (catalog.definition? index) (catalog.definition? index)
    cases catalog.definition? index with
    | none => exact .none
    | some definition => exact .some (.refl definition)
  reference index := by
    change Option.Rel _ catalog.references[index]? catalog.references[index]?
    cases catalog.references[index]? with
    | none => exact .none
    | some reference => exact .some rfl

variable {number reference : Nat → Nat} {catalog other : Catalog}

theorem Renumbered.nameOf_eq (h : catalog.Renumbered number reference other) (index : Nat) :
    other.nameOf (number index) = catalog.nameOf index :=
  congrArg (Option.getD · "") (map_eq_of_rel (h.definition index) fun _ _ hsame =>
    hsame.name_eq.symm).symm

theorem Renumbered.modelNames_eq (h : catalog.Renumbered number reference other) :
    other.modelNames = catalog.modelNames := by
  rw [modelNames, modelNames, h.models, List.map_map]
  exact List.map_congr_left fun index _ => h.nameOf_eq index

theorem Renumbered.importsAt_eq (h : catalog.Renumbered number reference other) (index : Nat) :
    (other.importsAt (number index)).map Import.written =
      (catalog.importsAt index).map Import.written := by
  rw [importsAt, importsAt]
  rcases rel_cases (h.definition index) with
    ⟨hleft, hright⟩ | ⟨definition, definition', hleft, hright, hsame⟩
  · rw [hleft, hright]
  · rw [hleft, hright]
    dsimp only
    rw [Definition.importsIn, Definition.importsIn, hsame.imports_eq, List.filterMap_map,
      List.map_filterMap, List.map_filterMap]
    apply List.filterMap_congr
    intro item _
    rw [Function.comp_apply, Option.map_map, Option.map_map]
    refine (map_eq_of_rel (h.reference item.model) fun first second hsaid => ?_).symm
    have hpath : second.path = first.path :=
      show second.said.path = first.said.path by rw [hsaid]; rfl
    simp [Import.written, Import.renumber, hpath]

/-! ### Contents -/

/-- Of two definitions that one definition holds under the same name, the first one comes first
under other numbers too. -/
def KeepsSiblings (number : Nat → Nat) (definitions : List Definition) : Prop :=
  ∀ ⦃first second : Nat⦄ ⦃a b : Definition⦄ ⦃name : String⦄, first < second →
    definitions[first]? = some a → definitions[second]? = some b → a.parent.isSome →
    a.parent = b.parent → name ∈ a.names → name ∈ b.names → number first < number second

/-- A name stands for the same definition under its other number. -/
theorem get?_contentOf_renumbered {number : Equiv.Perm Nat} {definitions others : List Definition}
    (hnames : ∀ index : Nat, Option.Rel (fun a b => b.parent = a.parent.map number ∧
      b.names = a.names) definitions[index]? others[number index]?)
    (hkeeps : KeepsSiblings number definitions) (parent : Nat) (name : String) :
    (contentOf others (number parent)).get? name =
      ((contentOf definitions parent).get? name).map number := by
  set held : Set Nat := {id | ∃ below, definitions[id]? = some below ∧
    below.parent = some parent ∧ name ∈ below.names} with hheld
  have hothers : {id | ∃ below, others[id]? = some below ∧
      below.parent = some (number parent) ∧ name ∈ below.names} = number '' held := by
    ext id
    obtain ⟨index, rfl⟩ := number.surjective id
    rw [(Equiv.injective number).mem_set_image]
    rcases rel_cases (hnames index) with ⟨hleft, hright⟩ | ⟨a, b, hleft, hright, hparent, hsame⟩
    · simp [hheld, hleft, hright]
    · simp [hheld, hleft, hright, hparent, hsame]
  have hiff (child : Nat) : (contentOf others (number parent)).get? name = some (number child) ↔
      (contentOf definitions parent).get? name = some child := by
    rw [get?_contentOf_iff, get?_contentOf_iff, hothers, ← hheld]
    have hmono : StrictMonoOn number held := by
      rintro first ⟨a, ha, hparent, hname⟩ second ⟨b, hb, hparent', hname'⟩ hlt
      exact hkeeps hlt ha hb (by rw [hparent]; rfl) (hparent.trans hparent'.symm) hname hname'
    refine ⟨fun hgreatest => ?_, fun hgreatest => ?_⟩
    · have hmem : child ∈ held := (Equiv.injective number).mem_set_image.mp hgreatest.1
      exact ⟨hmem, fun other hother =>
        (hmono.le_iff_le hother hmem).mp (hgreatest.2 (Set.mem_image_of_mem number hother))⟩
    · refine ⟨Set.mem_image_of_mem number hgreatest.1, ?_⟩
      rintro _ ⟨other, hother, rfl⟩
      exact (hmono.le_iff_le hother hgreatest.1).mpr (hgreatest.2 hother)
  cases hcontent : (contentOf definitions parent).get? name with
  | some child => exact (hiff child).mpr hcontent
  | none =>
    rw [Option.map_none, Option.eq_none_iff_forall_ne_some]
    intro child hchild
    rw [← number.apply_symm_apply child, hiff, hcontent] at hchild
    cases hchild

end Catalog

end Ili
