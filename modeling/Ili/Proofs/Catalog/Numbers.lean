import Ili.Catalog.Basic

/-!
# Other numbers

What a definition says may be written with other numbers for the definitions and references of its
file. Nothing but the numbers changes: the kind stays, and so do all names.
-/

namespace Ili

def TypeDef.renumber (reference : Nat → Nat) : TypeDef → TypeDef
  | numeric min max unit => numeric min max (unit.map reference)
  | TypeDef.reference targets external => .reference (targets.map reference) external
  | role kind targets external => role kind (targets.map reference) external
  | named target => named (reference target)
  | structures ordered target => structures ordered (reference target)
  | type => type

def Import.renumber (reference : Nat → Nat) (item : Import) : Import :=
  { item with model := reference item.model }

def TopicData.renumber (reference : Nat → Nat) (data : TopicData) : TopicData :=
  { data with
    base := data.base.map reference
    dependsOn := data.dependsOn.map reference
    oid := data.oid.map reference
    basketOid := data.basketOid.map reference }

def DefinitionData.renumber (reference : Nat → Nat) : DefinitionData → DefinitionData
  | model data =>
    model { data with
      translationOf := data.translationOf.map reference
      imports := data.imports.map (Import.renumber reference) }
  | topic data => topic (data.renumber reference)
  | classLike data =>
    classLike { data with base := data.base.map reference, oid := data.oid.map reference }
  | association data => association { data with base := data.base.map reference }
  | attributeLike data => attributeLike { data with type := data.type.renumber reference }
  | domain data =>
    domain { data with
      type := data.type.renumber reference
      base := data.base.map reference }
  | enumValue isFinal => enumValue isFinal
  | unit data => unit { data with base := data.base.map reference }

/-- The definition with other numbers, apart from those of its content. -/
def Definition.renumber (number reference : Nat → Nat) (definition : Definition) : Definition :=
  { definition with
    parent := definition.parent.map number
    data := definition.data.renumber reference }

def Reference.renumber (number : Nat → Nat) (reference : Reference) : Reference :=
  { reference with source := number reference.source }

variable {number other reference more : Nat → Nat}

/-! ### The same numbers -/

theorem map_congr_of_mem_toList {item : Option Nat}
    (h : ∀ n ∈ item.toList, reference n = more n) : item.map reference = item.map more := by
  cases item with
  | none => rfl
  | some n => exact congrArg some (h n (by simp))

theorem TypeDef.renumber_congr {type : TypeDef}
    (h : ∀ n ∈ type.references, reference n = more n) :
    type.renumber reference = type.renumber more := by
  cases type <;> simp only [renumber, TypeDef.references, List.mem_singleton, forall_eq] at h ⊢
  case numeric => rw [map_congr_of_mem_toList h]
  case reference => rw [List.map_congr_left h]
  case role => rw [List.map_congr_left h]
  case named => rw [h]
  case structures => rw [h]

theorem DefinitionData.renumber_congr {data : DefinitionData}
    (h : ∀ n ∈ data.references, reference n = more n) :
    data.renumber reference = data.renumber more := by
  cases data <;> simp only [renumber, DefinitionData.references, List.mem_append, or_imp,
    forall_and] at h ⊢
  case model data =>
    have himports : data.imports.map (Import.renumber reference) =
        data.imports.map (Import.renumber more) := by
      refine List.map_congr_left fun item hitem => ?_
      rw [Import.renumber, Import.renumber, h.2 item.model (List.mem_map.mpr ⟨item, hitem, rfl⟩)]
    rw [map_congr_of_mem_toList h.1, himports]
  case topic =>
    obtain ⟨⟨⟨hbase, hbasket⟩, hoid⟩, hdepends⟩ := h
    rw [TopicData.renumber, TopicData.renumber, map_congr_of_mem_toList hbase,
      map_congr_of_mem_toList hbasket, map_congr_of_mem_toList hoid,
      List.map_congr_left hdepends]
  case classLike => rw [map_congr_of_mem_toList h.1, map_congr_of_mem_toList h.2]
  case association => rw [map_congr_of_mem_toList h]
  case attributeLike => rw [TypeDef.renumber_congr h]
  case domain => rw [map_congr_of_mem_toList h.1, TypeDef.renumber_congr h.2]
  case unit => rw [map_congr_of_mem_toList h]

theorem Definition.renumber_congr {definition : Definition}
    (hparent : ∀ parent ∈ definition.parent, number parent = other parent)
    (hreference : ∀ n ∈ definition.data.references, reference n = more n) :
    definition.renumber number reference = definition.renumber other more := by
  rw [renumber, renumber, DefinitionData.renumber_congr hreference,
    map_congr_of_mem_toList fun n hn => hparent n (Option.mem_toList.mp hn)]

theorem TypeDef.renumber_id (type : TypeDef) : type.renumber id = type := by
  cases type <;> simp [renumber]

theorem Import.renumber_id (item : Import) : item.renumber id = item :=
  rfl

theorem DefinitionData.renumber_id (data : DefinitionData) : data.renumber id = data := by
  have himport : Import.renumber id = id := funext Import.renumber_id
  cases data <;> simp [renumber, TypeDef.renumber_id, TopicData.renumber, himport]

theorem Definition.renumber_id (definition : Definition) :
    definition.renumber id id = definition := by
  simp [renumber, DefinitionData.renumber_id]

/-! ### One after another -/

theorem TypeDef.renumber_renumber (type : TypeDef) :
    (type.renumber reference).renumber more = type.renumber (more ∘ reference) := by
  cases type <;> simp [renumber]

theorem DefinitionData.renumber_renumber (data : DefinitionData) :
    (data.renumber reference).renumber more = data.renumber (more ∘ reference) := by
  have himport : Import.renumber more ∘ Import.renumber reference =
      Import.renumber (more ∘ reference) := rfl
  cases data <;> simp [renumber, TypeDef.renumber_renumber, TopicData.renumber, himport]

theorem Definition.renumber_renumber (definition : Definition) :
    (definition.renumber number reference).renumber other more =
      definition.renumber (other ∘ number) (more ∘ reference) := by
  simp [renumber, DefinitionData.renumber_renumber]

theorem Reference.renumber_renumber (written : Reference) :
    (written.renumber number).renumber other = written.renumber (other ∘ number) :=
  rfl

/-! ### What stays -/

@[simp]
theorem DefinitionData.kind_renumber (data : DefinitionData) :
    (data.renumber reference).kind = data.kind := by
  cases data <;> rfl

theorem TypeDef.references_renumber (type : TypeDef) :
    (type.renumber reference).references = type.references.map reference := by
  cases type <;> simp [renumber, TypeDef.references, Option.toList_map]

theorem DefinitionData.references_renumber (data : DefinitionData) :
    (data.renumber reference).references = data.references.map reference := by
  cases data <;> simp [renumber, DefinitionData.references, TypeDef.references_renumber,
    TopicData.renumber, Option.toList_map, Import.renumber, Function.comp_def]

@[simp]
theorem Definition.names_renumber (definition : Definition) :
    (definition.renumber number reference).names = definition.names := by
  obtain ⟨name, parent, span, nameSpan, metaAttributes, content, data⟩ := definition
  cases data <;> rfl

end Ili
