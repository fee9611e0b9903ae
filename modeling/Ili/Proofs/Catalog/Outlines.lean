import Ili.Proofs.Catalog.Elements
import Mathlib.Tactic.Common

/-!
# Values as definitions

The values of an enumeration are noted as definitions from the first one on, each in front of those
below it. What name, parent and kind these definitions have can be read off the values alone.
-/

namespace Ili

abbrev Outline := String × Option Nat × DefinitionKind

def Definition.outline (definition : Definition) : Outline :=
  (definition.name, definition.parent, definition.kind)

namespace EnumValue

/-- How many values there are, those below others included. -/
def countOf : List EnumValue → Nat
  | [] => 0
  | mk _ _ children :: rest => 1 + countOf children + countOf rest

/-- The outlines of the definitions that stand for the values below `parent`, numbered from `first`
on. -/
def outlineOf (parent first : Nat) : List EnumValue → List Outline
  | [] => []
  | mk name _ children :: rest =>
    (name, some parent, .enumValue) :: outlineOf first (first + 1) children ++
      outlineOf parent (first + 1 + countOf children) rest

theorem length_outlineOf (parent first : Nat) (values : List EnumValue) :
    (outlineOf parent first values).length = countOf values := by
  fun_induction outlineOf parent first values with
  | case1 => rw [List.length_nil, countOf]
  | case2 parent first name isFinal children rest ih ih' =>
    rw [List.length_append, List.length_cons, ih, ih', countOf]
    omega

theorem outlineOf_append (parent first : Nat) (values more : List EnumValue) :
    outlineOf parent first (values ++ more) =
      outlineOf parent first values ++ outlineOf parent (first + countOf values) more := by
  induction values generalizing first with
  | nil => rw [outlineOf, countOf, List.nil_append, List.nil_append, Nat.add_zero]
  | cons value rest ih =>
    cases value
    rw [List.cons_append, outlineOf, outlineOf, ih, countOf, List.append_assoc]
    simp only [Nat.add_assoc]

/-- A definition that stands for a value is a value below `parent` or below an older one that stands
for a value. -/
theorem parent_of_outlineOf {parent first index : Nat} {values : List EnumValue} {row : Outline}
    (h : (outlineOf parent first values)[index]? = some row) :
    row.2.2 = .enumValue ∧ (row.2.1 = some parent ∨
      ∃ above, row.2.1 = some above ∧ first ≤ above ∧ above < first + index) := by
  fun_induction outlineOf parent first values generalizing index with
  | case1 => cases h
  | case2 parent first name isFinal children rest ih ih' =>
    rw [List.getElem?_append, List.length_cons, length_outlineOf] at h
    split at h
    · cases index with
      | zero =>
        obtain rfl := Option.some.inj h
        exact ⟨rfl, .inl rfl⟩
      | succ index =>
        obtain ⟨hkind, hparent⟩ := ih h
        refine ⟨hkind, .inr ?_⟩
        rcases hparent with hparent | ⟨above, hparent, hle, hlt⟩
        · exact ⟨first, hparent, Nat.le_refl _, by omega⟩
        · exact ⟨above, hparent, by omega, by omega⟩
    · obtain ⟨hkind, hparent⟩ := ih' h
      refine ⟨hkind, hparent.imp_right ?_⟩
      rintro ⟨above, hparent, hle, hlt⟩
      exact ⟨above, hparent, by omega, by omega⟩

end EnumValue

/-- Right behind an enumeration with the number `id` its values are noted. What comes later stands
neither below the enumeration nor below a value. -/
def SpellsBehind (id : Nat) (values : List EnumValue) (behind : List Outline) : Prop :=
  ∃ later, behind = EnumValue.outlineOf id (id + 1) values ++ later ∧
    ∀ row ∈ later, ∀ parent ∈ row.2.1, parent < id ∨ id + 1 + EnumValue.countOf values ≤ parent

theorem spellsBehind_outlineOf (id : Nat) (values : List EnumValue) :
    SpellsBehind id values (EnumValue.outlineOf id (id + 1) values) :=
  ⟨[], (List.append_nil _).symm, List.forall_mem_nil _⟩

namespace SpellsBehind

variable {id : Nat} {values : List EnumValue} {behind more : List Outline}

theorem countOf_le (h : SpellsBehind id values behind) :
    EnumValue.countOf values ≤ behind.length := by
  obtain ⟨later, rfl, -⟩ := h
  rw [List.length_append, EnumValue.length_outlineOf]
  exact Nat.le_add_right ..

theorem append (h : SpellsBehind id values behind)
    (hmore : ∀ row ∈ more, ∀ parent ∈ row.2.1,
      parent < id ∨ id + 1 + EnumValue.countOf values ≤ parent) :
    SpellsBehind id values (behind ++ more) := by
  obtain ⟨later, rfl, hlater⟩ := h
  refine ⟨later ++ more, List.append_assoc .., fun row hrow => ?_⟩
  exact (List.mem_append.mp hrow).elim (hlater row) (hmore row)

end SpellsBehind

namespace Drafting

/-- The step notes definitions that stand for the values below `owner`. -/
def Spells (owner : Nat) (values : List EnumValue) (step : Drafting Unit) : Prop :=
  ∀ draft : Draft, ∃ added : List Definition,
    (step draft).2.definitions.toList = draft.definitions.toList ++ added ∧
      added.map Definition.outline =
        EnumValue.outlineOf owner draft.definitions.size values

variable {owner : Nat} {values more : List EnumValue}

theorem spells_pure (owner : Nat) : Spells owner [] (pure ()) := by
  intro draft
  refine ⟨[], (List.append_nil _).symm, ?_⟩
  rw [List.map_nil, EnumValue.outlineOf]

theorem Spells.size_eq {step : Drafting Unit} (h : Spells owner values step) (draft : Draft) :
    (step draft).2.definitions.size = draft.definitions.size + EnumValue.countOf values := by
  obtain ⟨added, hadded, houtline⟩ := h draft
  have hlength : added.length = EnumValue.countOf values := by
    rw [← EnumValue.length_outlineOf, ← houtline, List.length_map]
  rw [← Array.length_toList, hadded, List.length_append, hlength, Array.length_toList]

theorem spells_bind {first second : Drafting Unit} (hfirst : Spells owner values first)
    (hsecond : Spells owner more second) :
    Spells owner (values ++ more) (first >>= fun _ => second) := by
  intro draft
  obtain ⟨added, hadded, houtline⟩ := hfirst draft
  obtain ⟨behind, hbehind, houtline'⟩ := hsecond (first draft).2
  refine ⟨added ++ behind, ?_, ?_⟩
  · rw [← List.append_assoc, ← hadded]
    exact hbehind
  · rw [List.map_append, houtline, houtline', hfirst.size_eq, EnumValue.outlineOf_append]

theorem spells_forM {α : Type} {row : List α} {f : α → Drafting Unit}
    {value? : α → Option EnumValue}
    (hf : ∀ a ∈ row, Spells owner (value? a).toList (f a)) :
    Spells owner (row.filterMap value?) (row.forM f) := by
  induction row with
  | nil => exact spells_pure owner
  | cons a rest ih =>
    have hrest := ih fun other hother => hf other (List.mem_cons_of_mem a hother)
    have hvalues : (a :: rest).filterMap value? = (value? a).toList ++ rest.filterMap value? := by
      rw [List.filterMap_cons]
      cases value? a <;> rfl
    rw [hvalues]
    exact spells_bind (hf a List.mem_cons_self) hrest

theorem spells_define {heading : Heading} {isFinal closed : Bool} {below : Nat → Drafting Unit}
    (hbelow : ∀ id, Spells id values (below id)) :
    Spells owner [.mk heading.name closed values] (do
      let id ← nextDefinition
      define heading (some owner) (.enumValue isFinal)
      below id) := by
  intro draft
  let definition : Definition := ⟨heading.name, some owner, heading.span, heading.nameSpan,
    heading.metaAttributes, .empty, .enumValue isFinal⟩
  obtain ⟨added, hadded, houtline⟩ := hbelow draft.definitions.size
    { draft with definitions := draft.definitions.push definition }
  refine ⟨definition :: added, ?_, ?_⟩
  · rw [Array.toList_push, List.append_assoc] at hadded
    exact hadded
  · rw [Array.size_push] at houtline
    rw [List.map_cons, houtline, EnumValue.outlineOf, EnumValue.outlineOf, List.append_nil]
    rfl

end Drafting

namespace Catalog

open Drafting

/-- **The two recursions over an enumeration stay in step.** What the one notes as definitions
stands for the values that the other reads off: where there is no name, both leave an element out
with everything below it, and both go on in the first enumeration in an element. -/
theorem spells_defineElements (file : FileContext) (enumeration : Site) (owner : Nat) :
    Spells owner (enumValues enumeration) (defineElements file owner enumeration) := by
  induction enumeration using Site.elements_induction generalizing owner with
  | step enumeration ih =>
    rw [enumValues, defineElements_eq]
    refine spells_forM fun element helement => ?_
    rw [enumValue?_eq, defineElement, Site.name?, Site.heading?]
    cases element.nameToken? with
    | none => exact spells_pure owner
    | some token =>
      refine spells_define fun id => ?_
      cases hinner : element.child? .enumType with
      | none => exact spells_pure id
      | some inner => exact ih element helement inner hinner id

end Catalog

end Ili
