import Ili.Proofs.Catalog.Numbers
import Ili.Proofs.Catalog.Readings

/-!
# Catalogs without places

What a catalog says is all of it but the spans. How much of the rest is compared is a matter of the
view: it may see the comments with their meta attributes and the text of a type that is kept as it
is written, but for blanks, or nothing that is not a visible token. Drafting steps are compared up
to a view: two steps are alike when from drafts that are related they go on to drafts that are
related, with results that agree. Drafts may be related when they say the same, or in any other way
that is kept when what looks the same is written into both, be it under other numbers.
-/

namespace Ili

/-- A way of looking at catalogs: which comments count, and what is seen of the meta attributes and
of the text of a type that is not described. Places that look alike are seen alike. -/
structure View where
  keep : Kind → Bool
  comments : Dict String → Dict String
  written : String → String
  comments_eq : ∀ {site other : Site}, site.Alike keep other →
    comments site.metaAttributes = comments other.metaAttributes
  written_eq : ∀ {site other : Site}, site.Alike keep other →
    written (collapseBlanks site.text) = written (collapseBlanks other.text)

namespace View

def solid : View where
  keep := Kind.isComment
  comments := id
  written := unspaced
  comments_eq h := h.metaAttributes_eq
  written_eq h := by rw [unspaced_collapseBlanks, unspaced_collapseBlanks, h.unspaced_text]

def visible : View where
  keep := Kind.isNothing
  comments _ := .empty
  written _ := ""
  comments_eq _ := rfl
  written_eq _ := rfl

end View

def TypeDef.stripped : TypeDef → TypeDef
  | raw written => raw (unspaced written)
  | type => type

def DefinitionData.stripped : DefinitionData → DefinitionData
  | attributeLike data => attributeLike { data with type := data.type.stripped }
  | domain data => domain { data with type := data.type.stripped }
  | data => data

def Definition.stripped (definition : Definition) : Definition :=
  { definition with span := default, nameSpan := default, data := definition.data.stripped }

def Reference.stripped (reference : Reference) : Reference :=
  { reference with span := default }

/-- A catalog without the places of its definitions and references and without the blanks in the
texts of types that are not described. -/
def Catalog.stripped (catalog : Catalog) : Catalog :=
  { catalog with
    definitions := catalog.definitions.map Definition.stripped
    references := catalog.references.map Reference.stripped }

section Seen

variable (view : View)

def TypeDef.seen : TypeDef → TypeDef
  | raw written => raw (view.written written)
  | type => type

def DefinitionData.seen : DefinitionData → DefinitionData
  | attributeLike data => attributeLike { data with type := data.type.seen view }
  | domain data => domain { data with type := data.type.seen view }
  | data => data

def Definition.seen (definition : Definition) : Definition :=
  { definition with
    span := default
    nameSpan := default
    metaAttributes := view.comments definition.metaAttributes
    data := definition.data.seen view }

def Catalog.seen (catalog : Catalog) : Catalog :=
  { catalog with
    definitions := catalog.definitions.map (Definition.seen view)
    references := catalog.references.map Reference.stripped }

def Heading.seen (heading : Heading) : Heading :=
  { heading with
    span := default
    nameSpan := default
    metaAttributes := view.comments heading.metaAttributes }

def Draft.seen (draft : Draft) : Draft :=
  ⟨draft.definitions.map (Definition.seen view), draft.references.map Reference.stripped,
    draft.models⟩

theorem Definition.names_seen (definition : Definition) :
    (definition.seen view).names = definition.names := by
  obtain ⟨name, parent, span, nameSpan, metaAttributes, content, data⟩ := definition
  cases data <;> rfl

end Seen

theorem Definition.seen_solid (definition : Definition) :
    definition.seen .solid = definition.stripped := by
  have htype (type : TypeDef) : type.seen .solid = type.stripped := by cases type <;> rfl
  have hdata (data : DefinitionData) : data.seen .solid = data.stripped := by
    cases data <;> simp only [DefinitionData.seen, DefinitionData.stripped, htype]
  rw [seen, stripped, hdata]
  rfl

theorem Catalog.seen_solid (catalog : Catalog) : catalog.seen .solid = catalog.stripped := by
  rw [seen, stripped, funext Definition.seen_solid]

/-- A relation between drafts that is kept when what looks the same is noted in both. Definitions
and references may have other numbers in the second draft. Nothing is asked of it where models are
noted. -/
structure Congruence (view : View) where
  rel : Draft → Draft → Prop
  definition : Nat → Nat
  reference : Nat → Nat
  definitions_size : ∀ {draft other : Draft}, rel draft other →
    other.definitions.size = definition draft.definitions.size
  references_size : ∀ {draft other : Draft}, rel draft other →
    other.references.size = reference draft.references.size
  define : ∀ {draft draft' : Draft}, rel draft draft' →
    ∀ {heading other : Heading} {data data' : DefinitionData} (parent : Nat),
      heading.seen view = other.seen view →
      data'.seen view = (data.seen view).renumber reference → data.kind ≠ .model →
      rel (Drafting.define heading (some parent) data draft).2
        (Drafting.define other (some (definition parent)) data' draft').2
  addReference : ∀ {draft draft' : Draft}, rel draft draft' →
    ∀ {first other : Reference}, other.stripped = first.stripped.renumber definition →
      rel (Drafting.addReference first draft).2 (Drafting.addReference other draft').2

/-- What is asked of a relation for models to be noted in both drafts. -/
structure Congruence.KeepsModels {view : View} (like : Congruence view) : Prop where
  define : ∀ {draft draft' : Draft}, like.rel draft draft' →
    ∀ {heading other : Heading} {data data' : DefinitionData},
      heading.seen view = other.seen view →
      data'.seen view = (data.seen view).renumber like.reference →
      like.rel (Drafting.define heading none data draft).2
        (Drafting.define other none data' draft').2
  addModel : ∀ {draft draft' : Draft}, like.rel draft draft' → ∀ id : Nat,
    like.rel (Drafting.addModel id draft).2 (Drafting.addModel (like.definition id) draft').2

namespace Drafting

def Alike {view : View} (like : Congruence view) {α : Type} (R : α → α → Prop)
    (step other : Drafting α) : Prop :=
  ∀ draft draft' : Draft, like.rel draft draft' →
    R (step draft).1 (other draft').1 ∧ like.rel (step draft).2 (other draft').2

abbrev Becomes {α : Type} (f : α → α) (result other : α) : Prop :=
  other = f result

section Alike

variable {view : View} {like : Congruence view} {α β γ : Type} {R : α → α → Prop}
  {S : β → β → Prop}

theorem alike_pure {a b : α} (h : R a b) : Alike like R (pure a) (pure b) :=
  fun _ _ hdraft => ⟨h, hdraft⟩

theorem alike_bind {step other : Drafting α} {f g : α → Drafting β} (h : Alike like R step other)
    (hf : ∀ a b, R a b → Alike like S (f a) (g b)) : Alike like S (step >>= f) (other >>= g) := by
  intro draft draft' hdraft
  obtain ⟨hresult, hnext⟩ := h draft draft' hdraft
  exact hf _ _ hresult _ _ hnext

theorem alike_bind_to {step other : Drafting α} {f g : α → Drafting β} {number : α → α}
    (h : Alike like (Becomes number) step other)
    (hf : ∀ a, Alike like S (f a) (g (number a))) : Alike like S (step >>= f) (other >>= g) :=
  alike_bind h fun a _ heq => heq ▸ hf a

theorem alike_bind_unit {step other : Drafting Unit} {f g : Unit → Drafting β}
    (h : Alike like Eq step other) (hf : Alike like S (f ()) (g ())) :
    Alike like S (step >>= f) (other >>= g) :=
  alike_bind h fun _ _ _ => hf

theorem alike_map {step other : Drafting α} {f : α → β} {g : α → α} {g' : β → β}
    (h : Alike like (Becomes g) step other) (hf : ∀ a, f (g a) = g' (f a)) :
    Alike like (Becomes g') (f <$> step) (f <$> other) := by
  intro draft draft' hdraft
  obtain ⟨hresult, hnext⟩ := h draft draft' hdraft
  exact ⟨(congrArg f hresult).trans (hf _), hnext⟩

theorem alike_forM {row others : List β} {f g : β → Drafting Unit} (h : List.Forall₂ S row others)
    (hf : ∀ a b, S a b → Alike like Eq (f a) (g b)) :
    Alike like Eq (row.forM f) (others.forM g) := by
  induction h with
  | nil => exact alike_pure rfl
  | cons hfirst _ ih =>
    rw [List.forM_eq_forM] at ih ⊢
    rw [List.forM_cons, List.forM_cons]
    exact alike_bind_unit (hf _ _ hfirst) ih

theorem alike_mapM {row others : List β} {f g : β → Drafting γ} {number : γ → γ}
    (h : List.Forall₂ S row others)
    (hf : ∀ a b, S a b → Alike like (Becomes number) (f a) (g b)) :
    Alike like (Becomes (List.map number)) (row.mapM f) (others.mapM g) := by
  induction h with
  | nil => exact alike_pure rfl
  | cons hfirst _ ih =>
    rw [List.mapM_cons, List.mapM_cons]
    exact alike_bind_to (hf _ _ hfirst) fun a => alike_bind_to ih fun results => alike_pure rfl

theorem alike_foldlM {row others : List β} {f g : γ → β → Drafting γ} {number : γ → γ} (start : γ)
    (h : List.Forall₂ S row others)
    (hf : ∀ start a b, S a b → Alike like (Becomes number) (f start a) (g (number start) b)) :
    Alike like (Becomes number) (row.foldlM f start) (others.foldlM g (number start)) := by
  induction h generalizing start with
  | nil => exact alike_pure rfl
  | cons hfirst _ ih =>
    rw [List.foldlM_cons, List.foldlM_cons]
    exact alike_bind_to (hf start _ _ hfirst) fun next => ih next

end Alike

variable {view : View} {like : Congruence view}

theorem alike_nextDefinition : Alike like (Becomes like.definition) nextDefinition nextDefinition :=
  fun _ _ hdraft => ⟨like.definitions_size hdraft, hdraft⟩

theorem alike_define {heading other : Heading} {parent : Nat} {data data' : DefinitionData}
    (hheading : heading.seen view = other.seen view)
    (hdata : data'.seen view = (data.seen view).renumber like.reference)
    (hplain : data.kind ≠ .model) :
    Alike like Eq (define heading (some parent) data)
      (define other (some (like.definition parent)) data') :=
  fun _ _ hdraft => ⟨rfl, like.define hdraft parent hheading hdata hplain⟩

theorem alike_addReference {reference other : Reference}
    (h : other.stripped = reference.stripped.renumber like.definition) :
    Alike like (Becomes like.reference) (addReference reference) (addReference other) :=
  fun _ _ hdraft => ⟨like.references_size hdraft, like.addReference hdraft h⟩

theorem alike_define_model (hmodels : like.KeepsModels) {heading other : Heading}
    {data data' : DefinitionData} (hheading : heading.seen view = other.seen view)
    (hdata : data'.seen view = (data.seen view).renumber like.reference) :
    Alike like Eq (define heading none data) (define other none data') :=
  fun _ _ hdraft => ⟨rfl, hmodels.define hdraft hheading hdata⟩

theorem alike_addModel (hmodels : like.KeepsModels) (id : Nat) :
    Alike like Eq (addModel id) (addModel (like.definition id)) :=
  fun _ _ hdraft => ⟨rfl, hmodels.addModel hdraft id⟩

end Drafting

/-! ### Drafts that say the same -/

theorem Draft.seen_define {view : View} {draft draft' : Draft}
    (h : draft.seen view = draft'.seen view) {heading other : Heading}
    {data data' : DefinitionData} (parent : Option Nat)
    (hheading : heading.seen view = other.seen view)
    (hdata : data'.seen view = (data.seen view).renumber id) :
    (Drafting.define heading parent data draft).2.seen view =
      (Drafting.define other parent data' draft').2.seen view := by
  simp only [seen, mk.injEq] at h
  obtain ⟨hdefinitions, hreferences, hmodels⟩ := h
  simp only [Heading.seen, Heading.mk.injEq] at hheading
  rw [DefinitionData.renumber_id] at hdata
  simp only [Drafting.define, seen, Array.map_push, hdefinitions, hreferences, hmodels,
    Definition.seen, hheading, hdata]

namespace Congruence

def saying (view : View) : Congruence view where
  rel draft other := draft.seen view = other.seen view
  definition := id
  reference := id
  definitions_size h := by
    simpa only [Draft.seen, Array.size_map, id_eq] using
      congrArg (fun draft => draft.definitions.size) h.symm
  references_size h := by
    simpa only [Draft.seen, Array.size_map, id_eq] using
      congrArg (fun draft => draft.references.size) h.symm
  define h _ _ _ _ parent hheading hdata _ := Draft.seen_define h (some parent) hheading hdata
  addReference h first other hreference := by
    have hsame : other.stripped = first.stripped := hreference
    simp only [Draft.seen, Draft.mk.injEq] at h
    simp only [Drafting.addReference, Draft.seen, Array.map_push, h, hsame]

theorem keepsModels_saying (view : View) : (saying view).KeepsModels where
  define h _ _ _ _ hheading hdata := Draft.seen_define h none hheading hdata
  addModel {draft draft'} h id := by
    change (Drafting.addModel id draft).2.seen view = (Drafting.addModel id draft').2.seen view
    change draft.seen view = draft'.seen view at h
    simp only [Draft.seen, Draft.mk.injEq] at h
    simp only [Drafting.addModel, Draft.seen, h]

end Congruence

end Ili
