import Ili.Proofs.Catalog.Reordering
import Ili.Proofs.Environment.Lookups

/-!
# Environments that differ in the order of imports

The order in which a model imports others is seen in one place only: of several open models with an
element of the same name the first one has it. A reference is contested where it comes to that and
where the elements lead to different places. Every other reference stands for the same definition
whatever the order, and the same is found to be wrong with it.
-/

namespace Ili

namespace Environment

def offers (env : Environment) (source : DefinitionId) (name : String) : List DefinitionId :=
  (env.openModels source).filterMap fun model => env.element? model name

/-- The first name of the path stands for an element of an open model, and open models have elements
of that name from which the path leads to different places. -/
def Contested (env : Environment) (source : DefinitionId) : List String → Prop
  | [] => False
  | name :: rest =>
    env.scopedElement? source name = none ∧ (rest ≠ [] → env.model? name = none) ∧
      ∃ first ∈ env.offers source name, ∃ second ∈ env.offers source name,
        env.descend? first rest ≠ env.descend? second rest

instance (env : Environment) (source : DefinitionId) (path : List String) :
    Decidable (env.Contested source path) :=
  match path with
  | [] => inferInstanceAs (Decidable False)
  | _ :: _ => inferInstanceAs (Decidable (_ ∧ _ ∧ _))

/-- What becomes of a reference is a matter of the order of imports. Imports only name models, which
are looked for in one place. -/
def Disputed (env : Environment) (id : ReferenceId) (reference : Reference) : Prop :=
  reference.expected ≠ .model ∧ env.Contested ⟨id.file, reference.source⟩ reference.path

instance (env : Environment) (id : ReferenceId) (reference : Reference) :
    Decidable (env.Disputed id reference) :=
  inferInstanceAs (Decidable (_ ∧ _))

theorem openElement?_eq_head? (env : Environment) (source : DefinitionId) (name : String) :
    env.openElement? source name = (env.offers source name).head? :=
  List.head?_filterMap.symm

theorem lookup?_of_not_scoped {env : Environment} {source : DefinitionId} {name : String}
    {rest : List String} (hscoped : env.scopedElement? source name = none)
    (hunknown : rest ≠ [] → env.model? name = none) :
    env.lookup? source (name :: rest) =
      ((env.offers source name).head?.or
        ((env.predefinedElement? name).or (env.model? name))).bind (env.descend? · rest) := by
  rw [lookup?, lookupFirst?, hscoped, Option.none_or, openElement?_eq_head?]
  cases rest with
  | nil => rfl
  | cons next rest =>
    rw [hunknown (List.cons_ne_nil _ _), Option.none_or, Option.or_none]
    rfl

/-- The environments are the same but for the order in which models import others. -/
structure Reordered (env other : Environment) : Prop where
  version : env.version = other.version
  size : env.files.size = other.files.size
  file? : ∀ index : Nat, Option.Rel Catalog.Reordered (env.file? index) (other.file? index)
  models : env.models = other.models

theorem importsOf_eq (env : Environment) (model : DefinitionId) :
    env.importsOf model =
      ((env.file? model.file).map fun catalog => catalog.importsAt model.index).getD [] := by
  rw [importsOf, definition?]
  cases env.file? model.file with
  | none => rfl
  | some catalog =>
    rw [Option.bind_some, Option.map_some, Option.getD_some, Catalog.importsAt]
    cases catalog.definition? model.index with
    | none => rfl
    | some definition =>
      obtain ⟨name, parent, span, nameSpan, metaAttributes, content, data⟩ := definition
      cases data <;> rfl

variable {env other : Environment}

theorem Reordered.refl (env : Environment) : env.Reordered env := by
  refine ⟨rfl, rfl, fun index => ?_, rfl⟩
  cases env.file? index with
  | none => exact .none
  | some catalog => exact .some (.refl catalog)

namespace Reordered

section Lookup

variable (h : env.Reordered other)

include h

theorem definition?_map {α : Type} {f : Definition → α}
    (hf : ∀ definition other : Definition, definition.skeleton = other.skeleton →
      f definition = f other) (id : DefinitionId) :
    (env.definition? id).map f = (other.definition? id).map f := by
  rw [definition?, definition?, Option.map_bind, Option.map_bind]
  exact bind_eq_of_rel (h.file? id.file) fun _ _ hfile => hfile.definition?_map hf id.index

theorem kind?_eq : env.kind? = other.kind? := by
  funext id
  exact h.definition?_map (fun a b hsame =>
    show a.kind = b.kind from congrArg (fun skeleton => skeleton.2.2.2) hsame) id

theorem nameOf_eq : env.nameOf = other.nameOf := by
  funext id
  exact congrArg (Option.getD · "")
    (h.definition?_map (fun _ _ hsame => congrArg Prod.fst hsame) id)

theorem child?_eq : env.child? = other.child? := by
  funext id name
  have hcontent := h.definition?_map (fun a b hsame =>
    show a.content.get? name = b.content.get? name from
      congrArg (fun skeleton => skeleton.2.2.1.get? name) hsame) id
  have hbind := congrArg (Option.bind · fun found => found) hcontent
  simp only [Option.bind_map, Function.comp_def] at hbind
  rw [child?, child?, hbind]

theorem chain_eq : env.chain = other.chain := by
  funext id
  rw [chain, chain]
  have hfile := h.file? id.file
  revert hfile
  generalize env.file? id.file = file?
  generalize other.file? id.file = other?
  intro hfile
  cases hfile with
  | none => rfl
  | some hcatalog => simp only [hcatalog.chain_eq]

theorem modelOf_eq : env.modelOf = other.modelOf := by
  funext id
  rw [modelOf, modelOf, h.chain_eq]

theorem model?_eq : env.model? = other.model? := by
  funext name
  rw [model?, model?, h.models]

theorem knowsModel_eq : env.knowsModel = other.knowsModel := by
  funext name
  rw [knowsModel, knowsModel, h.models]

theorem isReachable_eq : env.isReachable = other.isReachable := by
  funext id
  rw [isReachable, isReachable, h.model?_eq, h.nameOf_eq, h.modelOf_eq]

theorem uri?_eq (index : Nat) :
    (env.file? index).bind Catalog.uri = (other.file? index).bind Catalog.uri :=
  bind_eq_of_rel (h.file? index) fun _ _ hfile => hfile.uri

theorem qualifiedName_eq : env.qualifiedName = other.qualifiedName := by
  funext id
  rw [qualifiedName, qualifiedName, h.chain_eq, h.nameOf_eq]

theorem element?_eq : env.element? = other.element? := by
  funext scope name
  rw [element?, element?, h.child?_eq, h.kind?_eq]

theorem scopedElement?_eq : env.scopedElement? = other.scopedElement? := by
  funext source name
  rw [scopedElement?, scopedElement?, h.chain_eq, h.element?_eq]

theorem predefinedElement?_eq : env.predefinedElement? = other.predefinedElement? := by
  have hmodel : env.predefinedModel? = other.predefinedModel? := by
    rw [predefinedModel?, predefinedModel?,
      bind_eq_of_rel (h.file? 0) fun _ _ hfile => congrArg List.head? hfile.models]
  funext name
  rw [predefinedElement?, predefinedElement?, hmodel, h.element?_eq]

theorem descend?_eq : env.descend? = other.descend? := by
  funext start names
  rw [descend?, descend?, h.child?_eq]

theorem importsOf_perm (model : DefinitionId) :
    ((env.importsOf model).map Import.written).Perm
      ((other.importsOf model).map Import.written) := by
  rw [importsOf_eq, importsOf_eq]
  have hfile := h.file? model.file
  revert hfile
  generalize env.file? model.file = file?
  generalize other.file? model.file = other?
  intro hfile
  cases hfile with
  | none => exact .refl _
  | some hcatalog => exact hcatalog.imports model.index

theorem offers_perm (source : DefinitionId) (name : String) :
    (env.offers source name).Perm (other.offers source name) := by
  have hopen (env : Environment) (source : DefinitionId) : env.openModels source =
      (((env.importsOf (env.modelOf source)).map Import.written).filter Prod.snd).filterMap
        fun written => written.1.head?.bind env.model? := by
    rw [openModels, List.filter_map, List.filterMap_map]
    rfl
  rw [offers, offers, hopen, hopen, h.modelOf_eq, h.model?_eq, h.element?_eq]
  exact (((h.importsOf_perm _).filter _).filterMap _).filterMap _

/-- What a path stands for does not depend on the order of imports, unless it is contested. -/
theorem lookup?_eq {source : DefinitionId} {path : List String}
    (hcontested : ¬env.Contested source path) :
    env.lookup? source path = other.lookup? source path := by
  cases path with
  | nil => rfl
  | cons name rest =>
    by_cases hnear : env.scopedElement? source name = none ∧ (rest ≠ [] → env.model? name = none)
    · obtain ⟨hscoped, hunknown⟩ := hnear
      rw [lookup?_of_not_scoped hscoped hunknown,
        lookup?_of_not_scoped (h.scopedElement?_eq ▸ hscoped) (h.model?_eq ▸ hunknown),
        ← h.predefinedElement?_eq, ← h.model?_eq, ← h.descend?_eq]
      have hperm := h.offers_perm source name
      -- Either nothing is offered in either order, or the first offers lead to the same place.
      cases hoffers : env.offers source name with
      | nil =>
        rw [hoffers, List.nil_perm] at hperm
        rw [hperm]
      | cons first others =>
        cases hoffers' : other.offers source name with
        | nil =>
          rw [hoffers, hoffers', List.perm_nil] at hperm
          cases hperm
        | cons second others' =>
          have hfirst : first ∈ env.offers source name := by
            rw [hoffers]
            exact List.mem_cons_self
          have hsecond : second ∈ env.offers source name := by
            rw [hperm.mem_iff, hoffers']
            exact List.mem_cons_self
          change env.descend? first rest = env.descend? second rest
          by_contra hne
          exact hcontested ⟨hscoped, hunknown, first, hfirst, second, hsecond, hne⟩
    · rw [lookup?, lookup?, lookupFirst?, lookupFirst?, ← h.scopedElement?_eq, ← h.model?_eq,
        ← h.descend?_eq]
      cases hscoped : env.scopedElement? source name with
      | some element => rfl
      | none =>
        obtain ⟨hrest, hknown⟩ : rest ≠ [] ∧ env.model? name ≠ none := by
          simpa [hscoped] using hnear
        obtain ⟨model, hmodel⟩ := Option.ne_none_iff_exists'.mp hknown
        have hqualified : (!rest.isEmpty) = true := by simpa using hrest
        rw [hqualified, hmodel]
        rfl

theorem lookupReference_eq {id id' : ReferenceId} {reference reference' : Reference}
    (hfile : id.file = id'.file) (hsame : reference.stripped = reference'.stripped)
    (hundisputed : ¬env.Disputed id reference) :
    env.lookupReference id reference = other.lookupReference id' reference' := by
  simp only [Reference.stripped, Reference.mk.injEq] at hsame
  obtain ⟨hpath, -, hsource, hexpected, -⟩ := hsame
  have hnamed : env.named? id reference = other.named? id' reference' := by
    by_cases hmodel : reference.expected = .model
    · rw [named?_of_model env hmodel, named?_of_model other (hexpected ▸ hmodel), hpath,
        h.model?_eq]
    · rw [named?_of_ne_model env hmodel, named?_of_ne_model other (hexpected ▸ hmodel),
        h.lookup?_eq fun hcontested => hundisputed ⟨hmodel, hcontested⟩, hpath, hsource, hfile]
  rw [lookupReference, lookupReference, hnamed, h.kind?_eq, hexpected]

end Lookup

end Reordered

/-! ### Contested paths depend on the order -/

def reorder (env : Environment) (model : DefinitionId) (order : List Import → List Import) :
    Environment :=
  { env with files := env.files.modify model.file fun catalog => catalog.reorder model.index order }

section Reorder

variable {order : List Import → List Import}

theorem file?_reorder (env : Environment) (model : DefinitionId) (index : Nat) :
    (env.reorder model order).file? index =
      if model.file = index then
        (env.file? index).map fun catalog => catalog.reorder model.index order
      else env.file? index :=
  Array.getElem?_modify

theorem reordered_reorder (horder : ∀ imports, (order imports).Perm imports) (env : Environment)
    (model : DefinitionId) : env.Reordered (env.reorder model order) := by
  refine ⟨rfl, (Array.size_modify ..).symm, fun index => ?_, rfl⟩
  rw [file?_reorder]
  cases env.file? index with
  | none => simp
  | some catalog =>
    split
    · exact .some (Catalog.reordered_reorder horder catalog model.index)
    · exact .some (.refl catalog)

theorem exists_importsOf_cons {env : Environment} {model : DefinitionId}
    {entry : Import × Reference} (h : entry ∈ env.importsOf model) :
    ∃ other rest, env.Reordered other ∧ other.importsOf model = entry :: rest := by
  obtain ⟨item, reference⟩ := entry
  rw [importsOf_eq] at h
  cases hfile : env.file? model.file with
  | none => rw [hfile] at h; cases h
  | some catalog =>
    rw [hfile, Option.map_some, Option.getD_some, Catalog.importsAt] at h
    cases hdefinition : catalog.definition? model.index with
    | none => rw [hdefinition] at h; cases h
    | some definition =>
      rw [hdefinition] at h
      obtain ⟨found, hmem, hreference⟩ := List.mem_filterMap.mp h
      obtain ⟨named, hnamed, heq⟩ := Option.map_eq_some_iff.mp hreference
      obtain ⟨rfl, rfl⟩ := Prod.mk.inj heq
      have hcons : found.putFirst definition.data.imports =
          found :: definition.data.imports.erase found := if_pos hmem
      refine ⟨env.reorder model found.putFirst, (definition.data.imports.erase found).filterMap
        fun item => (catalog.references[item.model]?).map fun reference => (item, reference),
        reordered_reorder found.putFirst_perm env model, ?_⟩
      rw [importsOf_eq, file?_reorder, if_pos rfl, hfile, Option.map_some, Option.map_some,
        Option.getD_some, Catalog.importsAt, Catalog.definition?_reorder, if_pos rfl, hdefinition,
        Option.map_some]
      change Definition.importsIn catalog.references (definition.reorder found.putFirst) = _
      rw [Definition.importsIn, Definition.imports_reorder found.putFirst_perm, hcons,
        List.filterMap_cons_some (by rw [hnamed]; rfl)]

end Reorder

theorem exists_offers_cons {env : Environment} {source offer : DefinitionId} {name : String}
    (h : offer ∈ env.offers source name) :
    ∃ other, env.Reordered other ∧ (other.offers source name).head? = some offer := by
  obtain ⟨model, hmodel, helement⟩ := List.mem_filterMap.mp h
  obtain ⟨⟨item, reference⟩, hentry, hnamed⟩ := List.mem_filterMap.mp hmodel
  obtain ⟨himport, hopen⟩ := List.mem_filter.mp hentry
  obtain ⟨other, rest, hother, hcons⟩ := exists_importsOf_cons himport
  refine ⟨other, hother, ?_⟩
  rw [offers, openModels, ← hother.modelOf_eq, hcons, List.filter_cons, if_pos hopen,
    ← hother.model?_eq, ← hother.element?_eq, List.filterMap_cons, hnamed]
  dsimp only
  rw [List.filterMap_cons, helement]
  rfl

/-- A path is contested just when it stands for something else in another order of imports. -/
theorem contested_iff {env : Environment} {source : DefinitionId} {path : List String} :
    env.Contested source path ↔
      ∃ other, env.Reordered other ∧ other.lookup? source path ≠ env.lookup? source path := by
  constructor
  · intro h
    cases path with
    | nil => exact h.elim
    | cons name rest =>
      obtain ⟨hscoped, hunknown, first, hfirst, second, hsecond, hne⟩ := h
      have hlookup {offer : DefinitionId} (hoffer : offer ∈ env.offers source name) :
          ∃ other, env.Reordered other ∧
            other.lookup? source (name :: rest) = env.descend? offer rest := by
        obtain ⟨other, hother, hhead⟩ := exists_offers_cons hoffer
        refine ⟨other, hother, ?_⟩
        rw [lookup?_of_not_scoped (hother.scopedElement?_eq ▸ hscoped)
          (hother.model?_eq ▸ hunknown), hhead, hother.descend?_eq]
        rfl
      obtain ⟨other, hother, heq⟩ := hlookup hfirst
      obtain ⟨another, hanother, heq'⟩ := hlookup hsecond
      by_cases hsame : other.lookup? source (name :: rest) = env.lookup? source (name :: rest)
      · exact ⟨another, hanother, fun hsame' => hne (by rw [← heq, ← heq', hsame, hsame'])⟩
      · exact ⟨other, hother, hsame⟩
  · rintro ⟨other, hother, hne⟩
    by_contra hcontested
    exact hne (hother.lookup?_eq hcontested).symm

end Environment

end Ili
