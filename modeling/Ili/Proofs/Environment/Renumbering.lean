import Ili.Proofs.Catalog.Renumbering
import Ili.Proofs.Environment.Reordering
import Ili.Proofs.Environment.Simulation

/-!
# Environments that differ in their numbers

The files of an environment may have other numbers, and so may the definitions and references in
them. No look-up reads a number except to go where it points, so what it finds in the one
environment corresponds to what it finds in the other.
-/

namespace Ili

/-- Other numbers for files, and for the definitions and the references of each file. -/
structure Renumbering where
  file : Equiv.Perm Nat
  definition : Nat → Equiv.Perm Nat
  reference : Nat → Equiv.Perm Nat

namespace Renumbering

variable (ρ : Renumbering)

def definitionId (id : DefinitionId) : DefinitionId :=
  ⟨ρ.file id.file, ρ.definition id.file id.index⟩

def referenceId (id : ReferenceId) : ReferenceId :=
  ⟨ρ.file id.file, ρ.reference id.file id.index⟩

def Fixes (index : Nat) : Prop :=
  ρ.file index = index ∧ ρ.definition index = .refl Nat ∧ ρ.reference index = .refl Nat

def FixesFrom (size : Nat) : Prop :=
  ∀ {index : Nat}, size ≤ index → ρ.Fixes index

theorem definitionId_injective : Function.Injective ρ.definitionId := by
  rintro ⟨file, index⟩ ⟨file', index'⟩ heq
  obtain ⟨hfile, hindex⟩ := DefinitionId.mk.inj heq
  obtain rfl : file = file' := ρ.file.injective hfile
  exact congrArg _ ((ρ.definition file).injective hindex)

end Renumbering

def Binding.renumber (number : DefinitionId → DefinitionId) : Binding → Binding
  | resolved target => resolved (number target)
  | binding => binding

def Lookup.renumber (number : DefinitionId → DefinitionId) : Lookup → Lookup
  | found target => found (number target)
  | wrongKind target => wrongKind (number target)
  | notFound => notFound

theorem Lookup.binding_renumber (number : DefinitionId → DefinitionId) (lookup : Lookup) :
    (lookup.renumber number).binding = lookup.binding.renumber number := by
  cases lookup <;> rfl

namespace Environment

theorem size_le_merge (env : Environment) (catalog : Catalog) :
    env.files.size ≤ (env.merge catalog).1.files.size := by
  rw [merge]
  split
  · exact le_rfl
  · exact (Nat.le_succ _).trans (Array.size_push ..).ge

/-- The environments hold the same under other numbers. -/
structure Renumbered (ρ : Renumbering) (env other : Environment) : Prop where
  version : other.version = env.version
  size : other.files.size = env.files.size
  file? : ∀ index, Option.Rel (Catalog.Renumbered (ρ.definition index) (ρ.reference index))
    (env.file? index) (other.file? (ρ.file index))
  model? : ∀ name, other.model? name = (env.model? name).map ρ.definitionId
  bound : ∀ {id : ReferenceId} {first second : Reference}, env.reference? id = some first →
    other.reference? (ρ.referenceId id) = some second →
    second.state = first.state.renumber ρ.definitionId
  first : ρ.file 0 = 0

namespace Renumbered

variable {ρ : Renumbering} {env other : Environment} (h : env.Renumbered ρ other)

include h

/-! ### Single definitions -/

theorem definition? (id : DefinitionId) :
    Option.Rel (Definition.Renumbered (ρ.definition id.file) (ρ.reference id.file))
      (env.definition? id) (other.definition? (ρ.definitionId id)) :=
  rel_bind (h.file? id.file) fun _ _ hfile => hfile.definition id.index

theorem kind?_eq (id : DefinitionId) : other.kind? (ρ.definitionId id) = env.kind? id :=
  (map_eq_of_rel (h.definition? id) fun _ _ hsame => hsame.kind_eq.symm).symm

theorem nameOf_eq (id : DefinitionId) : other.nameOf (ρ.definitionId id) = env.nameOf id :=
  congrArg (Option.getD · "")
    (map_eq_of_rel (h.definition? id) fun _ _ hsame => hsame.name_eq.symm).symm

theorem parent?_eq (id : DefinitionId) :
    other.parent? (ρ.definitionId id) = (env.parent? id).map ρ.definitionId := by
  have hparent : (other.definition? (ρ.definitionId id)).bind Definition.parent =
      ((env.definition? id).bind Definition.parent).map (ρ.definition id.file) := by
    rw [Option.map_bind]
    exact (bind_eq_of_rel (h.definition? id) fun _ _ hsame => hsame.parent_eq.symm).symm
  rw [parent?, parent?, hparent, Option.map_map, Option.map_map]
  rfl

theorem child?_eq (id : DefinitionId) (name : String) :
    other.child? (ρ.definitionId id) name = (env.child? id name).map ρ.definitionId := by
  have hcontent : (other.definition? (ρ.definitionId id)).bind (fun d => d.content.get? name) =
      ((env.definition? id).bind fun d => d.content.get? name).map (ρ.definition id.file) := by
    rw [Option.map_bind]
    exact (bind_eq_of_rel (h.definition? id) fun _ _ hsame => (hsame.content name).symm).symm
  rw [child?, child?, hcontent, Option.map_map, Option.map_map]
  rfl

theorem knowsModel_eq : other.knowsModel = env.knowsModel := by
  funext name
  have hmodel := congrArg Option.isSome (h.model? name)
  rwa [Option.isSome_map] at hmodel

theorem importsOf_eq (model : DefinitionId) :
    (other.importsOf (ρ.definitionId model)).map Import.written =
      (env.importsOf model).map Import.written := by
  rw [Environment.importsOf_eq, Environment.importsOf_eq]
  change (((other.file? (ρ.file model.file)).map _).getD []).map _ = _
  rcases rel_cases (h.file? model.file) with
    ⟨hleft, hright⟩ | ⟨catalog, catalog', hleft, hright, hsame⟩
  · rw [hleft, hright]
    rfl
  · rw [hleft, hright]
    exact hsame.importsAt_eq model.index

theorem element?_eq (scope : DefinitionId) (name : String) :
    other.element? (ρ.definitionId scope) name =
      (env.element? scope name).map ρ.definitionId := by
  rw [element?, element?, h.child?_eq, Option.filter_map, Function.comp_def]
  simp only [h.kind?_eq]

theorem predefinedModel?_eq :
    other.predefinedModel? = env.predefinedModel?.map ρ.definitionId := by
  have hmodels := h.file? 0
  rw [h.first] at hmodels
  have hhead : (other.file? 0).bind (fun file => file.models.head?) =
      ((env.file? 0).bind fun file => file.models.head?).map (ρ.definition 0) := by
    rw [Option.map_bind]
    refine (bind_eq_of_rel hmodels fun _ _ hsame => ?_).symm
    rw [hsame.models, List.head?_map]
    rfl
  rw [predefinedModel?, predefinedModel?, hhead, Option.map_map, Option.map_map]
  refine congrArg (Option.map · _) (funext fun index => ?_)
  rw [Function.comp_apply, Function.comp_apply, Renumbering.definitionId, h.first]

theorem predefinedElement?_eq (name : String) :
    other.predefinedElement? name = (env.predefinedElement? name).map ρ.definitionId := by
  rw [predefinedElement?, predefinedElement?, h.predefinedModel?_eq, Option.bind_map,
    Option.map_bind]
  exact congrArg (Option.bind _) (funext fun model => h.element?_eq model name)

theorem descend?_eq (start : DefinitionId) (names : List String) :
    other.descend? (ρ.definitionId start) names =
      (env.descend? start names).map ρ.definitionId := by
  induction names generalizing start with
  | nil => rfl
  | cons name rest ih =>
    rw [Environment.descend?, Environment.descend?, List.foldlM_cons, List.foldlM_cons, h.child?_eq]
    cases env.child? start name with
    | none => rfl
    | some child => exact ih child

/-! ### What holds a definition -/

variable (hsound : env.Sound) (hsound' : other.Sound)

include hsound hsound'

theorem chain_eq (id : DefinitionId) :
    other.chain (ρ.definitionId id) = (env.chain id).map ρ.definitionId := by
  obtain ⟨file, index⟩ := id
  induction index using Nat.strongRecOn with
  | ind index ih =>
    rw [hsound'.chain_eq, hsound.chain_eq, h.parent?_eq, List.map_cons]
    cases hparent : env.parent? ⟨file, index⟩ with
    | none => rfl
    | some parent =>
      have hlt : parent.index < index := hsound.parent_lt hparent
      obtain ⟨above, -, rfl⟩ := Option.map_eq_some_iff.mp hparent
      simp only [Option.map_some, Option.getD_some, ih above hlt]

theorem modelOf_eq (id : DefinitionId) :
    other.modelOf (ρ.definitionId id) = ρ.definitionId (env.modelOf id) := by
  rw [modelOf, modelOf, h.chain_eq hsound hsound', List.getLastD_eq_getLast?,
    List.getLastD_eq_getLast?, List.getLast?_map]
  cases (env.chain id).getLast? <;> rfl

theorem isReachable_eq (id : DefinitionId) :
    other.isReachable (ρ.definitionId id) = env.isReachable id := by
  rw [isReachable, isReachable, h.modelOf_eq hsound hsound', h.nameOf_eq, h.model?,
    Bool.eq_iff_iff, beq_iff_eq, beq_iff_eq, ← Option.map_some,
    (Option.map_injective ρ.definitionId_injective).eq_iff]

/-! ### Looking up -/

theorem scopedElement?_eq (source : DefinitionId) (name : String) :
    other.scopedElement? (ρ.definitionId source) name =
      (env.scopedElement? source name).map ρ.definitionId := by
  rw [scopedElement?, scopedElement?, h.chain_eq hsound hsound', ← List.map_tail,
    List.findSome?_map, List.map_findSome?]
  exact congrArg (List.findSome? · _) (funext fun scope => h.element?_eq scope name)

theorem openModels_eq (source : DefinitionId) :
    other.openModels (ρ.definitionId source) = (env.openModels source).map ρ.definitionId := by
  have hopen (env : Environment) (source : DefinitionId) : env.openModels source =
      (((env.importsOf (env.modelOf source)).map Import.written).filter Prod.snd).filterMap
        fun written => written.1.head?.bind env.model? := by
    rw [openModels, List.filter_map, List.filterMap_map]
    rfl
  rw [hopen, hopen, h.modelOf_eq hsound hsound', h.importsOf_eq, List.map_filterMap]
  apply List.filterMap_congr
  intro written _
  rw [Option.map_bind]
  exact congrArg (Option.bind _) (funext h.model?)

theorem openElement?_eq (source : DefinitionId) (name : String) :
    other.openElement? (ρ.definitionId source) name =
      (env.openElement? source name).map ρ.definitionId := by
  rw [openElement?, openElement?, h.openModels_eq hsound hsound', List.findSome?_map,
    List.map_findSome?]
  exact congrArg (List.findSome? · _) (funext fun model => h.element?_eq model name)

theorem lookupFirst?_eq (source : DefinitionId) (name : String) (qualified : Bool) :
    other.lookupFirst? (ρ.definitionId source) name qualified =
      (env.lookupFirst? source name qualified).map ρ.definitionId := by
  have hor (first second : Option DefinitionId) :
      (first.map ρ.definitionId).or (second.map ρ.definitionId) =
        (first.or second).map ρ.definitionId := by
    cases first <;> rfl
  rw [lookupFirst?, lookupFirst?, h.scopedElement?_eq hsound hsound',
    h.openElement?_eq hsound hsound', h.predefinedElement?_eq, h.model?]
  cases qualified <;> simp only [hor, if_true, if_false, Bool.false_eq_true]

theorem lookup?_eq (source : DefinitionId) (path : List String) :
    other.lookup? (ρ.definitionId source) path =
      (env.lookup? source path).map ρ.definitionId := by
  cases path with
  | nil => rfl
  | cons name rest =>
    rw [lookup?, lookup?, h.lookupFirst?_eq hsound hsound', Option.bind_map, Option.map_bind]
    exact congrArg (Option.bind _) (funext fun start => h.descend?_eq start rest)

/-- What a reference names corresponds to what the same reference names in the other environment. -/
theorem lookupReference_eq {id : ReferenceId} {first second : Reference}
    (hsaid : second.said = first.said.renumber (ρ.definition id.file)) :
    other.lookupReference (ρ.referenceId id) second =
      (env.lookupReference id first).renumber ρ.definitionId := by
  simp only [Reference.said, Reference.renumber, Reference.mk.injEq] at hsaid
  obtain ⟨hpath, -, hsource, hexpected, -⟩ := hsaid
  have hnamed : other.named? (ρ.referenceId id) second =
      (env.named? id first).map ρ.definitionId := by
    by_cases hmodel : first.expected = .model
    · rw [named?_of_model env hmodel, named?_of_model other (hexpected ▸ hmodel), hpath]
      split
      · exact h.model? _
      · rfl
    · rw [named?_of_ne_model env hmodel, named?_of_ne_model other (hexpected ▸ hmodel), hpath,
        hsource]
      exact h.lookup?_eq hsound hsound' ⟨id.file, first.source⟩ first.path
  rw [lookupReference, lookupReference, hnamed, hexpected]
  cases env.named? id first with
  | none => rfl
  | some target =>
    rw [Option.map_some]
    dsimp only
    rw [h.kind?_eq]
    split <;> rfl

/-! ### Files are added alike -/

omit hsound hsound' in
theorem append {catalog catalog' : Catalog}
    (hlast : ρ.file env.files.size = env.files.size)
    (hcatalog : catalog.Renumbered (ρ.definition env.files.size) (ρ.reference env.files.size)
      catalog')
    (hunbound : ∀ reference ∈ catalog.references, reference.state = .unbound)
    (hunbound' : ∀ reference ∈ catalog'.references, reference.state = .unbound) :
    (env.append catalog).Renumbered ρ (other.append catalog') where
  version := h.version
  size := by
    change (other.files.push catalog').size = (env.files.push catalog).size
    rw [Array.size_push, Array.size_push, h.size]
  file? index := by
    rw [file?_append, file?_append, h.size]
    by_cases hindex : index = env.files.size
    · rw [if_pos hindex, if_pos (by rw [hindex, hlast]), hindex]
      exact .some hcatalog
    · rw [if_neg hindex, if_neg fun heq => hindex (ρ.file.injective (heq.trans hlast.symm))]
      exact h.file? index
  model? name := by
    rw [model?_append, model?_append, h.model?, h.size, hcatalog.models, List.find?_map]
    have hnames : (fun model => catalog'.nameOf model == name) ∘ ρ.definition env.files.size =
        fun model => catalog.nameOf model == name :=
      funext fun model => congrArg (· == name) (hcatalog.nameOf_eq model)
    rw [hnames, Option.map_map]
    have hnumber : (fun index => DefinitionId.mk env.files.size index) ∘
        ρ.definition env.files.size = ρ.definitionId ∘ (⟨env.files.size, ·⟩) := by
      funext index
      rw [Function.comp_apply, Function.comp_apply, Renumbering.definitionId, hlast]
    rw [hnumber, ← Option.map_map]
    cases env.model? name <;> rfl
  bound {id first second} hfirst hsecond := by
    rw [reference?, file?_append] at hfirst hsecond
    by_cases hindex : id.file = env.files.size
    · have hright : (ρ.referenceId id).file = other.files.size := by
        rw [h.size, ← hlast, ← hindex]
        rfl
      rw [if_pos hindex] at hfirst
      rw [if_pos hright] at hsecond
      rw [hunbound first (Array.mem_of_getElem? hfirst),
        hunbound' second (Array.mem_of_getElem? hsecond)]
      rfl
    · have hright : (ρ.referenceId id).file ≠ other.files.size := by
        rw [h.size, ← hlast]
        exact fun heq => hindex (ρ.file.injective heq)
      rw [if_neg hindex] at hfirst
      rw [if_neg hright] at hsecond
      exact h.bound hfirst hsecond
  first := h.first

omit hsound hsound' in
theorem merge {catalog catalog' : Catalog}
    (hlast : ρ.file env.files.size = env.files.size)
    (hcatalog : catalog.Renumbered (ρ.definition env.files.size) (ρ.reference env.files.size)
      catalog')
    (hunbound : ∀ reference ∈ catalog.references, reference.state = .unbound)
    (hunbound' : ∀ reference ∈ catalog'.references, reference.state = .unbound) :
    (env.merge catalog).1.Renumbered ρ (other.merge catalog').1 := by
  rw [Environment.merge, Environment.merge, hcatalog.modelNames_eq, h.knowsModel_eq]
  split
  · exact h
  · exact h.append hlast hcatalog hunbound hunbound'

/-! ### The same is bound -/

theorem boundReference_state {id : ReferenceId} {first second : Reference}
    (hsaid : second.said = first.said.renumber (ρ.definition id.file))
    (hstate : second.state = first.state.renumber ρ.definitionId) :
    (other.boundReference (ρ.referenceId id) second).state =
      (env.boundReference id first).state.renumber ρ.definitionId := by
  have hsource : second.source = ρ.definition id.file first.source :=
    show second.said.source = ρ.definition id.file first.said.source by rw [hsaid]; rfl
  have hzero : ρ.file id.file = 0 ↔ id.file = 0 :=
    ⟨fun hfile => ρ.file.injective (hfile.trans h.first.symm), fun hfile => by rw [hfile, h.first]⟩
  have hlisted : (ρ.referenceId id).file ≠ 0 ∧
      other.isReachable ⟨(ρ.referenceId id).file, second.source⟩ = true ↔
        id.file ≠ 0 ∧ env.isReachable ⟨id.file, first.source⟩ = true := by
    have hreachable := h.isReachable_eq hsound hsound' ⟨id.file, first.source⟩
    rw [hsource]
    exact and_congr (not_congr hzero) (iff_of_eq (congrArg (· = true) hreachable))
  rw [boundReference, boundReference]
  by_cases hbinds : id.file ≠ 0 ∧ env.isReachable ⟨id.file, first.source⟩ = true
  · rw [if_pos (hlisted.mpr hbinds), if_pos hbinds]
    change (other.lookupReference _ _).binding = _
    rw [h.lookupReference_eq hsound hsound' hsaid, Lookup.binding_renumber]
  · rw [if_neg (hlisted.not.mpr hbinds), if_neg hbinds, hstate]

theorem bind : env.bind.Renumbered ρ other.bind where
  version := h.version
  size := by
    rw [show other.bind.files.size = other.files.size from Array.size_mapIdx, h.size]
    exact Array.size_mapIdx.symm
  file? index := by
    rw [file?_bind, file?_bind]
    refine rel_map (h.file? index) fun catalog catalog' hsame =>
      ⟨hsame.uri, hsame.schemaVersion, hsame.models, hsame.definition, fun number => ?_⟩
    rw [Array.getElem?_mapIdx, Array.getElem?_mapIdx]
    refine rel_map (hsame.reference number) fun first second hsaid => ?_
    have hleft := boundReference_eq env ⟨index, number⟩ first
    have hright := boundReference_eq other ⟨ρ.file index, ρ.reference index number⟩ second
    rw [hleft, hright]
    exact hsaid
  model? := h.model?
  bound {id first second} hfirst hsecond := by
    rw [reference?_bind] at hfirst hsecond
    obtain ⟨before, hbefore, rfl⟩ := Option.map_eq_some_iff.mp hfirst
    obtain ⟨before', hbefore', rfl⟩ := Option.map_eq_some_iff.mp hsecond
    have hreference := rel_bind (h.file? id.file) fun _ _ hsame => hsame.reference id.index
    change Option.Rel _ (env.reference? id) (other.reference? (ρ.referenceId id)) at hreference
    rw [hbefore, hbefore', Option.rel_some_some] at hreference
    exact h.boundReference_state hsound hsound' hreference (h.bound hbefore hbefore')
  first := h.first

omit hsound hsound' in
theorem reference? (id : ReferenceId) :
    Option.Rel (fun first second => second.said = first.said.renumber (ρ.definition id.file) ∧
      second.state = first.state.renumber ρ.definitionId)
      (env.reference? id) (other.reference? (ρ.referenceId id)) := by
  have hreference := rel_bind (h.file? id.file) fun _ _ hsame => hsame.reference id.index
  change Option.Rel _ (env.reference? id) (other.reference? (ρ.referenceId id)) at hreference
  rcases rel_cases hreference with ⟨hleft, hright⟩ | ⟨first, second, hleft, hright, hsaid⟩
  · rw [hleft, hright]
    exact .none
  · rw [hleft, hright]
    exact .some ⟨hsaid, h.bound hleft hright⟩

/-! ### The same is missing -/

omit hsound hsound' in
theorem imports_iff (name : String) : other.Imports name ↔ env.Imports name := by
  have himports (env : Environment) (name : String) : env.Imports name ↔
      ∃ importer model, env.model? importer = some model ∧
        ∃ written ∈ (env.importsOf model).map Import.written, written.1.head? = some name := by
    constructor
    · rintro ⟨importer, model, item, reference, hmodel, hmem, hhead⟩
      exact ⟨importer, model, hmodel, _, List.mem_map.mpr ⟨_, hmem, rfl⟩, hhead⟩
    · rintro ⟨importer, model, hmodel, _, hwritten, hhead⟩
      obtain ⟨⟨item, reference⟩, hmem, rfl⟩ := List.mem_map.mp hwritten
      exact ⟨importer, model, item, reference, hmodel, hmem, hhead⟩
  rw [himports, himports]
  constructor
  · rintro ⟨importer, _, hentered, written, hwritten, hhead⟩
    rw [h.model?] at hentered
    obtain ⟨model, hmodel, rfl⟩ := Option.map_eq_some_iff.mp hentered
    rw [h.importsOf_eq] at hwritten
    exact ⟨importer, model, hmodel, written, hwritten, hhead⟩
  · rintro ⟨importer, model, hmodel, written, hwritten, hhead⟩
    refine ⟨importer, ρ.definitionId model, by rw [h.model?, hmodel]; rfl, written, ?_, hhead⟩
    rwa [h.importsOf_eq]

omit hsound hsound' in
theorem missing (name : String) :
    Option.Rel (fun _ _ => True) (env.missingImports.get? name)
      (other.missingImports.get? name) := by
  have hsome (env : Environment) : (env.missingImports.get? name).isSome = true ↔
      env.Imports name ∧ env.knowsModel name = false := by
    rw [← mem_missingImports, Option.isSome_iff_exists]
    simp only [Dict.mem_entries_iff]
  have hiff := (hsome other).trans ((and_congr (h.imports_iff name)
    (by rw [h.knowsModel_eq])).trans (hsome env).symm)
  rw [← Bool.eq_iff_iff] at hiff
  revert hiff
  cases env.missingImports.get? name <;> cases other.missingImports.get? name <;> intro hiff
  · exact .none
  · cases hiff
  · cases hiff
  · exact .some trivial

end Renumbered

end Environment

/-- Environments that differ in their numbers are alike, provided that files to come get the same
numbers in both. -/
def Renumbering.likeness (ρ : Renumbering) : Likeness where
  env first second := first.Renumbered ρ second ∧ ρ.FixesFrom first.files.size ∧ first.Sound ∧
    second.Sound
  site _ _ := True
  version h := h.1.version
  knowsModel h := h.1.knowsModel_eq
  missing h := h.1.missing
  merge {first second} h text uri := by
    obtain ⟨hsame, hfixes, hfirst, hsecond⟩ := h
    obtain ⟨hfile, hdefinition, hreference⟩ := hfixes (le_refl first.files.size)
    have hunbound := Catalog.unbound_ofText text uri
    refine ⟨hsame.merge hfile ?_ hunbound hunbound, fun hindex => hfixes (le_trans ?_ hindex),
      hfirst.merge (Catalog.rooted_ofText text uri),
      hsecond.merge (Catalog.rooted_ofText text uri)⟩
    · rw [hdefinition, hreference]
      exact .refl _
    · exact Environment.size_le_merge first _

namespace Environment

/-- The runs with any provider correspond, from beginning to end. -/
theorem Renumbered.resolves {ρ : Renumbering} {env other : Environment} (h : env.Renumbered ρ other)
    (hfixes : ρ.FixesFrom env.files.size) (hsound : env.Sound) (hsound' : other.Sound)
    {provider : Provider} {calledOff : Option Nat} {filter : Option String} {run : Resolution}
    (hrun : env.Resolves provider calledOff filter run) :
    ∃ run', other.Resolves provider calledOff filter run' ∧ run'.isComplete = run.isComplete ∧
      run'.queries = run.queries ∧ (run.isComplete = true → run.env.Renumbered ρ run'.env) := by
  have hlike : ρ.likeness.env env other := ⟨h, hfixes, hsound, hsound'⟩
  obtain ⟨run', hrun', hcomplete, hqueries, hbinds⟩ := hrun.alike hlike
  refine ⟨run', hrun', hcomplete, hqueries, fun hdone => ?_⟩
  obtain ⟨closed, closed', ⟨hclosed, -, hsound, hsound'⟩, hleft, hright⟩ := hbinds hdone
  rw [hleft, hright]
  exact hclosed.bind hsound hsound'

theorem Renumbered.of_version {ρ : Renumbering} {env other : Environment}
    (h : env.Renumbered ρ other) (version : Option String) :
    Renumbered ρ { env with version } { other with version } :=
  ⟨rfl, h.size, h.file?, h.model?, h.bound, h.first⟩

/-! ### Nothing points outside -/

/-- The environment stays the same when other numbers are given to files that it does not have. -/
def SelfContained (env : Environment) : Prop :=
  ∀ ρ : Renumbering, (∀ index < env.files.size, ρ.Fixes index) → env.Renumbered ρ env

namespace SelfContained

variable {env : Environment} (h : env.SelfContained)

include h

theorem append (text : String) (uri : Option String) :
    (env.append (.ofText text uri)).SelfContained := by
  intro ρ hfixes
  have hsize : (env.append (.ofText text uri)).files.size = env.files.size + 1 := Array.size_push ..
  obtain ⟨hlast, hdefinition, hreference⟩ := hfixes env.files.size (by omega)
  have hunbound := Catalog.unbound_ofText text uri
  refine (h ρ fun index hindex => hfixes index (by omega)).append hlast ?_ hunbound hunbound
  rw [hdefinition, hreference]
  exact .refl _

theorem merge (text : String) (uri : Option String) :
    (env.merge (.ofText text uri)).1.SelfContained := by
  rw [Environment.merge]
  split
  · exact h
  · exact h.append text uri

theorem of_version (version : Option String) : SelfContained { env with version } :=
  fun ρ hfixes => (h ρ hfixes).of_version version

theorem add (text : String) (uri : Option String) :
    (env.add (.ofText text uri)).1.SelfContained := by
  rw [Environment.add]
  split
  · exact (h.of_version _).merge text uri
  · exact h.merge text uri

theorem answered (access : RepositoryAccess) (filter : Option String) (name : String) :
    (env.answered access filter name).SelfContained := by
  rw [Environment.answered]
  split
  · exact h
  · next catalog htaken =>
    obtain ⟨text, uri, rfl⟩ := eq_ofText_of_taken? htaken
    exact h.merge text uri

theorem closed (access : RepositoryAccess) (filter : Option String) :
    (Closure.run access filter env).env.SelfContained := by
  rw [(Closure.consistent_run access filter env).env_eq]
  generalize (Closure.run access filter env).asked = names
  induction names generalizing env with
  | nil => exact h
  | cons name rest ih => exact ih (h.answered access filter name)

theorem bind (hsound : env.Sound) : env.bind.SelfContained := fun ρ hfixes =>
  (h ρ fun index hindex =>
    hfixes index (lt_of_lt_of_eq hindex Array.size_mapIdx.symm)).bind hsound hsound

end SelfContained

theorem selfContained_initial : initial.SelfContained := by
  intro ρ hfixes
  obtain ⟨hfirst, hdefinition, hreference⟩ := hfixes 0 Nat.one_pos
  have hempty : Renumbered ρ ⟨none, #[], .empty⟩ ⟨none, #[], .empty⟩ :=
    ⟨rfl, rfl, fun _ => .none, fun _ => rfl, nofun, hfirst⟩
  have hunbound := Catalog.unbound_ofText predefinedText none
  refine hempty.append hfirst ?_ hunbound hunbound
  change Catalog.Renumbered (ρ.definition 0) (ρ.reference 0) _ _
  rw [hdefinition, hreference]
  exact .refl _

theorem Session.selfContained {env : Environment} (h : env.Session) : env.SelfContained := by
  induction h with
  | initial => exact selfContained_initial
  | add _ text uri ih => exact ih.add text uri
  | @resolve env hsession access filter ih =>
    have hclosed := ih.closed access (env.queryFilter filter)
    rcases env_resolve env access filter with heq | heq
    · exact heq ▸ hclosed
    · exact heq ▸ hclosed.bind (hsession.sound.closed access _)

end Environment

end Ili
