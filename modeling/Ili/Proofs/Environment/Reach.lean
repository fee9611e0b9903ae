import Ili.Environment.Lookup
import Ili.Proofs.Catalog.Forest
import Ili.Proofs.Environment.Extension

/-!
# What a look-up can reach

Every way of finding a definition by name starts at a model that is known under its own name, or at
a definition that holds a reachable one, and goes down through contents from there. So whatever is
found has the name it was looked for, and it belongs to a model that is known.
-/

namespace Ili

theorem Definition.name_mem_names (definition : Definition) :
    definition.name ∈ definition.names := by
  rw [names.eq_def]
  split <;> exact List.mem_cons_self

namespace Environment

/-- The files are forests, and names stand for models that have them; the predefined model among
them. -/
structure Sound (env : Environment) : Prop where
  first : 0 < env.files.size
  file : ∀ {index : Nat} {catalog : Catalog}, env.file? index = some catalog → catalog.Rooted
  model : ∀ {name : String} {id : DefinitionId}, env.model? name = some id →
    ∃ definition, env.definition? id = some definition ∧ definition.parent = none ∧
      definition.name = name
  predefined : ∀ id, env.predefinedModel? = some id → env.model? (env.nameOf id) = some id

/-- The definition is there under this name, and its model is known. -/
def Reaches (env : Environment) (name : String) (target : DefinitionId) : Prop :=
  (∃ definition, env.definition? target = some definition ∧ name ∈ definition.names) ∧
    env.isReachable target = true

section Up

variable {env : Environment} (h : env.Sound) {id : DefinitionId}

include h

theorem Sound.parent_lt {parent : DefinitionId} (hparent : env.parent? id = some parent) :
    parent.index < id.index := by
  obtain ⟨above, habove, rfl⟩ := Option.map_eq_some_iff.mp hparent
  obtain ⟨definition, hfound, hup⟩ := Option.bind_eq_some_iff.mp habove
  obtain ⟨catalog, hfile, hdefinition⟩ := Option.bind_eq_some_iff.mp hfound
  exact (h.file hfile).parent_lt hdefinition hup

theorem Sound.chain_eq (id : DefinitionId) :
    env.chain id = id :: ((env.parent? id).map env.chain).getD [] := by
  rw [chain, parent?, definition?]
  cases hfile : env.file? id.file with
  | none => rfl
  | some catalog =>
    dsimp only [Option.bind_some]
    rw [(h.file hfile).chain_eq, List.map_cons]
    cases (catalog.definition? id.index).bind Definition.parent with
    | none => rfl
    | some parent => simp [chain, hfile]

theorem Sound.modelOf_of_parent? {parent : DefinitionId} (hparent : env.parent? id = some parent) :
    env.modelOf id = env.modelOf parent := by
  rw [modelOf, modelOf, h.chain_eq id, hparent, Option.map_some, Option.getD_some,
    h.chain_eq parent]
  simp only [List.getLastD_eq_getLast?, List.getLast?_cons, Option.getD_some]

theorem Sound.modelOf_of_top (htop : env.parent? id = none) : env.modelOf id = id := by
  rw [modelOf, h.chain_eq, htop]
  rfl

theorem Sound.isReachable_of_parent? {parent : DefinitionId}
    (hparent : env.parent? id = some parent) : env.isReachable id = env.isReachable parent := by
  rw [isReachable, isReachable, h.modelOf_of_parent? hparent]

theorem Sound.isReachable_of_mem_chain {scope : DefinitionId} (hscope : scope ∈ env.chain id) :
    env.isReachable scope = env.isReachable id := by
  obtain ⟨file, index⟩ := id
  induction index using Nat.strongRecOn with
  | ind index ih =>
    rw [h.chain_eq] at hscope
    rcases List.mem_cons.mp hscope with rfl | hscope
    · rfl
    · cases hparent : env.parent? ⟨file, index⟩ with
      | none => simp [hparent] at hscope
      | some parent =>
        rw [hparent, Option.map_some, Option.getD_some] at hscope
        obtain ⟨above, -, rfl⟩ := Option.map_eq_some_iff.mp hparent
        rw [h.isReachable_of_parent? hparent]
        exact ih above (h.parent_lt hparent) hscope

theorem Sound.reaches_of_model? {name : String} (hmodel : env.model? name = some id) :
    env.Reaches name id := by
  obtain ⟨definition, hfound, hparent, rfl⟩ := h.model hmodel
  have htop : env.parent? id = none := by simp [parent?, hfound, hparent]
  refine ⟨⟨definition, hfound, definition.name_mem_names⟩, ?_⟩
  rw [isReachable, h.modelOf_of_top htop, nameOf, hfound]
  exact beq_iff_eq.mpr hmodel

end Up

section Down

variable {env : Environment} (h : env.Sound) {source target : DefinitionId} {name : String}

include h

theorem Sound.holds_of_child? {scope : DefinitionId}
    (hchild : env.child? scope name = some target) :
    ∃ below, env.definition? target = some below ∧ name ∈ below.names ∧
      env.parent? target = some scope := by
  obtain ⟨child, hcontent, rfl⟩ := Option.map_eq_some_iff.mp hchild
  obtain ⟨definition, hfound, hname⟩ := Option.bind_eq_some_iff.mp hcontent
  obtain ⟨catalog, hfile, hdefinition⟩ := Option.bind_eq_some_iff.mp hfound
  obtain ⟨below, hbelow, hparent, hnames⟩ := (h.file hfile).content hdefinition hname
  have hhere : env.definition? ⟨scope.file, child⟩ = some below := by
    rw [definition?, hfile]
    exact hbelow
  refine ⟨below, hhere, hnames, ?_⟩
  rw [parent?, hhere, Option.bind_some, hparent]
  rfl

theorem Sound.parent?_of_child? {scope : DefinitionId}
    (hchild : env.child? scope name = some target) : env.parent? target = some scope := by
  obtain ⟨-, -, -, hup⟩ := h.holds_of_child? hchild
  exact hup

theorem Sound.reaches_of_child? {scope : DefinitionId} (hscope : env.isReachable scope = true)
    (hchild : env.child? scope name = some target) : env.Reaches name target := by
  obtain ⟨below, hhere, hnames, hup⟩ := h.holds_of_child? hchild
  exact ⟨⟨below, hhere, hnames⟩, (h.isReachable_of_parent? hup).trans hscope⟩

theorem Sound.reaches_of_element? {scope : DefinitionId} (hscope : env.isReachable scope = true)
    (helement : env.element? scope name = some target) : env.Reaches name target :=
  h.reaches_of_child? hscope (Option.filter_eq_some_iff.mp helement).1

theorem Sound.reaches_of_scopedElement? (hsource : env.isReachable source = true)
    (hfound : env.scopedElement? source name = some target) : env.Reaches name target := by
  obtain ⟨scope, hscope, helement⟩ := List.exists_of_findSome?_eq_some hfound
  refine h.reaches_of_element? ?_ helement
  rw [h.isReachable_of_mem_chain (List.mem_of_mem_tail hscope), hsource]

theorem Sound.reaches_of_openElement? (hfound : env.openElement? source name = some target) :
    env.Reaches name target := by
  obtain ⟨model, hmodel, helement⟩ := List.exists_of_findSome?_eq_some hfound
  obtain ⟨⟨item, reference⟩, -, hnamed⟩ := List.mem_filterMap.mp hmodel
  obtain ⟨first, -, hknown⟩ := Option.bind_eq_some_iff.mp hnamed
  exact h.reaches_of_element? (h.reaches_of_model? hknown).2 helement

theorem Sound.reaches_of_predefinedElement? (hfound : env.predefinedElement? name = some target) :
    env.Reaches name target := by
  obtain ⟨model, hmodel, helement⟩ := Option.bind_eq_some_iff.mp hfound
  exact h.reaches_of_element? (h.reaches_of_model? (h.predefined model hmodel)).2 helement

/-- The order in which the places are looked through does not matter here. -/
theorem Sound.reaches_of_lookupFirst? {qualified : Bool} (hsource : env.isReachable source = true)
    (hfound : env.lookupFirst? source name qualified = some target) : env.Reaches name target := by
  rw [lookupFirst?, Option.or_eq_some_iff] at hfound
  rcases hfound with hscoped | ⟨-, hrest⟩
  · exact h.reaches_of_scopedElement? hsource hscoped
  cases qualified with
  | true =>
    rw [if_pos rfl, Option.or_eq_some_iff, Option.or_eq_some_iff] at hrest
    rcases hrest with hmodel | ⟨-, hopen | ⟨-, hpredefined⟩⟩
    · exact h.reaches_of_model? hmodel
    · exact h.reaches_of_openElement? hopen
    · exact h.reaches_of_predefinedElement? hpredefined
  | false =>
    rw [if_neg Bool.false_ne_true, Option.or_eq_some_iff, Option.or_eq_some_iff] at hrest
    rcases hrest with hopen | ⟨-, hpredefined | ⟨-, hmodel⟩⟩
    · exact h.reaches_of_openElement? hopen
    · exact h.reaches_of_predefinedElement? hpredefined
    · exact h.reaches_of_model? hmodel

theorem Sound.reaches_of_descend? {start : DefinitionId} {names : List String}
    (hstart : env.Reaches name start) (hfound : env.descend? start names = some target) :
    ∃ last, (name :: names).getLast? = some last ∧ env.Reaches last target := by
  induction names generalizing start name with
  | nil =>
    obtain rfl := Option.some.inj hfound
    exact ⟨name, rfl, hstart⟩
  | cons next rest ih =>
    rw [descend?, List.foldlM_cons] at hfound
    obtain ⟨child, hchild, hrest⟩ := Option.bind_eq_some_iff.mp hfound
    obtain ⟨last, hlast, hreaches⟩ := ih (h.reaches_of_child? hstart.2 hchild) hrest
    exact ⟨last, by rw [List.getLast?_cons_cons, hlast], hreaches⟩

theorem Sound.reaches_of_lookup? {path : List String} (hsource : env.isReachable source = true)
    (hfound : env.lookup? source path = some target) :
    ∃ last, path.getLast? = some last ∧ env.Reaches last target := by
  cases path with
  | nil => cases hfound
  | cons first rest =>
    obtain ⟨start, hstart, hdown⟩ := Option.bind_eq_some_iff.mp hfound
    exact h.reaches_of_descend? (h.reaches_of_lookupFirst? hsource hstart) hdown

/-- What a reference names has the last name of its path, and its model is known. -/
theorem Sound.reaches_of_named? {id : ReferenceId} {reference : Reference}
    (hsource : env.isReachable ⟨id.file, reference.source⟩ = true)
    (hfound : env.named? id reference = some target) :
    ∃ last, reference.path.getLast? = some last ∧ env.Reaches last target := by
  rw [named?.eq_def] at hfound
  split at hfound
  · next single _ hpath =>
    exact ⟨single, by rw [hpath]; rfl, h.reaches_of_model? hfound⟩
  · cases hfound
  · exact h.reaches_of_lookup? hsource hfound

end Down

end Environment

end Ili
