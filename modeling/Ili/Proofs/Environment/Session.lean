import Ili.Environment.Resolve
import Ili.Proofs.Environment.Reach
import Ili.Proofs.Environment.Refusals

/-!
# Environments of a session

An environment comes from the predefined model by adding files and by resolving. All that is done to
it adds catalogs of texts, which are forests, and enters models under their names, so every
environment of a session is sound.
-/

namespace Ili

namespace Environment

theorem Extends.definition? {env larger : Environment} (h : env.Extends larger) {id : DefinitionId}
    {definition : Definition} (hfound : env.definition? id = some definition) :
    larger.definition? id = some definition := by
  obtain ⟨catalog, hfile, hdefinition⟩ := Option.bind_eq_some_iff.mp hfound
  rw [Environment.definition?, h.file? hfile]
  exact hdefinition

theorem file?_append (env : Environment) (catalog : Catalog) (index : Nat) :
    (env.append catalog).file? index =
      if index = env.files.size then some catalog else env.file? index :=
  Array.getElem?_push

theorem model_of_append {env : Environment} {catalog : Catalog} (hcatalog : catalog.Rooted)
    {name : String} {id : DefinitionId} (hnew : (env.append catalog).model? name = some id)
    (hfree : env.model? name = none) :
    ∃ definition, (env.append catalog).definition? id = some definition ∧
      definition.parent = none ∧ definition.name = name := by
  rw [model?_append, hfree, Option.none_or] at hnew
  obtain ⟨model, hmodel, rfl⟩ := Option.map_eq_some_iff.mp hnew
  obtain ⟨definition, hfound, hparent⟩ := hcatalog.models model (List.mem_of_find?_eq_some hmodel)
  refine ⟨definition, ?_, hparent, ?_⟩
  · rw [definition?, file?_append, if_pos rfl]
    exact hfound
  · have hname := List.find?_some hmodel
    rw [Catalog.nameOf, hfound] at hname
    exact beq_iff_eq.mp hname

theorem sound_first {version : Option String} {catalog : Catalog} (hcatalog : catalog.Rooted) :
    (append ⟨version, #[], .empty⟩ catalog).Sound where
  first := Nat.one_pos
  file {index _} hfile := by
    rw [file?_append] at hfile
    split at hfile
    · exact Option.some.inj hfile ▸ hcatalog
    · simp [file?] at hfile
  model hmodel := model_of_append hcatalog hmodel rfl
  predefined id hid := by
    obtain ⟨model, hmodel, rfl⟩ := Option.map_eq_some_iff.mp hid
    obtain ⟨rest, hmodels⟩ : ∃ rest, catalog.models = model :: rest :=
      List.head?_eq_some_iff.mp hmodel
    have hname : (append ⟨version, #[], .empty⟩ catalog).nameOf ⟨0, model⟩ = catalog.nameOf model :=
      rfl
    rw [hname, model?_append, hmodels, List.find?_cons_of_pos (by simp)]
    rfl

theorem sound_initial : initial.Sound :=
  sound_first (Catalog.rooted_ofText predefinedText none)

theorem Sound.append {env : Environment} (h : env.Sound) {catalog : Catalog}
    (hcatalog : catalog.Rooted) : (env.append catalog).Sound where
  first := (Array.size_push ..).symm ▸ Nat.succ_pos _
  file {index _} hfile := by
    rw [file?_append] at hfile
    split at hfile
    · exact Option.some.inj hfile ▸ hcatalog
    · exact h.file hfile
  model {name id} hmodel := by
    cases hold : env.model? name with
    | none => exact model_of_append hcatalog hmodel hold
    | some before =>
      obtain rfl := Option.some.inj (((extends_append env catalog).model? hold).symm.trans hmodel)
      obtain ⟨definition, hfound, hrest⟩ := h.model hold
      exact ⟨definition, (extends_append env catalog).definition? hfound, hrest⟩
  predefined id hid := by
    have hfile : (env.append catalog).file? 0 = env.file? 0 := by
      rw [file?_append, if_neg (Nat.ne_of_lt h.first)]
    rw [predefinedModel?, hfile] at hid
    have hknown := h.predefined id hid
    obtain ⟨model, -, rfl⟩ := Option.map_eq_some_iff.mp hid
    rw [nameOf, definition?, hfile]
    exact (extends_append env catalog).model? hknown

theorem Sound.merge {env : Environment} (h : env.Sound) {catalog : Catalog}
    (hcatalog : catalog.Rooted) : (env.merge catalog).1.Sound := by
  rw [Environment.merge]
  split
  · exact h
  · exact h.append hcatalog

theorem Sound.add {env : Environment} (h : env.Sound) {catalog : Catalog}
    (hcatalog : catalog.Rooted) : (env.add catalog).1.Sound := by
  rw [Environment.add]
  split
  · have hversion : Sound { env with version := catalog.schemaVersion } :=
      ⟨h.first, h.file, h.model, h.predefined⟩
    exact hversion.merge hcatalog
  · exact h.merge hcatalog

theorem eq_ofText_of_taken? {access : RepositoryAccess} {filter version : Option String}
    {name : String} {catalog : Catalog} (h : access.taken? filter version name = some catalog) :
    ∃ text uri, catalog = .ofText text uri := by
  obtain ⟨chosen, -, rfl⟩ := Option.map_eq_some_iff.mp (Option.filter_eq_some_iff.mp h).1
  exact ⟨_, _, rfl⟩

theorem Sound.answered {env : Environment} (h : env.Sound) (access : RepositoryAccess)
    (filter : Option String) (name : String) : (env.answered access filter name).Sound := by
  rw [Environment.answered]
  split
  · exact h
  · next catalog htaken =>
    obtain ⟨text, uri, rfl⟩ := eq_ofText_of_taken? htaken
    exact h.merge (Catalog.rooted_ofText text uri)

theorem Sound.foldl_answered {env : Environment} (h : env.Sound) (access : RepositoryAccess)
    (filter : Option String) (names : List String) :
    (names.foldl (Environment.answered access filter) env).Sound := by
  induction names generalizing env with
  | nil => exact h
  | cons name rest ih => exact ih (h.answered access filter name)

theorem Sound.closed {env : Environment} (h : env.Sound) (access : RepositoryAccess)
    (filter : Option String) : (Closure.run access filter env).env.Sound := by
  rw [(Closure.consistent_run access filter env).env_eq]
  exact h.foldl_answered access filter _

/-! ### Binding touches references only -/

section Bind

variable (env : Environment)

theorem file?_bind (index : Nat) :
    env.bind.file? index = (env.file? index).map fun catalog =>
      { catalog with
        references := catalog.references.mapIdx fun number reference =>
          env.boundReference ⟨index, number⟩ reference } :=
  Array.getElem?_mapIdx

theorem definition?_bind (id : DefinitionId) : env.bind.definition? id = env.definition? id := by
  rw [definition?, definition?, file?_bind, Option.bind_map]
  rfl

theorem chain_bind (id : DefinitionId) : env.bind.chain id = env.chain id := by
  have hchain (catalog : Catalog) (references : Array Reference) (index : Nat) :
      Catalog.chain { catalog with references } index = catalog.chain index := by
    apply Catalog.chain_congr
    intro index
    rfl
  rw [chain, chain, file?_bind]
  cases env.file? id.file with
  | none => rfl
  | some catalog => simp only [Option.map_some, hchain]

theorem isReachable_bind (id : DefinitionId) : env.bind.isReachable id = env.isReachable id := by
  simp only [isReachable, modelOf, chain_bind, nameOf, definition?_bind]
  rfl

end Bind

theorem Sound.bind {env : Environment} (h : env.Sound) : env.bind.Sound where
  first := by
    change 0 < (Array.mapIdx _ env.files).size
    rw [Array.size_mapIdx]
    exact h.first
  file hfile := by
    rw [file?_bind] at hfile
    obtain ⟨catalog, hcatalog, rfl⟩ := Option.map_eq_some_iff.mp hfile
    exact ⟨(h.file hcatalog).parent_lt, (h.file hcatalog).models, (h.file hcatalog).content⟩
  model hmodel := by
    obtain ⟨definition, hfound, hrest⟩ := h.model hmodel
    exact ⟨definition, by rw [definition?_bind, hfound], hrest⟩
  predefined id hid := by
    rw [nameOf, definition?_bind]
    refine h.predefined id ?_
    rw [← hid, predefinedModel?, predefinedModel?, file?_bind, Option.bind_map]
    rfl

/-- The environments that come about by adding files and by resolving. -/
inductive Session : Environment → Prop
  | initial : Session initial
  | add {env : Environment} (h : Session env) (text : String) (uri : Option String) :
      Session (env.add (.ofText text uri)).1
  | resolve {env : Environment} (h : Session env) (access : RepositoryAccess)
      (filter : Option String) : Session (env.resolve access filter).env

theorem env_resolve (env : Environment) (access : RepositoryAccess) (filter : Option String) :
    (env.resolve access filter).env = (Closure.run access (env.queryFilter filter) env).env ∨
      (env.resolve access filter).env =
        (Closure.run access (env.queryFilter filter) env).env.bind := by
  rw [resolve]
  dsimp only
  split
  · exact .inl rfl
  · exact .inr rfl

theorem Session.sound {env : Environment} (h : env.Session) : env.Sound := by
  induction h with
  | initial => exact sound_initial
  | add _ text uri ih => exact ih.add (Catalog.rooted_ofText text uri)
  | @resolve env _ access filter ih =>
    have hclosed := ih.closed access (env.queryFilter filter)
    rcases env_resolve env access filter with heq | heq
    · exact heq ▸ hclosed
    · exact heq ▸ hclosed.bind

end Environment

end Ili
