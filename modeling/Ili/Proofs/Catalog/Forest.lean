import Ili.Proofs.Catalog.Growth
import Ili.Proofs.Dict

/-!
# A catalog is a forest

In the catalog of a text a definition stands below an older one, or it stands below none. The models
are of the second sort, and what is found by name below a definition stands below it and has that
name. So going up from a definition ends, and all that is passed on the way has the same model.
-/

namespace Ili

namespace Draft

structure Rooted (draft : Draft) : Prop where
  parent_lt : ∀ {index parent : Nat} {definition : Definition},
    draft.definitions[index]? = some definition → definition.parent = some parent → parent < index
  models : ∀ model ∈ draft.models, ∃ definition,
    draft.definitions[model]? = some definition ∧ definition.parent = none
  unbound : ∀ reference ∈ draft.references, reference.state = .unbound

theorem rooted_empty : Rooted .empty where
  parent_lt h := by simp [empty] at h
  models _ h := by cases h
  unbound _ h := by simp [empty] at h

theorem rooted_push {draft : Draft} (h : draft.Rooted) {definition : Definition}
    {references : Array Reference} {models : List Nat}
    (hnew : AreNew references draft.definitions.size)
    (hparent : ∀ parent, definition.parent = some parent → parent < draft.definitions.size)
    (hmodels : ∀ model ∈ models,
      model ∈ draft.models ∨ model = draft.definitions.size ∧ definition.parent = none) :
    Rooted ⟨draft.definitions.push definition, draft.references ++ references, models⟩ where
  parent_lt {index parent other} hother hbelow := by
    rw [Array.getElem?_push] at hother
    split at hother
    · next hlast =>
      obtain rfl := Option.some.inj hother
      exact hlast ▸ hparent parent hbelow
    · exact h.parent_lt hother hbelow
  models model hmodel := by
    rcases hmodels model hmodel with hold | ⟨rfl, hnone⟩
    · obtain ⟨held, hheld, hnone⟩ := h.models model hold
      have hlt : model < draft.definitions.size := (Array.getElem?_eq_some_iff.mp hheld).1
      exact ⟨held, by rw [Array.getElem?_push, if_neg (Nat.ne_of_lt hlt), hheld], hnone⟩
    · exact ⟨definition, Array.getElem?_push_size, hnone⟩
  unbound reference hreference := by
    rcases Array.mem_append.mp hreference with hold | hfresh
    · exact h.unbound reference hold
    · exact (hnew reference hfresh).2

theorem Rooted.walk {draft next : Draft} (h : draft.Rooted) (hwalk : draft.Walk next) :
    next.Rooted := by
  induction hwalk with
  | refl => exact h
  | tail _ hstep ih =>
    cases hstep with
    | member hnew hheld hparent howner hkind =>
      refine rooted_push ih hnew (fun parent hbelow => ?_) fun model hmodel => .inl hmodel
      obtain rfl := Option.some.inj (hparent.symm.trans hbelow)
      obtain ⟨held, hheld, -⟩ := howner
      exact (Array.getElem?_eq_some_iff.mp hheld).1
    | model hnew hheld hparent hkind =>
      refine rooted_push ih hnew (fun parent hbelow => ?_) fun model hmodel => ?_
      · rw [hparent] at hbelow
        cases hbelow
      · exact (List.mem_append.mp hmodel).imp_right fun hlast =>
          ⟨List.mem_singleton.mp hlast, hparent⟩

theorem owns_models {draft next : Draft} (h : ∀ model ∈ draft.models, draft.Owns model .model)
    (hwalk : draft.Walk next) : ∀ model ∈ next.models, next.Owns model .model := by
  induction hwalk with
  | refl => exact h
  | tail _ hstep ih =>
    cases hstep with
    | member => exact fun model hmodel => (ih model hmodel).push ..
    | model hnew hheld hparent hkind =>
      intro model hmodel
      rcases List.mem_append.mp hmodel with hold | hlast
      · exact (ih model hold).push ..
      · obtain rfl := List.mem_singleton.mp hlast
        exact ⟨_, Array.getElem?_push_size, hkind⟩

end Draft

namespace Catalog

theorem walk_forM_defineModel (file : FileContext) (draft : Draft) (models : List Site) :
    draft.Walk (models.forM (defineModel file) draft).2 := by
  induction models generalizing draft with
  | nil => exact .refl
  | cons first rest ih =>
    rw [List.forM_eq_forM] at ih ⊢
    rw [List.forM_cons]
    exact (walk_defineModel draft first).trans (ih _)

/-- Definitions stand below older ones, models below none, and content is what stands below. -/
structure Rooted (catalog : Catalog) : Prop where
  parent_lt : ∀ {index parent : Nat} {definition : Definition},
    catalog.definition? index = some definition → definition.parent = some parent → parent < index
  models : ∀ model ∈ catalog.models, ∃ definition,
    catalog.definition? model = some definition ∧ definition.parent = none
  content : ∀ {index child : Nat} {definition : Definition} {name : String},
    catalog.definition? index = some definition → definition.content.get? name = some child →
    ∃ below, catalog.definition? child = some below ∧ below.parent = some index ∧
      name ∈ below.names

theorem mem_contentOf_pairs {definitions : List Definition} {parent id : Nat} {name : String} :
    (name, id) ∈ (definitions.zipIdx.flatMap fun (definition, id) =>
      if definition.parent = some parent then definition.names.map fun name => (name, id)
      else []) ↔
      ∃ below, definitions[id]? = some below ∧ below.parent = some parent ∧ name ∈ below.names := by
  rw [List.mem_flatMap]
  constructor
  · rintro ⟨⟨below, number⟩, hbelow, hpair⟩
    dsimp only at hpair
    split at hpair
    · next hparent =>
      obtain ⟨other, hother, heq⟩ := List.mem_map.mp hpair
      obtain ⟨rfl, rfl⟩ := Prod.mk.inj heq
      exact ⟨below, List.mem_zipIdx_iff_getElem?.mp hbelow, hparent, hother⟩
    · cases hpair
  · rintro ⟨below, hbelow, hparent, hname⟩
    refine ⟨(below, id), List.mem_zipIdx_iff_getElem?.mpr hbelow, ?_⟩
    dsimp only
    rw [if_pos hparent]
    exact List.mem_map_of_mem hname

theorem mem_of_get?_contentOf {definitions : List Definition} {parent child : Nat} {name : String}
    (h : (contentOf definitions parent).get? name = some child) :
    ∃ below, definitions[child]? = some below ∧ below.parent = some parent ∧
      name ∈ below.names :=
  mem_contentOf_pairs.mp (Dict.mem_of_get?_ofList h)

theorem definition?_ofTree (text : String) (tree : Tree) (uri : Option String) (index : Nat) :
    let root := Site.root tree
    let draft : Draft :=
      (root.models.forM (defineModel ⟨.ofText text, uri, root.schemaVersion?⟩) .empty).2
    (ofTree text tree uri).definition? index = draft.definitions[index]?.map fun definition =>
      { definition with content := contentOf draft.definitions.toList index } :=
  Array.getElem?_mapIdx

theorem rooted_ofTree (text : String) (tree : Tree) (uri : Option String) :
    (ofTree text tree uri).Rooted ∧
      ∀ reference ∈ (ofTree text tree uri).references, reference.state = .unbound := by
  let root := Site.root tree
  let file : FileContext := ⟨.ofText text, uri, root.schemaVersion?⟩
  let draft : Draft := (root.models.forM (defineModel file) .empty).2
  have hdraft : draft.Rooted :=
    Draft.rooted_empty.walk (walk_forM_defineModel file .empty root.models)
  have hdefinition (index : Nat) : (ofTree text tree uri).definition? index =
      draft.definitions[index]?.map fun definition =>
        { definition with content := contentOf draft.definitions.toList index } :=
    definition?_ofTree text tree uri index
  refine ⟨⟨?_, ?_, ?_⟩, hdraft.unbound⟩
  · intro index parent definition hfound hparent
    rw [hdefinition, Option.map_eq_some_iff] at hfound
    obtain ⟨original, horiginal, rfl⟩ := hfound
    exact hdraft.parent_lt horiginal hparent
  · intro model hmodel
    obtain ⟨definition, hfound, hnone⟩ := hdraft.models model hmodel
    have hhere := hdefinition model
    rw [hfound, Option.map_some] at hhere
    exact ⟨_, hhere, hnone⟩
  · intro index child definition name hfound hname
    rw [hdefinition, Option.map_eq_some_iff] at hfound
    obtain ⟨original, -, rfl⟩ := hfound
    obtain ⟨below, hbelow, hparent, hnames⟩ := mem_of_get?_contentOf hname
    have hhere := hdefinition child
    rw [← Array.getElem?_toList, hbelow, Option.map_some] at hhere
    exact ⟨_, hhere, hparent, hnames⟩

theorem rooted_ofText (text : String) (uri : Option String) : (ofText text uri).Rooted :=
  (rooted_ofTree text (parse text).tree uri).1

theorem unbound_ofText (text : String) (uri : Option String) :
    ∀ reference ∈ (ofText text uri).references, reference.state = .unbound :=
  (rooted_ofTree text (parse text).tree uri).2

theorem kind_of_mem_models (text : String) (tree : Tree) (uri : Option String) :
    ∀ model ∈ (ofTree text tree uri).models, ∃ definition,
      (ofTree text tree uri).definition? model = some definition ∧ definition.kind = .model := by
  let root := Site.root tree
  let file : FileContext := ⟨.ofText text, uri, root.schemaVersion?⟩
  let draft : Draft := (root.models.forM (defineModel file) .empty).2
  have hmodels : ∀ model ∈ draft.models, draft.Owns model .model :=
    Draft.owns_models (by simp [Draft.empty]) (walk_forM_defineModel file .empty root.models)
  intro model hmodel
  obtain ⟨definition, hfound, hkind⟩ := hmodels model hmodel
  have hdefinition : (ofTree text tree uri).definition? model =
      draft.definitions[model]?.map fun definition =>
        { definition with content := contentOf draft.definitions.toList model } :=
    definition?_ofTree text tree uri model
  rw [hfound, Option.map_some] at hdefinition
  exact ⟨_, hdefinition, hkind⟩

theorem chain_congr {catalog other : Catalog}
    (h : ∀ index, (catalog.definition? index).bind Definition.parent =
      (other.definition? index).bind Definition.parent) (index : Nat) :
    catalog.chain index = other.chain index := by
  have hupTo (index bound : Nat) :
      catalog.chainUpTo index bound = other.chainUpTo index bound := by
    induction bound generalizing index with
    | zero => rfl
    | succ bound ih => simp only [chainUpTo, h, ih]
  exact hupTo index (index + 1)

/-- The bound on the length of a chain is never reached. -/
theorem Rooted.chainUpTo_eq {catalog : Catalog} (h : catalog.Rooted) {index bound : Nat}
    (hlt : index < bound) : catalog.chainUpTo index bound = catalog.chain index := by
  induction index using Nat.strongRecOn generalizing bound with
  | ind index ih =>
    obtain ⟨bound, rfl⟩ := Nat.exists_eq_succ_of_ne_zero (Nat.ne_zero_of_lt hlt)
    rw [chain, chainUpTo, chainUpTo]
    cases hparent : (catalog.definition? index).bind Definition.parent with
    | none => rfl
    | some parent =>
      obtain ⟨definition, hfound, habove⟩ := Option.bind_eq_some_iff.mp hparent
      have hparentLt := h.parent_lt hfound habove
      exact congrArg (List.cons index)
        ((ih parent hparentLt (by omega)).trans (ih parent hparentLt hparentLt).symm)

theorem Rooted.chain_eq {catalog : Catalog} (h : catalog.Rooted) (index : Nat) :
    catalog.chain index =
      index ::
        match (catalog.definition? index).bind Definition.parent with
        | none => []
        | some parent => catalog.chain parent := by
  rw [chain, chainUpTo]
  cases hparent : (catalog.definition? index).bind Definition.parent with
  | none => rfl
  | some parent =>
    obtain ⟨definition, hfound, habove⟩ := Option.bind_eq_some_iff.mp hparent
    exact congrArg (List.cons index) (h.chainUpTo_eq (h.parent_lt hfound habove))

theorem Rooted.chain_of_parent {catalog : Catalog} (h : catalog.Rooted) {index parent : Nat}
    {definition : Definition} (hfound : catalog.definition? index = some definition)
    (hparent : definition.parent = some parent) :
    catalog.chain index = index :: catalog.chain parent := by
  rw [h.chain_eq, hfound, Option.bind_some, hparent]

theorem Rooted.le_of_mem_chain {catalog : Catalog} (h : catalog.Rooted) {index above : Nat}
    (habove : above ∈ catalog.chain index) : above ≤ index := by
  induction index using Nat.strongRecOn with
  | ind index ih =>
    rw [h.chain_eq] at habove
    rcases List.mem_cons.mp habove with rfl | habove
    · exact Nat.le_refl _
    · cases hparent : (catalog.definition? index).bind Definition.parent with
      | none =>
        rw [hparent] at habove
        cases habove
      | some parent =>
        rw [hparent] at habove
        obtain ⟨definition, hfound, hup⟩ := Option.bind_eq_some_iff.mp hparent
        have hlt : parent < index := h.parent_lt hfound hup
        exact Nat.le_trans (ih parent hlt habove) (Nat.le_of_lt hlt)

end Catalog

end Ili
