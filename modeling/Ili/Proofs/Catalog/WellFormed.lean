import Ili.Proofs.Catalog.Forest

/-!
# Catalogs are well formed

What can be relied on when numbers are followed through the catalog of a text: the parent of a
definition is an older one that may hold it, and only models have none; a name leads to the youngest
definition that has it; and what a definition refers to is a reference of its own, which nothing
else refers to.
-/

namespace Ili

open scoped List

namespace Draft

def mentioned (draft : Draft) : List Nat :=
  draft.definitions.toList.flatMap fun definition => definition.data.references

def Placed (draft : Draft) (index : Nat) (definition : Definition) : Prop :=
  match definition.parent with
  | none => definition.kind = .model
  | some parent => parent < index ∧ ∃ kind, draft.Owns parent kind ∧ kind.mayHold definition.kind

def HoldsItsOwn (draft : Draft) (index : Nat) (definition : Definition) : Prop :=
  ∀ number ∈ definition.data.references, ∃ reference,
    draft.references[number]? = some reference ∧ reference.source = index

structure WellFormed (draft : Draft) : Prop where
  placed : ∀ {index : Nat} {definition : Definition},
    draft.definitions[index]? = some definition → draft.Placed index definition
  own : ∀ {index : Nat} {definition : Definition},
    draft.definitions[index]? = some definition → draft.HoldsItsOwn index definition
  once : draft.mentioned <+~ List.range draft.references.size

theorem wellFormed_empty : WellFormed .empty where
  placed h := by simp [empty] at h
  own h := by simp [empty] at h
  once := List.nil_subperm

theorem WellFormed.push {draft : Draft} (h : draft.WellFormed) {definition : Definition}
    {references : Array Reference} (models : List Nat)
    (hnew : AreNew references draft.definitions.size)
    (hheld : draft.Numbers references definition.data.references)
    (hplaced : draft.Placed draft.definitions.size definition) :
    WellFormed ⟨draft.definitions.push definition, draft.references ++ references, models⟩ where
  placed {index other} hother := by
    have hkeep (hplaced : draft.Placed index other) :
        Placed ⟨draft.definitions.push definition, draft.references ++ references, models⟩
          index other := by
      unfold Placed at hplaced ⊢
      split at hplaced
      · exact hplaced
      · obtain ⟨hlt, kind, howner, hkind⟩ := hplaced
        exact ⟨hlt, kind, howner.push .., hkind⟩
    rw [Array.getElem?_push] at hother
    split at hother
    · next hlast =>
      obtain rfl := Option.some.inj hother
      exact hkeep (hlast ▸ hplaced)
    · exact hkeep (h.placed hother)
  own {index other} hother number hnumber := by
    rw [Array.getElem?_push] at hother
    split at hother
    · next hlast =>
      obtain rfl := Option.some.inj hother
      obtain ⟨hle, hlt⟩ := List.mem_range'_1.mp (hheld.subset hnumber)
      have hat : number - draft.references.size < references.size := by omega
      refine ⟨references[number - draft.references.size], ?_, ?_⟩
      · simp [Array.getElem?_append_right hle, hat]
      · exact (hnew _ (Array.getElem_mem hat)).1.trans hlast.symm
    · obtain ⟨reference, hreference, hsource⟩ := h.own hother number hnumber
      have hlt := (Array.getElem?_eq_some_iff.mp hreference).1
      exact ⟨reference, (Array.getElem?_append_left hlt).trans hreference, hsource⟩
  once := by
    have hrange : List.range (draft.references ++ references).size =
        List.range draft.references.size ++
          List.range' draft.references.size references.size := by
      have happend := List.range'_append_1 (s := 0) (m := draft.references.size)
        (n := references.size)
      rw [Nat.zero_add] at happend
      rw [Array.size_append, List.range_eq_range', List.range_eq_range', happend]
    have hmentioned : mentioned ⟨draft.definitions.push definition,
        draft.references ++ references, models⟩ =
          draft.mentioned ++ definition.data.references := by
      simp [mentioned]
    rw [hmentioned, hrange]
    exact ((List.subperm_append_right _).mpr h.once).trans ((List.subperm_append_left _).mpr hheld)

theorem WellFormed.walk {draft next : Draft} (h : draft.WellFormed) (hwalk : draft.Walk next) :
    next.WellFormed := by
  induction hwalk with
  | refl => exact h
  | tail _ hstep ih =>
    cases hstep with
    | member hnew hheld hparent howner hkind =>
      refine ih.push _ hnew hheld ?_
      obtain ⟨above, habove, -⟩ := id howner
      rw [Placed, hparent]
      exact ⟨(Array.getElem?_eq_some_iff.mp habove).1, _, howner, hkind⟩
    | model hnew hheld hparent hkind =>
      refine ih.push _ hnew hheld ?_
      rw [Placed, hparent]
      exact hkind

end Draft

namespace Catalog

/-- The definition with the number `child` stands directly below another one under a name. -/
def IsBelow (catalog : Catalog) (parent : Nat) (name : String) (child : Nat) : Prop :=
  ∃ below, catalog.definition? child = some below ∧ below.parent = some parent ∧ name ∈ below.names

structure WellFormed (catalog : Catalog) : Prop where
  parent_lt : ∀ {index parent : Nat} {definition : Definition},
    catalog.definition? index = some definition → definition.parent = some parent → parent < index
  parent_eq_none_iff : ∀ {index : Nat} {definition : Definition},
    catalog.definition? index = some definition →
    (definition.parent = none ↔ definition.kind = .model)
  parent_mayHold : ∀ {index parent : Nat} {definition : Definition},
    catalog.definition? index = some definition → definition.parent = some parent →
    ∃ above, catalog.definition? parent = some above ∧ above.kind.mayHold definition.kind
  chain_getLast? : ∀ {index : Nat} {definition : Definition},
    catalog.definition? index = some definition →
    ∃ top model, (catalog.chain index).getLast? = some top ∧
      catalog.definition? top = some model ∧ model.kind = .model
  content_iff : ∀ {index child : Nat} {definition : Definition} {name : String},
    catalog.definition? index = some definition →
    (definition.content.get? name = some child ↔
      IsGreatest {child | catalog.IsBelow index name child} child)
  own : ∀ {index number : Nat} {definition : Definition},
    catalog.definition? index = some definition → number ∈ definition.data.references →
    ∃ reference, catalog.references[number]? = some reference ∧ reference.source = index
  once : (catalog.definitions.toList.flatMap fun definition => definition.data.references).Nodup

theorem pairwise_contentOf_pairs (definitions : List Definition) (parent : Nat) :
    (definitions.zipIdx.flatMap fun (definition, id) =>
      if definition.parent = some parent then definition.names.map fun name => (name, id)
      else []).Pairwise fun first second => first.2 ≤ second.2 := by
  have hnumbers : definitions.zipIdx.Pairwise fun first second => first.2 < second.2 := by
    rw [← List.pairwise_map (f := Prod.snd), List.zipIdx_map_snd]
    exact List.pairwise_lt_range' ..
  have hsnd (entry : Definition × Nat) : ∀ pair ∈ (if entry.1.parent = some parent then
      entry.1.names.map fun name => (name, entry.2) else []), pair.2 = entry.2 := by
    intro pair hpair
    split at hpair
    · obtain ⟨other, -, rfl⟩ := List.mem_map.mp hpair
      rfl
    · cases hpair
  refine List.pairwise_flatMap.mpr ⟨fun entry _ => ?_, hnumbers.imp fun {first second} hlt => ?_⟩
  · refine List.pairwise_of_forall_mem_list fun pair hpair other hother => ?_
    exact ((hsnd entry pair hpair).trans (hsnd entry other hother).symm).le
  · intro pair hpair other hother
    rw [hsnd first pair hpair, hsnd second other hother]
    exact hlt.le

theorem get?_contentOf_iff {definitions : List Definition} {parent child : Nat} {name : String} :
    (contentOf definitions parent).get? name = some child ↔
      IsGreatest {id | ∃ below, definitions[id]? = some below ∧ below.parent = some parent ∧
        name ∈ below.names} child := by
  rw [contentOf, Dict.get?_ofList_iff (pairwise_contentOf_pairs definitions parent)]
  simp only [mem_contentOf_pairs]

/-- What is known of a draft carries over: only the content is entered afterwards. -/
theorem WellFormed.of_draft {catalog : Catalog} {draft : Draft} (h : draft.WellFormed)
    (hrooted : catalog.Rooted) (hreferences : catalog.references = draft.references)
    (hdefinitions : catalog.definitions = draft.definitions.mapIdx fun id definition =>
      { definition with content := contentOf draft.definitions.toList id }) :
    catalog.WellFormed := by
  have hdefinition (index : Nat) : catalog.definition? index =
      draft.definitions[index]?.map fun definition =>
        { definition with content := contentOf draft.definitions.toList index } := by
    rw [definition?, hdefinitions]
    exact Array.getElem?_mapIdx
  have hfind {index : Nat} {definition : Definition}
      (hfound : catalog.definition? index = some definition) :
      ∃ original, draft.definitions[index]? = some original ∧
        { original with content := contentOf draft.definitions.toList index } = definition := by
    rw [hdefinition, Option.map_eq_some_iff] at hfound
    exact hfound
  have hplaced {index : Nat} {definition : Definition}
      (hfound : catalog.definition? index = some definition) :
      draft.Placed index definition := by
    obtain ⟨original, horiginal, rfl⟩ := hfind hfound
    have hplace : draft.Placed index original := h.placed horiginal
    exact hplace
  have hnone {index : Nat} {definition : Definition}
      (hfound : catalog.definition? index = some definition) :
      definition.parent = none ↔ definition.kind = .model := by
    have hplace := hplaced hfound
    unfold Draft.Placed at hplace
    split at hplace
    · next hnone => simp [hnone, hplace]
    · next parent hparent =>
      obtain ⟨-, kind, -, hkind⟩ := hplace
      simp only [hparent, reduceCtorEq, false_iff]
      intro hmodel
      rw [hmodel] at hkind
      cases kind <;> cases hkind
  refine ⟨hrooted.parent_lt, hnone, ?_, ?_, ?_, ?_, ?_⟩
  · intro index parent definition hfound hparent
    have hplace := hplaced hfound
    rw [Draft.Placed, hparent] at hplace
    obtain ⟨-, _, ⟨above, habove, rfl⟩, hkind⟩ := hplace
    refine ⟨_, (hdefinition parent).trans (congrArg _ habove), hkind⟩
  · intro index definition hfound
    induction index using Nat.strongRecOn generalizing definition with
    | ind index ih =>
      rw [hrooted.chain_eq, hfound, Option.bind_some]
      cases hparent : definition.parent with
      | none => exact ⟨index, definition, rfl, hfound, (hnone hfound).mp hparent⟩
      | some parent =>
        have hplace := hplaced hfound
        rw [Draft.Placed, hparent] at hplace
        obtain ⟨hlt, _, ⟨above, habove, -⟩, -⟩ := hplace
        have hfoundAbove := (hdefinition parent).trans (congrArg _ habove)
        obtain ⟨top, model, htop, hmodel⟩ := ih parent hlt hfoundAbove
        refine ⟨top, model, ?_, hmodel⟩
        rw [List.getLast?_cons, htop]
        rfl
  · intro index child definition name hfound
    obtain ⟨original, -, rfl⟩ := hfind hfound
    refine get?_contentOf_iff.trans
      (iff_of_eq (congrArg (IsGreatest · child) (Set.ext fun id => ?_)))
    simp only [Set.mem_ofPred_eq, IsBelow, hdefinition, Option.map_eq_some_iff,
      Array.getElem?_toList]
    constructor
    · rintro ⟨below, hbelow, hparent, hname⟩
      exact ⟨_, ⟨below, hbelow, rfl⟩, hparent, hname⟩
    · rintro ⟨_, ⟨below, hbelow, rfl⟩, hparent, hname⟩
      exact ⟨below, hbelow, hparent, hname⟩
  · intro index number definition hfound hnumber
    obtain ⟨original, horiginal, rfl⟩ := hfind hfound
    rw [hreferences]
    exact h.own horiginal number hnumber
  · have hheld : catalog.definitions.toList.map (fun d => d.data.references) =
        draft.definitions.toList.map fun d => d.data.references := by
      rw [hdefinitions]
      exact List.ext_getElem? fun index => by simp [Function.comp_def]
    obtain ⟨numbers, hperm, hsublist⟩ := h.once
    rw [List.flatMap_def, hheld, ← List.flatMap_def]
    exact hperm.nodup_iff.mp (hsublist.nodup List.nodup_range)

theorem wellFormed_ofTree (text : String) (tree : Tree) (uri : Option String) :
    (ofTree text tree uri).WellFormed := by
  let root := Site.root tree
  let file : FileContext := ⟨.ofText text, uri, root.schemaVersion?⟩
  have hdraft := Draft.wellFormed_empty.walk (walk_forM_defineModel file .empty root.models)
  exact .of_draft hdraft (rooted_ofTree text tree uri).1 rfl rfl

/-- **Every text gives a well-formed catalog.** -/
theorem wellFormed_ofText (text : String) (uri : Option String) : (ofText text uri).WellFormed :=
  wellFormed_ofTree text (parse text).tree uri

end Catalog

end Ili
