import Ili.Proofs.Catalog.Forest
import Ili.Proofs.Catalog.Meaning

/-!
# What is noted below a definition

A member of a model or a topic is noted in the same way wherever that happens: what it adds to a
draft is a block of definitions and references that point at each other and at the definition that
holds them. Only the numbers depend on where the block is put. So a member is noted once, below a
definition of its own, and what this gives is put wherever the member stands.
-/

namespace Ili

open scoped List

/-- Definitions and references noted below one definition. For this one stands the number 0, for
those of the block the numbers from 1 on. References are numbered from 0. -/
structure Block where
  definitions : List Definition
  references : List Reference

namespace Block

/-- What a number of the block stands for when the block is put below the definition with the number
`owner`, behind `size` definitions. -/
def place (owner size : Nat) : Nat → Nat
  | 0 => owner
  | index + 1 => size + index

def names (block : Block) : List String :=
  (block.definitions.filter fun definition => definition.parent == some 0).flatMap Definition.names

structure Closed (block : Block) : Prop where
  parent_le : ∀ definition ∈ block.definitions, ∀ parent ∈ definition.parent,
    parent ≤ block.definitions.length
  reference_lt : ∀ definition ∈ block.definitions, ∀ number ∈ definition.data.references,
    number < block.references.length
  source_le : ∀ reference ∈ block.references, reference.source ≤ block.definitions.length

end Block

namespace Draft

def put (draft : Draft) (owner : Nat) (block : Block) : Draft :=
  let number := Block.place owner draft.definitions.size
  { draft with
    definitions := draft.definitions ++ (block.definitions.map
      (Definition.renumber number (draft.references.size + ·))).toArray
    references := draft.references ++ (block.references.map (Reference.renumber number)).toArray }

def putAll (draft : Draft) (owner : Nat) (blocks : List Block) : Draft :=
  blocks.foldl (fun draft block => draft.put owner block) draft

def holder : Draft :=
  ⟨#[⟨"", none, default, default, .empty, .empty,
    .model ⟨none, none, none, none, none, [], none⟩⟩], #[], []⟩

def below (draft : Draft) : Block :=
  ⟨draft.definitions.toList.drop 1, draft.references.toList⟩

@[mk_iff]
structure Closed (draft : Draft) : Prop where
  parent_lt : ∀ definition ∈ draft.definitions.toList, ∀ parent ∈ definition.parent,
    parent < draft.definitions.size
  reference_lt : ∀ definition ∈ draft.definitions.toList,
    ∀ number ∈ definition.data.references, number < draft.references.size
  source_lt : ∀ reference ∈ draft.references.toList, reference.source < draft.definitions.size
  model_lt : ∀ model ∈ draft.models, model < draft.definitions.size

theorem closed_empty : Closed .empty := by
  refine ⟨?_, ?_, ?_, ?_⟩ <;> simp [empty]

theorem closed_holder : holder.Closed := by
  refine ⟨?_, ?_, ?_, ?_⟩ <;> simp [holder, DefinitionData.references]

theorem size_put (draft : Draft) (owner : Nat) (block : Block) :
    (draft.put owner block).definitions.size =
      draft.definitions.size + block.definitions.length := by
  simp [put]

theorem size_le_putAll (draft : Draft) (owner : Nat) (blocks : List Block) :
    draft.definitions.size ≤ (draft.putAll owner blocks).definitions.size := by
  induction blocks generalizing draft with
  | nil => exact le_rfl
  | cons block rest ih =>
    have hsize := size_put draft owner block
    exact (Nat.le_add_right ..).trans (hsize.ge.trans (ih (draft.put owner block)))

theorem size_references_put (draft : Draft) (owner : Nat) (block : Block) :
    (draft.put owner block).references.size =
      draft.references.size + block.references.length := by
  simp [put]

namespace Closed

variable {draft next : Draft}

theorem push (h : draft.Closed) {definition : Definition} {references : Array Reference}
    {models : List Nat} (hnew : AreNew references draft.definitions.size)
    (hheld : draft.Numbers references definition.data.references)
    (hparent : ∀ parent ∈ definition.parent, parent < draft.definitions.size)
    (hmodels : ∀ model ∈ models, model ∈ draft.models ∨ model = draft.definitions.size) :
    Closed ⟨draft.definitions.push definition, draft.references ++ references, models⟩ where
  parent_lt other hother parent hbelow := by
    rw [Array.size_push]
    rw [Array.toList_push, List.mem_append, List.mem_singleton] at hother
    rcases hother with hold | rfl
    · exact (h.parent_lt other hold parent hbelow).trans (Nat.lt_succ_self _)
    · exact (hparent parent hbelow).trans (Nat.lt_succ_self _)
  reference_lt other hother number hnumber := by
    rw [Array.size_append]
    rw [Array.toList_push, List.mem_append, List.mem_singleton] at hother
    rcases hother with hold | rfl
    · exact (h.reference_lt other hold number hnumber).trans_le (Nat.le_add_right ..)
    · exact (List.mem_range'_1.mp (hheld.subset hnumber)).2
  source_lt reference hreference := by
    rw [Array.size_push]
    rw [Array.toList_append, List.mem_append] at hreference
    rcases hreference with hold | hfresh
    · exact (h.source_lt reference hold).trans (Nat.lt_succ_self _)
    · rw [(hnew reference (Array.mem_toList_iff.mp hfresh)).1]
      exact Nat.lt_succ_self _
  model_lt model hmodel := by
    rw [Array.size_push]
    rcases hmodels model hmodel with hold | rfl
    · exact (h.model_lt model hold).trans (Nat.lt_succ_self _)
    · exact Nat.lt_succ_self _

theorem note (h : draft.Closed) {α : Type} {step : Drafting α} {data : α → DefinitionData}
    (hrefers : Drafting.Refers draft.definitions.size [] (fun a => (data a).references) step)
    (heading : Heading) {parent : Option Nat}
    (hparent : ∀ owner ∈ parent, owner < draft.definitions.size) :
    let noted := ((step >>= fun a => Drafting.define heading parent (data a)) draft).2
    noted.Closed ∧ noted.definitions.size = draft.definitions.size + 1 := by
  obtain ⟨references, hnew, hheld, hdraft⟩ := hrefers draft draft rfl draft.pending_self
  have hnoted : ((step >>= fun a => Drafting.define heading parent (data a)) draft).2 =
      (Drafting.define heading parent (data (step draft).1) (step draft).2).2 := rfl
  let definition : Definition := ⟨heading.name, parent, heading.span, heading.nameSpan,
    heading.metaAttributes, .empty, data (step draft).1⟩
  have hheld : draft.Numbers references definition.data.references := hheld
  dsimp only
  rw [hnoted, hdraft]
  exact ⟨h.push hnew hheld hparent fun model => .inl, Array.size_push ..⟩

theorem addModel (h : draft.Closed) {id : Nat} (hid : id < draft.definitions.size) :
    (Drafting.addModel id draft).2.Closed where
  parent_lt := h.parent_lt
  reference_lt := h.reference_lt
  source_lt := h.source_lt
  model_lt model hmodel := by
    rcases List.mem_append.mp hmodel with hold | hnew
    · exact h.model_lt model hold
    · obtain rfl := List.mem_singleton.mp hnew
      exact hid

theorem walk (h : draft.Closed) (hwalk : draft.Walk next) : next.Closed := by
  induction hwalk with
  | refl => exact h
  | tail _ hstep ih =>
    cases hstep with
    | member hnew hheld hparent howner hkind =>
      refine ih.push hnew hheld (fun parent hbelow => ?_) fun model hmodel => .inl hmodel
      obtain rfl := Option.some.inj (hparent.symm.trans hbelow)
      obtain ⟨held, hheld, -⟩ := howner
      exact (Array.getElem?_eq_some_iff.mp hheld).1
    | model hnew hheld hparent hkind =>
      refine ih.push hnew hheld (fun parent hbelow => ?_) fun model hmodel => ?_
      · rw [hparent] at hbelow
        cases hbelow
      · exact (List.mem_append.mp hmodel).imp_right List.mem_singleton.mp

theorem below (h : draft.Closed) (hsize : 0 < draft.definitions.size) : draft.below.Closed := by
  have hlength : draft.below.definitions.length + 1 = draft.definitions.size := by
    simp only [Draft.below, List.length_drop, Array.length_toList]
    omega
  refine ⟨fun definition hdefinition parent hparent => ?_, fun definition hdefinition => ?_,
    fun reference hreference => ?_⟩
  · have := h.parent_lt definition (List.mem_of_mem_drop hdefinition) parent hparent
    omega
  · exact h.reference_lt definition (List.mem_of_mem_drop hdefinition)
  · have := h.source_lt reference hreference
    omega

theorem put (h : draft.Closed) {owner : Nat} (howner : owner < draft.definitions.size)
    {block : Block} (hblock : block.Closed) : (draft.put owner block).Closed := by
  have hplace {index : Nat} (hle : index ≤ block.definitions.length) :
      Block.place owner draft.definitions.size index <
        draft.definitions.size + block.definitions.length := by
    cases index <;> simp only [Block.place] <;> omega
  have hmem {definition : Definition}
      (hdefinition : definition ∈ (draft.put owner block).definitions.toList) :
      definition ∈ draft.definitions.toList ∨ ∃ original ∈ block.definitions,
        original.renumber (Block.place owner draft.definitions.size)
          (draft.references.size + ·) = definition := by
    simpa only [Draft.put, Array.toList_append, List.mem_append, List.mem_map] using hdefinition
  refine ⟨fun definition hdefinition parent hparent => ?_,
    fun definition hdefinition number hnumber => ?_, fun reference hreference => ?_,
    fun model hmodel => ?_⟩
  · rw [size_put]
    rcases hmem hdefinition with hold | ⟨original, horiginal, rfl⟩
    · exact (h.parent_lt definition hold parent hparent).trans_le (Nat.le_add_right ..)
    · obtain ⟨index, hindex, rfl⟩ := Option.map_eq_some_iff.mp hparent
      exact hplace (hblock.parent_le original horiginal index hindex)
  · rw [size_references_put]
    rcases hmem hdefinition with hold | ⟨original, horiginal, rfl⟩
    · exact (h.reference_lt definition hold number hnumber).trans_le (Nat.le_add_right ..)
    · rw [Definition.renumber, DefinitionData.references_renumber] at hnumber
      obtain ⟨index, hindex, rfl⟩ := List.mem_map.mp hnumber
      have := hblock.reference_lt original horiginal index hindex
      omega
  · rw [size_put]
    simp only [Draft.put, Array.toList_append, List.mem_append, List.mem_map] at hreference
    rcases hreference with hold | ⟨original, horiginal, rfl⟩
    · exact (h.source_lt reference hold).trans_le (Nat.le_add_right ..)
    · exact hplace (hblock.source_le original horiginal)
  · rw [size_put]
    exact (h.model_lt model hmodel).trans_le (Nat.le_add_right ..)

theorem putAll (h : draft.Closed) {owner : Nat} (howner : owner < draft.definitions.size)
    {blocks : List Block} (hblocks : ∀ block ∈ blocks, block.Closed) :
    (draft.putAll owner blocks).Closed := by
  induction blocks generalizing draft with
  | nil => exact h
  | cons block rest ih =>
    have hlt : owner < (draft.put owner block).definitions.size := by
      rw [size_put]
      omega
    exact ih (h.put howner (hblocks block List.mem_cons_self)) hlt fun other hother =>
      hblocks other (List.mem_cons_of_mem _ hother)

end Closed

end Draft

/-! ### Blocks as they are seen -/

section Seen

variable {view : View}

theorem DefinitionData.references_seen (data : DefinitionData) :
    (data.seen view).references = data.references := by
  have htype (type : TypeDef) : (type.seen view).references = type.references := by
    cases type <;> rfl
  cases data <;> simp only [seen, references, htype]

theorem Draft.closed_seen_iff {draft : Draft} : (draft.seen view).Closed ↔ draft.Closed := by
  simp [closed_iff, Draft.seen, Definition.seen, Reference.stripped,
    DefinitionData.references_seen]

theorem Draft.seen_push (draft : Draft) (definition : Definition) :
    Draft.seen view { draft with definitions := draft.definitions.push definition } =
      { draft.seen view with
        definitions := (draft.seen view).definitions.push (definition.seen view) } := by
  simp only [Draft.seen, Array.map_push]

theorem Draft.seen_push_reference (draft : Draft) (reference : Reference) :
    Draft.seen view { draft with references := draft.references.push reference } =
      { draft.seen view with
        references := (draft.seen view).references.push reference.stripped } := by
  simp only [Draft.seen, Array.map_push]

theorem Draft.size_seen (view : View) (draft : Draft) :
    (draft.seen view).definitions.size = draft.definitions.size :=
  Array.size_map

theorem Draft.size_references_seen (view : View) (draft : Draft) :
    (draft.seen view).references.size = draft.references.size :=
  Array.size_map

end Seen

section Putting

variable (start draft : Draft) (owner : Nat)

theorem Draft.put_below_push (definition : Definition) (hsize : 0 < draft.definitions.size) :
    start.put owner (below { draft with definitions := draft.definitions.push definition }) =
      { start.put owner draft.below with
        definitions := (start.put owner draft.below).definitions.push
          (definition.renumber (Block.place owner start.definitions.size)
            (start.references.size + ·)) } := by
  have hdrop : (draft.definitions.push definition).toList.drop 1 =
      draft.definitions.toList.drop 1 ++ [definition] := by
    rw [Array.toList_push, List.drop_append_of_le_length hsize]
  simp only [put, below, hdrop, List.map_append, List.map_cons, List.map_nil]
  simp

theorem Draft.put_below_push_reference (reference : Reference) :
    start.put owner (below { draft with references := draft.references.push reference }) =
      { start.put owner draft.below with
        references := (start.put owner draft.below).references.push
          (reference.renumber (Block.place owner start.definitions.size)) } := by
  simp [put, below]

theorem Draft.size_put_below (hsize : 0 < draft.definitions.size) :
    (start.put owner draft.below).definitions.size =
      Block.place owner start.definitions.size draft.definitions.size := by
  obtain ⟨size, hsucc⟩ := Nat.exists_eq_succ_of_ne_zero hsize.ne'
  rw [size_put, hsucc]
  simp [below, Block.place, hsucc]

end Putting

/-- What is noted in the second draft is the block that is noted in the first one. -/
def Congruence.putting (view : View) (start : Draft) (owner : Nat) : Congruence view where
  rel draft other := 0 < draft.definitions.size ∧
    other.seen view = (start.seen view).put owner (draft.seen view).below
  definition := Block.place owner start.definitions.size
  reference := (start.references.size + ·)
  definitions_size := by
    rintro draft other ⟨hsize, hseen⟩
    rw [← Draft.size_seen view draft] at hsize ⊢
    rw [← Draft.size_seen view other, hseen, Draft.size_put_below _ _ _ hsize, Draft.size_seen]
  references_size := by
    rintro draft other ⟨hsize, hseen⟩
    rw [← Draft.size_references_seen view other, hseen, Draft.size_references_put,
      Draft.size_references_seen]
    exact congrArg (_ + ·) (Draft.size_references_seen view draft)
  define := by
    rintro draft draft' ⟨hsize, hseen⟩ heading other data data' parent hheading hdata -
    refine ⟨(Array.size_push ..).symm ▸ Nat.succ_pos _, ?_⟩
    simp only [Heading.seen, Heading.mk.injEq] at hheading
    simp only [Drafting.define, Draft.seen_push]
    rw [Draft.put_below_push _ _ _ _ (by rwa [Draft.size_seen]), hseen, Draft.size_seen,
      Draft.size_references_seen]
    simp only [Definition.seen, Definition.renumber, hheading, hdata, Option.map_some]
  addReference := by
    rintro draft draft' ⟨hsize, hseen⟩ first other hreference
    refine ⟨hsize, ?_⟩
    simp only [Drafting.addReference, Draft.seen_push_reference]
    rw [Draft.put_below_push_reference, hseen, Draft.size_seen, hreference]

/-! ### What a step notes -/

namespace Drafting

variable {view : View}

def block (view : View) (note : Nat → Drafting Unit) : Block :=
  ((note 0 Draft.holder).2.seen view).below

/-- Wherever the step is taken, it puts this block. -/
theorem seen_eq_put_block (note : Nat → Drafting Unit) {step : Drafting Unit} {start : Draft}
    {owner : Nat} (h : Alike (.putting view start owner) Eq (note 0) step) :
    (step start).2.seen view = (start.seen view).put owner (block view note) := by
  have hstart : (Congruence.putting view start owner).rel Draft.holder start := by
    refine ⟨Nat.one_pos, ?_⟩
    simp [Draft.put, Draft.below, Draft.holder, Draft.seen]
  exact (h _ _ hstart).2.2

theorem block_congr {note other : Nat → Drafting Unit}
    (h : Alike (.saying view) Eq (note 0) (other 0)) : block view note = block view other :=
  congrArg Draft.below (h Draft.holder Draft.holder rfl).2

theorem owns_holder : Draft.holder.Owns 0 .model :=
  ⟨_, rfl, rfl⟩

theorem closed_block {note : Nat → Drafting Unit} (h : Walks 0 .model (note 0)) :
    (block view note).Closed := by
  have hwalk := h Draft.holder owns_holder
  obtain ⟨definition, hfirst, -⟩ := owns_holder.walk hwalk
  refine (Draft.closed_seen_iff.mpr (Draft.closed_holder.walk hwalk)).below ?_
  rw [Draft.size_seen]
  exact (Array.getElem?_eq_some_iff.mp hfirst).1

theorem seen_forM_eq_putAll {α : Type} (note : α → Nat → Drafting Unit) {row : List α} {owner : Nat}
    (h : ∀ a ∈ row, ∀ start : Draft,
      Alike (.putting view start owner) Eq (note a 0) (note a owner)) (start : Draft) :
    (row.forM (fun a => note a owner) start).2.seen view =
      (start.seen view).putAll owner (row.map fun a => block view (note a)) := by
  induction row generalizing start with
  | nil => rfl
  | cons first rest ih =>
    rw [List.forM_eq_forM] at ih ⊢
    rw [List.forM_cons, List.map_cons, Draft.putAll, List.foldl_cons,
      ← seen_eq_put_block (note first) (h first List.mem_cons_self start)]
    exact ih (fun a ha => h a (List.mem_cons_of_mem _ ha)) (note first owner start).2

end Drafting

end Ili
