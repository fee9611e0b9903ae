import Ili.Proofs.Catalog.Blocks
import Ili.Proofs.Catalog.Renumbering

/-!
# The order of blocks

Blocks below one definition may be put in any order: the drafts are the same but for the numbers of
the definitions and references in the blocks. Where two definitions share a name below the same one,
their order has to stay, since the later one is found. This is so within a block, and no two blocks
may have a name in common.
-/

namespace Ili

/-! ### Two rows change places -/

/-- The numbers behind the first `size` ones, with `second` of them in front of `first` ones. -/
def swapRows (size first second : Nat) : Equiv.Perm Nat where
  toFun index :=
    if index < size then index
    else if index < size + first then index + second
    else if index < size + first + second then index - first
    else index
  invFun index :=
    if index < size then index
    else if index < size + second then index + first
    else if index < size + second + first then index - second
    else index
  left_inv index := by
    dsimp only
    split_ifs <;> omega
  right_inv index := by
    dsimp only
    split_ifs <;> omega

theorem swapRows_apply (size first second index : Nat) :
    swapRows size first second index =
      if index < size then index
      else if index < size + first then index + second
      else if index < size + first + second then index - first
      else index :=
  rfl

theorem swapRows_of_lt {size first second index : Nat} (h : index < size) :
    swapRows size first second index = index :=
  if_pos h

theorem swapRows_of_le {size first second index : Nat} (h : size + first + second ≤ index) :
    swapRows size first second index = index := by
  rw [swapRows_apply, if_neg (by omega), if_neg (by omega), if_neg (by omega)]

theorem swapRows_first {size first second index : Nat} (h : index < first) :
    swapRows size first second (size + index) = size + second + index := by
  rw [swapRows_apply, if_neg (by omega), if_pos (by omega)]
  omega

theorem swapRows_second {size first second index : Nat} (h : index < second) :
    swapRows size first second (size + first + index) = size + index := by
  rw [swapRows_apply, if_neg (by omega), if_neg (by omega), if_pos (by omega)]
  omega

theorem getElem?_swapRows {α : Type} (front left right : List α) (index : Nat) :
    (front ++ right ++ left)[swapRows front.length left.length right.length index]? =
      (front ++ left ++ right)[index]? := by
  simp only [List.getElem?_append, List.length_append]
  by_cases hfront : index < front.length
  · rw [swapRows_of_lt hfront, if_pos (by omega), if_pos hfront, if_pos (by omega), if_pos hfront]
  · by_cases hleft : index < front.length + left.length
    · rw [swapRows_apply, if_neg hfront, if_pos hleft, if_neg (by omega), if_pos hleft,
        if_neg hfront]
      congr 1
      omega
    · by_cases hright : index < front.length + left.length + right.length
      · rw [swapRows_apply, if_neg hfront, if_neg hleft, if_pos hright, if_pos (by omega),
          if_neg (by omega), if_neg hleft]
        congr 1
        omega
      · rw [swapRows_of_le (by omega), if_neg (by omega), if_neg hleft,
          List.getElem?_eq_none (by omega), List.getElem?_eq_none (by omega)]

/-! ### Drafts under other numbers -/

theorem apply_lt_of_fixes {number : Equiv.Perm Nat} {size index : Nat}
    (hfixes : ∀ index, size ≤ index → number index = index) (h : index < size) :
    number index < size := by
  by_contra hle
  have hsame := number.injective (hfixes _ (Nat.not_lt.mp hle))
  omega

theorem Catalog.KeepsSiblings.append {number : Equiv.Perm Nat} {definitions : List Definition}
    (h : KeepsSiblings number definitions)
    (hfixes : ∀ index, definitions.length ≤ index → number index = index)
    (more : List Definition) : KeepsSiblings number (definitions ++ more) := by
  intro first second a b name hlt hfirst hsecond hparent hsame hname hname'
  by_cases hold : second < definitions.length
  · rw [List.getElem?_append_left hold] at hsecond
    rw [List.getElem?_append_left (hlt.trans hold)] at hfirst
    exact h hlt hfirst hsecond hparent hsame hname hname'
  · rw [hfixes second (Nat.not_lt.mp hold)]
    by_cases hfront : first < definitions.length
    · exact (apply_lt_of_fixes hfixes hfront).trans_le (Nat.not_lt.mp hold)
    · rwa [hfixes first (Nat.not_lt.mp hfront)]

namespace Draft

/-- The drafts hold the same under other numbers. What comes next has the same numbers in both. -/
structure Renumbered (number reference : Equiv.Perm Nat) (draft other : Draft) : Prop where
  size : other.definitions.size = draft.definitions.size
  size_references : other.references.size = draft.references.size
  definitions : ∀ index : Nat, other.definitions[number index]? =
    (draft.definitions[index]?).map (Definition.renumber number reference)
  references : ∀ index : Nat, other.references[reference index]? =
    (draft.references[index]?).map (Reference.renumber number)
  models : other.models = draft.models.map number
  keeps : Catalog.KeepsSiblings number draft.definitions.toList
  fixes : ∀ index, draft.definitions.size ≤ index → number index = index
  fixes_reference : ∀ index, draft.references.size ≤ index → reference index = index

namespace Renumbered

variable {number reference more more' : Equiv.Perm Nat} {draft other last : Draft}

theorem refl (draft : Draft) : draft.Renumbered (.refl Nat) (.refl Nat) draft where
  size := rfl
  size_references := rfl
  definitions index := by
    rw [Equiv.coe_refl, funext Definition.renumber_id]
    exact (Option.map_id_apply ..).symm
  references index := by
    change draft.references[index]? = (draft.references[index]?).map id
    exact (Option.map_id_apply ..).symm
  models := (List.map_id _).symm
  keeps _ _ _ _ _ hlt _ _ _ _ _ _ := hlt
  fixes _ _ := rfl
  fixes_reference _ _ := rfl

theorem trans (h : draft.Renumbered number reference other)
    (h' : other.Renumbered more more' last) :
    draft.Renumbered (number.trans more) (reference.trans more') last where
  size := h'.size.trans h.size
  size_references := h'.size_references.trans h.size_references
  definitions index := by
    have hlast := h'.definitions (number index)
    rw [h.definitions, Option.map_map] at hlast
    refine hlast.trans (congrArg (Option.map · _) (funext fun definition => ?_))
    exact definition.renumber_renumber
  references index := by
    have hlast := h'.references (reference index)
    rwa [h.references, Option.map_map] at hlast
  models := by
    rw [h'.models, h.models, List.map_map]
    rfl
  keeps first second a b name hlt hfirst hsecond hparent hsame hname hname' := by
    have hmiddle {index : Nat} {definition : Definition}
        (hfound : draft.definitions.toList[index]? = some definition) :
        other.definitions.toList[number index]? =
          some (definition.renumber number reference) := by
      rw [Array.getElem?_toList] at hfound ⊢
      rw [h.definitions, hfound, Option.map_some]
    have hnumber := h.keeps hlt hfirst hsecond hparent hsame hname hname'
    rw [← a.names_renumber] at hname
    rw [← b.names_renumber] at hname'
    refine h'.keeps hnumber (hmiddle hfirst) (hmiddle hsecond) ?_
      (congrArg (Option.map number) hsame) hname hname'
    rw [Definition.renumber, Option.isSome_map]
    exact hparent
  fixes index hindex := by
    rw [Equiv.trans_apply, h.fixes index hindex, h'.fixes index (h.size ▸ hindex)]
  fixes_reference index hindex := by
    rw [Equiv.trans_apply, h.fixes_reference index hindex,
      h'.fixes_reference index (h.size_references ▸ hindex)]

theorem put (h : draft.Renumbered number reference other) {owner : Nat}
    (howner : number owner = owner) (block : Block) :
    (draft.put owner block).Renumbered number reference (other.put owner block) := by
  -- Numbers in the block stand for its owner or for what comes next, so they are the same in both.
  have hplace : ⇑number ∘ Block.place owner draft.definitions.size =
      Block.place owner draft.definitions.size := by
    funext index
    cases index with
    | zero => exact howner
    | succ index => exact h.fixes _ (Nat.le_add_right ..)
  have hnumbers : ⇑reference ∘ (draft.references.size + ·) = (draft.references.size + ·) :=
    funext fun index => h.fixes_reference _ (Nat.le_add_right ..)
  have hdefinition (definition : Definition) :
      (definition.renumber (Block.place owner draft.definitions.size)
        (draft.references.size + ·)).renumber number reference =
        definition.renumber (Block.place owner draft.definitions.size)
          (draft.references.size + ·) := by
    rw [Definition.renumber_renumber, hplace, hnumbers]
  have hreference (written : Reference) :
      (written.renumber (Block.place owner draft.definitions.size)).renumber number =
        written.renumber (Block.place owner draft.definitions.size) := by
    rw [Reference.renumber_renumber, hplace]
  refine ⟨?_, ?_, fun index => ?_, fun index => ?_, h.models, ?_, fun index hindex => ?_,
    fun index hindex => ?_⟩
  · rw [size_put, size_put, h.size]
  · rw [size_references_put, size_references_put, h.size_references]
  · rw [Draft.put, Draft.put, h.size, h.size_references, Array.getElem?_append,
      Array.getElem?_append, h.size]
    by_cases hold : index < draft.definitions.size
    · rw [if_pos (apply_lt_of_fixes h.fixes hold), if_pos hold, h.definitions]
    · rw [h.fixes index (Nat.not_lt.mp hold), if_neg hold, if_neg hold]
      simp only [List.getElem?_toArray, List.getElem?_map, Option.map_map, Function.comp_def,
        hdefinition]
  · rw [Draft.put, Draft.put, h.size, h.size_references, Array.getElem?_append,
      Array.getElem?_append, h.size_references]
    by_cases hold : index < draft.references.size
    · rw [if_pos (apply_lt_of_fixes h.fixes_reference hold), if_pos hold, h.references]
    · rw [h.fixes_reference index (Nat.not_lt.mp hold), if_neg hold, if_neg hold]
      simp only [List.getElem?_toArray, List.getElem?_map, Option.map_map, Function.comp_def,
        hreference]
  · rw [Draft.put, Array.toList_append]
    exact h.keeps.append h.fixes _
  · exact h.fixes index ((Nat.le_add_right ..).trans (size_put .. ▸ hindex))
  · exact h.fixes_reference index ((Nat.le_add_right ..).trans (size_references_put .. ▸ hindex))

theorem putAll (h : draft.Renumbered number reference other) {owner : Nat}
    (howner : number owner = owner) (blocks : List Block) :
    (draft.putAll owner blocks).Renumbered number reference (other.putAll owner blocks) := by
  induction blocks generalizing draft other with
  | nil => exact h
  | cons block _ ih => exact ih (h.put howner block)

end Renumbered

end Draft

/-! ### Two blocks change places -/

namespace Block

variable {block block' : Block} {number reference : Nat → Nat}
variable {owner size size' start start' : Nat}

theorem apply_place (howner : number owner = owner)
    (hnumber : ∀ index < block.definitions.length, number (size + index) = size' + index)
    {index : Nat} (hle : index ≤ block.definitions.length) :
    number (place owner size index) = place owner size' index := by
  cases index with
  | zero => exact howner
  | succ index => exact hnumber index hle

theorem map_renumber_definitions (h : block.Closed) (howner : number owner = owner)
    (hnumber : ∀ index < block.definitions.length, number (size + index) = size' + index)
    (hreference : ∀ index < block.references.length, reference (start + index) = start' + index) :
    (block.definitions.map (Definition.renumber (place owner size) (start + ·))).map
        (Definition.renumber number reference) =
      block.definitions.map (Definition.renumber (place owner size') (start' + ·)) := by
  rw [List.map_map]
  refine List.map_congr_left fun definition hdefinition => ?_
  rw [Function.comp_apply, Definition.renumber_renumber]
  refine Definition.renumber_congr (fun parent hparent => ?_) fun index hindex => ?_
  · exact apply_place howner hnumber (h.parent_le definition hdefinition parent hparent)
  · exact hreference index (h.reference_lt definition hdefinition index hindex)

theorem map_renumber_references (h : block.Closed) (howner : number owner = owner)
    (hnumber : ∀ index < block.definitions.length, number (size + index) = size' + index) :
    (block.references.map (Reference.renumber (place owner size))).map
        (Reference.renumber number) =
      block.references.map (Reference.renumber (place owner size')) := by
  rw [List.map_map]
  refine List.map_congr_left fun written hwritten => ?_
  rw [Function.comp_apply, Reference.renumber_renumber, Reference.renumber, Reference.renumber,
    Function.comp_apply, apply_place howner hnumber (h.source_le written hwritten)]

theorem mem_names {definition : Definition} {name : String}
    (hdefinition : definition ∈ block.definitions) (hparent : definition.parent = some 0)
    (hname : name ∈ definition.names) : name ∈ block.names :=
  List.mem_flatMap.mpr
    ⟨definition, List.mem_filter.mpr ⟨hdefinition, beq_iff_eq.mpr hparent⟩, hname⟩

theorem eq_zero_of_place_eq {index index' : Nat} (howner : owner < size)
    (hle : index ≤ block.definitions.length)
    (heq : place owner size index = place owner (size + block.definitions.length) index') :
    index = 0 ∧ index' = 0 := by
  cases index <;> cases index' <;> simp only [place] at heq <;> omega

end Block

namespace Draft

variable {draft : Draft} {owner : Nat} {block block' : Block}

theorem toList_put (draft : Draft) (owner : Nat) (block : Block) :
    (draft.put owner block).definitions.toList = draft.definitions.toList ++ block.definitions.map
      (Definition.renumber (Block.place owner draft.definitions.size)
        (draft.references.size + ·)) := by
  simp [put]

theorem toList_references_put (draft : Draft) (owner : Nat) (block : Block) :
    (draft.put owner block).references.toList = draft.references.toList ++ block.references.map
      (Reference.renumber (Block.place owner draft.definitions.size)) := by
  simp [put]

/-- Definitions of the two blocks that share a parent share no name, so that their order does not
matter. -/
theorem keepsSiblings_swapRows (howner : owner < draft.definitions.size) (hblock : block.Closed)
    (hapart : List.Disjoint block.names block'.names) :
    Catalog.KeepsSiblings
      (swapRows draft.definitions.size block.definitions.length block'.definitions.length)
      ((draft.put owner block).put owner block').definitions.toList := by
  intro first second a b name hlt hfirst hsecond hparent hsame hname hname'
  by_cases hcross : (draft.definitions.size ≤ first ∧
      first < draft.definitions.size + block.definitions.length) ∧
      draft.definitions.size + block.definitions.length ≤ second
  · exfalso
    obtain ⟨⟨hlow, hhigh⟩, hbehind⟩ := hcross
    rw [toList_put, toList_put, List.append_assoc] at hfirst
    rw [toList_put, List.getElem?_append_right (by rwa [Array.length_toList, size_put]),
      List.getElem?_map] at hsecond
    rw [List.getElem?_append_right (by rwa [Array.length_toList]),
      List.getElem?_append_left (by rw [List.length_map, Array.length_toList]; omega),
      List.getElem?_map] at hfirst
    obtain ⟨original, horiginal, rfl⟩ := Option.map_eq_some_iff.mp hfirst
    obtain ⟨original', horiginal', rfl⟩ := Option.map_eq_some_iff.mp hsecond
    have hmem := List.mem_of_getElem? horiginal
    have hmem' := List.mem_of_getElem? horiginal'
    rw [Definition.names_renumber] at hname hname'
    rw [Definition.renumber, Definition.renumber, size_put] at hsame
    obtain ⟨parent, hbelow⟩ : ∃ parent, original.parent = some parent :=
      Option.isSome_iff_exists.mp (by simpa [Definition.renumber] using hparent)
    rw [hbelow, Option.map_some] at hsame
    obtain ⟨parent', hbelow', heq⟩ := Option.map_eq_some_iff.mp hsame.symm
    obtain ⟨rfl, rfl⟩ := Block.eq_zero_of_place_eq howner
      (hblock.parent_le original hmem parent hbelow) heq.symm
    exact hapart (Block.mem_names hmem hbelow hname) (Block.mem_names hmem' hbelow' hname')
  · rw [swapRows_apply, swapRows_apply]
    split_ifs <;> omega

theorem Closed.map_definitions (h : draft.Closed) {number reference : Nat → Nat}
    (hnumber : ∀ index < draft.definitions.size, number index = index)
    (hreference : ∀ index < draft.references.size, reference index = index) :
    draft.definitions.toList.map (Definition.renumber number reference) =
      draft.definitions.toList := by
  refine (List.map_congr_left fun definition hdefinition => ?_).trans (List.map_id _)
  refine Eq.trans ?_ definition.renumber_id
  exact Definition.renumber_congr
    (fun parent hparent => hnumber parent (h.parent_lt definition hdefinition parent hparent))
    fun index hindex => hreference index (h.reference_lt definition hdefinition index hindex)

theorem Closed.map_references (h : draft.Closed) {number : Nat → Nat}
    (hnumber : ∀ index < draft.definitions.size, number index = index) :
    draft.references.toList.map (Reference.renumber number) = draft.references.toList := by
  refine (List.map_congr_left fun written hwritten => ?_).trans (List.map_id _)
  rw [Reference.renumber, hnumber _ (h.source_lt written hwritten)]
  rfl

theorem renumbered_swapRows (h : draft.Closed) (howner : owner < draft.definitions.size)
    (hblock : block.Closed) (hblock' : block'.Closed)
    (hapart : List.Disjoint block.names block'.names) :
    ((draft.put owner block).put owner block').Renumbered
      (swapRows draft.definitions.size block.definitions.length block'.definitions.length)
      (swapRows draft.references.size block.references.length block'.references.length)
      ((draft.put owner block').put owner block) := by
  have hfixes {index : Nat} (hlt : index < draft.definitions.size) :
      swapRows draft.definitions.size block.definitions.length block'.definitions.length index =
        index :=
    swapRows_of_lt hlt
  have hfixes' {index : Nat} (hlt : index < draft.references.size) :
      swapRows draft.references.size block.references.length block'.references.length index =
        index :=
    swapRows_of_lt hlt
  refine ⟨?_, ?_, fun index => ?_, fun index => ?_, ?_,
    keepsSiblings_swapRows howner hblock hapart, fun index hindex => ?_, fun index hindex => ?_⟩
  · simp only [size_put]
    omega
  · simp only [size_references_put]
    omega
  · rw [← Array.getElem?_toList, ← Array.getElem?_toList, ← List.getElem?_map]
    simp only [toList_put, size_put, size_references_put, List.map_append]
    rw [h.map_definitions (fun _ => hfixes) fun _ => hfixes',
      Block.map_renumber_definitions hblock (hfixes howner) (fun _ => swapRows_first)
        fun _ => swapRows_first,
      Block.map_renumber_definitions hblock' (hfixes howner) (fun _ => swapRows_second)
        fun _ => swapRows_second]
    refine Eq.trans ?_ (getElem?_swapRows _ _ _ index)
    simp only [List.length_map, Array.length_toList]
  · rw [← Array.getElem?_toList, ← Array.getElem?_toList, ← List.getElem?_map]
    simp only [toList_references_put, size_put, List.map_append]
    rw [h.map_references fun _ => hfixes,
      Block.map_renumber_references hblock (hfixes howner) fun _ => swapRows_first,
      Block.map_renumber_references hblock' (hfixes howner) fun _ => swapRows_second]
    refine Eq.trans ?_ (getElem?_swapRows _ _ _ index)
    simp only [List.length_map, Array.length_toList]
  · exact ((List.map_congr_left fun model hmodel => hfixes (h.model_lt model hmodel)).trans
      (List.map_id _)).symm
  · simp only [size_put] at hindex
    exact swapRows_of_le hindex
  · simp only [size_references_put] at hindex
    exact swapRows_of_le hindex

/-- Blocks below one definition may be put in any order. What was there before keeps its numbers. -/
theorem exists_renumbered_of_perm {blocks others : List Block} (hperm : blocks.Perm others)
    (h : draft.Closed) (howner : owner < draft.definitions.size)
    (hblocks : ∀ block ∈ blocks, block.Closed)
    (hapart : blocks.Pairwise fun block other => List.Disjoint block.names other.names) :
    ∃ number reference, (∀ index < draft.definitions.size, number index = index) ∧
      (draft.putAll owner blocks).Renumbered number reference (draft.putAll owner others) := by
  induction hperm generalizing draft with
  | nil => exact ⟨.refl Nat, .refl Nat, fun _ _ => rfl, .refl draft⟩
  | cons block _ ih =>
    have hblock := hblocks block List.mem_cons_self
    have hsize := size_put draft owner block
    obtain ⟨number, reference, hfixes, hsame⟩ := ih (h.put howner hblock) (by omega)
      (fun other hother => hblocks other (List.mem_cons_of_mem _ hother)) hapart.tail
    exact ⟨number, reference, fun index hindex => hfixes index (by omega), hsame⟩
  | swap block block' rest =>
    have hswap := renumbered_swapRows h howner (hblocks block' List.mem_cons_self)
      (hblocks block (List.mem_cons_of_mem _ List.mem_cons_self))
      (List.rel_of_pairwise_cons hapart List.mem_cons_self)
    exact ⟨_, _, fun index hindex => swapRows_of_lt hindex,
      hswap.putAll (swapRows_of_lt howner) rest⟩
  | trans hfirst _ ih ih' =>
    obtain ⟨number, reference, hfixes, hsame⟩ := ih h howner hblocks hapart
    obtain ⟨more, more', hfixes', hsame'⟩ := ih' h howner
      (fun block hblock => hblocks block (hfirst.mem_iff.mpr hblock))
      (hfirst.pairwise hapart fun hdisjoint name hname hname' => hdisjoint hname' hname)
    refine ⟨number.trans more, reference.trans more', fun index hindex => ?_, hsame.trans hsame'⟩
    rw [Equiv.trans_apply, hfixes index hindex, hfixes' index hindex]

/-- The drafts hold the same but for the order of blocks. The open scopes have the same numbers in
both. -/
structure Shuffled (scopes : List Nat) (draft other : Draft) : Prop where
  closed : draft.Closed
  scope_lt : ∀ scope ∈ scopes, scope < draft.definitions.size
  renumbered : ∃ number reference : Equiv.Perm Nat, (∀ scope ∈ scopes, number scope = scope) ∧
    draft.Renumbered number reference other

namespace Shuffled

theorem empty : Draft.empty.Shuffled [] Draft.empty :=
  ⟨closed_empty, nofun, .refl Nat, .refl Nat, nofun, .refl _⟩

variable {scopes : List Nat} {draft other : Draft} (h : draft.Shuffled scopes other)

include h

theorem size_eq : other.definitions.size = draft.definitions.size :=
  let ⟨_, _, _, hsame⟩ := h.renumbered
  hsame.size

theorem close {fewer : List Nat} (hfewer : fewer ⊆ scopes) : draft.Shuffled fewer other :=
  let ⟨number, reference, hfixes, hsame⟩ := h.renumbered
  ⟨h.closed, fun scope hscope => h.scope_lt scope (hfewer hscope), number, reference,
    fun scope hscope => hfixes scope (hfewer hscope), hsame⟩

theorem putAll {owner : Nat} (howner : owner ∈ scopes) {blocks others : List Block}
    (hperm : blocks.Perm others) (hblocks : ∀ block ∈ blocks, block.Closed)
    (hapart : blocks.Pairwise fun block other => List.Disjoint block.names other.names) :
    (draft.putAll owner blocks).Shuffled scopes (other.putAll owner others) := by
  have hlt := h.scope_lt owner howner
  obtain ⟨number, reference, hfixes, hsame⟩ := h.renumbered
  obtain ⟨more, more', hfixes', hsame'⟩ :=
    exists_renumbered_of_perm hperm h.closed hlt hblocks hapart
  refine ⟨h.closed.putAll hlt hblocks, fun scope hscope => ?_, more.trans number,
    more'.trans reference, fun scope hscope => ?_,
    hsame'.trans (hsame.putAll (hfixes owner howner) others)⟩
  · exact (h.scope_lt scope hscope).trans_le (size_le_putAll ..)
  · rw [Equiv.trans_apply, hfixes' scope (h.scope_lt scope hscope), hfixes scope hscope]

end Shuffled

end Draft

/-! ### What is noted afterwards -/

namespace Draft.Renumbered

variable {number reference : Equiv.Perm Nat} {draft other : Draft}
variable (h : draft.Renumbered number reference other)

include h

theorem push (definition : Definition) :
    Renumbered number reference { draft with definitions := draft.definitions.push definition }
      { other with
        definitions := other.definitions.push (definition.renumber number reference) } where
  size := by rw [Array.size_push, Array.size_push, h.size]
  size_references := h.size_references
  definitions index := by
    have hlast := h.fixes _ le_rfl
    rw [Array.getElem?_push, Array.getElem?_push, h.size]
    by_cases hindex : index = draft.definitions.size
    · rw [if_pos hindex, if_pos (by rw [hindex, hlast]), Option.map_some]
    · rw [if_neg hindex, if_neg fun heq => hindex (number.injective (heq.trans hlast.symm)),
        h.definitions]
  references := h.references
  models := h.models
  keeps := by
    rw [Array.toList_push]
    exact h.keeps.append h.fixes _
  fixes index hindex := h.fixes index (by rw [Array.size_push] at hindex; omega)
  fixes_reference := h.fixes_reference

theorem push_reference (written : Reference) :
    Renumbered number reference { draft with references := draft.references.push written }
      { other with references := other.references.push (written.renumber number) } where
  size := h.size
  size_references := by rw [Array.size_push, Array.size_push, h.size_references]
  definitions := h.definitions
  references index := by
    have hlast := h.fixes_reference _ le_rfl
    rw [Array.getElem?_push, Array.getElem?_push, h.size_references]
    by_cases hindex : index = draft.references.size
    · rw [if_pos hindex, if_pos (by rw [hindex, hlast]), Option.map_some]
    · rw [if_neg hindex, if_neg fun heq => hindex (reference.injective (heq.trans hlast.symm)),
        h.references]
  models := h.models
  keeps := h.keeps
  fixes := h.fixes
  fixes_reference index hindex :=
    h.fixes_reference index (by rw [Array.size_push] at hindex; omega)

theorem add_model (id : Nat) :
    Renumbered number reference { draft with models := draft.models ++ [id] }
      { other with models := other.models ++ [number id] } :=
  ⟨h.size, h.size_references, h.definitions, h.references,
    by rw [h.models, List.map_append, List.map_singleton], h.keeps, h.fixes, h.fixes_reference⟩

end Draft.Renumbered

namespace Congruence

variable {view : View} {number reference : Equiv.Perm Nat}

theorem renumbered_define {draft draft' : Draft} {heading other : Heading}
    {data data' : DefinitionData} (parent : Option Nat)
    (h : (draft.seen view).Renumbered number reference (draft'.seen view))
    (hheading : heading.seen view = other.seen view)
    (hdata : data'.seen view = (data.seen view).renumber reference) :
    ((Drafting.define heading parent data draft).2.seen view).Renumbered number reference
      ((Drafting.define other (parent.map number) data' draft').2.seen view) := by
  simp only [Heading.seen, Heading.mk.injEq] at hheading
  simp only [Drafting.define, Draft.seen_push, Definition.seen, hheading, hdata]
  exact h.push _

def renumbering (view : View) (number reference : Equiv.Perm Nat) : Congruence view where
  rel draft other := (draft.seen view).Renumbered number reference (other.seen view)
  definition := number
  reference := reference
  definitions_size {draft other} h := by
    have hsize := h.size
    have hlast := h.fixes _ le_rfl
    rw [Draft.size_seen] at hlast
    rwa [Draft.size_seen, Draft.size_seen, ← hlast] at hsize
  references_size {draft other} h := by
    have hsize := h.size_references
    have hlast := h.fixes_reference _ le_rfl
    rw [Draft.size_references_seen] at hlast
    rwa [Draft.size_references_seen, Draft.size_references_seen, ← hlast] at hsize
  define h _ _ _ _ parent hheading hdata _ := renumbered_define (some parent) h hheading hdata
  addReference h first other hsame := by
    simp only [Drafting.addReference, Draft.seen_push_reference, hsame]
    exact h.push_reference _

theorem keepsModels_renumbering : (renumbering view number reference).KeepsModels where
  define h _ _ _ _ hheading hdata := renumbered_define none h hheading hdata
  addModel h id := Draft.Renumbered.add_model h id

end Congruence

end Ili
