import Ili.Proofs.Grammar.Fullness
import Ili.Proofs.Grammar.Nesting
import Ili.Proofs.Grammar.Regular
import Ili.Proofs.Layout.Joints
import Ili.Proofs.Layout.Levels

/-!
# Containers among the words of a file

The file and the blocks in it stand in containers only. So each of them is reached from the root
through containers, and the words below it are found in the row of all words behind those of the
visible tokens in front of it, at a level that its place decides.
-/

namespace Ili

open Layout

namespace Tree

/-- The tree stands at the root or below it, behind so many visible tokens. -/
inductive StandsBehind (root : Tree) : Nat → Tree → Prop
  | root : StandsBehind root 0 root
  | child {count : Nat} {kind : Kind} {left : List Tree} {child : Tree} {right : List Tree}
      (h : StandsBehind root count (node kind (left ++ child :: right))) :
      StandsBehind root (count + (visible (tokensOf left)).length) child

namespace StandsBehind

variable {root tree : Tree} {count : Nat}

theorem nodes_subset (h : root.StandsBehind count tree) : tree.nodes ⊆ root.nodes := by
  induction h with
  | root => exact List.Subset.refl _
  | child _ ih =>
    refine List.Subset.trans (fun node hnode => ?_) ih
    rw [nodes]
    exact List.mem_cons_of_mem _ (nodes_subset_nodesOf (by simp) hnode)

theorem full (h : root.StandsBehind count tree) (hfull : root.Full) : tree.Full := by
  induction h with
  | root => exact hfull
  | child _ ih => exact (allFull_append.mp ih.2).2.1

theorem regular (h : root.StandsBehind count tree) (hregular : root.Regular) : tree.Regular := by
  induction h with
  | root => exact hregular
  | child _ ih => exact (regularAll_append.mp ih.2.2).2.1

end StandsBehind

/-! ### Children and what they become -/

theorem dressAll_append (left right : List Tree) (words : List Word) :
    dressAll (left ++ right) words =
      ((dressAll left words).1 ++ (dressAll right (dressAll left words).2).1,
        (dressAll right (dressAll left words).2).2) := by
  induction left generalizing words with
  | nil => rfl
  | cons tree rest ih => simp only [List.cons_append, dressAll, ih, List.append_assoc]

/-- Dressed in words for its visible tokens, the tree becomes the skeleton. -/
def Dresses (tree : Tree) (skeleton : Skeleton) : Prop :=
  ∃ words rest, tokensOfWords words = visible tree.tokens ∧
    tree.dress (words ++ rest) = (some skeleton, rest)

theorem length_of_tokensOfWords {words : List Word} {tokens : List Token}
    (h : tokensOfWords words = tokens) : words.length = tokens.length := by
  rw [← h, tokensOfWords, List.length_map]

theorem Dresses.words {tree : Tree} {skeleton : Skeleton} (h : tree.Dresses skeleton) :
    tokensOfWords skeleton.words = visible tree.tokens := by
  obtain ⟨words, rest, hwords, hdress⟩ := h
  have hdressed := (tree.dress_words words rest (length_of_tokensOfWords hwords)).1
  rw [hdress] at hdressed
  simp only [Option.toList_some, Skeleton.wordsOf, List.append_nil] at hdressed
  rw [hdressed, hwords]

theorem isTrivia_of_kind {tree : Tree} (h : tree.kind.isTrivia = false) :
    tree.isTrivia = false := by
  cases tree with
  | token t => exact h
  | node _ _ => rfl

theorem visible_ne_nil {tree : Tree} (hfull : tree.Full) (hvisible : tree.isTrivia = false) :
    visible tree.tokens ≠ [] := by
  cases tree with
  | token t =>
    have htrivia : t.kind.isTrivia = false := hvisible
    simp [tokens, visible, htrivia]
  | node kind children => exact hfull.1

theorem visible_tokensOf_ne_nil {row : List Tree} (hfull : AllFull row) (h : shown row ≠ []) :
    visible (tokensOf row) ≠ [] := by
  obtain ⟨first, others, hfirst⟩ := List.exists_cons_of_ne_nil h
  obtain ⟨hmem, hshows⟩ := List.mem_filter.mp (hfirst ▸ List.mem_cons_self : first ∈ shown row)
  obtain ⟨left, right, rfl⟩ := List.append_of_mem hmem
  rw [tokensOf_append, visible_append, tokensOf, visible_append]
  have hne := visible_ne_nil (allFull_append.mp hfull).2.1 (by simpa using hshows)
  exact fun hnil => hne (List.append_eq_nil_iff.mp (List.append_eq_nil_iff.mp hnil).2).1

theorem exists_dress {tree : Tree} (hfull : tree.Full) (hvisible : tree.isTrivia = false)
    {words : List Word} (h : tokensOfWords words = visible tree.tokens) (rest : List Word) :
    ∃ skeleton, tree.dress (words ++ rest) = (some skeleton, rest) ∧ skeleton.kind = tree.kind := by
  have hne := visible_ne_nil hfull hvisible
  cases tree with
  | token t =>
    have htrivia : t.kind.isTrivia = false := hvisible
    have hone : visible (token t).tokens = [t] := by simp [tokens, visible, htrivia]
    rw [hone] at h
    obtain ⟨word, rfl, hword⟩ := List.map_eq_singleton_iff.mp h
    refine ⟨.word word, dress_of_visible htrivia word rest, ?_⟩
    rw [Skeleton.kind, hword, Tree.kind]
  | node kind children =>
    have hdressed := dressAll_words children words rest (length_of_tokensOfWords h)
    rw [dress]
    cases hchildren : dressAll children (words ++ rest) with
    | mk dressed others =>
      rw [hchildren] at hdressed
      cases dressed with
      | nil =>
        rw [← hdressed.1] at h
        exact absurd h.symm hne
      | cons first dressed =>
        obtain rfl : others = rest := hdressed.2
        exact ⟨_, rfl, rfl⟩

theorem map_kind_dressAll_shown {row : List Tree} (hfull : AllFull row) {words : List Word}
    (h : tokensOfWords words = visible (tokensOf row)) (rest : List Word) :
    (dressAll row (words ++ rest)).1.map Skeleton.kind = (shown row).map Tree.kind := by
  induction row generalizing words with
  | nil => rfl
  | cons tree others ih =>
    rw [tokensOf, visible_append] at h
    obtain ⟨front, back, rfl, hfront, hback⟩ := exists_words_append h
    have hothers := ih hfull.2 hback
    rw [dressAll, List.append_assoc]
    cases htrivia : tree.isTrivia with
    | false =>
      obtain ⟨skeleton, hdress, hkind⟩ := exists_dress hfull.1 htrivia hfront (back ++ rest)
      simp only [hdress, Option.toList_some, List.map_append, List.map_singleton, hothers, hkind]
      simp [shown, htrivia]
    | true =>
      cases tree with
      | node kind children => cases htrivia
      | token t =>
        have hnil : front = [] := by
          have hnone : visible (token t).tokens = [] := by
            have ht : t.kind.isTrivia = true := htrivia
            simp [tokens, visible, ht]
          rw [hnone] at hfront
          exact List.map_eq_nil_iff.mp hfront
        rw [hnil, List.nil_append, dress_of_trivia htrivia]
        simp only [Option.toList_none, List.nil_append, hothers]
        simp [shown, htrivia]

theorem Dresses.child {kind : Kind} {left right : List Tree} {child : Tree} {skeleton : Skeleton}
    (h : (node kind (left ++ child :: right)).Dresses skeleton)
    (hfull : (node kind (left ++ child :: right)).Full) (hvisible : child.isTrivia = false) :
    ∃ before inner after, skeleton = .node kind (before ++ inner :: after) ∧ child.Dresses inner ∧
      inner.kind = child.kind ∧ before.map Skeleton.kind = (shown left).map Tree.kind ∧
      after.map Skeleton.kind = (shown right).map Tree.kind ∧
      (Skeleton.wordsOf before).length = (visible (tokensOf left)).length := by
  obtain ⟨words, rest, hwords, hdress⟩ := h
  obtain ⟨hleft, hchild, hright⟩ := allFull_append.mp hfull.2
  rw [tokens, tokensOf_append, visible_append, tokensOf, visible_append] at hwords
  obtain ⟨front, others, rfl, hfront, hothers⟩ := exists_words_append hwords
  obtain ⟨own, back, rfl, hown, hback⟩ := exists_words_append hothers
  obtain ⟨inner, hinner, hkind⟩ := exists_dress hchild hvisible hown (back ++ rest)
  have hbefore := dressAll_words left front (own ++ (back ++ rest)) (length_of_tokensOfWords hfront)
  have hafter := dressAll_words right back rest (length_of_tokensOfWords hback)
  have hkinds := map_kind_dressAll_shown hleft hfront (own ++ (back ++ rest))
  have hkinds' := map_kind_dressAll_shown hright hback rest
  have hchildren : dressAll (left ++ child :: right) (front ++ (own ++ (back ++ rest))) =
      ((dressAll left (front ++ (own ++ (back ++ rest)))).1 ++ inner ::
        (dressAll right (back ++ rest)).1, rest) := by
    rw [dressAll_append, hbefore.2, dressAll, hinner, hafter.2]
    rfl
  simp only [List.append_assoc] at hdress
  rw [dress, hchildren] at hdress
  refine ⟨_, inner, _, ?_, ⟨own, back ++ rest, hown, hinner⟩, hkind, hkinds, hkinds', ?_⟩
  · cases hfirst : (dressAll left (front ++ (own ++ (back ++ rest)))).1 with
    | nil =>
      rw [hfirst] at hdress
      exact (Option.some.inj (Prod.mk.inj hdress).1).symm
    | cons first dressed =>
      rw [hfirst] at hdress
      exact (Option.some.inj (Prod.mk.inj hdress).1).symm
  · rw [hbefore.1, length_of_tokensOfWords hfront]

end Tree

namespace Layout

open Grammar

/-! ### Containers and their children -/

def openingKinds : Kind → List Kind
  | .sourceFile => [.header]
  | kind => (Shape.row (blockHead kind)).kinds ++ [.eq]

theorem openingKinds_block {kind : Kind} (h : kind ∈ blocks) :
    openingKinds kind = (Shape.row (blockHead kind)).kinds ++ [.eq] := by
  revert kind
  decide

theorem production_sourceFile :
    production .sourceFile =
      Shape.row ([Shape.single .header] ++ [Shape.many (Shape.single .model)]) :=
  rfl

structure ContainerForm (kind : Kind) (row : List Tree) : Prop where
  kinds : ∀ tree ∈ row, tree.kind ∈ (production kind).kinds
  head : ∀ tree ∈ row.head?, tree.kind ∈ openingKinds kind
  balanced : Balanced kind none (row.map Tree.kind)

theorem containerForm {kind : Kind} (hkind : kind ∈ containers) {row : List Tree}
    (h : row ∈ (production kind).language) : ContainerForm kind row := by
  have hkinds := Shape.kind_mem_kinds h
  rcases List.mem_cons.mp hkind with rfl | hblock
  · refine ⟨hkinds, ?_, ?_⟩
    · rw [production_sourceFile, Shape.language_row_append] at h
      obtain ⟨_, hheader, models, -, rfl⟩ := h
      obtain ⟨header, rfl, hkind⟩ := Shape.mem_single_iff.mp hheader
      intro tree htree
      obtain rfl := Option.some.inj htree
      rw [hkind]
      exact List.mem_singleton_self _
    · have hall : ∀ previous ∈ none :: (production .sourceFile).kinds.map some,
          ∀ next ∈ (production .sourceFile).kinds, balances .sourceFile previous next = true := by
        decide +kernel
      exact balanced_of_forall hall
        (fun next hnext => List.mem_cons_of_mem _ (List.mem_map_of_mem hnext))
        List.mem_cons_self (List.forall_mem_map.mpr hkinds)
  · obtain ⟨head, sign, body, closing, tail, rfl, hform⟩ := exists_blockForm hblock h
    refine ⟨hkinds, ?_, balanced_block hblock hform⟩
    intro tree htree
    rw [openingKinds_block hblock]
    cases head with
    | nil =>
      obtain rfl := Option.some.inj htree
      rw [hform.sign]
      exact List.mem_append_right _ List.mem_cons_self
    | cons first head =>
      obtain rfl := Option.some.inj htree
      exact List.mem_append_left _ (hform.head _ List.mem_cons_self)

theorem Stands.of_child {words : List JoinedWord} {count : Nat} {first : JoinedWord} {level : Nat}
    {kind : Kind} {left right : List Tree} {child : Tree} {skeleton : Skeleton}
    (hkind : kind ∈ containers) (hform : ContainerForm kind (Tree.shown (left ++ child :: right)))
    (hfull : (Tree.node kind (left ++ child :: right)).Full)
    (hdresses : (Tree.node kind (left ++ child :: right)).Dresses skeleton)
    (hvisible : child.isTrivia = false) (hleft : Tree.shown left ≠ [])
    (h : Stands words count first level skeleton) :
    ∃ word inner, child.Dresses inner ∧
      Stands words (count + (visible (Tree.tokensOf left)).length)
        ⟨(rulingAt kind ((Tree.shown left).getLast?.map Tree.kind) child.kind).insert,
          level + depthBehind kind (some child.kind), word⟩
        (level + depthBehind kind (some child.kind)) inner := by
  obtain ⟨before, inner, after, rfl, hinner, hinnerKind, hbefore, hafter, hlength⟩ :=
    hdresses.child hfull hvisible
  have hkinds : (before ++ inner :: after).map Skeleton.kind =
      (Tree.shown (left ++ child :: right)).map Tree.kind := by
    have hshown : Tree.shown (child :: right) = child :: Tree.shown right := by
      simp [Tree.shown, hvisible]
    rw [Tree.shown_append, hshown, List.map_append, List.map_cons, List.map_append, List.map_cons,
      hbefore, hafter, hinnerKind]
  have herror : ∀ kind ∈ containers, Kind.error ∉ (production kind).kinds := by decide +kernel
  have hne (skeleton : Skeleton) (hmem : skeleton ∈ before ++ inner :: after) :
      skeleton.kind ≠ .error := by
    intro hskeleton
    have hmap := List.mem_map_of_mem (f := Skeleton.kind) hmem
    rw [hkinds] at hmap
    obtain ⟨tree, htree, hsame⟩ := List.mem_map.mp hmap
    have hin := hform.kinds tree htree
    rw [hsame, hskeleton] at hin
    exact herror kind hkind hin
  have hbalanced := hform.balanced
  rw [← hkinds] at hbalanced
  have hwords : Skeleton.wordsOf before ≠ [] := by
    intro hnil
    rw [hnil, List.length_nil] at hlength
    exact Tree.visible_tokensOf_ne_nil (Tree.allFull_append.mp hfull.2).1 hleft
      (List.length_eq_zero_iff.mp hlength.symm)
  have hinnerWords : inner.words ≠ [] := by
    intro hnil
    have htokens := hinner.words
    rw [hnil] at htokens
    exact Tree.visible_ne_nil (Tree.allFull_append.mp hfull.2).2.1 hvisible htokens.symm
  obtain ⟨word, hstands⟩ := h.child hkind hne hbalanced hwords hinnerWords
  have hlast : before.getLast?.map Skeleton.kind = (Tree.shown left).getLast?.map Tree.kind := by
    rw [← List.getLast?_map, hbefore, List.getLast?_map]
  rw [hlength, hinnerKind, hlast] at hstands
  exact ⟨word, inner, hinner, hstands⟩

theorem containerForm_parse {text : String} (hok : (parse text).errors = []) {kind : Kind}
    {children : List Tree} (hkind : kind ∈ containers)
    (hnode : Tree.node kind children ∈ (parse text).tree.nodes) :
    ContainerForm kind (Tree.shown children) := by
  have hlenient : ∀ kind ∈ containers, kind ∉ lenientKinds := by decide
  have hrow : Tree.shown children ∈ (production kind).relaxed.language :=
    conforms_parse hok _ (List.mem_append_left _ hnode)
  rw [Shape.relaxed_of_isExact (isExact_production (hlenient kind hkind))] at hrow
  exact containerForm hkind hrow

theorem notMem_openingKinds {parent kind : Kind} (hparent : parent ∈ containers)
    (hblock : kind ∈ blocks) : kind ∉ openingKinds parent := by
  have hall : ∀ parent ∈ containers, ∀ kind ∈ blocks, kind ∉ openingKinds parent := by
    decide +kernel
  exact hall parent hparent kind hblock

theorem breaksOf_rulingAt_block {parent previous kind : Kind} (hparent : parent ∈ containers)
    (hprevious : previous ∈ (production parent).kinds) (hkind : kind ∈ (production parent).kinds)
    (hblock : kind ∈ blocks) : breaksOf (rulingAt parent (some previous) kind).insert ≠ 0 := by
  have hall : ∀ parent ∈ containers, ∀ kind ∈ (production parent).kinds, kind ∈ blocks →
      ∀ previous ∈ (production parent).kinds,
        breaksOf (rulingAt parent (some previous) kind).insert ≠ 0 := by decide +kernel
  exact hall parent hparent kind hkind hblock previous hprevious

theorem full_parse {text : String} (hok : (parse text).errors = []) :
    (parse text).tree.Full := by
  have hfull := allFull_parse hok
  refine ⟨Tree.visible_tokensOf_ne_nil hfull fun hshown => ?_, hfull⟩
  have hnil : Tree.shown (parse text).tree.children = [] := hshown
  have hrow : Tree.shown (parse text).tree.children ∈ (production .sourceFile).relaxed.language :=
    conforms_parse hok _ (List.mem_append_left _ List.mem_cons_self)
  rw [hnil, Shape.nil_mem_iff] at hrow
  exact absurd hrow (by decide)

theorem below_container {parent kind : Kind} (hkind : kind ∈ containers)
    (h : arrangement.below parent kind = true) : kind ∈ blocks ∧ parent ∈ containers := by
  have hall : ∀ kind ∈ containers, ∀ parent ∈ Kind.all, arrangement.below parent kind = true →
      kind ∈ blocks ∧ parent ∈ containers := by decide +kernel
  exact hall kind hkind parent (Kind.mem_all parent) h

theorem stands_container {text : String} (hok : (parse text).errors = []) {count : Nat}
    {tree : Tree} (htree : (parse text).tree.StandsBehind count tree) {kind : Kind}
    {children : List Tree} (hnode : tree = .node kind children) (hkind : kind ∈ containers) :
    ∃ first level skeleton, tree.Dresses skeleton ∧
      Stands (joinedBody (parse text).tree) count first level skeleton ∧
      (kind ∈ blocks → breaksOf first.insert ≠ 0 ∧ first.level = level ∧ 0 < count) := by
  have hfull := full_parse hok
  -- The path from the root is followed down. What holds a block is a container again, so the claim
  -- is there for it; the root has no word in front of it, which is why `first` is only asked for
  -- at blocks.
  induction htree generalizing kind children with
  | root =>
    have htokens : Tree.tokensOfWords (attachedWords [] (parse text).tree.leaves) =
        visible (parse text).tree.tokens := by
      rw [← Tree.tokensOf_leaves]
      exact map_token_attachedWords [] _
    obtain ⟨skeleton, hdress, -⟩ := Tree.exists_dress hfull rfl htokens []
    have hdresses : (parse text).tree.Dresses skeleton := ⟨_, [], htokens, hdress⟩
    have hbody : joinedBody (parse text).tree = joined 0 skeleton := by
      rw [List.append_nil] at hdress
      rw [joinedBody, Tree.skeleton?, hdress]
      rfl
    have hwords : skeleton.words ≠ [] := by
      intro hnil
      have hskeleton := hdresses.words
      rw [hnil] at hskeleton
      exact hfull.1 hskeleton.symm
    obtain ⟨first, rest, hfirst⟩ := List.exists_cons_of_ne_nil (joined_ne_nil 0 hwords)
    refine ⟨first, 0, skeleton, hdresses, ⟨[], [], ?_, rfl⟩, fun hblock => ?_⟩
    · rw [hbody, hfirst]
      simp
    · obtain rfl : kind = .sourceFile := (Tree.node.inj hnode).1.symm
      exact absurd hblock (by decide)
  | @child count parent left child right htree ih =>
    subst hnode
    have hmem := htree.nodes_subset List.mem_cons_self
    have hbelow := (arranged_parse text _ hmem).below kind (by
      rw [Tree.children, Tree.nodeKinds_append]
      exact List.mem_append_right _ List.mem_cons_self)
    obtain ⟨hblock, hparent⟩ := below_container hkind hbelow
    obtain ⟨first, level, skeleton, hdresses, hstands, -⟩ := ih rfl hparent
    have hform := containerForm_parse hok hparent hmem
    have hshown : Tree.shown (left ++ .node kind children :: right) =
        Tree.shown left ++ .node kind children :: Tree.shown right := by
      rw [Tree.shown_append]
      rfl
    have hin := hform.kinds (.node kind children) (by simp [hshown])
    have hleft : Tree.shown left ≠ [] := by
      intro hnil
      exact notMem_openingKinds hparent hblock
        (hform.head (.node kind children) (by simp [hshown, hnil]))
    obtain ⟨word, inner, hinner, hplace⟩ := Stands.of_child hparent hform
      (htree.full hfull) hdresses rfl hleft hstands
    refine ⟨_, _, inner, hinner, hplace, fun _ => ⟨?_, rfl, ?_⟩⟩
    · obtain ⟨previous, hprevious⟩ := Option.ne_none_iff_exists'.mp
        (mt List.getLast?_eq_none_iff.mp hleft)
      have hpreviousIn := hform.kinds previous (by
        rw [hshown]
        exact List.mem_append_left _ (List.mem_of_getLast? hprevious))
      rw [hprevious]
      exact breaksOf_rulingAt_block hparent hpreviousIn hin hblock
    · have hleftFull := (Tree.allFull_append.mp (htree.full hfull).2).1
      have hpos := List.length_pos_iff.mpr (Tree.visible_tokensOf_ne_nil hleftFull hleft)
      omega

end Layout

end Ili
