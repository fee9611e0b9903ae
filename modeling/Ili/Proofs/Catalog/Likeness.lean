import Ili.Catalog.Build
import Ili.Proofs.Layout.Faithful
import Mathlib.Data.List.Forall2

/-!
# Places that look alike

Two places look alike when their trees and what stands in front of them are the same but for blanks,
and for comments unless these are kept. Then so do the places below them, in order. Whatever is read
off a place, other than where it stands and what is not kept, is then the same.
-/

namespace Ili

theorem forall₂_and {α β : Type} {R : α → β → Prop} {p : α → Prop} {q : β → Prop} {first : List α}
    {second : List β} (h : List.Forall₂ R first second) (hp : ∀ a ∈ first, p a)
    (hq : ∀ b ∈ second, q b) : List.Forall₂ (fun a b => p a ∧ q b ∧ R a b) first second :=
  (List.forall₂_and_left _ _).mpr ⟨hp, ((List.forall₂_and_left _ _).mpr ⟨hq, h.flip⟩).flip⟩

/-- What the trees of texts have in common. -/
structure Tree.Neat (tree : Tree) : Prop where
  tidy : TidyAll tree.children
  regular : tree.Regular
  blank : ∀ t ∈ tree.tokens, t.kind = .whitespace → ∀ c ∈ t.text.toList, isWhiteSpace c = true

theorem neat_parse (text : String) : (parse text).tree.Neat where
  tidy := (places_parse text).2
  regular := regular_parse text
  blank _ ht hkind c hc :=
    isWhiteSpace_of_isBlank (solid_eq_nil_iff.mp ((solid_token_parse ht).mpr hkind) c hc)

namespace Tree

theorem TidyAll.of_mem {row : List Tree} (h : TidyAll row) {tree : Tree} (hmem : tree ∈ row) :
    tree.Tidy := by
  induction row with
  | nil => cases hmem
  | cons first rest ih =>
    rcases List.mem_cons.mp hmem with rfl | hmem
    · exact h.1
    · exact ih h.2 hmem

theorem RegularAll.of_mem {row : List Tree} (h : RegularAll row) {tree : Tree} (hmem : tree ∈ row) :
    tree.Regular := by
  induction row with
  | nil => cases hmem
  | cons first rest ih =>
    rcases List.mem_cons.mp hmem with rfl | hmem
    · exact h.1
    · exact ih h.2 hmem

theorem tokens_subset_of_mem {row : List Tree} {tree : Tree} (hmem : tree ∈ row) :
    tree.tokens ⊆ tokensOf row := by
  obtain ⟨front, back, rfl⟩ := List.append_of_mem hmem
  rw [tokensOf_append, tokensOf]
  exact fun t ht => List.mem_append_right _ (List.mem_append_left _ ht)

theorem tokens_subset_of_mem_children {tree child : Tree} (hmem : child ∈ tree.children) :
    child.tokens ⊆ tree.tokens := by
  cases tree with
  | token t => cases hmem
  | node kind children => exact tokens_subset_of_mem hmem

theorem Neat.child {tree child : Tree} (h : tree.Neat) (hmem : child ∈ tree.children) :
    child.Neat := by
  cases tree with
  | token t => cases hmem
  | node kind children =>
    refine ⟨?_, h.regular.2.2.of_mem hmem, fun t ht => h.blank t (tokens_subset_of_mem hmem ht)⟩
    cases child with
    | token t => trivial
    | node kind children => exact (h.tidy.of_mem hmem).2

/-- The tree with its comments, but without its blanks. -/
def solid (tree : Tree) : Tree :=
  tree.bare Kind.isComment id

theorem kind_bare (keep : Kind → Bool) (tree : Tree) : (tree.bare keep id).kind = tree.kind := by
  cases tree <;> rfl

theorem isDropped_bare (keep : Kind → Bool) (tree : Tree) :
    (tree.bare keep id).isDropped keep = tree.isDropped keep := by
  cases tree <;> rfl

theorem eq_of_bare_eq_token {keep : Kind → Bool} {tree : Tree} {t : Token}
    (h : tree.bare keep id = token t) : tree = token t := by
  cases tree with
  | token t' => exact h
  | node kind children => cases h

mutual

theorem bare_bare (keep : Kind → Bool) (tree : Tree) :
    (tree.bare keep id).bare keep id = tree.bare keep id := by
  match tree with
  | token t => rfl
  | node kind children => rw [bare, bare, bareOf_bareOf keep children]

theorem bareOf_bareOf (keep : Kind → Bool) (row : List Tree) :
    bareOf keep id (bareOf keep id row) = bareOf keep id row := by
  match row with
  | [] => rfl
  | tree :: rest =>
    rw [bareOf]
    split
    · exact bareOf_bareOf keep rest
    · next hkept =>
      rw [bareOf, isDropped_bare, if_neg hkept, bare_bare keep tree, bareOf_bareOf keep rest]

end

/-! ### Bare trees are neat -/

mutual

theorem Tidy.bare {keep : Kind → Bool} {tree : Tree} (h : tree.Tidy) :
    (tree.bare keep id).Tidy := by
  match tree with
  | token t => trivial
  | node kind children =>
    refine ⟨?_, TidyAll.bareOf h.2⟩
    match children with
    | [] => nofun
    | first :: rest =>
      have hfirst : first.isTrivia = false := h.1 first rfl
      have htrivia : (first.bare keep id).isTrivia = first.isTrivia := by cases first <;> rfl
      rw [Tree.bareOf, if_neg (by rw [isDropped_of_visible hfirst]; exact Bool.false_ne_true)]
      rintro _ ⟨⟩
      rwa [htrivia]

theorem TidyAll.bareOf {keep : Kind → Bool} {row : List Tree} (h : TidyAll row) :
    TidyAll (Tree.bareOf keep id row) := by
  match row with
  | [] => trivial
  | tree :: rest =>
    rw [Tree.bareOf]
    split
    · exact TidyAll.bareOf h.2
    · exact ⟨Tidy.bare h.1, TidyAll.bareOf h.2⟩

end

theorem tokensOf_bareOf_id (keep : Kind → Bool) (row : List Tree) :
    tokensOf (bareOf keep id row) = solidTokens keep (tokensOf row) :=
  (tokensOf_bareOf keep id row).trans (List.map_id _)

theorem visibleKinds_bareOf (keep : Kind → Bool) (row : List Tree) :
    visibleKinds (bareOf keep id row) = visibleKinds row := by
  rw [visibleKinds, tokensOf_bareOf_id, visible_solidTokens, visibleKinds]

theorem allTokens_bareOf {keep : Kind → Bool} {row : List Tree} (h : allTokens row = true) :
    allTokens (bareOf keep id row) = true := by
  induction row with
  | nil => rfl
  | cons tree rest ih =>
    obtain ⟨hfirst, hrest⟩ := (Bool.and_eq_true _ _).mp h
    rw [bareOf]
    split
    · exact ih hrest
    · refine (Bool.and_eq_true _ _).mpr ⟨?_, ih hrest⟩
      cases tree with
      | token t => rfl
      | node kind children => cases hfirst

mutual

theorem Regular.bare {keep : Kind → Bool} {tree : Tree} (h : tree.Regular) :
    (tree.bare keep id).Regular := by
  match tree with
  | token t => exact h
  | node kind children =>
    refine ⟨h.1, fun hkind => ?_, RegularAll.bareOf h.2.2⟩
    rw [visibleKinds_bareOf]
    exact ⟨allTokens_bareOf (h.2.1 hkind).1, (h.2.1 hkind).2⟩

theorem RegularAll.bareOf {keep : Kind → Bool} {row : List Tree} (h : RegularAll row) :
    RegularAll (Tree.bareOf keep id row) := by
  match row with
  | [] => trivial
  | tree :: rest =>
    rw [Tree.bareOf]
    split
    · exact RegularAll.bareOf h.2
    · exact ⟨Regular.bare h.1, RegularAll.bareOf h.2⟩

end

theorem Neat.bare {keep : Kind → Bool} {tree : Tree} (h : tree.Neat) :
    (tree.bare keep id).Neat := by
  refine ⟨?_, h.regular.bare, fun t ht => h.blank t ?_⟩
  · cases tree with
    | token t => trivial
    | node kind children => exact TidyAll.bareOf h.tidy
  · cases tree with
    | token t => exact ht
    | node kind children =>
      rw [Tree.bare, tokens, tokensOf_bareOf_id] at ht
      exact (List.mem_filter.mp ht).1

end Tree

namespace Leaf

variable (keep : Kind → Bool)

theorem bare_cons (leaf : Leaf) (rest : List Leaf) :
    bare keep id (leaf :: rest) =
      if leaf.isDropped keep then bare keep id rest else leaf :: bare keep id rest := by
  by_cases hdropped : leaf.isDropped keep = true
  · simp [bare, hdropped]
  · cases leaf <;> simp [bare, hdropped, rewrite, Token.rewrite]

theorem solidTokens_beforeNext (before : List Token) (leaves : List Leaf) :
    solidTokens keep (Site.beforeNext before leaves) =
      Site.beforeNext (solidTokens keep before) (bare keep id leaves) := by
  induction leaves generalizing before with
  | nil => rfl
  | cons leaf rest ih =>
    rw [bare_cons]
    cases leaf with
    | gap => exact ih []
    | token t =>
      have hleaf : (Leaf.token t).isDropped keep = t.kind.isDropped keep := rfl
      rw [Site.beforeNext, hleaf]
      by_cases htrivia : t.kind.isTrivia = true
      · rw [if_pos htrivia, ih]
        by_cases hdropped : t.kind.isDropped keep = true
        · simp [solidTokens, hdropped]
        · simp [solidTokens, hdropped, Site.beforeNext, htrivia]
      · have hkept : t.kind.isDropped keep = false :=
          Kind.isDropped_of_visible (Bool.eq_false_iff.mpr htrivia)
        rw [if_neg htrivia, hkept, if_neg Bool.false_ne_true, Site.beforeNext, if_neg htrivia]
        exact ih []

end Leaf

namespace Site

/-- Two places that differ in offsets and in what is not kept only. -/
structure Alike (keep : Kind → Bool) (site other : Site) : Prop where
  tree : site.tree.bare keep id = other.tree.bare keep id
  before : solidTokens keep site.before = solidTokens keep other.before
  neat : site.tree.Neat
  neat_other : other.tree.Neat

variable {keep : Kind → Bool}

theorem alike_root {tree other : Tree} (h : tree.bare keep id = other.bare keep id)
    (hneat : tree.Neat) (hother : other.Neat) : (root tree).Alike keep (root other) :=
  ⟨h, rfl, hneat, hother⟩

def isSolid (keep : Kind → Bool) (site : Site) : Bool :=
  !site.tree.isDropped keep

def rowOf (before : List Token) : List Tree → List (Tree × List Token)
  | [] => []
  | tree :: rest => (tree, before) :: rowOf (beforeNext before tree.leaves) rest

theorem map_sitesOf (start : Nat) (before : List Token) {row : List Tree}
    (htidy : Tree.TidyAll row) :
    ((sitesOf start before row).filter (isSolid keep)).map
        (fun site => (site.tree.bare keep id, solidTokens keep site.before)) =
      rowOf (solidTokens keep before) (Tree.bareOf keep id row) := by
  induction row generalizing start before with
  | nil => rfl
  | cons tree rest ih =>
    rw [sitesOf, Tree.bareOf]
    have hrest := ih (start + tree.size) (beforeNext before tree.leaves) htidy.2
    split
    · next hdropped =>
      have hblank : ¬(Site.mk tree start before).isSolid keep = true := by simp [isSolid, hdropped]
      have hbefore : solidTokens keep (beforeNext before tree.leaves) =
        solidTokens keep before := by
        cases tree with
        | node kind children => cases hdropped
        | token t =>
          have hleaf : (Leaf.token t).isDropped keep = true := hdropped
          rw [Leaf.solidTokens_beforeNext, Tree.leaves, Leaf.bare_cons, if_pos hleaf]
          rfl
      rw [List.filter_cons_of_neg hblank, hrest, hbefore]
    · next hkept =>
      have hsolid : (Site.mk tree start before).isSolid keep = true := by simp [isSolid, hkept]
      have hleaves := Tree.leaves_bare keep id htidy.1 (Bool.eq_false_iff.mpr hkept)
      rw [List.filter_cons_of_pos hsolid, List.map_cons, hrest, rowOf, hleaves,
        Leaf.solidTokens_beforeNext]

theorem bareOf_children (tree : Tree) :
    Tree.bareOf keep id tree.children = (tree.bare keep id).children := by
  cases tree <;> rfl

theorem Alike.solidChildren {site other : Site} (h : site.Alike keep other) :
    List.Forall₂ (Alike keep) (site.children.filter (isSolid keep))
      (other.children.filter (isSolid keep)) := by
  have hmem {site child : Site} (hneat : site.tree.Neat)
      (hchild : child ∈ site.children.filter (isSolid keep)) : child.tree.Neat :=
    hneat.child (tree_mem_of_mem_sitesOf (List.mem_filter.mp hchild).1)
  have hrow := (map_sitesOf site.start site.before h.neat.tidy).trans
    (((congrArg₂ rowOf h.before
      ((bareOf_children _).trans
        ((congrArg Tree.children h.tree).trans (bareOf_children _).symm))).trans
        (map_sitesOf other.start other.before h.neat_other.tidy).symm))
  rw [← List.forall₂_eq_eq_eq, List.forall₂_map_left_iff, List.forall₂_map_right_iff] at hrow
  have hboth := forall₂_and hrow (fun child hchild => hmem h.neat hchild)
    fun child hchild => hmem h.neat_other hchild
  refine hboth.imp fun child other hlike => ?_
  obtain ⟨hneat, hneat', heq⟩ := hlike
  exact ⟨(Prod.ext_iff.mp heq).1, (Prod.ext_iff.mp heq).2, hneat, hneat'⟩

end Site

end Ili
