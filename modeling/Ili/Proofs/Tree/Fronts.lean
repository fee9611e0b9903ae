import Ili.Proofs.Grammar.Openings
import Ili.Proofs.Layout.Attachment
import Ili.Proofs.Tree.Sites

/-!
# What stands in front of a site

The leaves of a tree fall into those in front of a site, its own, and those behind it. Where the
site begins and which blanks and comments are seen in front of it can be read off the first ones. As
no blank or comment stands directly behind a gap, only two things can be: a gap ends these leaves
and nothing is seen, or all blanks and comments back to the token or gap before them are seen.
-/

namespace Ili

namespace Leaf

/-- A gap stands at this byte of the text that the leaves spell. -/
def HasGapAt (leaves : List Leaf) (offset : Nat) : Prop :=
  ∃ left right, leaves = left ++ .gap :: right ∧ utf8Length (spelling (tokensOf left)) = offset

theorem Snug.left_of_append {left right : List Leaf} (h : Snug (left ++ right)) : Snug left :=
  List.IsChain.left_of_append h

theorem Snug.getLast?_ne_gap {leaves : List Leaf} {t : Token} (h : Snug (leaves ++ [.token t]))
    (htrivia : t.kind.isTrivia = true) : leaves.getLast? ≠ some .gap := by
  intro hlast
  have hvisible : t.kind.isTrivia = false :=
    (List.isChain_append.mp h).2.2 .gap hlast (.token t) rfl rfl
  rw [htrivia] at hvisible
  cases hvisible

theorem eq_nil_of_getLast?_ne_gap {front gaps : List Leaf} (hgaps : ∀ leaf ∈ gaps, leaf = .gap)
    (hlast : (front ++ gaps).getLast? ≠ some .gap) : gaps = [] := by
  cases gaps using List.reverseRecOn with
  | nil => rfl
  | append_singleton gaps leaf =>
    obtain rfl := hgaps leaf (List.mem_append_right _ (List.mem_singleton.mpr rfl))
    exact absurd (by simp) hlast

/-- Between blanks and comments and what stands in front of them, and among them, there is no gap;
gaps can only follow. -/
theorem Snug.exists_front {leaves : List Leaf} (h : Snug leaves) {tokens row : List Token}
    (htokens : tokensOf leaves = tokens ++ row) (hrow : ∀ t ∈ row, t.kind.isTrivia = true) :
    ∃ front gaps, leaves = front ++ row.map .token ++ gaps ∧ tokensOf front = tokens ∧
      ∀ leaf ∈ gaps, leaf = .gap := by
  induction leaves using List.reverseRecOn generalizing row with
  | nil =>
    obtain ⟨rfl, rfl⟩ := List.append_eq_nil_iff.mp htokens.symm
    exact ⟨[], [], rfl, rfl, nofun⟩
  | append_singleton leaves leaf ih =>
    rw [tokensOf_append] at htokens
    cases leaf with
    | gap =>
      obtain ⟨front, gaps, rfl, hfront, hgaps⟩ :=
        ih h.left_of_append ((List.append_nil _).symm.trans htokens) hrow
      refine ⟨front, gaps ++ [.gap], List.append_assoc .., hfront, fun leaf hleaf => ?_⟩
      exact (List.mem_append.mp hleaf).elim (hgaps leaf) List.mem_singleton.mp
    | token t =>
      cases row using List.reverseRecOn with
      | nil =>
        refine ⟨leaves ++ [.token t], [], by simp, ?_, nofun⟩
        rwa [List.append_nil, ← tokensOf_append] at htokens
      | append_singleton row last =>
        rw [← List.append_assoc] at htokens
        obtain ⟨hinit, hlast⟩ := List.append_inj' htokens rfl
        obtain rfl : t = last := (List.cons.inj hlast).1
        have htrivia := hrow t (List.mem_append_right _ (List.mem_singleton.mpr rfl))
        obtain ⟨front, gaps, rfl, hfront, hgaps⟩ :=
          ih h.left_of_append hinit fun s hs => hrow s (List.mem_append_left _ hs)
        obtain rfl := eq_nil_of_getLast?_ne_gap hgaps (h.getLast?_ne_gap htrivia)
        exact ⟨front, [], by simp, hfront, nofun⟩

theorem getLast?_of_tokensOf_eq_nil {leaves : List Leaf} (front : List Leaf)
    (h : tokensOf leaves = []) : (front ++ .gap :: leaves).getLast? = some .gap := by
  cases leaves using List.reverseRecOn with
  | nil => rw [List.getLast?_append_cons, List.getLast?_singleton]
  | append_singleton leaves leaf =>
    cases leaf with
    | gap => rw [← List.cons_append, ← List.append_assoc, List.getLast?_concat]
    | token t => simp [tokensOf] at h

/-- In front of a token a gap stands just when the leaves there end with one, provided that no token
is empty. -/
theorem hasGapAt_iff {left right : List Leaf} {t : Token}
    (hsolid : ∀ s ∈ tokensOf (left ++ .token t :: right), s.text ≠ "") :
    HasGapAt (left ++ .token t :: right) (utf8Length (spelling (tokensOf left))) ↔
      left.getLast? = some .gap := by
  constructor
  · rintro ⟨front, back, hsplit, hoffset⟩
    rcases List.append_eq_append_iff.mp hsplit with ⟨between, rfl, hback⟩ | ⟨between, rfl, hback⟩
    · -- The gap would stand behind the token.
      cases between with
      | nil => cases hback
      | cons leaf between =>
        obtain rfl := (List.cons.inj hback).1
        have hpos : 0 < utf8Length (spelling (tokensOf (.token t :: between))) := by
          have htext : t.text ≠ "" := hsolid t (by simp [tokensOf])
          refine utf8Length_pos fun hnil => htext ?_
          rw [tokensOf_cons_token, spelling_cons] at hnil
          exact String.toList_eq_nil_iff.mp (List.append_eq_nil_iff.mp hnil).1
        rw [tokensOf_append, spelling_append, utf8Length_append] at hoffset
        omega
    · cases between with
      | nil => cases hback
      | cons leaf between =>
        obtain rfl := (List.cons.inj hback).1
        rw [tokensOf_append, tokensOf_cons_gap, spelling_append, utf8Length_append] at hoffset
        refine getLast?_of_tokensOf_eq_nil front (List.eq_nil_iff_forall_not_mem.mpr fun s hs => ?_)
        have hmem : s ∈ tokensOf ((front ++ .gap :: between) ++ .token t :: right) := by
          rw [tokensOf_append, tokensOf_append, tokensOf_cons_gap]
          simp only [List.mem_append, hs, or_true, true_or]
        have hpos : 0 < utf8Length (spelling (tokensOf between)) := by
          refine utf8Length_pos fun hnil => hsolid s hmem ?_
          exact String.toList_eq_nil_iff.mp (List.flatMap_eq_nil_iff.mp hnil s hs)
        omega
  · intro hlast
    obtain ⟨front, rfl⟩ := List.getLast?_eq_some_iff.mp hlast
    refine ⟨front, .token t :: right, by simp, ?_⟩
    rw [tokensOf_append, tokensOf_cons_gap]
    simp [tokensOf]

end Leaf

theorem Tree.OpensWithToken.leaves_eq {tree : Tree} (h : tree.OpensWithToken) :
    ∃ token rest, tree.leaves = .token token :: rest := by
  obtain ⟨token, rest, hchildren, -⟩ := h
  cases tree with
  | token s => cases hchildren
  | node kind row =>
    obtain rfl : row = _ := hchildren
    exact ⟨token, Tree.leavesOf rest, rfl⟩

namespace Site

theorem beforeNext_append (before : List Token) (left right : List Leaf) :
    beforeNext before (left ++ right) = beforeNext (beforeNext before left) right := by
  induction left generalizing before with
  | nil => rfl
  | cons leaf rest ih =>
    cases leaf with
    | gap => exact ih []
    | token t =>
      simp only [List.cons_append, beforeNext, ih]
      split <;> rfl

theorem beforeNext_map_token (before : List Token) {row : List Token}
    (h : ∀ t ∈ row, t.kind.isTrivia = true) :
    beforeNext before (row.map .token) = row.reverse ++ before := by
  induction row generalizing before with
  | nil => rfl
  | cons t rest ih =>
    obtain ⟨ht, hrest⟩ := List.forall_mem_cons.mp h
    rw [List.map_cons, beforeNext, if_pos ht, ih _ hrest, List.reverse_cons, List.append_assoc]
    rfl

theorem beforeNext_prefix (leaves : List Leaf) :
    beforeNext [] leaves <+:
      (Leaf.tokensOf leaves).reverse.takeWhile fun t => t.kind.isTrivia := by
  induction leaves using List.reverseRecOn with
  | nil => exact List.prefix_rfl
  | append_singleton leaves leaf ih =>
    rw [beforeNext_append, Leaf.tokensOf_append, List.reverse_append]
    cases leaf with
    | gap => exact List.nil_prefix
    | token t =>
      rw [beforeNext, Leaf.tokensOf_cons_token]
      split
      · next htrivia =>
        change t :: beforeNext [] leaves <+: List.takeWhile _ (t :: (Leaf.tokensOf leaves).reverse)
        rw [List.takeWhile_cons, if_pos htrivia]
        exact (List.prefix_cons_inj t).mpr ih
      · exact List.nil_prefix

/-- Behind a row of blanks and comments either a gap ends the leaves and nothing is seen, or this
row is seen, and what is seen in front of it. -/
theorem beforeNext_eq {leaves : List Leaf} (h : Leaf.Snug leaves) {tokens row : List Token}
    (htokens : Leaf.tokensOf leaves = tokens ++ row) (hrow : ∀ t ∈ row, t.kind.isTrivia = true) :
    if leaves.getLast? = some .gap then beforeNext [] leaves = []
    else ∃ further, beforeNext [] leaves = row.reverse ++ further ∧
      further <+: tokens.reverse.takeWhile fun t => t.kind.isTrivia := by
  split
  · next hlast =>
    obtain ⟨front, rfl⟩ := List.getLast?_eq_some_iff.mp hlast
    rw [beforeNext_append]
    rfl
  · next hlast =>
    obtain ⟨front, gaps, rfl, rfl, hgaps⟩ := h.exists_front htokens hrow
    obtain rfl := Leaf.eq_nil_of_getLast?_ne_gap hgaps hlast
    rw [List.append_nil, beforeNext_append, beforeNext_map_token _ hrow]
    exact ⟨beforeNext [] front, rfl, beforeNext_prefix front⟩

structure StandsBehind (site : Site) (left leaves : List Leaf) : Prop where
  among : left ++ site.tree.leaves <+: leaves
  start : site.start = utf8Length (spelling (Leaf.tokensOf left))
  before : site.before = beforeNext [] left

theorem exists_standsBehind_of_mem_sitesOf {row : List Tree} {left : List Leaf} {site : Site}
    (h : site ∈ sitesOf (utf8Length (spelling (Leaf.tokensOf left))) (beforeNext [] left) row) :
    ∃ front, site.StandsBehind front (left ++ Tree.leavesOf row) := by
  induction row generalizing left with
  | nil => cases h
  | cons tree rest ih =>
    rw [Tree.leavesOf, ← List.append_assoc]
    rcases List.mem_cons.mp h with rfl | h
    · exact ⟨left, List.prefix_append .., rfl, rfl⟩
    · rw [Tree.size_eq, ← Tree.tokensOf_leaves, ← utf8Length_append, ← spelling_append,
        ← Leaf.tokensOf_append, ← beforeNext_append] at h
      exact ih h

theorem StandsBehind.child {site child : Site} {left leaves : List Leaf}
    (h : site.StandsBehind left leaves) (hchild : child ∈ site.children) :
    ∃ front, child.StandsBehind front leaves := by
  obtain ⟨tree, start, before⟩ := site
  obtain ⟨hamong, rfl, rfl⟩ := h
  cases tree with
  | token t => cases hchild
  | node kind row =>
    have hrow : row ≠ [] := by
      rintro rfl
      cases hchild
    obtain ⟨front, hfront⟩ := exists_standsBehind_of_mem_sitesOf hchild
    rw [Tree.leaves_node kind hrow] at hamong
    exact ⟨front, hfront.among.trans hamong, hfront.start, hfront.before⟩

theorem exists_standsBehind {tree : Tree} {site : Site} (h : (root tree).Within site) :
    ∃ left, site.StandsBehind left tree.leaves := by
  induction h with
  | refl => exact ⟨[], List.prefix_rfl, rfl, rfl⟩
  | child _ hchild ih =>
    obtain ⟨left, hleft⟩ := ih
    exact hleft.child hchild

/-- A site that opens with a token stands at a gap just when the leaves in front of it end with
one. -/
theorem StandsBehind.hasGapAt_iff {site : Site} {left leaves : List Leaf}
    (h : site.StandsBehind left leaves) (hopens : site.tree.OpensWithToken)
    (hsolid : ∀ t ∈ Leaf.tokensOf leaves, t.text ≠ "") :
    Leaf.HasGapAt leaves site.start ↔ left.getLast? = some .gap := by
  obtain ⟨⟨right, rfl⟩, hstart, -⟩ := h
  obtain ⟨token, rest, hleaves⟩ := hopens.leaves_eq
  rw [hleaves, List.append_assoc, List.cons_append] at hsolid ⊢
  rw [hstart]
  exact Leaf.hasGapAt_iff hsolid

end Site

end Ili
