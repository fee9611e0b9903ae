import Ili.Proofs.Grammar.Paths
import Ili.Tree.View

/-!
# Where sites stand

The children of a site stand one behind the other inside it. Going down from the root of the tree of
a text one only comes to sites that begin and end between characters of the text.
-/

namespace Ili

theorem LineIndex.position_le {text : String} {first second : Nat}
    (hfirst : IsBoundary text first) (hsecond : IsBoundary text second) (hle : first ≤ second) :
    (ofText text).position first ≤ (ofText text).position second := by
  rcases Nat.eq_or_lt_of_le hle with rfl | hlt
  · exact Position.le_refl _
  · have hnot := not_position_le hfirst hsecond hlt
    rw [Position.le_def] at hnot ⊢
    omega

namespace Site

inductive Within (outer : Site) : Site → Prop
  | refl : Within outer outer
  | child {site child : Site} (h : Within outer site) (hchild : child ∈ site.children) :
      Within outer child

theorem Within.trans {outer middle inner : Site} (h : outer.Within middle)
    (hinner : middle.Within inner) : outer.Within inner := by
  induction hinner with
  | refl => exact h
  | child _ hchild ih => exact ih.child hchild

theorem Within.of_child {site child : Site} (h : child ∈ site.children) : site.Within child :=
  Within.refl.child h

theorem mem_children_of_childrenOf {site child : Site} {kind : Kind}
    (h : child ∈ site.childrenOf kind) : child ∈ site.children :=
  (List.mem_filter.mp h).1

theorem mem_children_of_child? {site child : Site} {kind : Kind}
    (h : site.child? kind = some child) : child ∈ site.children :=
  List.mem_of_find?_eq_some h

theorem kind_of_mem_childrenOf {site child : Site} {kind : Kind}
    (h : child ∈ site.childrenOf kind) : child.kind = kind :=
  beq_iff_eq.mp (List.mem_filter.mp h).2

theorem kind_of_child? {site child : Site} {kind : Kind} (h : site.child? kind = some child) :
    child.kind = kind := by
  rw [child?] at h
  have hkind := List.find?_some h
  exact beq_iff_eq.mp hkind

theorem within_of_nameToken? {site token : Site} (h : site.nameToken? = some token) :
    site.Within token := by
  obtain ⟨name, hname, htoken⟩ := Option.bind_eq_some_iff.mp h
  exact (Within.of_child (mem_children_of_child? hname)).child (mem_children_of_child? htoken)

theorem bounds_of_mem_sitesOf {start : Nat} {before : List Token} {row : List Tree} {site : Site}
    (h : site ∈ sitesOf start before row) :
    start ≤ site.start ∧ site.stop ≤ start + Tree.sizeOfAll row := by
  induction row generalizing start before with
  | nil => cases h
  | cons tree rest ih =>
    rw [Tree.sizeOfAll]
    rcases List.mem_cons.mp h with rfl | h
    · exact ⟨Nat.le_refl _, by rw [stop]; dsimp only; omega⟩
    · have := ih h
      omega

theorem pairwise_sitesOf (start : Nat) (before : List Token) (row : List Tree) :
    (sitesOf start before row).Pairwise fun site next => site.stop ≤ next.start := by
  induction row generalizing start before with
  | nil => exact .nil
  | cons tree rest ih =>
    exact .cons (fun next hnext => (bounds_of_mem_sitesOf hnext).1) (ih _ _)

theorem pairwise_children (site : Site) :
    site.children.Pairwise fun child next => child.stop ≤ next.start :=
  pairwise_sitesOf ..

theorem start_le_stop (site : Site) : site.start ≤ site.stop :=
  Nat.le_add_right ..

theorem bounds_of_mem_children {site child : Site} (h : child ∈ site.children) :
    site.start ≤ child.start ∧ child.stop ≤ site.stop := by
  obtain ⟨tree, start, before⟩ := site
  cases tree with
  | token t => cases h
  | node kind row => exact bounds_of_mem_sitesOf h

theorem Within.bounds {outer site : Site} (h : outer.Within site) :
    outer.start ≤ site.start ∧ site.stop ≤ outer.stop := by
  induction h with
  | refl => exact ⟨Nat.le_refl _, Nat.le_refl _⟩
  | child _ hchild ih =>
    have hbounds := bounds_of_mem_children hchild
    omega

/-- The tokens of the site are a run of these tokens, and it starts where the run does. -/
def CutFrom (tokens : List Token) (site : Site) : Prop :=
  ∃ left right, tokens = left ++ site.tree.tokens ++ right ∧
    site.start = utf8Length (spelling left)

theorem cutFrom_of_mem_sitesOf {left right : List Token} {before : List Token} {row : List Tree}
    {site : Site} (h : site ∈ sitesOf (utf8Length (spelling left)) before row) :
    site.CutFrom (left ++ Tree.tokensOf row ++ right) := by
  induction row generalizing left before with
  | nil => cases h
  | cons tree rest ih =>
    rw [Tree.tokensOf]
    rcases List.mem_cons.mp h with rfl | h
    · exact ⟨left, Tree.tokensOf rest ++ right, by simp only [List.append_assoc], rfl⟩
    · rw [Tree.size_eq, ← utf8Length_append, ← spelling_append] at h
      have hcut := ih h
      simpa only [List.append_assoc] using hcut

theorem CutFrom.child {tokens : List Token} {site child : Site} (h : site.CutFrom tokens)
    (hchild : child ∈ site.children) : child.CutFrom tokens := by
  obtain ⟨left, right, rfl, hstart⟩ := h
  obtain ⟨tree, start, before⟩ := site
  obtain rfl : start = utf8Length (spelling left) := hstart
  cases tree with
  | token t => cases hchild
  | node kind row => exact cutFrom_of_mem_sitesOf hchild

theorem cutFrom_of_within {tree : Tree} {site : Site} (h : (root tree).Within site) :
    site.CutFrom tree.tokens := by
  induction h with
  | refl => exact ⟨[], [], by rw [List.append_nil]; rfl, rfl⟩
  | child _ hchild ih => exact ih.child hchild

theorem isBoundary_of_within {text : String} {site : Site}
    (h : (root (parse text).tree).Within site) :
    IsBoundary text site.start ∧ IsBoundary text site.stop := by
  obtain ⟨left, right, htokens, hstart⟩ := cutFrom_of_within h
  have htext := spelling_tokens_parse text
  rw [htokens] at htext
  constructor
  · refine ⟨spelling left, ⟨spelling (site.tree.tokens ++ right), ?_⟩, hstart.symm⟩
    rw [← htext, ← spelling_append, List.append_assoc]
  · refine ⟨spelling (left ++ site.tree.tokens), ⟨spelling right, ?_⟩, ?_⟩
    · rw [← htext, ← spelling_append]
    · rw [stop, hstart, Tree.size_eq, ← utf8Length_append, ← spelling_append]

end Site

end Ili
