import Ili.Proofs.Catalog.Likeness
import Ili.Proofs.Grammar.Refilling
import Ili.Proofs.Tree.Sequence

/-!
# Going down to a place

Going down from a site one passes a frame at each step: the node one is in, and what stands in it on
the left and on the right of where one goes. Blanks and comments are left out of frames, so through
the same frames one goes down in any tree that is the same but for them and for what stands at the
end of the way. The frames tell which child is found by its kind, and how many tokens stand in front
of the place one comes to.
-/

namespace Ili

namespace Tree

variable {keep : Kind → Bool} {row left right : List Tree} {tree : Tree}

theorem mem_bareOf (htree : tree ∈ row) (hkept : tree.isDropped keep = false) :
    tree.bare keep id ∈ bareOf keep id row := by
  obtain ⟨front, back, rfl⟩ := List.append_of_mem htree
  rw [bareOf_append, bareOf, if_neg (Bool.eq_false_iff.mp hkept)]
  exact List.mem_append_right _ List.mem_cons_self

theorem exists_of_bareOf_eq (h : bareOf keep id row = left ++ tree :: right) :
    ∃ front found back, row = front ++ found :: back ∧ bareOf keep id front = left ∧
      found.isDropped keep = false ∧ found.bare keep id = tree ∧ bareOf keep id back = right := by
  induction row generalizing left with
  | nil => simp [bareOf] at h
  | cons first rest ih =>
    rw [bareOf] at h
    split at h
    · next hdropped =>
      obtain ⟨front, found, back, rfl, hfront, hrest⟩ := ih h
      refine ⟨first :: front, found, back, rfl, ?_, hrest⟩
      rw [bareOf, if_pos hdropped, hfront]
    · next hkept =>
      cases left with
      | nil =>
        obtain ⟨htree, hright⟩ := List.cons.inj h
        exact ⟨[], first, rest, rfl, rfl, Bool.eq_false_iff.mpr hkept, htree, hright⟩
      | cons other left =>
        obtain ⟨hother, hrest⟩ := List.cons.inj h
        obtain ⟨front, found, back, rfl, hfront, hfound⟩ := ih hrest
        refine ⟨first :: front, found, back, rfl, ?_, hfound⟩
        rw [bareOf, if_neg hkept, hfront, hother]

end Tree

namespace Site

variable {site child inner : Site} {frame : Frame} {frames others : List Frame}

def Passes (site : Site) (frame : Frame) (child : Site) : Prop :=
  site.kind = frame.kind ∧ ∃ left right, site.children = left ++ child :: right ∧
    Tree.bareOf Kind.isNothing id (left.map tree) = frame.left ∧
    Tree.bareOf Kind.isNothing id (right.map tree) = frame.right

/-- Going down from the site through these frames one comes to the inner one. -/
inductive Leads : Site → List Frame → Site → Prop
  | refl (site : Site) : Leads site [] site
  | step {site child inner : Site} {frame : Frame} {frames : List Frame}
      (hpasses : site.Passes frame child) (h : Leads child frames inner) :
      Leads site (frame :: frames) inner

/-! ### One step -/

theorem Passes.mem (h : site.Passes frame child) : child ∈ site.children := by
  obtain ⟨-, left, right, hchildren, -⟩ := h
  rw [hchildren]
  exact List.mem_append_right _ List.mem_cons_self

theorem exists_passes (h : child ∈ site.children) : ∃ frame, site.Passes frame child := by
  obtain ⟨left, right, hchildren⟩ := List.append_of_mem h
  exact ⟨⟨_, site.kind, _⟩, rfl, left, right, hchildren, rfl, rfl⟩

theorem tree_eq_node_of_mem (h : child ∈ site.children) :
    site.tree = .node site.kind (site.children.map tree) := by
  rw [children, map_tree_sitesOf]
  obtain ⟨tree, start, before⟩ := site
  cases tree with
  | token t => cases h
  | node kind row => rfl

theorem Passes.bare_eq (h : site.Passes frame child)
    (hkept : child.tree.isDropped Kind.isNothing = false) :
    site.tree.bare Kind.isNothing id = frame.fill (child.tree.bare Kind.isNothing id) := by
  rw [tree_eq_node_of_mem h.mem]
  obtain ⟨hkind, left, right, hchildren, hleft, hright⟩ := h
  rw [hchildren, List.map_append, List.map_cons, Tree.bare, Tree.bareOf_append, Tree.bareOf,
    if_neg (Bool.eq_false_iff.mp hkept), hleft, hright, hkind, Frame.fill]

theorem exists_passes_of_bare_eq {tree : Tree}
    (h : site.tree.bare Kind.isNothing id = frame.fill tree) :
    ∃ child, site.Passes frame child ∧ child.tree.isDropped Kind.isNothing = false ∧
      child.tree.bare Kind.isNothing id = tree := by
  have hkind : site.kind = frame.kind := by
    rw [kind, ← Tree.kind_bare Kind.isNothing, h]
    rfl
  have hrow : Tree.bareOf Kind.isNothing id site.tree.children =
      frame.left ++ tree :: frame.right := by
    rw [bareOf_children, h]
    rfl
  obtain ⟨front, found, back, hchildren, hleft, hkept, hfound, hright⟩ :=
    Tree.exists_of_bareOf_eq hrow
  have hsites : site.children.map Site.tree = front ++ found :: back := by
    rw [children, map_tree_sitesOf, hchildren]
  obtain ⟨left, _, hsplit, rfl, hbehind⟩ := List.map_eq_append_iff.mp hsites
  obtain ⟨child, right, rfl, rfl, rfl⟩ := List.map_eq_cons_iff.mp hbehind
  exact ⟨child, ⟨hkind, left, right, hsplit, hleft, hright⟩, hkept, hfound⟩

theorem exists_passes_of_find? {p : Kind → Bool}
    (h : site.children.find? (fun c => p c.kind) = some child) :
    ∃ frame, site.Passes frame child ∧ ∀ tree ∈ frame.left, p tree.kind = false := by
  obtain ⟨-, left, right, hchildren, hleft⟩ := List.find?_eq_some_iff_append.mp h
  refine ⟨⟨_, site.kind, _⟩, ⟨rfl, left, right, hchildren, rfl, rfl⟩, fun tree htree => ?_⟩
  obtain ⟨front, back, hsplit⟩ := List.append_of_mem htree
  obtain ⟨_, found, _, hrow, -, -, rfl, -⟩ := Tree.exists_of_bareOf_eq hsplit
  have hmem : found ∈ left.map Site.tree := by
    rw [hrow]
    exact List.mem_append_right _ List.mem_cons_self
  obtain ⟨c, hc, rfl⟩ := List.mem_map.mp hmem
  have hnot := hleft c hc
  rw [Bool.not_eq_true'] at hnot
  rw [Tree.kind_bare]
  exact hnot

theorem Passes.find?_eq {p : Kind → Bool} (h : site.Passes frame child)
    (hleft : ∀ tree ∈ frame.left, p tree.kind = false)
    (htrivia : ∀ kind, kind.isTrivia = true → p kind = false) (hchild : p child.kind = true) :
    site.children.find? (fun c => p c.kind) = some child := by
  obtain ⟨-, left, right, hchildren, hrow, -⟩ := h
  refine List.find?_eq_some_iff_append.mpr ⟨hchild, left, right, hchildren, fun c hc => ?_⟩
  rw [Bool.not_eq_true']
  cases hdropped : c.tree.isDropped Kind.isNothing with
  | false =>
    rw [← hrow] at hleft
    have hmem := hleft _ (Tree.mem_bareOf (List.mem_map_of_mem hc) hdropped)
    rwa [Tree.kind_bare] at hmem
  | true =>
    refine htrivia _ ?_
    obtain ⟨tree, start, before⟩ := c
    cases tree with
    | node kind row => cases hdropped
    | token t => exact ((Bool.and_eq_true _ _).mp hdropped).1

theorem start_of_sitesOf {start : Nat} {before : List Token} {row : List Tree}
    {left right : List Site} (h : sitesOf start before row = left ++ child :: right) :
    child.start = start + Tree.sizeOfAll (left.map tree) := by
  induction row generalizing start before left with
  | nil => simp [sitesOf] at h
  | cons tree rest ih =>
    rw [sitesOf] at h
    cases left with
    | nil => rw [← (List.cons.inj h).1]; rfl
    | cons first left =>
      obtain ⟨rfl, hrest⟩ := List.cons.inj h
      rw [ih hrest, List.map_cons, Tree.sizeOfAll, Nat.add_assoc]

theorem Passes.tokens_eq (h : site.Passes frame child) :
    ∃ front back, site.tree.tokens = front ++ child.tree.tokens ++ back ∧
      child.start = site.start + utf8Length (spelling front) ∧
      (visible front).length = (Tree.tokensOf frame.left).length := by
  have htree := tree_eq_node_of_mem h.mem
  obtain ⟨-, left, right, hchildren, hleft, -⟩ := h
  refine ⟨Tree.tokensOf (left.map Site.tree), Tree.tokensOf (right.map Site.tree), ?_, ?_, ?_⟩
  · rw [htree, hchildren, List.map_append, List.map_cons, Tree.tokens, Tree.tokensOf_append,
      Tree.tokensOf, List.append_assoc]
  · rw [children] at hchildren
    rw [start_of_sitesOf hchildren, Tree.sizeOfAll_eq]
  · rw [← hleft, Tree.tokensOf_bareOf_id, solidTokens_isNothing]

/-! ### The whole way -/

theorem Leads.within (h : site.Leads frames inner) : site.Within inner := by
  induction h with
  | refl site => exact .refl
  | step hpasses _ ih => exact (Within.of_child hpasses.mem).trans ih

theorem Leads.append {last : Site} (h : site.Leads frames inner) (hrest : inner.Leads others last) :
    site.Leads (frames ++ others) last := by
  induction h with
  | refl site => exact hrest
  | step hpasses _ ih => exact .step hpasses (ih hrest)

theorem Leads.split (h : site.Leads (frames ++ others) inner) :
    ∃ middle, site.Leads frames middle ∧ middle.Leads others inner := by
  induction frames generalizing site with
  | nil => exact ⟨site, .refl site, h⟩
  | cons frame frames ih =>
    cases h with
    | step hpasses hrest =>
      obtain ⟨middle, hleads, hmiddle⟩ := ih hrest
      exact ⟨middle, .step hpasses hleads, hmiddle⟩

theorem Leads.kind_eq (h : site.Leads (frame :: frames) inner) : site.kind = frame.kind := by
  cases h with
  | step hpasses _ => exact hpasses.1

theorem exists_leads_of_within (h : site.Within inner) : ∃ frames, site.Leads frames inner := by
  induction h with
  | refl => exact ⟨[], .refl site⟩
  | @child middle inner _ hchild ih =>
    obtain ⟨frames, hleads⟩ := ih
    obtain ⟨frame, hpasses⟩ := exists_passes hchild
    exact ⟨_, hleads.append (.step hpasses (.refl inner))⟩

theorem Leads.bare_eq (h : site.Leads frames inner)
    (hkept : inner.tree.isDropped Kind.isNothing = false) :
    site.tree.bare Kind.isNothing id =
      Frame.fillAll frames (inner.tree.bare Kind.isNothing id) := by
  have hboth : site.tree.isDropped Kind.isNothing = false ∧ site.tree.bare Kind.isNothing id =
      Frame.fillAll frames (inner.tree.bare Kind.isNothing id) := by
    induction h with
    | refl site => exact ⟨hkept, rfl⟩
    | step hpasses _ ih =>
      obtain ⟨hchild, hbare⟩ := ih hkept
      refine ⟨?_, ?_⟩
      · rw [tree_eq_node_of_mem hpasses.mem]
        rfl
      · rw [hpasses.bare_eq hchild, hbare, Frame.fillAll_cons]
  exact hboth.2

theorem exists_leads_of_bare_eq {tree : Tree}
    (h : site.tree.bare Kind.isNothing id = Frame.fillAll frames tree) :
    ∃ inner, site.Leads frames inner ∧ inner.tree.bare Kind.isNothing id = tree := by
  induction frames generalizing site with
  | nil => exact ⟨site, .refl site, h⟩
  | cons frame frames ih =>
    obtain ⟨child, hpasses, -, hchild⟩ := exists_passes_of_bare_eq h
    obtain ⟨inner, hleads, hinner⟩ := ih hchild
    exact ⟨inner, .step hpasses hleads, hinner⟩

/-- The frames say how many visible tokens stand in front of the inner site. -/
theorem Leads.tokens_eq (h : site.Leads frames inner) :
    ∃ front back, site.tree.tokens = front ++ inner.tree.tokens ++ back ∧
      inner.start = site.start + utf8Length (spelling front) ∧
      (visible front).length = Frame.countBefore frames := by
  induction h with
  | refl site => exact ⟨[], [], by simp, rfl, rfl⟩
  | step hpasses _ ih =>
    obtain ⟨front, back, htokens, hstart, hcount⟩ := hpasses.tokens_eq
    obtain ⟨front', back', htokens', hstart', hcount'⟩ := ih
    refine ⟨front ++ front', back' ++ back, ?_, ?_, ?_⟩
    · rw [htokens, htokens']
      simp only [List.append_assoc]
    · rw [hstart', hstart, spelling_append, utf8Length_append, Nat.add_assoc]
    · rw [visible_append, List.length_append, hcount, hcount', Frame.countBefore,
        Frame.countBefore, List.flatMap_cons, List.length_append]

end Site

end Ili
