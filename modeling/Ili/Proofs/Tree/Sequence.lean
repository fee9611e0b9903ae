import Ili.Proofs.Grammar.Nesting
import Ili.Proofs.Tree.Sites
import Mathlib.Data.List.Pairwise

/-!
# Sites one behind the other

What is picked from the children of a site, and from what is picked the same way, stands one behind
the other as long as it is picked in the order of the text. Where it is picked by kind, the order in
which the grammar arranges nodes decides.
-/

namespace Ili.Site

open scoped List

/-- The sites stand below the outer one, one behind the other. -/
structure Sequence (outer : Site) (sites : List Site) : Prop where
  within : ∀ site ∈ sites, outer.Within site
  ordered : sites.Pairwise fun site next => site.stop ≤ next.start

section Sequences

variable {outer inner : Site} {sites others : List Site}

theorem sequence_nil (outer : Site) : outer.Sequence [] :=
  ⟨nofun, .nil⟩

theorem sequence_children (site : Site) : site.Sequence site.children :=
  ⟨fun _ => Within.of_child, site.pairwise_children⟩

theorem Sequence.sublist (h : outer.Sequence sites) (hsublist : others <+ sites) :
    outer.Sequence others :=
  ⟨fun site hsite => h.within site (hsublist.subset hsite), h.ordered.sublist hsublist⟩

theorem Sequence.of_within (h : inner.Sequence sites) (hinner : outer.Within inner) :
    outer.Sequence sites :=
  ⟨fun site hsite => hinner.trans (h.within site hsite), h.ordered⟩

theorem Sequence.append (h : outer.Sequence sites) (hothers : outer.Sequence others)
    (hle : ∀ site ∈ sites, ∀ next ∈ others, site.stop ≤ next.start) :
    outer.Sequence (sites ++ others) := by
  refine ⟨fun site hsite => ?_, List.pairwise_append.mpr ⟨h.ordered, hothers.ordered, hle⟩⟩
  exact (List.mem_append.mp hsite).elim (h.within site) (hothers.within site)

theorem Sequence.flatMap (h : outer.Sequence sites) {f : Site → List Site}
    (hf : ∀ site ∈ sites, site.Sequence (f site)) : outer.Sequence (sites.flatMap f) := by
  refine ⟨fun inner hinner => ?_, List.pairwise_flatMap.mpr
    ⟨fun site hsite => (hf site hsite).ordered, ?_⟩⟩
  · obtain ⟨site, hsite, hinner⟩ := List.mem_flatMap.mp hinner
    exact (h.within site hsite).trans ((hf site hsite).within inner hinner)
  · refine h.ordered.imp_of_mem fun {site next} hsite hnext hle inner hinner other hother => ?_
    have hbounds := ((hf site hsite).within inner hinner).bounds
    have hbounds' := ((hf next hnext).within other hother).bounds
    omega

theorem sequence_childrenOf (site : Site) (kind : Kind) : site.Sequence (site.childrenOf kind) :=
  site.sequence_children.sublist List.filter_sublist

theorem find?_sublist (p : Site → Bool) (sites : List Site) : (sites.find? p).toList <+ sites := by
  cases hfind : sites.find? p with
  | none => exact List.nil_sublist sites
  | some site => exact List.singleton_sublist.mpr (List.mem_of_find?_eq_some hfind)

theorem sequence_child? (site : Site) (kind : Kind) : site.Sequence (site.child? kind).toList :=
  site.sequence_children.sublist (find?_sublist _ _)

theorem sequence_clausePath? (site : Site) (kind : Kind) :
    site.Sequence ((site.child? kind).bind fun clause => clause.child? .path).toList := by
  cases hclause : site.child? kind with
  | none => exact site.sequence_nil
  | some clause =>
    exact (clause.sequence_child? .path).of_within (.of_child (mem_children_of_child? hclause))

end Sequences

/-! ### Nodes in the order of the grammar -/

theorem map_tree_sitesOf (start : Nat) (before : List Token) (row : List Tree) :
    (sitesOf start before row).map tree = row := by
  induction row generalizing start before with
  | nil => rfl
  | cons tree rest ih => rw [sitesOf, List.map_cons, ih]

theorem nodeKind?_of_mem_children {site child : Site} (h : child ∈ site.children) :
    site.tree.nodeKind? = some site.kind := by
  obtain ⟨tree, start, before⟩ := site
  cases tree with
  | token t => cases h
  | node kind row => rfl

theorem Within.nodes_subset {outer site : Site} (h : outer.Within site) :
    site.tree.nodes ⊆ outer.tree.nodes := by
  induction h with
  | refl => exact List.Subset.refl _
  | @child site child _ hchild ih =>
    refine List.Subset.trans ?_ ih
    have hmem := tree_mem_of_mem_sitesOf hchild
    obtain ⟨tree, start, before⟩ := site
    cases tree with
    | token t => cases hchild
    | node kind row =>
      exact fun node hnode => List.mem_cons_of_mem _ (Tree.nodes_subset_nodesOf hmem hnode)

/-- The path stands below a child that a clause of this kind is never behind. -/
def ComesBehind (site : Site) (clause : Kind) (path : Site) : Prop :=
  ∃ child ∈ site.children, clause ≠ child.kind ∧
    Grammar.arrangement.before child.kind clause = false ∧
    ∃ inner ∈ child.children, inner.Within path

variable {text : String} {site : Site}

/-- The first of two nodes stands in front where it could not stand behind. -/
theorem stop_le_of_arranged (hsite : (root (parse text).tree).Within site) {first second : Site}
    (hfirst : first ∈ site.children) (hsecond : second ∈ site.children)
    (hnode : first.tree.nodeKind? = some first.kind)
    (hnode' : second.tree.nodeKind? = some second.kind) (hne : first.kind ≠ second.kind)
    (hnot : Grammar.arrangement.before second.kind first.kind = false) :
    first.stop ≤ second.start := by
  have htree : site.tree ∈ (parse text).tree.nodes := by
    refine hsite.nodes_subset ?_
    have hsome := nodeKind?_of_mem_children hfirst
    cases htree : site.tree with
    | token t => rw [htree] at hsome; cases hsome
    | node kind row => exact List.mem_cons_self
  have harranged := (arranged_parse text _ htree).before
  rw [Tree.nodeKinds, List.pairwise_filterMap,
    ← map_tree_sitesOf site.start site.before site.tree.children, List.pairwise_map] at harranged
  have hpair := List.pairwise_iff_getElem.mp (site.pairwise_children.and harranged)
  obtain ⟨i, hi, rfl⟩ := List.getElem_of_mem hfirst
  obtain ⟨j, hj, rfl⟩ := List.getElem_of_mem hsecond
  rcases Nat.lt_trichotomy i j with hlt | rfl | hlt
  · exact (hpair i j hi hj hlt).1
  · exact absurd rfl hne
  · -- The other way round the second node would stand in front of the first.
    have hbefore := (hpair j i hj hi hlt).2 _ hnode' _ hnode
    rw [hnot] at hbefore
    cases hbefore

theorem Sequence.clausePath?_append {clause : Kind} {others : List Site} (h : site.Sequence others)
    (hsite : (root (parse text).tree).Within site)
    (hothers : ∀ other ∈ others, site.ComesBehind clause other) :
    site.Sequence
      (((site.child? clause).bind fun clause => clause.child? .path).toList ++ others) := by
  refine (site.sequence_clausePath? clause).append h fun path hpath other hother => ?_
  obtain ⟨node, hnode, hpath⟩ := Option.bind_eq_some_iff.mp (Option.mem_toList.mp hpath)
  have hinNode := mem_children_of_child? hpath
  obtain ⟨child, hchild, hne, hnot, inner, hinner, hwithin⟩ := hothers other hother
  obtain rfl := kind_of_child? hnode
  have hle := stop_le_of_arranged hsite (mem_children_of_child? hnode) hchild
    (nodeKind?_of_mem_children hinNode) (nodeKind?_of_mem_children hinner) hne hnot
  have hpathBounds := bounds_of_mem_children hinNode
  have hotherBounds := ((Within.of_child hinner).trans hwithin).bounds
  omega

/-! ### Paths are not empty -/

theorem start_lt_stop_of_path {path : Site} (h : (root (parse text).tree).Within path)
    (hkind : path.kind = .path) : path.start < path.stop := by
  obtain ⟨left, right, htokens, -⟩ := cutFrom_of_within h
  have hne : path.tree.tokens ≠ [] := by
    obtain ⟨tree, start, before⟩ := path
    cases tree with
    | token t => exact List.cons_ne_nil _ _
    | node kind row =>
      obtain ⟨first, rest, hfirst, -⟩ :=
        (spell_of_path_parse text _ (h.nodes_subset List.mem_cons_self) hkind).first
      exact hfirst ▸ List.cons_ne_nil _ _
  rw [stop, Tree.size_eq]
  refine Nat.lt_add_of_pos_right (Nat.pos_of_ne_zero fun hzero => hne ?_)
  refine Token.eq_nil_of_size_eq_zero (fun t ht => (cut_parse text).size_pos t ?_) hzero
  change t ∈ (root (parse text).tree).tree.tokens
  simp [root, htokens, ht]

end Ili.Site
