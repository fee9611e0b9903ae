import Ili.Parse
import Mathlib.Data.List.Basic

/-!
# How nodes nest

Which nodes stand directly below a node, and in which order, can be read off the rules: a rule puts
nodes of certain kinds side by side and only tokens between them. What follows holds for every text,
with errors or without.
-/

namespace Ili

namespace Tree

def nodeKind? : Tree → Option Kind
  | token _ => none
  | node kind _ => some kind

def nodeKinds (row : List Tree) : List Kind :=
  row.filterMap nodeKind?

theorem nodeKinds_append (left right : List Tree) :
    nodeKinds (left ++ right) = nodeKinds left ++ nodeKinds right :=
  List.filterMap_append

theorem exists_of_mem_nodeKinds {kind : Kind} {row : List Tree} (h : kind ∈ nodeKinds row) :
    ∃ left children right, row = left ++ node kind children :: right := by
  obtain ⟨tree, htree, hkind⟩ := List.mem_filterMap.mp h
  obtain ⟨left, right, rfl⟩ := List.append_of_mem htree
  cases tree with
  | token t => cases hkind
  | node other children =>
    obtain rfl := Option.some.inj hkind
    exact ⟨left, children, right, rfl⟩

theorem nodeKinds_map_token (row : List Token) : nodeKinds (row.map token) = [] := by
  simp [nodeKinds, nodeKind?]

theorem nodes_subset_nodesOf {tree : Tree} {row : List Tree} (h : tree ∈ row) :
    tree.nodes ⊆ nodesOf row := by
  obtain ⟨left, right, rfl⟩ := List.append_of_mem h
  intro node hnode
  rw [nodesOf_append, nodesOf]
  exact List.mem_append_right _ (List.mem_append_left _ hnode)

end Tree

/-- Which nodes may stand directly below which, and which in front of which below the same node. -/
structure Arrangement where
  below : Kind → Kind → Bool
  before : Kind → Kind → Bool

namespace Arrangement

structure Fits (arrangement : Arrangement) (tree : Tree) : Prop where
  below : ∀ kind ∈ Tree.nodeKinds tree.children, arrangement.below tree.kind kind = true
  before : (Tree.nodeKinds tree.children).Pairwise fun kind next =>
    arrangement.before kind next = true

def orders (arrangement : Arrangement) (kinds others : List Kind) : Bool :=
  kinds.all fun kind => others.all fun next => arrangement.before kind next

structure Yields (arrangement : Arrangement) (kinds : List Kind) (row : List Tree) : Prop where
  subset : Tree.nodeKinds row ⊆ kinds
  before : (Tree.nodeKinds row).Pairwise fun kind next => arrangement.before kind next = true
  fits : ∀ tree ∈ Tree.nodesOf row, arrangement.Fits tree

variable {arrangement : Arrangement} {kinds others : List Kind} {row next : List Tree}

theorem before_of_orders (h : arrangement.orders kinds others = true) {kind next : Kind}
    (hkind : kind ∈ kinds) (hnext : next ∈ others) : arrangement.before kind next = true :=
  List.all_eq_true.mp (List.all_eq_true.mp h kind hkind) next hnext

theorem yields_tokens (arrangement : Arrangement) (row : List Token) :
    arrangement.Yields [] (row.map .token) := by
  refine ⟨?_, ?_, ?_⟩
  · rw [Tree.nodeKinds_map_token]
    exact List.nil_subset _
  · rw [Tree.nodeKinds_map_token]
    exact .nil
  · rw [Tree.nodesOf_map_token]
    exact List.forall_mem_nil _

namespace Yields

theorem mono (h : arrangement.Yields kinds row) (hkinds : kinds ⊆ others) :
    arrangement.Yields others row :=
  ⟨fun _ hkind => hkinds (h.subset hkind), h.before, h.fits⟩

theorem append (h : arrangement.Yields kinds row) (hnext : arrangement.Yields others next)
    (horders : arrangement.orders kinds others = true) :
    arrangement.Yields (kinds ++ others) (row ++ next) := by
  refine ⟨?_, ?_, fun tree htree => ?_⟩
  · rw [Tree.nodeKinds_append]
    exact List.append_subset.mpr ⟨List.subset_append_of_subset_left _ h.subset,
      List.subset_append_of_subset_right _ hnext.subset⟩
  · rw [Tree.nodeKinds_append]
    exact List.pairwise_append.mpr ⟨h.before, hnext.before, fun kind hkind other hother =>
      before_of_orders horders (h.subset hkind) (hnext.subset hother)⟩
  · rw [Tree.nodesOf_append] at htree
    exact (List.mem_append.mp htree).elim (h.fits tree) (hnext.fits tree)

theorem node {kind : Kind} (h : arrangement.Yields kinds row)
    (hbelow : kinds.all (arrangement.below kind) = true) :
    arrangement.Yields [kind] [.node kind row] := by
  refine ⟨List.Subset.refl _, List.pairwise_singleton _ _, fun tree htree => ?_⟩
  rw [Tree.nodesOf, Tree.nodesOf, List.append_nil, Tree.nodes] at htree
  rcases List.mem_cons.mp htree with rfl | htree
  · exact ⟨fun child hchild => List.all_eq_true.mp hbelow child (h.subset hchild), h.before⟩
  · exact h.fits tree htree

end Yields

end Arrangement

open Arrangement

namespace Rule

/-- The kinds of the nodes that a rule puts side by side; `inner` are those of the rule that
contains itself. -/
def tops (inner : List Kind) : Rule → List Kind
  | skip | bump | bumpAs _ | flush | report _ | balancedTo _ => []
  | seq first second => first.tops inner ++ second.tops inner
  | choose _ yes no => yes.tops inner ++ no.tops inner
  | many _ body => body.tops inner
  | node kind _ => [kind]
  | extendAs kind first _ _ => kind :: first.tops inner
  | nested => inner

/-- The rule puts nodes together only as the arrangement allows. -/
def arranges (arrangement : Arrangement) (inner : List Kind) : Rule → Bool
  | skip | bump | bumpAs _ | flush | report _ | balancedTo _ | nested => true
  | seq first second =>
    first.arranges arrangement inner && second.arranges arrangement inner &&
      arrangement.orders (first.tops inner) (second.tops inner)
  | choose _ yes no => yes.arranges arrangement inner && no.arranges arrangement inner
  | many _ body =>
    body.arranges arrangement inner && arrangement.orders (body.tops inner) (body.tops inner)
  | node kind body =>
    body.arranges arrangement inner && (body.tops inner).all (arrangement.below kind)
  | extendAs kind first _ second =>
    first.arranges arrangement inner && second.arranges arrangement inner &&
      arrangement.orders (first.tops inner) (second.tops inner) &&
      (first.tops inner ++ second.tops inner).all (arrangement.below kind)

variable {arrangement : Arrangement} {inner : List Kind} {nested : Input → Outcome}

theorem yields_runFlush (input : Input) : arrangement.Yields [] (runFlush input).trees :=
  yields_tokens arrangement _

theorem yields_runBump (rename : Token → Token) (input : Input) :
    arrangement.Yields [] (runBump rename input).trees := by
  rw [runBump]
  split
  · exact yields_runFlush input
  · next lexeme rest _ =>
    have htokens := yields_tokens arrangement (lexeme.trivia ++ [rename lexeme.token])
    rwa [List.map_append] at htokens

theorem yields_runBalancedTo (stops : List Kind) (input : Input) :
    arrangement.Yields [] (runBalancedTo stops input).trees := by
  have htokens := yields_tokens arrangement
    ((splitBalanced stops 0 input.ahead).1.flatMap fun lexeme => lexeme.trivia ++ [lexeme.token])
  rw [List.map_flatMap] at htokens
  simp only [List.map_append, List.map_singleton] at htokens
  exact htokens

theorem yields_runMany {guard : Guard} {step : Input → Outcome} {kinds : List Kind}
    (hstep : ∀ input, arrangement.Yields kinds (step input).trees)
    (horders : arrangement.orders kinds kinds = true) (bound : Nat) (input : Input) :
    arrangement.Yields kinds (runMany guard step bound input).trees := by
  induction bound generalizing input with
  | zero => exact (yields_tokens arrangement []).mono (List.nil_subset _)
  | succ bound ih =>
    rw [runMany]
    split
    · exact ((hstep input).append (ih _) horders).mono
        (List.append_subset.mpr ⟨List.Subset.refl _, List.Subset.refl _⟩)
    · exact (yields_tokens arrangement []).mono (List.nil_subset _)

theorem yields_runWith (hnested : ∀ input, arrangement.Yields inner (nested input).trees)
    (rule : Rule) (h : rule.arranges arrangement inner = true) (input : Input) :
    arrangement.Yields (rule.tops inner) (rule.runWith nested input).trees := by
  induction rule generalizing input with
  | skip | report => exact yields_tokens arrangement []
  | bump | bumpAs => exact yields_runBump _ input
  | flush => exact yields_runFlush input
  | balancedTo stops => exact yields_runBalancedTo stops input
  | seq first second ihFirst ihSecond =>
    simp only [arranges, Bool.and_eq_true] at h
    exact (ihFirst h.1.1 input).append (ihSecond h.1.2 _) h.2
  | choose guard yes no ihYes ihNo =>
    simp only [arranges, Bool.and_eq_true] at h
    simp only [runWith]
    split
    · exact (ihYes h.1 input).mono (List.subset_append_left _ _)
    · exact (ihNo h.2 input).mono (List.subset_append_right _ _)
  | many guard body ih =>
    simp only [arranges, Bool.and_eq_true] at h
    exact yields_runMany (ih h.1) h.2 _ input
  | node kind body ih =>
    simp only [arranges, Bool.and_eq_true] at h
    exact (yields_runFlush input).append ((ih h.1 _).node h.2) rfl
  | extendAs kind first guard second ihFirst ihSecond =>
    simp only [arranges, Bool.and_eq_true] at h
    obtain ⟨⟨⟨hfirst, hsecond⟩, horders⟩, hbelow⟩ := h
    have hhead := ihFirst hfirst input.flushed
    refine ((yields_runFlush input).append ?_ rfl)
    dsimp only
    split
    · exact ((hhead.append (ihSecond hsecond _) horders).node hbelow).mono
        (List.cons_subset_cons kind (List.nil_subset _))
    · exact hhead.mono (List.subset_cons_self kind _)
  | nested => exact hnested input

theorem yields_runNested {rule : Rule} (h : rule.arranges arrangement inner = true)
    (hinner : rule.tops inner ⊆ inner) (depth : Nat) (input : Input) :
    arrangement.Yields inner (runNested rule depth input).trees := by
  induction depth generalizing input with
  | zero => exact (yields_tokens arrangement []).mono (List.nil_subset _)
  | succ depth ih => exact (yields_runWith ih rule h input).mono hinner

end Rule

/-- The nodes of any text are arranged as the grammar arranges them. -/
theorem fits_parse {arrangement : Arrangement}
    (henum : Grammar.enumType.arranges arrangement [.enumType] = true)
    (hfile : (Rule.node .sourceFile Grammar.file).arranges arrangement [.enumType] = true)
    (text : String) : ∀ tree ∈ (parse text).tree.nodes, arrangement.Fits tree := by
  simp only [Rule.arranges, Bool.and_eq_true] at hfile
  have htrees := Rule.yields_runWith
    (Rule.yields_runNested henum (List.Subset.refl _) (Input.ofText text).ahead.length)
    Grammar.file hfile.1 (Input.ofText text)
  have hfits := (htrees.node hfile.2).fits
  rwa [Tree.nodesOf, Tree.nodesOf, List.append_nil] at hfits

namespace Grammar

/-- Models stand in the file, topics in models, classes and associations in either; what is extended
or translated is said before identifiers, imports and types. -/
def arrangement : Arrangement where
  below parent kind :=
    match kind with
    | .sourceFile => false
    | .model => parent == .sourceFile
    | .topic => parent == .model
    | .classDef | .association => parent == .model || parent == .topic
    | _ => true
  before kind next :=
    !(next == .extendsClause || next == .translationOf) ||
      !(kind == .imports || kind == .oidDecl || kind == .dependsOn || kind.isType)

end Grammar

theorem arranged_parse (text : String) :
    ∀ tree ∈ (parse text).tree.nodes, Grammar.arrangement.Fits tree :=
  fits_parse (by decide +kernel) (by decide +kernel) text

end Ili
