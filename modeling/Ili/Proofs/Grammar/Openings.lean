import Ili.Proofs.Grammar.Blocks
import Ili.Proofs.Grammar.Fullness

/-!
# What nodes open with

Some nodes are begun only where a token is left, and take it first. Whatever is missing behind it,
such a node opens with a visible token: it is not empty, and no empty part of it comes before its
first token.
-/

namespace Ili

namespace Tree

def OpensWithToken (tree : Tree) : Prop :=
  ∃ token rest, tree.children = .token token :: rest ∧ token.kind.isTrivia = false

def Open (kinds : List Kind) (row : List Tree) : Prop :=
  ∀ node ∈ nodesOf row, node.kind ∈ kinds → node.OpensWithToken

variable {kinds : List Kind}

theorem Open.append {left right : List Tree} (hleft : Open kinds left)
    (hright : Open kinds right) : Open kinds (left ++ right) := by
  intro node hnode
  rw [nodesOf_append] at hnode
  exact (List.mem_append.mp hnode).elim (hleft node) (hright node)

theorem open_nil (kinds : List Kind) : Open kinds [] :=
  List.forall_mem_nil _

theorem open_map_token (row : List Token) : Open kinds (row.map token) := by
  rw [Open, nodesOf_map_token]
  exact open_nil kinds

theorem Open.node {kind : Kind} {children : List Tree} (h : Open kinds children)
    (htop : kind ∈ kinds → (node kind children).OpensWithToken) :
    Open kinds [.node kind children] := by
  intro node hnode
  rw [nodesOf, nodesOf, List.append_nil, nodes] at hnode
  rcases List.mem_cons.mp hnode with rfl | hnode
  · exact htop
  · exact h node hnode

end Tree

namespace Rule

/-- The rule takes the next token before anything else. With `certain` it may rely on a token being
left. -/
def takesFirst (certain : Bool) : Rule → Bool
  | .bump => certain
  | .seq first _ => first.takesFirst certain
  | .choose guard yes no => yes.takesFirst (certain || guard.needsMore) && no.takesFirst certain
  | .skip | .bumpAs _ | .flush | .report _ | .many _ _ | .balancedTo _ | .node _ _
  | .extendAs _ _ _ _ | .nested => false

/-- Nodes of these kinds are begun only where a token is left, and take it first. -/
def opens (kinds : List Kind) (certain : Bool) : Rule → Bool
  | .seq first second => first.opens kinds certain && second.opens kinds false
  | .choose guard yes no =>
    yes.opens kinds (certain || guard.needsMore) && no.opens kinds certain
  | .many guard body => body.opens kinds guard.needsMore
  | .node kind body =>
    (!kinds.contains kind || body.takesFirst certain) && body.opens kinds certain
  | .extendAs kind first _ second =>
    !kinds.contains kind && first.opens kinds certain && second.opens kinds false
  | .skip | .bump | .bumpAs _ | .flush | .report _ | .balancedTo _ | .nested => true

variable {kinds : List Kind} {nested : Input → Outcome}

theorem opensWithToken_of_takesFirst (rule : Rule) {certain : Bool} {input : Input}
    (h : input.Sorted) (hcertain : input.Certain certain) (hpending : input.pending = [])
    (htakes : rule.takesFirst certain = true) (kind : Kind) :
    (Tree.node kind (rule.runWith nested input).trees).OpensWithToken := by
  induction rule generalizing certain with
  | bump =>
    obtain ⟨lexeme, rest, hahead⟩ := List.exists_cons_of_ne_nil (hcertain htakes)
    have htrivia : lexeme.trivia = [] := by rwa [Input.pending, hahead] at hpending
    have hvisible := (h.1 lexeme (by rw [hahead]; exact List.mem_cons_self)).2
    refine ⟨lexeme.token, [], ?_, hvisible⟩
    simp only [Tree.children, runWith, runBump, hahead, htrivia]
    rfl
  | seq first second ihFirst =>
    obtain ⟨token, rest, htrees, hvisible⟩ := ihFirst hcertain htakes
    rw [Tree.children] at htrees
    refine ⟨token, rest ++ (second.runWith nested (first.runWith nested input).rest).trees, ?_,
      hvisible⟩
    change (first.runWith nested input).trees ++ _ = _
    rw [htrees, List.cons_append]
  | choose guard yes no ihYes ihNo =>
    simp only [takesFirst, Bool.and_eq_true] at htakes
    simp only [runWith]
    split
    · next hholds => exact ihYes (hcertain.of_holds hholds) htakes.1
    · exact ihNo hcertain htakes.2
  | skip | bumpAs | flush | report | many | balancedTo | node | extendAs | nested => cases htakes

theorem open_runMany {guard : Guard} {step : Input → Outcome}
    (htakes : ∀ input : Input, input.Sorted → (step input).Takes input)
    (hstep : ∀ input : Input, input.Sorted → input.Certain guard.needsMore →
      Tree.Open kinds (step input).trees) (bound : Nat) {input : Input} (h : input.Sorted) :
    Tree.Open kinds (runMany guard step bound input).trees := by
  induction bound generalizing input with
  | zero => exact Tree.open_nil kinds
  | succ bound ih =>
    rw [runMany]
    split
    · next hholds =>
      exact (hstep input h fun hneeds => Guard.ne_nil_of_needsMore hneeds hholds).append
        (ih (htakes input h).sorted)
    · exact Tree.open_nil kinds

theorem open_runWith
    (hnested : ∀ input : Input, input.Sorted → (nested input).Takes input)
    (hopen : ∀ input : Input, input.Sorted → Tree.Open kinds (nested input).trees)
    (rule : Rule) (hrule : rule.renamesToIdent = true) {input : Input} (h : input.Sorted)
    {certain : Bool} (hcertain : input.Certain certain) (hopens : rule.opens kinds certain = true) :
    Tree.Open kinds (rule.runWith nested input).trees := by
  induction rule generalizing input certain with
  | skip | report => exact Tree.open_nil kinds
  | bump | bumpAs =>
    simp only [runWith, runBump]
    split
    · exact Tree.open_map_token _
    · exact (Tree.open_map_token _).append (Tree.open_map_token [_])
  | flush => exact Tree.open_map_token _
  | balancedTo stops =>
    change Tree.Open kinds (treesOf _)
    rw [treesOf_eq]
    exact Tree.open_map_token _
  | seq first second ihFirst ihSecond =>
    simp only [renamesToIdent, Bool.and_eq_true] at hrule
    simp only [opens, Bool.and_eq_true] at hopens
    have hfirst := takes_runWith hnested first hrule.1 h
    exact (ihFirst hrule.1 h hcertain hopens.1).append
      (ihSecond hrule.2 hfirst.sorted (Input.certain_false _) hopens.2)
  | choose guard yes no ihYes ihNo =>
    simp only [renamesToIdent, Bool.and_eq_true] at hrule
    simp only [opens, Bool.and_eq_true] at hopens
    simp only [runWith]
    split
    · next hholds => exact ihYes hrule.1 h (hcertain.of_holds hholds) hopens.1
    · exact ihNo hrule.2 h hcertain hopens.2
  | many guard body ih =>
    exact open_runMany (fun _ hother => takes_runWith hnested body hrule hother)
      (fun _ hother hsure => ih hrule hother hsure hopens) _ h
  | node kind body ih =>
    simp only [opens, Bool.and_eq_true, Bool.or_eq_true, Bool.not_eq_true'] at hopens
    have hsorted := Input.sorted_flushed h
    refine (Tree.open_map_token _).append
      ((ih hrule hsorted hcertain.flushed hopens.2).node fun hkind => ?_)
    have htakes := hopens.1.resolve_left (by simp [hkind])
    exact opensWithToken_of_takesFirst body hsorted hcertain.flushed (pending_flushed input) htakes
      kind
  | extendAs kind first guard second ihFirst ihSecond =>
    simp only [renamesToIdent, Bool.and_eq_true] at hrule
    simp only [opens, Bool.and_eq_true, Bool.not_eq_true'] at hopens
    have hsorted := Input.sorted_flushed h
    have hhead := takes_runWith hnested first hrule.1 hsorted
    have hfirst := ihFirst hrule.1 hsorted hcertain.flushed hopens.1.2
    refine (Tree.open_map_token _).append ?_
    dsimp only
    split
    · have hsecond := ihSecond hrule.2 hhead.sorted (Input.certain_false _) hopens.2
      refine (hfirst.append hsecond).node fun hkind => ?_
      have hnot := hopens.1.1
      simp [hkind] at hnot
    · exact hfirst
  | nested => exact hopen input h

theorem open_runNested {inner : Rule} (hrename : inner.renamesToIdent = true)
    (hinner : inner.opens kinds false = true) (depth : Nat) {input : Input} (h : input.Sorted) :
    Tree.Open kinds (runNested inner depth input).trees := by
  induction depth generalizing input with
  | zero => exact Tree.open_nil kinds
  | succ depth ih =>
    exact open_runWith (fun _ hother => takes_runNested hrename depth hother)
      (fun _ hother => ih hother) inner hrename h (Input.certain_false _) hinner

end Rule

namespace Grammar

def opening : List Kind :=
  [.path, .classDef, .constraint, .textType, .booleanType, .listType, .blackboxType,
    .rawStatement, .rawBlock]

end Grammar

theorem open_parse (text : String) : Tree.Open Grammar.opening (parse text).tree.children := by
  have hsorted := Input.sorted_ofText text
  have hnested := Grammar.takes_nested (Input.ofText text).ahead.length
  refine Rule.open_runWith hnested (fun _ hother => ?_) Grammar.file
    Grammar.renamesToIdent_file hsorted (Input.certain_false _) (by decide)
  exact Rule.open_runNested Grammar.renamesToIdent_enumType (by decide) _ hother

end Ili
