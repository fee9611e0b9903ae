import Ili.Proofs.Grammar.Openings
import Ili.Proofs.Grammar.Steps

/-!
# Where nodes are begun

Nodes of some kinds are begun at one place of the grammar only, by a loop or a choice that has
looked at the tokens ahead. So something is known of what such a node holds even in a text with
errors. The definition of a domain is begun only where a name comes next, and so it opens with that
name.
-/

namespace Ili

/-- How nodes of a kind are begun: where the guard holds, and with what the body takes. -/
structure Beginning where
  kind : Kind
  guard : Guard
  body : Rule

def Beginning.Holds (beginning : Beginning) (trees : List Tree) : Prop :=
  ∃ nested, ∃ input : Input, input.Sorted ∧ input.pending = [] ∧
    beginning.guard.holds input.ahead = true ∧ trees = (beginning.body.runWith nested input).trees

namespace Tree

def BegunBy (beginning : Beginning) (row : List Tree) : Prop :=
  ∀ node ∈ nodesOf row, node.kind = beginning.kind → beginning.Holds node.children

variable {beginning : Beginning}

theorem BegunBy.append {left right : List Tree} (hleft : BegunBy beginning left)
    (hright : BegunBy beginning right) : BegunBy beginning (left ++ right) := by
  intro node hnode
  rw [nodesOf_append] at hnode
  exact (List.mem_append.mp hnode).elim (hleft node) (hright node)

theorem begunBy_map_token (row : List Token) : BegunBy beginning (row.map token) := by
  rw [BegunBy, nodesOf_map_token]
  exact List.forall_mem_nil _

theorem BegunBy.node {other : Kind} {children : List Tree} (h : BegunBy beginning children)
    (htop : other = beginning.kind → beginning.Holds children) :
    BegunBy beginning [.node other children] := by
  intro node hnode
  rw [nodesOf, nodesOf, List.append_nil, nodes] at hnode
  rcases List.mem_cons.mp hnode with rfl | hnode
  · exact htop
  · exact h node hnode

end Tree

namespace Rule

/-- Nodes of the kind are begun in this way only. What holds of the tokens ahead is `known`. -/
def begins (beginning : Beginning) (known : Option Guard) : Rule → Bool
  | .seq first second => first.begins beginning known && second.begins beginning none
  | .choose guard yes no => yes.begins beginning (some guard) && no.begins beginning none
  | .many guard body => body.begins beginning (some guard)
  | .node kind body =>
    (kind != beginning.kind || body == beginning.body && known == some beginning.guard) &&
      body.begins beginning known
  | .extendAs kind first _ second =>
    kind != beginning.kind && first.begins beginning none && second.begins beginning none
  | .skip | .bump | .bumpAs _ | .flush | .report _ | .balancedTo _ | .nested => true

def Knows (known : Option Guard) (input : Input) : Prop :=
  ∀ guard ∈ known, guard.holds input.ahead = true

variable {beginning : Beginning} {nested : Input → Outcome}

theorem knows_none (input : Input) : Knows none input :=
  fun _ h => nomatch h

theorem knows_some {guard : Guard} {input : Input} (h : guard.holds input.ahead = true) :
    Knows (some guard) input :=
  fun _ hguard => Option.some.inj hguard ▸ h

theorem begunBy_runMany {guard : Guard} {step : Input → Outcome}
    (htakes : ∀ input : Input, input.Sorted → (step input).Takes input)
    (hstep : ∀ input : Input, input.Sorted → guard.holds input.ahead = true →
      Tree.BegunBy beginning (step input).trees) (bound : Nat) {input : Input}
    (h : input.Sorted) : Tree.BegunBy beginning (runMany guard step bound input).trees := by
  induction bound generalizing input with
  | zero => exact Tree.begunBy_map_token []
  | succ bound ih =>
    rw [runMany]
    split
    · next hholds => exact (hstep input h hholds).append (ih (htakes input h).sorted)
    · exact Tree.begunBy_map_token []

theorem begunBy_runWith
    (hnested : ∀ input : Input, input.Sorted → (nested input).Takes input)
    (hbegun : ∀ input : Input, input.Sorted → Tree.BegunBy beginning (nested input).trees)
    (rule : Rule) (hrule : rule.renamesToIdent = true) {input : Input} (h : input.Sorted)
    {known : Option Guard} (hknown : Knows known input)
    (hbegins : rule.begins beginning known = true) :
    Tree.BegunBy beginning (rule.runWith nested input).trees := by
  induction rule generalizing input known with
  | skip | report => exact Tree.begunBy_map_token []
  | bump | bumpAs =>
    simp only [runWith, runBump]
    split
    · exact Tree.begunBy_map_token _
    · exact (Tree.begunBy_map_token _).append (Tree.begunBy_map_token [_])
  | flush => exact Tree.begunBy_map_token _
  | balancedTo stops =>
    change Tree.BegunBy beginning (treesOf _)
    rw [treesOf_eq]
    exact Tree.begunBy_map_token _
  | seq first second ihFirst ihSecond =>
    simp only [renamesToIdent, Bool.and_eq_true] at hrule
    simp only [begins, Bool.and_eq_true] at hbegins
    have hfirst := takes_runWith hnested first hrule.1 h
    exact (ihFirst hrule.1 h hknown hbegins.1).append
      (ihSecond hrule.2 hfirst.sorted (knows_none _) hbegins.2)
  | choose guard yes no ihYes ihNo =>
    simp only [renamesToIdent, Bool.and_eq_true] at hrule
    simp only [begins, Bool.and_eq_true] at hbegins
    simp only [runWith]
    split
    · next hholds => exact ihYes hrule.1 h (knows_some hholds) hbegins.1
    · exact ihNo hrule.2 h (knows_none _) hbegins.2
  | many guard body ih =>
    exact begunBy_runMany (fun _ hother => takes_runWith hnested body hrule hother)
      (fun _ hother hholds => ih hrule hother (knows_some hholds) hbegins) _ h
  | node kind body ih =>
    simp only [begins, Bool.and_eq_true, Bool.or_eq_true, bne_iff_ne, ne_eq, beq_iff_eq] at hbegins
    have hsorted := Input.sorted_flushed h
    have hflushed : Knows known input.flushed := fun guard hguard => by
      rw [Guard.holds_flushed]
      exact hknown guard hguard
    refine (Tree.begunBy_map_token _).append ((ih hrule hsorted hflushed hbegins.2).node
      fun hkind => ?_)
    obtain ⟨hbody, rfl⟩ := hbegins.1.resolve_left (not_not_intro hkind)
    exact ⟨nested, input.flushed, hsorted, pending_flushed input, hflushed _ rfl, by rw [hbody]⟩
  | extendAs kind first guard second ihFirst ihSecond =>
    simp only [renamesToIdent, Bool.and_eq_true] at hrule
    simp only [begins, Bool.and_eq_true, bne_iff_ne, ne_eq] at hbegins
    have hsorted := Input.sorted_flushed h
    have hhead := takes_runWith hnested first hrule.1 hsorted
    have hfirst := ihFirst hrule.1 hsorted (knows_none _) hbegins.1.2
    refine (Tree.begunBy_map_token _).append ?_
    dsimp only
    split
    · exact (hfirst.append (ihSecond hrule.2 hhead.sorted (knows_none _) hbegins.2)).node
        fun hkind => absurd hkind hbegins.1.1
    · exact hfirst
  | nested => exact hbegun input h

theorem begunBy_runNested {inner : Rule} (hrename : inner.renamesToIdent = true)
    (hinner : inner.begins beginning none = true) (depth : Nat) {input : Input}
    (h : input.Sorted) : Tree.BegunBy beginning (runNested inner depth input).trees := by
  induction depth generalizing input with
  | zero => exact Tree.begunBy_map_token []
  | succ depth ih =>
    exact begunBy_runWith (fun _ hother => takes_runNested hrename depth hother)
      (fun _ hother => ih hother) inner hrename h (knows_none _) hinner

end Rule

theorem begunBy_parse {beginning : Beginning}
    (henum : Grammar.enumType.begins beginning none = true)
    (hfile : Grammar.file.begins beginning none = true) (text : String) :
    Tree.BegunBy beginning (parse text).tree.children := by
  have hsorted := Input.sorted_ofText text
  exact Rule.begunBy_runWith (Grammar.takes_nested (Input.ofText text).ahead.length)
    (fun _ hother => Rule.begunBy_runNested Grammar.renamesToIdent_enumType henum _ hother)
    Grammar.file Grammar.renamesToIdent_file hsorted (Rule.knows_none _) hfile

namespace Grammar

def domainRest : Rule :=
  Rule.row
    [optionalProperties, optionalExtends, .expect .eq, .eat .mandatoryKw,
      typeUpTo [.semicolon, .constraintsKw, .endKw],
      .when (.sees [.constraintsKw]) domainConstraints, .expect .semicolon]

def domainBeginning : Beginning :=
  ⟨.domainDef, seesDefinitionName, .seq name domainRest⟩

theorem begins_domainDef : enumType.begins domainBeginning none = true ∧
    file.begins domainBeginning none = true := by
  decide +kernel

theorem trees_name (nested : Input → Outcome) {input : Input} (h : input.Sorted)
    (hpending : input.pending = []) (hholds : seesDefinitionName.holds input.ahead = true) :
    ∃ token, (name.runWith nested input).trees = [.node .name [.token token]] ∧
      token.kind.isTrivia = false := by
  obtain ⟨ahead, trailing, stop⟩ := input
  cases ahead with
  | nil => cases hholds
  | cons lexeme rest =>
    have htrivia : lexeme.trivia = [] := hpending
    have hvisible := (h.1 lexeme List.mem_cons_self).2
    simp only [name, keywordName, Rule.cases, Rule.runWith, Rule.runNode, Rule.runFlush,
      Rule.runBump, Outcome.andThen, Input.pending, Input.flushed, htrivia]
    split
    · exact ⟨lexeme.token, rfl, hvisible⟩
    · next hident =>
      have hword : seesKeywordName.holds (lexeme :: rest) = true :=
        ((Bool.or_eq_true _ _).mp hholds).resolve_left hident
      rw [if_pos hword]
      exact ⟨{ lexeme.token with kind := .ident }, rfl, rfl⟩

end Grammar

def Tree.OpensWithName (tree : Tree) : Prop :=
  ∃ token rest, tree.children = .node .name [.token token] :: rest ∧ token.kind.isTrivia = false

theorem opensWithName_of_domainDef {text : String} {node : Tree}
    (hnode : node ∈ (parse text).tree.nodes) (hkind : node.kind = .domainDef) :
    node.OpensWithName := by
  rcases List.mem_cons.mp hnode with rfl | hnode
  · cases hkind
  have hbegun := begunBy_parse Grammar.begins_domainDef.1 Grammar.begins_domainDef.2 text
  obtain ⟨nested, input, hsorted, hpending, hholds, htrees⟩ := hbegun node hnode hkind
  obtain ⟨token, hname, hvisible⟩ := Grammar.trees_name nested hsorted hpending hholds
  refine ⟨token, (Grammar.domainRest.runWith nested (Grammar.name.runWith nested input).rest).trees,
    ?_, hvisible⟩
  rw [htrees]
  change (Grammar.name.runWith nested input).trees ++ _ = _
  rw [hname]
  rfl

end Ili
