import Ili.Proofs.Grammar.Locality

/-!
# Loops lap by lap

A loop reads one lap after another, and some laps can be looked at without the others. Where every
lap builds one node, the nodes tell where a lap begins and ends. What a lap reads depends on the
kind of the next token, which leaves of a choice of many rules the one that is due.
-/

namespace Ili

namespace Rule

/-- What is left of a rule once the kind of the next token is known. -/
def branchOn (next : Kind) : Rule → Rule
  | .choose guard yes no =>
    match guard.decidedBy next with
    | some true => yes.branchOn next
    | some false => no.branchOn next
    | none => .choose guard (yes.branchOn next) (no.branchOn next)
  | rule => rule

def buildsOne : Rule → Bool
  | .node _ _ => true
  | .choose _ yes no => yes.buildsOne && no.buildsOne
  | rule => rule.alwaysReports

def avoids (kind : Kind) : Rule → Bool
  | .node other _ => other != kind
  | .seq first second => first.avoids kind && second.avoids kind
  | .choose _ yes no => yes.avoids kind && no.avoids kind
  | .many _ body => body.avoids kind
  | .extendAs other first _ _ => other != kind && first.avoids kind
  | .nested => false
  | .skip | .bump | .bumpAs _ | .flush | .report _ | .balancedTo _ => true

variable {inner rule : Rule} {guard : Guard} {body : Rule} {tokens middle rest : List Token}
  {row back : List Tree} {t : Token}

theorem reads_branchOn :
    Reads inner (rule.branchOn t.kind) (t :: tokens) row rest ↔
      Reads inner rule (t :: tokens) row rest := by
  induction rule generalizing row rest with
  | choose guard yes no ihYes ihNo =>
    rw [branchOn]
    split
    · next hyes => rw [ihYes, reads_yes (Guard.meets_of_decidedBy hyes _)]
    · next hno => rw [ihNo, reads_no (Guard.meets_of_decidedBy hno _)]
    · cases hmeets : guard.meets (t :: tokens) with
      | true => rw [reads_yes hmeets, reads_yes hmeets, ihYes]
      | false => rw [reads_no hmeets, reads_no hmeets, ihNo]
  | _ => rfl

theorem Reads.exists_node (h : Reads inner rule tokens row rest) (hone : rule.buildsOne = true) :
    ∃ kind children, row = [.node kind children] := by
  induction h with
  | yes _ _ ih =>
    simp only [buildsOne, Bool.and_eq_true] at hone
    exact ih hone.1
  | no _ _ ih =>
    simp only [buildsOne, Bool.and_eq_true] at hone
    exact ih hone.2
  | node => exact ⟨_, _, rfl⟩
  | seq hfirst hsecond =>
    have hreports : Rule.alwaysReports (.seq _ _) = true := hone
    rw [(Reads.seq hfirst hsecond).alwaysReports_eq] at hreports
    cases hreports
  | _ => cases hone

theorem Reads.not_mem {kind : Kind} (h : Reads inner rule tokens row rest)
    (havoids : rule.avoids kind = true) (children : List Tree) : .node kind children ∉ row := by
  induction h with
  | skip | flush | stop => exact List.not_mem_nil
  | bump | bumpAs | balancedTo =>
    intro hmem
    obtain ⟨_, -, htoken⟩ := List.mem_map.mp hmem
    cases htoken
  | seq _ _ ihFirst ihSecond =>
    simp only [avoids, Bool.and_eq_true] at havoids
    rw [List.mem_append, not_or]
    exact ⟨ihFirst havoids.1, ihSecond havoids.2⟩
  | yes _ _ ih =>
    simp only [avoids, Bool.and_eq_true] at havoids
    exact ih havoids.1
  | no _ _ ih =>
    simp only [avoids, Bool.and_eq_true] at havoids
    exact ih havoids.2
  | again _ _ _ ihBody ihRest =>
    rw [List.mem_append, not_or]
    exact ⟨ihBody havoids, ihRest havoids⟩
  | node =>
    rintro hmem
    obtain ⟨rfl, -⟩ := Tree.node.inj (List.mem_singleton.mp hmem)
    simp [avoids] at havoids
  | plain _ _ ih =>
    simp only [avoids, Bool.and_eq_true] at havoids
    exact ih havoids.2
  | extended =>
    rintro hmem
    obtain ⟨rfl, -⟩ := Tree.node.inj (List.mem_singleton.mp hmem)
    simp [avoids] at havoids
  | nested => cases havoids

/-! ### Loops lap by lap -/

/-- Some laps of a loop, not necessarily all. -/
inductive Laps (inner : Rule) (guard : Guard) (body : Rule) :
    List Token → List Tree → List Token → Prop
  | none {tokens : List Token} : Laps inner guard body tokens [] tokens
  | lap {tokens middle rest : List Token} {row other : List Tree}
      (hmeets : guard.meets tokens = true) (hbody : Reads inner body tokens row middle)
      (hrest : Laps inner guard body middle other rest) :
      Laps inner guard body tokens (row ++ other) rest

theorem reads_many :
    Reads inner (.many guard body) tokens row rest ↔
      Laps inner guard body tokens row rest ∧ guard.meets rest = false := by
  constructor
  · intro h
    generalize hmany : Rule.many guard body = rule at h
    induction h with
    | stop hmeets =>
      obtain ⟨rfl, rfl⟩ := Rule.many.inj hmany
      exact ⟨.none, hmeets⟩
    | again hmeets hbody _ _ ih =>
      obtain ⟨rfl, rfl⟩ := Rule.many.inj hmany
      obtain ⟨hlaps, hstop⟩ := ih rfl
      exact ⟨.lap hmeets hbody hlaps, hstop⟩
    | _ => cases hmany
  · rintro ⟨hlaps, hstop⟩
    induction hlaps with
    | none => exact .stop hstop
    | lap hmeets hbody _ ih => exact .again hmeets hbody (ih hstop)

theorem Laps.append (h : Laps inner guard body tokens row middle)
    (hback : Laps inner guard body middle back rest) :
    Laps inner guard body tokens (row ++ back) rest := by
  induction h with
  | none => exact hback
  | lap hmeets hbody _ ih =>
    rw [List.append_assoc]
    exact .lap hmeets hbody (ih hback)

theorem Laps.exists_taken (h : Laps inner guard body tokens row rest) :
    ∃ taken, tokens = taken ++ rest ∧ taken.length = (Tree.tokensOf row).length := by
  induction h with
  | none => exact ⟨[], rfl, rfl⟩
  | lap _ hbody _ ih =>
    obtain ⟨others, rfl, hothers⟩ := ih
    obtain ⟨taken, rfl, htaken⟩ := hbody.exists_taken
    refine ⟨taken ++ others, (List.append_assoc ..).symm, ?_⟩
    rw [Tree.tokensOf_append, List.length_append, List.length_append, htaken, hothers]

theorem Laps.kind_ne {kind : Kind} (h : Laps inner guard body tokens row rest)
    (hone : body.buildsOne = true) (havoids : body.avoids kind = true) :
    ∀ tree ∈ row, tree.kind ≠ kind := by
  induction h with
  | none => exact nofun
  | lap _ hbody _ ih =>
    obtain ⟨other, children, rfl⟩ := hbody.exists_node hone
    intro tree htree
    rcases List.mem_cons.mp htree with rfl | htree
    · rintro rfl
      exact hbody.not_mem havoids children List.mem_cons_self
    · exact ih tree htree

/-- Where every lap builds one node, the laps can be told from the nodes. -/
theorem Laps.split {front : List Tree} (hone : body.buildsOne = true)
    (h : Laps inner guard body tokens (front ++ back) rest) :
    ∃ middle, Laps inner guard body tokens front middle ∧
      Laps inner guard body middle back rest := by
  generalize hrow : front ++ back = row at h
  induction h generalizing front with
  | none =>
    obtain ⟨rfl, rfl⟩ := List.append_eq_nil_iff.mp hrow
    exact ⟨_, .none, .none⟩
  | lap hmeets hbody hrest ih =>
    obtain ⟨kind, children, rfl⟩ := hbody.exists_node hone
    cases front with
    | nil =>
      obtain rfl : back = _ := hrow
      exact ⟨_, .none, .lap hmeets hbody hrest⟩
    | cons tree front =>
      obtain ⟨rfl, hothers⟩ := List.cons.inj hrow
      obtain ⟨middle, hfront, hback⟩ := ih hothers
      exact ⟨middle, .lap hmeets hbody hfront, hback⟩

theorem laps_cons (hone : body.buildsOne = true) {tree : Tree} :
    Laps inner guard body tokens (tree :: back) rest ↔
      ∃ middle, guard.meets tokens = true ∧ Reads inner body tokens [tree] middle ∧
        Laps inner guard body middle back rest := by
  constructor
  · intro h
    generalize hrow : tree :: back = row at h
    cases h with
    | none => cases hrow
    | lap hmeets hbody hrest =>
      obtain ⟨kind, children, rfl⟩ := hbody.exists_node hone
      obtain ⟨rfl, rfl⟩ := List.cons.inj hrow
      exact ⟨_, hmeets, hbody, hrest⟩
  · rintro ⟨middle, hmeets, hbody, hrest⟩
    exact .lap hmeets hbody hrest

theorem laps_nil (hone : body.buildsOne = true) :
    Laps inner guard body tokens [] rest ↔ tokens = rest := by
  constructor
  · intro h
    generalize hrow : [] = row at h
    cases h with
    | none => rfl
    | lap _ hbody _ =>
      obtain ⟨kind, children, rfl⟩ := hbody.exists_node hone
      cases hrow
  · rintro rfl
    exact .none

theorem Laps.withCloser {closer : Kind} (h : Laps inner guard body tokens row rest)
    (hguard : guard.isSettledBy closer = true) (hbody : body.closes closer = true)
    (hinner : inner.isLocal closer = true) :
    ∃ taken, tokens = taken ++ rest ∧
      ∀ other, Laps inner guard body (taken ++ other) row other := by
  induction h with
  | none => exact ⟨[], rfl, fun _ => .none⟩
  | lap hmeets hreads _ ih =>
    obtain ⟨others, rfl, hothers⟩ := ih
    obtain ⟨front, s, rfl, rfl, hfront⟩ := hreads.withCloser hbody hinner
    refine ⟨front ++ s :: others, by simp, fun other => ?_⟩
    rw [List.append_assoc, List.cons_append]
    refine .lap ?_ (hfront _) (hothers other)
    rw [← hmeets, Guard.meets_of_isSettledBy hguard]

end Rule

end Ili
