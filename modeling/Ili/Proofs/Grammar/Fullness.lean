import Ili.Proofs.Grammar.Progress

/-!
# No node is empty without an error

A node that holds no visible token is what remains of a construct of which nothing was found. The
rules of the grammar report such constructs: each rule that builds a node either takes a token or
reports an error. This too is read off the rules, with one bit of context: whether it is certain
that a token is left.
-/

namespace Ili

namespace Tree

mutual

/-- Every node holds a visible token. -/
def Full : Tree → Prop
  | token _ => True
  | node _ children => visible (tokensOf children) ≠ [] ∧ AllFull children

def AllFull : List Tree → Prop
  | [] => True
  | tree :: rest => tree.Full ∧ AllFull rest

end

theorem allFull_append {left right : List Tree} :
    AllFull (left ++ right) ↔ AllFull left ∧ AllFull right := by
  induction left with
  | nil => simp [AllFull]
  | cons tree rest ih => simp [AllFull, ih, and_assoc]

theorem allFull_map_token (row : List Token) : AllFull (row.map token) := by
  induction row with
  | nil => trivial
  | cons t rest ih => exact ⟨trivial, ih⟩

end Tree

namespace Guard

def needsMore : Guard → Bool
  | more | sees _ | seesKeyword | seesWord _ | thenSees _ | thenSeesKeyword => true
  | sentenceOf _ | negate _ => false
  | both left right => left.needsMore || right.needsMore
  | either left right => left.needsMore && right.needsMore

theorem ne_nil_of_needsMore {guard : Guard} {ahead : List Lexeme} (h : guard.needsMore = true)
    (hholds : guard.holds ahead = true) : ahead ≠ [] := by
  rintro rfl
  induction guard with
  | more | sees | seesKeyword | seesWord | thenSees | thenSeesKeyword => simp [holds] at hholds
  | sentenceOf | negate => cases h
  | both left right ihLeft ihRight =>
    simp only [needsMore, Bool.or_eq_true] at h
    simp only [holds, Bool.and_eq_true] at hholds
    rcases h with h | h
    · exact ihLeft h hholds.1
    · exact ihRight h hholds.2
  | either left right ihLeft ihRight =>
    simp only [needsMore, Bool.and_eq_true] at h
    simp only [holds, Bool.or_eq_true] at hholds
    rcases hholds with hholds | hholds
    · exact ihLeft h.1 hholds
    · exact ihRight h.2 hholds

end Guard

namespace Rule

/-- The rule takes a token or reports an error. With `certain` it may rely on a token being left. -/
def takesOrReports (certain : Bool) : Rule → Bool
  | .bump | .bumpAs _ => certain
  | .report _ => true
  | .seq first second => first.takesOrReports certain || second.takesOrReports certain
  | .choose guard yes no =>
    yes.takesOrReports (certain || guard.needsMore) && no.takesOrReports certain
  | .node _ body => body.takesOrReports certain
  | .skip | .flush | .many _ _ | .balancedTo _ | .extendAs _ _ _ _ | .nested => false

def takesUnder : Guard → Rule → Bool
  | .both .more (.negate (.sees kinds)), .balancedTo stops => kinds == stops
  | _, _ => false

def isReport : Rule → Bool
  | .report _ => true
  | _ => false

/-- Every node that the rule builds holds a token, or an error is reported. -/
def buildsFull (certain : Bool) : Rule → Bool
  | .seq first second => first.isReport || first.buildsFull certain && second.buildsFull false
  | .choose guard yes no =>
    yes.buildsFull (certain || guard.needsMore) && no.buildsFull certain
  | .many guard body => body.buildsFull guard.needsMore
  | .node _ body => body.takesOrReports certain && body.buildsFull certain
  | .extendAs _ first guard second =>
    first.buildsFull certain && second.buildsFull false && takesUnder guard second
  | .skip | .bump | .bumpAs _ | .flush | .report _ | .balancedTo _ | .nested => true

end Rule

def Input.Certain (certain : Bool) (input : Input) : Prop :=
  certain = true → input.ahead ≠ []

theorem Input.certain_false (input : Input) : input.Certain false :=
  fun h => absurd h Bool.false_ne_true

theorem Input.Certain.flushed {certain : Bool} {input : Input} (h : input.Certain certain) :
    input.flushed.Certain certain := by
  intro hcertain
  have hne := h hcertain
  obtain ⟨ahead, trailing, stop⟩ := input
  cases ahead with
  | nil => exact absurd rfl hne
  | cons lexeme rest => simp [Input.flushed]

theorem Input.Certain.of_holds {certain : Bool} {input : Input} {guard : Guard}
    (h : input.Certain certain) (hholds : guard.holds input.ahead = true) :
    input.Certain (certain || guard.needsMore) := by
  intro hcertain
  rcases (Bool.or_eq_true _ _).mp hcertain with hcertain | hneeds
  · exact h hcertain
  · exact Guard.ne_nil_of_needsMore hneeds hholds

namespace Outcome

theorem Takes.ahead_eq_of_none {outcome : Outcome} {input : Input} (h : outcome.Takes input)
    (hnone : visible (Tree.tokensOf outcome.trees) = []) :
    outcome.rest.ahead.map Lexeme.token = input.ahead.map Lexeme.token := by
  obtain ⟨taken, htaken, hstands⟩ := h.ahead
  rw [hnone, List.forall₂_nil_left_iff] at hstands
  rw [htaken, hstands, List.nil_append]

theorem Takes.certain {outcome : Outcome} {input : Input} {certain : Bool}
    (h : outcome.Takes input) (hnone : visible (Tree.tokensOf outcome.trees) = [])
    (hcertain : input.Certain certain) : outcome.rest.Certain certain := by
  intro hc hnil
  have hsame := h.ahead_eq_of_none hnone
  rw [hnil] at hsame
  exact hcertain hc (List.map_eq_nil_iff.mp hsame.symm)

theorem Takes.visible_of_advances {outcome : Outcome} {input : Input} (h : outcome.Takes input)
    (hadvances : outcome.Advances input) : visible (Tree.tokensOf outcome.trees) ≠ [] := by
  intro hnone
  have hlength := congrArg List.length (h.ahead_eq_of_none hnone)
  simp only [List.length_map] at hlength
  rw [Advances, hlength] at hadvances
  exact Nat.lt_irrefl _ hadvances

end Outcome

namespace Rule

variable {nested : Input → Outcome}

theorem visible_runNode {kind : Kind} {step : Input → Outcome} {input : Input} (h : input.Sorted) :
    visible (Tree.tokensOf (runNode kind step input).trees) =
      visible (Tree.tokensOf (step input.flushed).trees) := by
  have htrees : Tree.tokensOf (runNode kind step input).trees =
      input.pending ++ Tree.tokensOf (step input.flushed).trees := by
    change Tree.tokensOf (input.pending.map .token ++ [.node kind (step input.flushed).trees]) = _
    rw [Tree.tokensOf_append, Tree.tokensOf_map_token]
    simp [Tree.tokensOf, Tree.tokens]
  rw [htrees, visible_append, visible_eq_nil_iff.mpr (Input.isTrivia_of_mem_pending h),
    List.nil_append]

theorem visible_of_takesOrReports
    (hnested : ∀ input : Input, input.Sorted → (nested input).Takes input) (rule : Rule)
    (hrule : rule.renamesToIdent = true) {input : Input} (h : input.Sorted) {certain : Bool}
    (hcertain : input.Certain certain) (htakes : rule.takesOrReports certain = true)
    (hok : (rule.runWith nested input).errors = []) :
    visible (Tree.tokensOf (rule.runWith nested input).trees) ≠ [] := by
  induction rule generalizing input certain with
  | bump | bumpAs =>
    obtain ⟨lexeme, rest, hahead⟩ := List.exists_cons_of_ne_nil (hcertain htakes)
    have hkinds : input.kinds = lexeme.kind :: rest.map Lexeme.kind := by
      rw [Input.kinds, hahead]
      rfl
    exact (takes_runWith hnested _ hrule h).visible_of_advances (advances_runBump _ hkinds)
  | report problem => cases hok
  | seq first second ihFirst ihSecond =>
    simp only [renamesToIdent, Bool.and_eq_true] at hrule
    simp only [takesOrReports, Bool.or_eq_true] at htakes
    obtain ⟨hokFirst, hokSecond⟩ := List.append_eq_nil_iff.mp hok
    have hfirst := takes_runWith hnested first hrule.1 h
    have htrees : Tree.tokensOf ((first.seq second).runWith nested input).trees =
        Tree.tokensOf (first.runWith nested input).trees ++
          Tree.tokensOf (second.runWith nested (first.runWith nested input).rest).trees :=
      Tree.tokensOf_append ..
    rw [htrees, visible_append]
    intro hnone
    obtain ⟨hnoneFirst, hnoneSecond⟩ := List.append_eq_nil_iff.mp hnone
    rcases htakes with htakes | htakes
    · exact ihFirst hrule.1 h hcertain htakes hokFirst hnoneFirst
    · exact ihSecond hrule.2 hfirst.sorted (hfirst.certain hnoneFirst hcertain) htakes hokSecond
        hnoneSecond
  | choose guard yes no ihYes ihNo =>
    simp only [renamesToIdent, Bool.and_eq_true] at hrule
    simp only [takesOrReports, Bool.and_eq_true] at htakes
    simp only [runWith] at hok ⊢
    split at hok
    · next hholds =>
      rw [if_pos hholds]
      exact ihYes hrule.1 h (hcertain.of_holds hholds) htakes.1 hok
    · next hholds =>
      rw [if_neg hholds]
      exact ihNo hrule.2 h hcertain htakes.2 hok
  | node kind body ih =>
    simp only [runWith] at hok ⊢
    rw [visible_runNode h]
    exact ih hrule (Input.sorted_flushed h) hcertain.flushed htakes hok
  | skip | flush | many | balancedTo | extendAs | nested => cases htakes

theorem visible_of_takesUnder
    (nested : Input → Outcome) {guard : Guard} {second : Rule} {input : Input} (h : input.Sorted)
    (hunder : takesUnder guard second = true) (hholds : guard.holds input.ahead = true) :
    visible (Tree.tokensOf (second.runWith nested input).trees) ≠ [] := by
  unfold takesUnder at hunder
  split at hunder
  · next kinds stops =>
    obtain rfl : kinds = stops := by simpa using hunder
    simp only [Guard.holds, Bool.and_eq_true, Bool.not_eq_true'] at hholds
    obtain ⟨hmore, hnot⟩ := hholds
    obtain ⟨lexeme, rest, hahead⟩ := List.exists_cons_of_ne_nil (l := input.ahead) (by
      simpa using hmore)
    have hkinds : input.kinds = lexeme.kind :: rest.map Lexeme.kind := by
      rw [Input.kinds, hahead]
      rfl
    rw [hahead] at hnot
    exact (takes_runBalancedTo kinds h).visible_of_advances (advances_runBalancedTo hkinds hnot)
  · cases hunder

theorem allFull_runMany {guard : Guard} {step : Input → Outcome}
    (htakes : ∀ input : Input, input.Sorted → (step input).Takes input)
    (hstep : ∀ input : Input, input.Sorted → input.Certain guard.needsMore →
      (step input).errors = [] → Tree.AllFull (step input).trees)
    (bound : Nat) {input : Input} (h : input.Sorted)
    (hok : (runMany guard step bound input).errors = []) :
    Tree.AllFull (runMany guard step bound input).trees := by
  induction bound generalizing input with
  | zero => trivial
  | succ bound ih =>
    simp only [runMany] at hok ⊢
    split at hok
    · next hholds =>
      rw [if_pos hholds]
      obtain ⟨hokFirst, hokRest⟩ := List.append_eq_nil_iff.mp hok
      exact Tree.allFull_append.mpr
        ⟨hstep input h (fun hneeds => Guard.ne_nil_of_needsMore hneeds hholds) hokFirst,
          ih (htakes input h).sorted hokRest⟩
    · next hholds =>
      rw [if_neg hholds]
      trivial

theorem allFull_treesOf (taken : List Lexeme) : Tree.AllFull (treesOf taken) := by
  induction taken with
  | nil => trivial
  | cons lexeme rest ih =>
    exact Tree.allFull_append.mpr
      ⟨Tree.allFull_append.mpr ⟨Tree.allFull_map_token _, trivial, trivial⟩, ih⟩

theorem allFull_runWith
    (hnested : ∀ input : Input, input.Sorted → (nested input).Takes input)
    (hfull : ∀ input : Input, input.Sorted → (nested input).errors = [] →
      Tree.AllFull (nested input).trees)
    (rule : Rule) (hrule : rule.renamesToIdent = true) {input : Input} (h : input.Sorted)
    {certain : Bool} (hcertain : input.Certain certain) (hbuilds : rule.buildsFull certain = true)
    (hok : (rule.runWith nested input).errors = []) :
    Tree.AllFull (rule.runWith nested input).trees := by
  induction rule generalizing input certain with
  | skip | report => trivial
  | bump | bumpAs =>
    simp only [runWith, runBump]
    split
    · exact Tree.allFull_map_token _
    · exact Tree.allFull_append.mpr ⟨Tree.allFull_map_token _, trivial, trivial⟩
  | flush => exact Tree.allFull_map_token _
  | seq first second ihFirst ihSecond =>
    simp only [renamesToIdent, Bool.and_eq_true] at hrule
    simp only [buildsFull, Bool.or_eq_true, Bool.and_eq_true] at hbuilds
    obtain ⟨hokFirst, hokSecond⟩ := List.append_eq_nil_iff.mp hok
    have hfirst := takes_runWith hnested first hrule.1 h
    rcases hbuilds with hreport | hbuilds
    · cases first with
      | report problem => cases hokFirst
      | _ => cases hreport
    exact Tree.allFull_append.mpr ⟨ihFirst hrule.1 h hcertain hbuilds.1 hokFirst,
      ihSecond hrule.2 hfirst.sorted (Input.certain_false _) hbuilds.2 hokSecond⟩
  | choose guard yes no ihYes ihNo =>
    simp only [renamesToIdent, Bool.and_eq_true] at hrule
    simp only [buildsFull, Bool.and_eq_true] at hbuilds
    simp only [runWith] at hok ⊢
    split at hok
    · next hholds =>
      rw [if_pos hholds]
      exact ihYes hrule.1 h (hcertain.of_holds hholds) hbuilds.1 hok
    · next hholds =>
      rw [if_neg hholds]
      exact ihNo hrule.2 h hcertain hbuilds.2 hok
  | many guard body ih =>
    exact allFull_runMany (fun _ hother => takes_runWith hnested body hrule hother)
      (fun _ hother hsure hokStep => ih hrule hother hsure hbuilds hokStep) _ h hok
  | balancedTo stops => exact allFull_treesOf _
  | node kind body ih =>
    simp only [buildsFull, Bool.and_eq_true] at hbuilds
    have hsorted := Input.sorted_flushed h
    have hokBody : (body.runWith nested input.flushed).errors = [] := hok
    exact Tree.allFull_append.mpr ⟨Tree.allFull_map_token _,
      ⟨visible_of_takesOrReports hnested body hrule hsorted hcertain.flushed hbuilds.1 hokBody,
        ih hrule hsorted hcertain.flushed hbuilds.2 hokBody⟩, trivial⟩
  | extendAs kind first guard second ihFirst ihSecond =>
    simp only [renamesToIdent, Bool.and_eq_true] at hrule
    simp only [buildsFull, Bool.and_eq_true] at hbuilds
    have hsorted := Input.sorted_flushed h
    have hhead := takes_runWith hnested first hrule.1 hsorted
    have hokInner := (List.append_eq_nil_iff.mp hok).2
    refine Tree.allFull_append.mpr ⟨Tree.allFull_map_token _, ?_⟩
    dsimp only at hokInner ⊢
    split at hokInner
    · next hholds =>
      obtain ⟨hokFirst, hokSecond⟩ := List.append_eq_nil_iff.mp hokInner
      have hunder := visible_of_takesUnder nested hhead.sorted hbuilds.2 hholds
      have hrow : Tree.AllFull (first.runWith nested input.flushed).trees ∧
          Tree.AllFull (second.runWith nested (first.runWith nested input.flushed).rest).trees :=
        ⟨ihFirst hrule.1 hsorted hcertain.flushed hbuilds.1.1 hokFirst,
          ihSecond hrule.2 hhead.sorted (Input.certain_false _) hbuilds.1.2
            hokSecond⟩
      rw [if_pos hholds]
      refine ⟨⟨?_, Tree.allFull_append.mpr hrow⟩, trivial⟩
      change visible (Tree.tokensOf ((first.runWith nested input.flushed).trees ++
        (second.runWith nested (first.runWith nested input.flushed).rest).trees)) ≠ []
      rw [Tree.tokensOf_append, visible_append]
      exact fun hnone => hunder (List.append_eq_nil_iff.mp hnone).2
    · next hholds =>
      rw [if_neg hholds]
      exact ihFirst hrule.1 hsorted hcertain.flushed hbuilds.1.1 hokInner
  | nested => exact hfull input h hok

theorem allFull_runNested {inner : Rule} (hrename : inner.renamesToIdent = true)
    (hinner : inner.buildsFull false = true) (depth : Nat) {input : Input} (h : input.Sorted)
    (hok : (runNested inner depth input).errors = []) :
    Tree.AllFull (runNested inner depth input).trees := by
  induction depth generalizing input with
  | zero => trivial
  | succ depth ih =>
    exact allFull_runWith (fun _ hother => takes_runNested hrename depth hother)
      (fun _ hother hokOther => ih hother hokOther) inner hrename h
      (Input.certain_false _) hinner hok

end Rule

/-- Every node below the root of a text without errors holds a visible token. -/
theorem allFull_parse {text : String} (hok : (parse text).errors = []) :
    Tree.AllFull (parse text).tree.children := by
  have hsorted := Input.sorted_ofText text
  have hnested := Grammar.takes_nested (Input.ofText text).ahead.length
  refine Rule.allFull_runWith hnested (fun _ hother hokOther => ?_) Grammar.file
    Grammar.renamesToIdent_file hsorted (Input.certain_false _) (by decide) hok
  exact Rule.allFull_runNested Grammar.renamesToIdent_enumType (by decide) _ hother hokOther

end Ili
