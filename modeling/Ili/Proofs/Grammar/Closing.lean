import Ili.Proofs.Grammar.Fullness

/-!
# Where a text without errors ends

The header ends in a semicolon and a model in a point, and nothing else can stand in a file without
being reported. Which tokens a rule may take last is read off the rule, given whether the next token
is known to be one of them.
-/

namespace Ili

namespace Guard

def seesOnly (kinds : List Kind) : Guard → Bool
  | sees seen => seen.all kinds.contains
  | _ => false

theorem mem_of_seesOnly {kinds : List Kind} {guard : Guard} {ahead : List Lexeme}
    (h : guard.seesOnly kinds = true) (hholds : guard.holds ahead = true) :
    ∀ lexeme ∈ ahead.head?, lexeme.kind ∈ kinds := by
  cases guard with
  | sees seen =>
    intro lexeme hlexeme
    rw [holds, Option.mem_def.mp hlexeme, Option.any_some, List.contains_iff_mem] at hholds
    exact List.contains_iff_mem.mp (List.all_eq_true.mp h _ hholds)
  | _ => cases h

end Guard

def Tree.EndsIn (kinds : List Kind) (trees : List Tree) : Prop :=
  ∀ t ∈ (visible (tokensOf trees)).getLast?, t.kind ∈ kinds

def Input.Next (kinds : List Kind) (known : Bool) (input : Input) : Prop :=
  known = true → ∀ lexeme ∈ input.ahead.head?, lexeme.kind ∈ kinds

theorem Input.next_false (kinds : List Kind) (input : Input) : input.Next kinds false :=
  fun h => absurd h Bool.false_ne_true

theorem Input.Next.flushed {kinds : List Kind} {known : Bool} {input : Input}
    (h : input.Next kinds known) : input.flushed.Next kinds known := by
  intro hknown lexeme hlexeme
  obtain ⟨ahead, trailing, stop⟩ := input
  cases ahead with
  | nil => cases hlexeme
  | cons first rest =>
    obtain rfl := Option.some.inj hlexeme
    exact h hknown first rfl

theorem Input.Next.of_holds {kinds : List Kind} {known : Bool} {input : Input} {guard : Guard}
    (h : input.Next kinds known) (hholds : guard.holds input.ahead = true) :
    input.Next kinds (known || guard.seesOnly kinds) := by
  intro hor
  rcases (Bool.or_eq_true _ _).mp hor with hknown | honly
  · exact h hknown
  · exact Guard.mem_of_seesOnly honly hholds

namespace Rule

/-- Wherever it reports no error the rule takes nothing or ends in a token of these kinds. -/
def endsIn (kinds : List Kind) (known : Bool) : Rule → Bool
  | .skip | .flush | .report _ => true
  | .bump => known
  | .seq first second =>
    first.isReport || second.endsIn kinds false &&
      (first.endsIn kinds known || second.takesOrReports false)
  | .choose guard yes no =>
    yes.endsIn kinds (known || guard.seesOnly kinds) && no.endsIn kinds known
  | .many guard body => body.endsIn kinds (guard.seesOnly kinds)
  | .node _ body => body.endsIn kinds known
  | .bumpAs _ | .balancedTo _ | .extendAs _ _ _ _ | .nested => false

variable {kinds : List Kind} {known : Bool} {input : Input}

theorem endsIn_of_visible {trees : List Tree} (h : visible (Tree.tokensOf trees) = []) :
    Tree.EndsIn kinds trees := by
  rw [Tree.EndsIn, h]
  nofun

theorem endsIn_append {first second : List Tree} (hsecond : Tree.EndsIn kinds second)
    (h : Tree.EndsIn kinds first ∨ visible (Tree.tokensOf second) ≠ []) :
    Tree.EndsIn kinds (first ++ second) := by
  rw [Tree.EndsIn, Tree.tokensOf_append, visible_append]
  by_cases hnone : visible (Tree.tokensOf second) = []
  · rw [hnone, List.append_nil]
    exact h.resolve_right (not_not_intro hnone)
  · rw [List.getLast?_append_of_ne_nil _ hnone]
    exact hsecond

theorem endsIn_runFlush (h : input.Sorted) : Tree.EndsIn kinds (runFlush input).trees := by
  apply endsIn_of_visible
  change visible (Tree.tokensOf (input.pending.map .token)) = []
  rw [Tree.tokensOf_map_token, visible_eq_nil_iff.mpr (Input.isTrivia_of_mem_pending h)]

theorem endsIn_runBump (h : input.Sorted) (hnext : input.Next kinds true) :
    Tree.EndsIn kinds (runBump id input).trees := by
  obtain ⟨ahead, trailing, stop⟩ := input
  cases ahead with
  | nil => exact endsIn_runFlush h
  | cons lexeme rest =>
    have hvisible := (h.1 lexeme (by simp)).2
    have hlast : visible (Tree.tokensOf [.token lexeme.token]) = [lexeme.token] := by
      simp [Tree.tokensOf, Tree.tokens, visible, hvisible]
    apply endsIn_append
    · intro t ht
      rw [id, hlast] at ht
      obtain rfl := Option.some.inj ht
      exact hnext rfl lexeme rfl
    · right
      rw [id, hlast]
      exact List.cons_ne_nil _ _

theorem endsIn_runMany {guard : Guard} {step : Input → Outcome}
    (htakes : ∀ input : Input, input.Sorted → (step input).Takes input)
    (hstep : ∀ input : Input, input.Sorted → input.Next kinds (guard.seesOnly kinds) →
      (step input).errors = [] → Tree.EndsIn kinds (step input).trees)
    (bound : Nat) (h : input.Sorted) (hok : (runMany guard step bound input).errors = []) :
    Tree.EndsIn kinds (runMany guard step bound input).trees := by
  induction bound generalizing input with
  | zero => exact endsIn_of_visible rfl
  | succ bound ih =>
    simp only [runMany] at hok ⊢
    split at hok
    · next hholds =>
      rw [if_pos hholds]
      obtain ⟨hokFirst, hokRest⟩ := List.append_eq_nil_iff.mp hok
      have hnext : input.Next kinds (guard.seesOnly kinds) := fun hknown =>
        Guard.mem_of_seesOnly hknown hholds
      exact endsIn_append (ih (htakes input h).sorted hokRest)
        (.inl (hstep input h hnext hokFirst))
    · next hholds =>
      rw [if_neg hholds]
      exact endsIn_of_visible rfl

/-- A rule that passes the check ends in one of the kinds wherever it reports no error. -/
theorem endsIn_runWith {nested : Input → Outcome}
    (hnested : ∀ input : Input, input.Sorted → (nested input).Takes input) (rule : Rule)
    (hrule : rule.renamesToIdent = true) (h : input.Sorted) (hnext : input.Next kinds known)
    (hends : rule.endsIn kinds known = true) (hok : (rule.runWith nested input).errors = []) :
    Tree.EndsIn kinds (rule.runWith nested input).trees := by
  induction rule generalizing input known with
  | skip | report => exact endsIn_of_visible rfl
  | flush => exact endsIn_runFlush h
  | bump =>
    obtain rfl : known = true := hends
    exact endsIn_runBump h hnext
  | seq first second ihFirst ihSecond =>
    simp only [renamesToIdent, Bool.and_eq_true] at hrule
    simp only [endsIn, Bool.or_eq_true, Bool.and_eq_true] at hends
    obtain ⟨hokFirst, hokSecond⟩ := List.append_eq_nil_iff.mp hok
    have hsorted := (takes_runWith hnested first hrule.1 h).sorted
    rcases hends with hreport | ⟨hends, hfront⟩
    · cases first with
      | report problem => cases hokFirst
      | _ => cases hreport
    · apply endsIn_append (ihSecond hrule.2 hsorted (Input.next_false kinds _) hends
        hokSecond)
      apply hfront.imp
      · exact fun hends => ihFirst hrule.1 h hnext hends hokFirst
      · exact fun htakes => visible_of_takesOrReports hnested second hrule.2 hsorted
          (Input.certain_false _) htakes hokSecond
  | choose guard yes no ihYes ihNo =>
    simp only [renamesToIdent, Bool.and_eq_true] at hrule
    simp only [endsIn, Bool.and_eq_true] at hends
    simp only [runWith] at hok ⊢
    split at hok
    · next hholds =>
      rw [if_pos hholds]
      exact ihYes hrule.1 h (hnext.of_holds hholds) hends.1 hok
    · next hholds =>
      rw [if_neg hholds]
      exact ihNo hrule.2 h hnext hends.2 hok
  | many guard body ih =>
    exact endsIn_runMany (fun _ hother => takes_runWith hnested body hrule hother)
      (fun _ hother hnext hokStep => ih hrule hother hnext hends hokStep) _ h hok
  | node kind body ih =>
    have hinner := ih hrule (Input.sorted_flushed h) hnext.flushed hends hok
    rw [Tree.EndsIn, runWith, visible_runNode h]
    exact hinner
  | bumpAs | balancedTo | extendAs | nested => cases hends

end Rule

theorem getLast?_parse {text : String} (hok : (parse text).errors = []) :
    ∀ t ∈ (visible (parse text).tree.tokens).getLast?, t.kind = .semicolon ∨ t.kind = .dot := by
  have hends := Rule.endsIn_runWith (Grammar.takes_nested (Input.ofText text).ahead.length)
    Grammar.file Grammar.renamesToIdent_file (Input.sorted_ofText text)
    (Input.next_false [.semicolon, .dot] _) (by decide) hok
  intro t ht
  simpa using hends t ht

end Ili
