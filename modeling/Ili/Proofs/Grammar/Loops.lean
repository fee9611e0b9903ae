import Ili.Proofs.Grammar.Positions

/-!
# Loops make progress

Wherever a parse stands in whatever row of tokens, a loop of the grammar that goes on moves the
position forward, and so it comes to an end. That leaves the two loops that are no rules of their
own: the search for a token outside brackets, which takes one token a lap, and the look ahead over
the property list behind a name, which takes nothing but goes no further than the tokens do.
-/

namespace Ili

namespace Rule

/-- The loops in a rule: the guard each one goes on under, and its body. -/
def loops : Rule → List (Guard × Rule)
  | .seq first second => first.loops ++ second.loops
  | .choose _ yes no => yes.loops ++ no.loops
  | .many guard body => (guard, body) :: body.loops
  | .node _ body => body.loops
  | .extendAs _ first _ second => first.loops ++ second.loops
  | .skip | .bump | .bumpAs _ | .flush | .report _ | .balancedTo _ | .nested => []

/-- The bounds a rule is run with are never met. -/
structure Unbounded (rule : Rule) : Prop where
  renames : rule.renamesToIdent = true
  advance : rule.loopsAdvance = true
  parens : rule.nestsInParens = true

theorem Unbounded.body {guard : Guard} {body : Rule} (h : (Rule.many guard body).Unbounded) :
    loopAdvances guard body = true ∧ body.Unbounded := by
  obtain ⟨hlap, hadvance⟩ := (Bool.and_eq_true _ _).mp h.advance
  exact ⟨hlap, h.renames, hadvance, h.parens⟩

theorem Unbounded.of_mem_loops {rule : Rule} (h : rule.Unbounded) {loop : Guard × Rule}
    (hmem : loop ∈ rule.loops) : (Rule.many loop.1 loop.2).Unbounded := by
  induction rule with
  | skip | bump | bumpAs | flush | report | balancedTo | nested => cases hmem
  | seq first second ihFirst ihSecond =>
    obtain ⟨hrenames, hadvance, hparens⟩ := h
    simp only [renamesToIdent, loopsAdvance, nestsInParens, Bool.and_eq_true]
      at hrenames hadvance hparens
    rcases List.mem_append.mp hmem with hmem | hmem
    · exact ihFirst ⟨hrenames.1, hadvance.1, hparens.1⟩ hmem
    · exact ihSecond ⟨hrenames.2, hadvance.2, hparens.2⟩ hmem
  | choose guard yes no ihYes ihNo =>
    obtain ⟨hrenames, hadvance, hparens⟩ := h
    simp only [renamesToIdent, loopsAdvance, nestsInParens, Bool.and_eq_true, Bool.or_eq_true]
      at hrenames hadvance hparens
    rcases List.mem_append.mp hmem with hmem | hmem
    · rcases hparens.1 with ⟨-, hnested⟩ | hyes
      · cases yes with
        | nested => cases hmem
        | _ => cases hnested
      · exact ihYes ⟨hrenames.1, hadvance.1, hyes⟩ hmem
    · exact ihNo ⟨hrenames.2, hadvance.2, hparens.2⟩ hmem
  | many guard body ih =>
    rcases List.mem_cons.mp hmem with rfl | hmem
    · exact h
    · exact ih h.body.2 hmem
  | node kind body ih => exact ih ⟨h.renames, h.advance, h.parens⟩ hmem
  | extendAs kind first guard second ihFirst ihSecond =>
    obtain ⟨hrenames, hadvance, hparens⟩ := h
    simp only [renamesToIdent, loopsAdvance, nestsInParens, Bool.and_eq_true]
      at hrenames hadvance hparens
    rcases List.mem_append.mp hmem with hmem | hmem
    · exact ihFirst ⟨hrenames.1, hadvance.1, hparens.1⟩ hmem
    · exact ihSecond ⟨hrenames.2, hadvance.2, hparens.2⟩ hmem

/-! ### The search for a token outside brackets -/

/-- The search that `balancedTo` makes, lap by lap: it ends at a token it looks for outside the
brackets opened on the way, or where no token is left, and takes every other token. -/
inductive Searches (stops : List Kind) : Nat → Parsing → Parsing → Prop
  | ended {depth : Nat} {parsing : Parsing} (hahead : parsing.input.ahead = []) :
      Searches stops depth parsing parsing
  | found {parsing : Parsing} {lexeme : Lexeme} {rest : List Lexeme}
      (hahead : parsing.input.ahead = lexeme :: rest)
      (hstop : stops.contains lexeme.kind = true) : Searches stops 0 parsing parsing
  | again {depth : Nat} {parsing last : Parsing} {lexeme : Lexeme} {rest : List Lexeme}
      (hahead : parsing.input.ahead = lexeme :: rest)
      (hgo : ¬(depth = 0 ∧ stops.contains lexeme.kind = true))
      (hrest : Searches stops (depthAfter depth lexeme.kind)
        (parsing.after (runBump id parsing.input)) last) :
      Searches stops depth parsing last

theorem searches_splitBalanced (stops : List Kind) (depth : Nat) {parsing : Parsing}
    {ahead : List Lexeme} (h : parsing.input.ahead = ahead) :
    Searches stops depth parsing
      (parsing.after ⟨treesOf (splitBalanced stops depth ahead).1, [],
        { parsing.input with ahead := (splitBalanced stops depth ahead).2 }⟩) := by
  have hstay : parsing.after ⟨treesOf [], [], { parsing.input with ahead }⟩ = parsing := by
    rw [← h]
    exact parsing.after_none
  induction ahead generalizing parsing depth with
  | nil =>
    rw [splitBalanced, hstay]
    exact .ended h
  | cons lexeme rest ih =>
    rw [splitBalanced]
    split
    · next hstop =>
      obtain ⟨rfl, hstop⟩ := hstop
      rw [hstay]
      exact .found h hstop
    · next hgo =>
      have hbump : parsing.after (runBump id parsing.input) =
          parsing.after ⟨treesOf [lexeme], [], { parsing.input with ahead := rest }⟩ := by
        rw [runBump, h, treesOf, List.flatMap_singleton]
        rfl
      have hmiddle : (parsing.after (runBump id parsing.input)).input.ahead = rest := by
        rw [hbump]
        rfl
      refine .again h hgo ?_
      have hrest := ih (depthAfter depth lexeme.kind) hmiddle (by
        rw [← hmiddle]
        exact Parsing.after_none _)
      rw [hbump] at hrest ⊢
      simpa [Parsing.after, Builder.put_put, treesOf] using hrest

/-- The rule does what the search does. -/
theorem searches_runBalancedTo (stops : List Kind) (parsing : Parsing) :
    Searches stops 0 parsing (parsing.after (runBalancedTo stops parsing.input)) :=
  searches_splitBalanced stops 0 rfl

end Rule

/-! ### The look ahead for a role -/

namespace Guard

/-- The kind of a visible token ahead, and behind the last one that of an erroneous token. -/
def kindAt (ahead : List Lexeme) (place : Nat) : Kind :=
  (ahead[place]?.map Lexeme.kind).getD .error

def closesList (kind : Kind) : Bool :=
  kind == .rParen || kind == .error

theorem exists_closesList (ahead : List Lexeme) :
    ∃ place, place ≤ ahead.length ∧ closesList (kindAt ahead place) = true ∧
      (∀ before < place, closesList (kindAt ahead before) = false) ∧
      ahead.dropWhile (fun l => l.kind != .rParen && l.kind != .error) = ahead.drop place := by
  induction ahead with
  | nil => exact ⟨0, Nat.le_refl _, rfl, fun _ hlt => absurd hlt (Nat.not_lt_zero _), rfl⟩
  | cons lexeme rest ih =>
    have hgo : (lexeme.kind != .rParen && lexeme.kind != .error) = !closesList lexeme.kind :=
      (Bool.not_or ..).symm
    cases hclose : closesList lexeme.kind with
    | true =>
      refine ⟨0, Nat.zero_le _, hclose, fun _ hlt => absurd hlt (Nat.not_lt_zero _), ?_⟩
      rw [List.dropWhile_cons_of_neg (by simp [hgo, hclose])]
      rfl
    | false =>
      obtain ⟨place, hle, hat, hbefore, hdrop⟩ := ih
      refine ⟨place + 1, Nat.succ_le_succ hle, hat, fun before hlt => ?_, ?_⟩
      · cases before with
        | zero => exact hclose
        | succ before => exact hbefore before (Nat.lt_of_succ_lt_succ hlt)
      · rw [List.dropWhile_cons_of_pos (by simp [hgo, hclose]), hdrop]
        rfl

theorem any_contains_eq {operators : List Kind} (h : operators.contains .error = false)
    (ahead : List Lexeme) : (ahead.head?.any fun l => operators.contains l.kind) =
      operators.contains (kindAt ahead 0) := by
  cases ahead with
  | nil => exact h.symm
  | cons lexeme rest => rfl

theorem kindAt_drop (ahead : List Lexeme) (first place : Nat) :
    kindAt (ahead.drop first) place = kindAt ahead (first + place) := by
  rw [kindAt, kindAt, List.getElem?_drop]

/-- Behind a name the look ahead goes over a property list up to the first token that may close it,
which there is no further than the tokens go, and asks for the kind of the token behind. -/
theorem holds_sentenceOf {operators : List Kind} (h : operators.contains .error = false)
    (ahead : List Lexeme) :
    if kindAt ahead 1 = .lParen then
      ∃ place, 1 < place ∧ place ≤ ahead.length ∧ closesList (kindAt ahead place) = true ∧
        (∀ before, 1 ≤ before → before < place → closesList (kindAt ahead before) = false) ∧
        (sentenceOf operators).holds ahead = operators.contains (kindAt ahead (place + 1))
    else (sentenceOf operators).holds ahead = operators.contains (kindAt ahead 1) := by
  have hbehind : (sentenceOf operators).holds ahead =
      operators.contains (kindAt (behindName ahead) 0) := any_contains_eq h _
  rw [hbehind]
  obtain _ | ⟨name, _ | ⟨lexeme, rest⟩⟩ := ahead
  · rfl
  · rfl
  · change if lexeme.kind = .lParen then _ else _
    by_cases hparen : lexeme.kind = .lParen
    · obtain ⟨place, hle, hat, hbefore, hdrop⟩ := exists_closesList rest
      have hlist : behindName (name :: lexeme :: rest) = rest.drop (place + 1) := by
        change (if lexeme.kind = .lParen then _ else _) = _
        rw [if_pos hparen, hdrop, List.drop_drop]
      rw [if_pos hparen, hlist]
      refine ⟨place + 2, by omega, Nat.succ_le_succ (Nat.succ_le_succ hle), hat, ?_, ?_⟩
      · intro before hone hlt
        match before with
        | 1 =>
          change closesList lexeme.kind = false
          rw [hparen]
          rfl
        | before + 2 => exact hbefore before (by omega)
      · rw [kindAt_drop]
        rfl
    · have hlist : behindName (name :: lexeme :: rest) = lexeme :: rest := if_neg hparen
      rw [if_neg hparen, hlist]
      rfl

end Guard

namespace Grammar

def loops : List (Guard × Rule) :=
  file.loops ++ enumType.loops

theorem unbounded_file : file.Unbounded :=
  ⟨renamesToIdent_file, loopsAdvance_file, by decide⟩

theorem unbounded_of_mem_loops {loop : Guard × Rule} (hmem : loop ∈ loops) :
    (Rule.many loop.1 loop.2).Unbounded := by
  rcases List.mem_append.mp hmem with hmem | hmem
  · exact unbounded_file.of_mem_loops hmem
  · have henum : enumType.Unbounded := ⟨renamesToIdent_enumType, by decide +kernel, by decide⟩
    exact henum.of_mem_loops hmem

variable {tokens : List Token} {parsing : Parsing} {position : Nat}

def ran (rule : Rule) (parsing : Parsing) : Parsing :=
  parsing.after (Rule.run enumType rule parsing.input)

/-- The bounds a rule is run with cut nothing off. -/
theorem runs_ran {rule : Rule} (hrule : rule.Unbounded) (hsorted : parsing.input.Sorted) :
    Rule.Runs enumType rule parsing (ran rule parsing) :=
  runs_run hrule.renames hrule.advance hrule.parens hsorted

theorem exists_lap {loop : Guard × Rule} (hmem : loop ∈ loops)
    (h : parsing.input = .behind tokens position)
    (hholds : loop.1.holds parsing.input.ahead = true) :
    Rule.Runs enumType loop.2 parsing (ran loop.2 parsing) ∧
      ∃ next, (ran loop.2 parsing).input = .behind tokens next ∧ position < next ∧
        next ≤ tokens.length := by
  have hsorted : parsing.input.Sorted := h ▸ Input.sorted_behind
  obtain ⟨hlap, hbody⟩ := (unbounded_of_mem_loops hmem).body
  have hless := Rule.advances_of_loopAdvances (takes_nested parsing.input.ahead.length)
    hbody.renames hlap hsorted hholds
  have hruns := runs_ran hbody hsorted
  obtain ⟨next, hreaches⟩ := hruns.reaches h
  have hmoved : next ≠ position := by
    rintro rfl
    exact absurd (congrArg (·.ahead.length) (hreaches.input.trans h.symm)) hless.ne
  have hle := hreaches.le
  have hmax := hreaches.le_max
  have hlt : position < tokens.length := by
    by_contra hend
    rw [h, Input.behind_of_length_le (Nat.le_of_not_lt hend)] at hless
    exact absurd hless (Nat.not_lt_zero _)
  exact ⟨hruns, next, hreaches.input, by omega, by omega⟩

theorem input_ran_file (h : parsing.input = .behind tokens position) :
    (ran file parsing).input = .behind tokens tokens.length := by
  have hsorted : parsing.input.Sorted := h ▸ Input.sorted_behind
  obtain ⟨next, hreaches⟩ := (runs_ran unbounded_file hsorted).reaches h
  rw [hreaches.input]
  have hnone : (Input.behind tokens next).tokens = [] := by
    rw [← hreaches.input]
    exact rest_run_file hsorted
  rw [Input.behind, Input.tokens_ofTokens] at hnone
  have hend : tokens.length ≤ next := List.drop_eq_nil_iff.mp hnone
  rw [Input.behind_of_length_le hend, Input.behind_of_length_le (Nat.le_refl _)]

end Grammar

/-- Wherever a parse stands in a row of tokens, no loop repeats without moving the position forward:
neither a loop of the grammar, whose every lap takes a token, nor the search for a token outside
brackets, which takes them one by one. So every loop ends by itself where the bounded one does, the
look ahead for a role stops within the tokens, and the rule for files ends behind the last one. -/
theorem loops_progress (tokens : List Token) (position : Nat) (errors : List SyntaxError)
    (builder : Builder) :
    let parsing : Parsing := ⟨.behind tokens position, errors, builder⟩
    let ahead := parsing.input.ahead
    (∀ loop ∈ Grammar.loops,
      (loop.1.holds ahead = true →
        Rule.Runs Grammar.enumType loop.2 parsing (Grammar.ran loop.2 parsing) ∧
        ∃ next, (Grammar.ran loop.2 parsing).input = .behind tokens next ∧ position < next ∧
          next ≤ tokens.length) ∧
      Rule.Runs Grammar.enumType (.many loop.1 loop.2) parsing
        (Grammar.ran (.many loop.1 loop.2) parsing)) ∧
    ((ahead ≠ [] →
        ∃ next, (Grammar.ran .bump parsing).input = .behind tokens next ∧ position < next ∧
          next ≤ tokens.length) ∧
      ∀ stops, Rule.Searches stops 0 parsing (Grammar.ran (.balancedTo stops) parsing)) ∧
    (if Guard.kindAt ahead 1 = .lParen then
      ∃ place, 1 < place ∧ place ≤ ahead.length ∧
        Guard.closesList (Guard.kindAt ahead place) = true ∧
        (∀ before, 1 ≤ before → before < place →
          Guard.closesList (Guard.kindAt ahead before) = false) ∧
        (Guard.sentenceOf Grammar.roleOperators).holds ahead =
          Grammar.roleOperators.contains (Guard.kindAt ahead (place + 1))
    else (Guard.sentenceOf Grammar.roleOperators).holds ahead =
      Grammar.roleOperators.contains (Guard.kindAt ahead 1)) ∧
    Rule.Runs Grammar.enumType Grammar.file parsing (Grammar.ran Grammar.file parsing) ∧
      (Grammar.ran Grammar.file parsing).input = .behind tokens tokens.length := by
  intro parsing ahead
  have hinput : parsing.input = .behind tokens position := rfl
  have hsorted : parsing.input.Sorted := Input.sorted_behind
  refine ⟨fun loop hmem => ⟨Grammar.exists_lap hmem hinput, ?_⟩, ⟨?_, ?_⟩,
    Guard.holds_sentenceOf (by decide) ahead, Grammar.runs_ran Grammar.unbounded_file hsorted,
    Grammar.input_ran_file hinput⟩
  · exact Grammar.runs_ran (Grammar.unbounded_of_mem_loops hmem) hsorted
  · intro hne
    obtain ⟨lexeme, rest, hahead⟩ := List.exists_cons_of_ne_nil hne
    obtain ⟨next, hlt, hle, hrest⟩ := Input.exists_behind_rest hahead
    refine ⟨next, Eq.trans ?_ hrest, hlt, hle⟩
    change (Rule.runBump id parsing.input).rest = _
    rw [Rule.runBump, show parsing.input.ahead = lexeme :: rest from hahead]
  · exact fun stops => Rule.searches_runBalancedTo stops parsing

example : (.both .more (.negate (.sees [.endKw])), Grammar.modelMember) ∈ Grammar.loops := by
  decide +kernel

end Ili
