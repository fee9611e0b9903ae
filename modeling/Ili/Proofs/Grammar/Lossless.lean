import Ili.Parse
import Ili.Proofs.Token.Cut
import Mathlib.Data.List.Forall2

/-!
# Parsing loses nothing

Whatever a rule does, it takes a run of tokens from the front of the text and puts just those into
the trees it builds, at most under another kind. That holds of every rule and is one induction over
rules. That the rule for files leaves nothing behind is a matter of progress: a file is a loop, and
whatever token it sees next, its body takes one.
-/

namespace Ili

/-- A token in a tree stands for a token of the text: the same one, or a visible one that was taken
as an identifier. -/
def Token.StandsFor (inTree inText : Token) : Prop :=
  inTree = inText ∨ inTree = { inText with kind := .ident } ∧ inText.kind.isTrivia = false

theorem Token.StandsFor.text_eq {inTree inText : Token} (h : inTree.StandsFor inText) :
    inTree.text = inText.text := by
  rcases h with rfl | ⟨rfl, -⟩ <;> rfl

theorem Token.StandsFor.isTrivia_eq {inTree inText : Token} (h : inTree.StandsFor inText) :
    inTree.kind.isTrivia = inText.kind.isTrivia := by
  rcases h with rfl | ⟨rfl, hvisible⟩
  · rfl
  · exact hvisible.symm

theorem Token.standsFor_rfl {tokens : List Token} : List.Forall₂ Token.StandsFor tokens tokens := by
  induction tokens with
  | nil => exact .nil
  | cons token rest ih => exact .cons (.inl rfl) ih

theorem spelling_congr {left right : List Token} (h : List.Forall₂ Token.StandsFor left right) :
    spelling left = spelling right := by
  induction h with
  | nil => rfl
  | cons hstands _ ih => rw [spelling_cons, spelling_cons, hstands.text_eq, ih]

namespace Lexeme

def tokens (lexeme : Lexeme) : List Token :=
  lexeme.trivia ++ [lexeme.token]

/-- Blanks and comments in front, a visible token behind. -/
def Sorted (lexeme : Lexeme) : Prop :=
  (∀ token ∈ lexeme.trivia, token.kind.isTrivia = true) ∧ lexeme.token.kind.isTrivia = false

end Lexeme

namespace Input

def tokens (input : Input) : List Token :=
  input.ahead.flatMap Lexeme.tokens ++ input.trailing

def Sorted (input : Input) : Prop :=
  (∀ lexeme ∈ input.ahead, lexeme.Sorted) ∧ ∀ token ∈ input.trailing, token.kind.isTrivia = true

theorem tokens_ofTokens (start : Nat) (pending tokens : List Token) :
    (ofTokens start pending tokens).tokens = pending.reverse ++ tokens := by
  induction tokens generalizing start pending with
  | nil => simp [ofTokens, Input.tokens]
  | cons token rest ih =>
    by_cases htrivia : token.kind.isTrivia = true
    · simp [ofTokens, htrivia, ih]
    · have hrest := ih (start + token.size) []
      simp only [Input.tokens, List.reverse_nil, List.nil_append] at hrest
      simp [ofTokens, htrivia, Input.tokens, Lexeme.tokens, hrest]

theorem tokens_ofText (text : String) : (ofText text).tokens = tokenize text :=
  tokens_ofTokens 0 [] (tokenize text)

theorem sorted_ofTokens (start : Nat) (pending tokens : List Token)
    (hpending : ∀ token ∈ pending, token.kind.isTrivia = true) :
    (ofTokens start pending tokens).Sorted := by
  induction tokens generalizing start pending with
  | nil => exact ⟨by simp [ofTokens], by simpa [ofTokens] using hpending⟩
  | cons token rest ih =>
    by_cases htrivia : token.kind.isTrivia = true
    · simp only [ofTokens, htrivia, if_true]
      apply ih
      intro other hother
      rcases List.mem_cons.mp hother with rfl | hother
      · exact htrivia
      · exact hpending other hother
    · simp only [ofTokens, htrivia]
      obtain ⟨hahead, htrailing⟩ := ih (start + token.size) [] (by simp)
      refine ⟨?_, htrailing⟩
      intro lexeme hlexeme
      rcases List.mem_cons.mp hlexeme with rfl | hlexeme
      · exact ⟨by simpa using hpending, by simpa using htrivia⟩
      · exact hahead lexeme hlexeme

theorem sorted_ofText (text : String) : (ofText text).Sorted :=
  sorted_ofTokens 0 [] _ (by simp)

theorem sorted_flushed {input : Input} (h : input.Sorted) : input.flushed.Sorted := by
  obtain ⟨ahead, trailing, stop⟩ := input
  cases ahead with
  | nil => exact ⟨by simp [flushed], by simp [flushed]⟩
  | cons lexeme rest =>
    refine ⟨?_, h.2⟩
    intro other hother
    rcases List.mem_cons.mp hother with rfl | hother
    · exact ⟨by simp, (h.1 lexeme (by simp)).2⟩
    · exact h.1 other (by simp [hother])

theorem isTrivia_of_mem_pending {input : Input} (h : input.Sorted) :
    ∀ token ∈ input.pending, token.kind.isTrivia = true := by
  obtain ⟨ahead, trailing, stop⟩ := input
  cases ahead with
  | nil => exact h.2
  | cons lexeme rest => exact (h.1 lexeme (by simp)).1

theorem tokens_eq_pending_append (input : Input) :
    input.tokens = input.pending ++ input.flushed.tokens := by
  obtain ⟨ahead, trailing, stop⟩ := input
  cases ahead <;> simp [tokens, pending, flushed, Lexeme.tokens]

end Input

namespace Outcome

/-- The outcome holds the tokens taken from the front of the input and leaves the others. The same
holds of the visible tokens alone, which stay ahead when blanks and comments are put away. -/
structure Takes (outcome : Outcome) (input : Input) : Prop where
  tokens : ∃ taken, input.tokens = taken ++ outcome.rest.tokens ∧
    List.Forall₂ Token.StandsFor (Tree.tokensOf outcome.trees) taken
  ahead : ∃ taken, input.ahead.map Lexeme.token = taken ++ outcome.rest.ahead.map Lexeme.token ∧
    List.Forall₂ Token.StandsFor (visible (Tree.tokensOf outcome.trees)) taken
  sorted : outcome.rest.Sorted

theorem Takes.andThen {outcome : Outcome} {input : Input} {step : Input → Outcome}
    (h : outcome.Takes input) (hstep : (step outcome.rest).Takes outcome.rest) :
    (outcome.andThen step).Takes input := by
  obtain ⟨first, hfirst, hfirstTrees⟩ := h.tokens
  obtain ⟨second, hsecond, hsecondTrees⟩ := hstep.tokens
  obtain ⟨firstAhead, hfirstAhead, hfirstVisible⟩ := h.ahead
  obtain ⟨secondAhead, hsecondAhead, hsecondVisible⟩ := hstep.ahead
  have htrees : Tree.tokensOf (outcome.andThen step).trees =
      Tree.tokensOf outcome.trees ++ Tree.tokensOf (step outcome.rest).trees :=
    Tree.tokensOf_append ..
  refine ⟨⟨first ++ second, ?_, ?_⟩, ⟨firstAhead ++ secondAhead, ?_, ?_⟩, hstep.sorted⟩
  · rw [hfirst, hsecond, List.append_assoc]
    rfl
  · rw [htrees]
    exact List.rel_append hfirstTrees hsecondTrees
  · rw [hfirstAhead, hsecondAhead, List.append_assoc]
    rfl
  · rw [htrees, visible_append]
    exact List.rel_append hfirstVisible hsecondVisible

theorem takes_none {input : Input} (h : input.Sorted) : (none input).Takes input :=
  ⟨⟨[], rfl, .nil⟩, ⟨[], rfl, .nil⟩, h⟩

theorem Takes.length_le {outcome : Outcome} {input : Input} (h : outcome.Takes input) :
    outcome.rest.ahead.length ≤ input.ahead.length := by
  obtain ⟨taken, htaken, -⟩ := h.ahead
  have hlength := congrArg List.length htaken
  simp only [List.length_map, List.length_append] at hlength
  omega

theorem Takes.wrap {outcome : Outcome} {input : Input} (h : outcome.Takes input) (kind : Kind) :
    Takes { outcome with trees := [.node kind outcome.trees] } input := by
  have htrees : Tree.tokensOf [.node kind outcome.trees] = Tree.tokensOf outcome.trees := by
    simp [Tree.tokensOf, Tree.tokens]
  refine ⟨?_, ?_, h.sorted⟩
  · rw [htrees]
    exact h.tokens
  · rw [htrees]
    exact h.ahead

end Outcome

namespace Rule

/-- The only kind that tokens are taken as is that of identifiers. -/
def renamesToIdent : Rule → Bool
  | .bumpAs kind => kind == .ident
  | .seq first second => first.renamesToIdent && second.renamesToIdent
  | .choose _ yes no => yes.renamesToIdent && no.renamesToIdent
  | .many _ body | .node _ body => body.renamesToIdent
  | .extendAs _ first _ second => first.renamesToIdent && second.renamesToIdent
  | .skip | .bump | .flush | .report _ | .balancedTo _ | .nested => true

theorem takes_runFlush {input : Input} (h : input.Sorted) : (runFlush input).Takes input := by
  have htrees : Tree.tokensOf (runFlush input).trees = input.pending :=
    Tree.tokensOf_map_token input.pending
  refine ⟨⟨input.pending, input.tokens_eq_pending_append, ?_⟩, ⟨[], ?_, ?_⟩,
    Input.sorted_flushed h⟩
  · rw [htrees]
    exact Token.standsFor_rfl
  · obtain ⟨ahead, trailing, stop⟩ := input
    cases ahead <;> rfl
  · rw [htrees, visible_eq_nil_iff.mpr (Input.isTrivia_of_mem_pending h)]
    exact .nil

theorem takes_runBump {rename : Token → Token} {input : Input} (h : input.Sorted)
    (hrename : ∀ token : Token, token.kind.isTrivia = false → (rename token).StandsFor token) :
    (runBump rename input).Takes input := by
  obtain ⟨ahead, trailing, stop⟩ := input
  cases ahead with
  | nil => exact takes_runFlush h
  | cons lexeme rest =>
    obtain ⟨htrivia, hvisible⟩ := h.1 lexeme (by simp)
    have hstands := hrename lexeme.token hvisible
    have htrees : Tree.tokensOf (runBump rename ⟨lexeme :: rest, trailing, stop⟩).trees =
        lexeme.trivia ++ [rename lexeme.token] := by
      simp only [runBump, Tree.tokensOf_append, Tree.tokensOf_map_token]
      rfl
    refine ⟨⟨lexeme.tokens, by simp [runBump, Input.tokens], ?_⟩, ⟨[lexeme.token], rfl, ?_⟩, ?_⟩
    · rw [htrees]
      exact List.rel_append Token.standsFor_rfl (.cons hstands .nil)
    · have hrenamed : visible [rename lexeme.token] = [rename lexeme.token] := by
        simp [visible, hstands.isTrivia_eq, hvisible]
      rw [htrees, visible_append, visible_eq_nil_iff.mpr htrivia, hrenamed, List.nil_append]
      exact .cons hstands .nil
    · exact ⟨fun other hother => h.1 other (List.mem_cons_of_mem _ hother), h.2⟩

theorem takes_runMany {guard : Guard} {step : Input → Outcome}
    (hstep : ∀ input : Input, input.Sorted → (step input).Takes input) (bound : Nat)
    {input : Input} (h : input.Sorted) : (runMany guard step bound input).Takes input := by
  induction bound generalizing input with
  | zero => exact Outcome.takes_none h
  | succ bound ih =>
    rw [runMany]
    split
    · have hfirst := hstep input h
      exact hfirst.andThen (ih hfirst.sorted)
    · exact Outcome.takes_none h

theorem splitBalanced_append (stops : List Kind) (depth : Nat) (ahead : List Lexeme) :
    (splitBalanced stops depth ahead).1 ++ (splitBalanced stops depth ahead).2 = ahead := by
  induction ahead generalizing depth with
  | nil => rfl
  | cons lexeme rest ih =>
    rw [splitBalanced]
    split
    · rfl
    · simpa using ih (depthAfter depth lexeme.kind)

theorem tokensOf_treesOf (taken : List Lexeme) :
    Tree.tokensOf (treesOf taken) = taken.flatMap Lexeme.tokens := by
  induction taken with
  | nil => rfl
  | cons lexeme rest ih =>
    rw [treesOf] at ih
    rw [treesOf, List.flatMap_cons, List.flatMap_cons, Tree.tokensOf_append, ih,
      Tree.tokensOf_append, Tree.tokensOf_map_token]
    rfl

theorem visible_flatMap_tokens {lexemes : List Lexeme} (h : ∀ lexeme ∈ lexemes, lexeme.Sorted) :
    visible (lexemes.flatMap Lexeme.tokens) = lexemes.map Lexeme.token := by
  induction lexemes with
  | nil => rfl
  | cons lexeme rest ih =>
    obtain ⟨htrivia, hvisible⟩ := h lexeme (by simp)
    have htoken : visible [lexeme.token] = [lexeme.token] := by simp [visible, hvisible]
    rw [List.flatMap_cons, visible_append, ih fun other hother => h other (by simp [hother]),
      Lexeme.tokens, visible_append, visible_eq_nil_iff.mpr htrivia, htoken]
    rfl

theorem takes_runBalancedTo (stops : List Kind) {input : Input} (h : input.Sorted) :
    (runBalancedTo stops input).Takes input := by
  have hsplit := splitBalanced_append stops 0 input.ahead
  have htrees : Tree.tokensOf (runBalancedTo stops input).trees =
      (splitBalanced stops 0 input.ahead).1.flatMap Lexeme.tokens := tokensOf_treesOf _
  refine ⟨⟨(splitBalanced stops 0 input.ahead).1.flatMap Lexeme.tokens, ?_, ?_⟩,
    ⟨(splitBalanced stops 0 input.ahead).1.map Lexeme.token, ?_, ?_⟩, ?_, h.2⟩
  · rw [Input.tokens, ← hsplit, List.flatMap_append, List.append_assoc, hsplit]
    rfl
  · rw [htrees]
    exact Token.standsFor_rfl
  · change _ = _ ++ (splitBalanced stops 0 input.ahead).2.map Lexeme.token
    rw [← List.map_append, hsplit]
  · rw [htrees, visible_flatMap_tokens fun lexeme hlexeme => h.1 lexeme (by
      rw [← hsplit]
      exact List.mem_append_left _ hlexeme)]
    exact Token.standsFor_rfl
  · intro lexeme hlexeme
    apply h.1
    rw [← hsplit]
    exact List.mem_append_right _ hlexeme

theorem takes_runNode (kind : Kind) {step : Input → Outcome}
    (hstep : ∀ input : Input, input.Sorted → (step input).Takes input) {input : Input}
    (h : input.Sorted) : (runNode kind step input).Takes input := by
  have hflush := takes_runFlush h
  exact hflush.andThen ((hstep _ hflush.sorted).wrap kind)

theorem takes_runExtendAs (kind : Kind) {first second : Input → Outcome} (guard : Guard)
    (hfirst : ∀ input : Input, input.Sorted → (first input).Takes input)
    (hsecond : ∀ input : Input, input.Sorted → (second input).Takes input) {input : Input}
    (h : input.Sorted) : (runExtendAs kind first guard second input).Takes input := by
  have hflush := takes_runFlush h
  refine hflush.andThen ?_
  have hhead := hfirst _ hflush.sorted
  dsimp only
  split
  · exact (hhead.andThen (hsecond _ hhead.sorted)).wrap kind
  · exact hhead

/-- Every rule takes tokens from the front of its input and keeps them all. -/
theorem takes_runWith {nested : Input → Outcome}
    (hnested : ∀ input : Input, input.Sorted → (nested input).Takes input) (rule : Rule)
    (hrule : rule.renamesToIdent = true) {input : Input} (h : input.Sorted) :
    (rule.runWith nested input).Takes input := by
  induction rule generalizing input with
  | skip => exact Outcome.takes_none h
  | bump => exact takes_runBump h fun _ _ => .inl rfl
  | bumpAs kind =>
    obtain rfl : kind = .ident := by simpa [renamesToIdent] using hrule
    exact takes_runBump h fun _ hvisible => .inr ⟨rfl, hvisible⟩
  | flush => exact takes_runFlush h
  | report problem => exact ⟨⟨[], rfl, .nil⟩, ⟨[], rfl, .nil⟩, h⟩
  | seq first second ihFirst ihSecond =>
    simp only [renamesToIdent, Bool.and_eq_true] at hrule
    have hfirst := ihFirst hrule.1 h
    exact hfirst.andThen (ihSecond hrule.2 hfirst.sorted)
  | choose guard yes no ihYes ihNo =>
    simp only [renamesToIdent, Bool.and_eq_true] at hrule
    simp only [runWith]
    split
    · exact ihYes hrule.1 h
    · exact ihNo hrule.2 h
  | many guard body ih =>
    exact takes_runMany (fun _ hother => ih hrule hother) _ h
  | balancedTo stops => exact takes_runBalancedTo stops h
  | node kind body ih => exact takes_runNode kind (fun _ hother => ih hrule hother) h
  | extendAs kind first guard second ihFirst ihSecond =>
    simp only [renamesToIdent, Bool.and_eq_true] at hrule
    exact takes_runExtendAs kind guard (fun _ hother => ihFirst hrule.1 hother)
      (fun _ hother => ihSecond hrule.2 hother) h
  | nested => exact hnested input h

theorem takes_runNested {inner : Rule} (hinner : inner.renamesToIdent = true) (depth : Nat)
    {input : Input} (h : input.Sorted) : (runNested inner depth input).Takes input := by
  induction depth generalizing input with
  | zero => exact Outcome.takes_none h
  | succ depth ih => exact takes_runWith (fun _ hother => ih hother) inner hinner h

end Rule

end Ili
