import Ili.Proofs.Grammar.Progress

/-!
# What the grammar sees

Rules look at visible tokens only, and of those at the kinds and at a few words. So two texts with
the same visible tokens have the same tree once blanks and comments are left out of it, and the same
errors up to where they stand. If they have the same comments too, those may stay in the tree. The
texts of tokens may differ as well, as long as none turns into one of the words the grammar asks for
or ceases to be one.
-/

namespace Ili

namespace Kind

/-- A blank, or a comment that is not kept. -/
def isDropped (keep : Kind → Bool) (kind : Kind) : Bool :=
  kind.isTrivia && !keep kind

def isNothing (_ : Kind) : Bool :=
  false

theorem isDropped_of_visible {keep : Kind → Bool} {kind : Kind} (h : kind.isTrivia = false) :
    kind.isDropped keep = false := by
  rw [isDropped, h, Bool.false_and]

end Kind

def solidTokens (keep : Kind → Bool) (tokens : List Token) : List Token :=
  tokens.filter fun t => !t.kind.isDropped keep

theorem solidTokens_isNothing (tokens : List Token) :
    solidTokens Kind.isNothing tokens = visible tokens :=
  List.filter_congr fun t _ => by simp [Kind.isDropped, Kind.isNothing]

theorem solidTokens_append (keep : Kind → Bool) (left right : List Token) :
    solidTokens keep (left ++ right) = solidTokens keep left ++ solidTokens keep right :=
  List.filter_append ..

theorem visible_solidTokens (keep : Kind → Bool) (tokens : List Token) :
    visible (solidTokens keep tokens) = visible tokens := by
  rw [solidTokens, visible, visible, List.filter_filter]
  apply List.filter_congr
  intro t _
  rw [Kind.isDropped]
  cases t.kind.isTrivia <;> rfl

namespace Tree

def isDropped (keep : Kind → Bool) : Tree → Bool
  | token t => t.kind.isDropped keep
  | node _ _ => false

mutual

/-- The tree without its blanks and the comments not kept, and with its texts rewritten. -/
def bare (keep : Kind → Bool) (f : String → String) : Tree → Tree
  | token t => token (t.rewrite f)
  | node kind children => node kind (bareOf keep f children)

def bareOf (keep : Kind → Bool) (f : String → String) : List Tree → List Tree
  | [] => []
  | tree :: rest =>
    if tree.isDropped keep then bareOf keep f rest else tree.bare keep f :: bareOf keep f rest

end

section Bare

variable (keep : Kind → Bool) (f : String → String)

theorem bareOf_append (left right : List Tree) :
    bareOf keep f (left ++ right) = bareOf keep f left ++ bareOf keep f right := by
  induction left with
  | nil => rfl
  | cons tree rest ih =>
    rw [List.cons_append, bareOf, bareOf, ih]
    split <;> rfl

theorem bareOf_map_token (row : List Token) :
    bareOf keep f (row.map token) = ((solidTokens keep row).map (Token.rewrite f)).map token := by
  induction row with
  | nil => rfl
  | cons t rest ih =>
    rw [List.map_cons, bareOf, ih]
    by_cases hdrop : t.kind.isDropped keep = true <;> simp [isDropped, solidTokens, hdrop, bare]

theorem bareOf_node (kind : Kind) (children : List Tree) :
    bareOf keep f [node kind children] = [node kind (bareOf keep f children)] :=
  rfl

mutual

theorem tokens_bare {tree : Tree} (h : tree.isDropped keep = false) :
    (tree.bare keep f).tokens = (solidTokens keep tree.tokens).map (Token.rewrite f) := by
  match tree with
  | token t =>
    have hkept : t.kind.isDropped keep = false := h
    simp [bare, tokens, solidTokens, hkept]
  | node kind children =>
    rw [bare, tokens, tokens]
    exact tokensOf_bareOf children

theorem tokensOf_bareOf (row : List Tree) :
    tokensOf (bareOf keep f row) = (solidTokens keep (tokensOf row)).map (Token.rewrite f) := by
  match row with
  | [] => rfl
  | tree :: rest =>
    rw [bareOf, tokensOf, solidTokens_append, List.map_append]
    split
    · next hdropped =>
      have hnone : solidTokens keep tree.tokens = [] := by
        cases tree with
        | token t =>
          have hkind : t.kind.isDropped keep = true := hdropped
          simp [tokens, solidTokens, hkind]
        | node kind children => cases hdropped
      rw [hnone, tokensOf_bareOf rest]
      rfl
    · next hnot =>
      rw [tokensOf, tokens_bare (Bool.eq_false_iff.mpr hnot), tokensOf_bareOf rest]

end

end Bare

end Tree

namespace Guard

def words : Guard → List String
  | seesWord words => words
  | negate guard => guard.words
  | both left right | either left right => left.words ++ right.words
  | more | sees _ | seesKeyword | thenSees _ | thenSeesKeyword | sentenceOf _ => []

end Guard

namespace Rule

def words : Rule → List String
  | .seq first second => first.words ++ second.words
  | .choose guard yes no => guard.words ++ (yes.words ++ no.words)
  | .many guard body => guard.words ++ body.words
  | .node _ body => body.words
  | .extendAs _ first guard second => guard.words ++ (first.words ++ second.words)
  | .skip | .bump | .bumpAs _ | .flush | .report _ | .balancedTo _ | .nested => []

end Rule

/-- The part of an error that does not depend on where it stands. -/
def SyntaxError.what (error : SyntaxError) : Problem × Kind :=
  (error.problem, error.found)

/-- Rewriting texts neither makes one of these words nor unmakes it. -/
def Spares (words : List String) (f : String → String) : Prop :=
  ∀ word ∈ words, ∀ text, f text = word ↔ text = word

theorem spares_id (words : List String) : Spares words id :=
  fun _ _ _ => .rfl

theorem Spares.of_append_left {left right : List String} {f : String → String}
    (h : Spares (left ++ right) f) : Spares left f :=
  fun word hword => h word (List.mem_append_left _ hword)

theorem Spares.of_append_right {left right : List String} {f : String → String}
    (h : Spares (left ++ right) f) : Spares right f :=
  fun word hword => h word (List.mem_append_right _ hword)

/-- The second row of tokens is what is kept of the first one, its texts rewritten. -/
def KeptAlike (keep : Kind → Bool) (f : String → String) (row other : List Token) : Prop :=
  solidTokens keep other = (solidTokens keep row).map (Token.rewrite f)

structure Lexeme.LooksLike (keep : Kind → Bool) (f : String → String) (lexeme other : Lexeme) :
    Prop where
  trivia : KeptAlike keep f lexeme.trivia other.trivia
  token : other.token = lexeme.token.rewrite f

theorem Lexeme.LooksLike.kind_eq {keep : Kind → Bool} {f : String → String}
    {lexeme other : Lexeme} (h : lexeme.LooksLike keep f other) : other.kind = lexeme.kind := by
  rw [kind, h.token]
  rfl

namespace Guard

variable {keep : Kind → Bool} {f : String → String} {ahead others : List Lexeme}

theorem looksLike_dropWhile {p : Lexeme → Bool}
    (hp : ∀ lexeme other : Lexeme, lexeme.LooksLike keep f other → p other = p lexeme)
    (h : List.Forall₂ (Lexeme.LooksLike keep f) ahead others) :
    List.Forall₂ (Lexeme.LooksLike keep f) (ahead.dropWhile p) (others.dropWhile p) := by
  induction h with
  | nil => exact .nil
  | @cons lexeme other rest others hlooks hrest ih =>
    rw [List.dropWhile_cons, List.dropWhile_cons, hp lexeme other hlooks]
    split
    · exact ih
    · exact .cons hlooks hrest

theorem looksLike_behindName (h : List.Forall₂ (Lexeme.LooksLike keep f) ahead others) :
    List.Forall₂ (Lexeme.LooksLike keep f) (behindName ahead) (behindName others) := by
  cases h with
  | nil => exact .nil
  | cons _ hrest =>
    cases hrest with
    | nil => exact .nil
    | @cons lexeme other rest rest' hlooks hrest =>
      simp only [behindName, List.drop_succ_cons, List.drop_zero, hlooks.kind_eq]
      split
      · apply List.forall₂_drop
        apply looksLike_dropWhile _ hrest
        intro lexeme other hother
        rw [hother.kind_eq]
      · exact .cons hlooks hrest

theorem any_head?_congr {p q : Lexeme → Bool}
    (hp : ∀ lexeme other : Lexeme, lexeme.LooksLike keep f other → p lexeme = q other)
    (h : List.Forall₂ (Lexeme.LooksLike keep f) ahead others) :
    ahead.head?.any p = others.head?.any q := by
  cases h with
  | nil => rfl
  | cons hlooks _ => exact hp _ _ hlooks

theorem holds_congr (guard : Guard) (hf : Spares guard.words f)
    (h : List.Forall₂ (Lexeme.LooksLike keep f) ahead others) :
    guard.holds ahead = guard.holds others := by
  induction guard with
  | more => cases h <;> rfl
  | sees kinds => exact any_head?_congr (fun _ _ hlooks => by rw [hlooks.kind_eq]) h
  | seesKeyword => exact any_head?_congr (fun _ _ hlooks => by rw [hlooks.kind_eq]) h
  | seesWord words =>
    apply any_head?_congr _ h
    intro lexeme other hlooks
    rw [Bool.eq_iff_iff, List.contains_iff_mem, List.contains_iff_mem, hlooks.token]
    constructor
    · intro hmem
      have hsame : f lexeme.token.text = lexeme.token.text := (hf _ hmem _).mpr rfl
      change f lexeme.token.text ∈ words
      rwa [hsame]
    · intro hmem
      have hsame : lexeme.token.text = f lexeme.token.text := (hf _ hmem _).mp rfl
      rwa [hsame]
  | thenSees kinds =>
    exact any_head?_congr (fun _ _ hlooks => by rw [hlooks.kind_eq]) (List.forall₂_drop 1 h)
  | thenSeesKeyword =>
    exact any_head?_congr (fun _ _ hlooks => by rw [hlooks.kind_eq]) (List.forall₂_drop 1 h)
  | sentenceOf operators =>
    exact any_head?_congr (fun _ _ hlooks => by rw [hlooks.kind_eq]) (looksLike_behindName h)
  | negate guard ih => rw [holds, holds, ih hf]
  | both left right ihLeft ihRight =>
    rw [holds, holds, ihLeft hf.of_append_left, ihRight hf.of_append_right]
  | either left right ihLeft ihRight =>
    rw [holds, holds, ihLeft hf.of_append_left, ihRight hf.of_append_right]

end Guard

/-- To the rules the second input looks like the first one with its texts rewritten. -/
structure Input.LooksLike (keep : Kind → Bool) (f : String → String) (input other : Input) :
    Prop where
  ahead : List.Forall₂ (Lexeme.LooksLike keep f) input.ahead other.ahead
  trailing : KeptAlike keep f input.trailing other.trailing
  sorted : input.Sorted
  sorted_other : other.Sorted

structure Outcome.LooksLike (keep : Kind → Bool) (f : String → String) (outcome other : Outcome) :
    Prop where
  trees : Tree.bareOf keep id other.trees = Tree.bareOf keep f outcome.trees
  errors : other.errors.map SyntaxError.what = outcome.errors.map SyntaxError.what
  rest : outcome.rest.LooksLike keep f other.rest

namespace Outcome.LooksLike

variable {keep : Kind → Bool} {f : String → String} {outcome other : Outcome}

theorem andThen {step step' : Input → Outcome} (h : outcome.LooksLike keep f other)
    (hstep : (step outcome.rest).LooksLike keep f (step' other.rest)) :
    (outcome.andThen step).LooksLike keep f (other.andThen step') := by
  refine ⟨?_, ?_, hstep.rest⟩
  · simp only [Outcome.andThen, Tree.bareOf_append, h.trees, hstep.trees]
  · simp only [Outcome.andThen, List.map_append, h.errors, hstep.errors]

theorem wrap (h : outcome.LooksLike keep f other) (kind : Kind) :
    LooksLike keep f { outcome with trees := [.node kind outcome.trees] }
      { other with trees := [.node kind other.trees] } := by
  refine ⟨?_, h.errors, h.rest⟩
  rw [Tree.bareOf_node, Tree.bareOf_node, h.trees]

end Outcome.LooksLike

namespace Rule

variable {keep : Kind → Bool} {f : String → String} {input other : Input}

theorem looksLike_none (h : input.LooksLike keep f other) :
    (Outcome.none input).LooksLike keep f (Outcome.none other) :=
  ⟨rfl, rfl, h⟩

theorem keptAlike_pending (h : input.LooksLike keep f other) :
    KeptAlike keep f input.pending other.pending := by
  obtain ⟨ahead, trailing, stop⟩ := input
  obtain ⟨others, trailing', stop'⟩ := other
  cases h.ahead with
  | nil => exact h.trailing
  | cons hlooks _ => exact hlooks.trivia

theorem bareOf_of_keptAlike {row row' : List Token} (h : KeptAlike keep f row row') :
    Tree.bareOf keep id (row'.map .token) = Tree.bareOf keep f (row.map .token) := by
  rw [Tree.bareOf_map_token, Tree.bareOf_map_token, h, List.map_map]
  rfl

theorem looksLike_runFlush (h : input.LooksLike keep f other) :
    (runFlush input).LooksLike keep f (runFlush other) := by
  refine ⟨bareOf_of_keptAlike (keptAlike_pending h), rfl, ?_, ?_,
    Input.sorted_flushed h.sorted, Input.sorted_flushed h.sorted_other⟩
  · obtain ⟨ahead, trailing, stop⟩ := input
    obtain ⟨others, trailing', stop'⟩ := other
    cases h.ahead with
    | nil => exact .nil
    | cons hlooks hrest => exact .cons ⟨rfl, hlooks.token⟩ hrest
  · obtain ⟨ahead, trailing, stop⟩ := input
    obtain ⟨others, trailing', stop'⟩ := other
    cases h.ahead with
    | nil => rfl
    | cons _ _ => exact h.trailing

theorem bareOf_visible {token token' : Token} (h : token.kind.isTrivia = false)
    (hsame : token' = token.rewrite f) :
    Tree.bareOf keep id [.token token'] = Tree.bareOf keep f [.token token] := by
  subst hsame
  have hkept (token : Token) (h : token.kind.isTrivia = false) (f : String → String) :
      Tree.bareOf keep f [.token token] = [.token (token.rewrite f)] := by
    have hdropped : (Tree.token token).isDropped keep = false := Kind.isDropped_of_visible h
    rw [Tree.bareOf, if_neg (by rw [hdropped]; exact Bool.false_ne_true)]
    rfl
  rw [hkept token h]
  exact hkept (token.rewrite f) h id

theorem looksLike_runBump {rename : Token → Token}
    (hrename : ∀ token : Token, rename (token.rewrite f) = (rename token).rewrite f)
    (hvisible : ∀ token : Token, token.kind.isTrivia = false → (rename token).kind.isTrivia = false)
    (h : input.LooksLike keep f other) :
    (runBump rename input).LooksLike keep f (runBump rename other) := by
  obtain ⟨ahead, trailing, stop⟩ := input
  obtain ⟨others, trailing', stop'⟩ := other
  obtain ⟨hahead, htrailing, hsorted, hsorted'⟩ := h
  cases hahead with
  | nil => exact looksLike_runFlush ⟨.nil, htrailing, hsorted, hsorted'⟩
  | @cons lexeme lexeme' rest rest' hlooks hrest =>
    refine ⟨?_, rfl, hrest, htrailing,
      ⟨fun l hl => hsorted.1 l (List.mem_cons_of_mem _ hl), hsorted.2⟩,
      ⟨fun l hl => hsorted'.1 l (List.mem_cons_of_mem _ hl), hsorted'.2⟩⟩
    change Tree.bareOf keep id (_ ++ [.token (rename lexeme'.token)]) =
      Tree.bareOf keep f (_ ++ [.token (rename lexeme.token)])
    rw [Tree.bareOf_append, Tree.bareOf_append, bareOf_of_keptAlike hlooks.trivia]
    congr 1
    apply bareOf_visible (hvisible _ (hsorted.1 lexeme (by simp)).2)
    rw [hlooks.token, hrename]

theorem looksLike_splitBalanced (stops : List Kind) (depth : Nat) {ahead others : List Lexeme}
    (h : List.Forall₂ (Lexeme.LooksLike keep f) ahead others) :
    List.Forall₂ (Lexeme.LooksLike keep f) (splitBalanced stops depth ahead).1
        (splitBalanced stops depth others).1 ∧
      List.Forall₂ (Lexeme.LooksLike keep f) (splitBalanced stops depth ahead).2
        (splitBalanced stops depth others).2 := by
  induction h generalizing depth with
  | nil => exact ⟨.nil, .nil⟩
  | @cons lexeme other rest others hlooks hrest ih =>
    rw [splitBalanced, splitBalanced, hlooks.kind_eq]
    split
    · exact ⟨.nil, .cons hlooks hrest⟩
    · obtain ⟨htaken, hleft⟩ := ih (depthAfter depth lexeme.kind)
      exact ⟨.cons hlooks htaken, hleft⟩

theorem bareOf_treesOf {lexemes others : List Lexeme}
    (h : List.Forall₂ (Lexeme.LooksLike keep f) lexemes others)
    (hsorted : ∀ lexeme ∈ lexemes, lexeme.Sorted) :
    Tree.bareOf keep id (treesOf others) = Tree.bareOf keep f (treesOf lexemes) := by
  induction h with
  | nil => rfl
  | @cons lexeme other rest others hlooks _ ih =>
    have hrest := ih fun next hnext => hsorted next (List.mem_cons_of_mem _ hnext)
    rw [treesOf, treesOf] at hrest
    rw [treesOf, treesOf, List.flatMap_cons, List.flatMap_cons, Tree.bareOf_append,
      Tree.bareOf_append, Tree.bareOf_append, Tree.bareOf_append, hrest,
      bareOf_of_keptAlike hlooks.trivia,
      bareOf_visible (hsorted lexeme List.mem_cons_self).2 hlooks.token]

theorem looksLike_runBalancedTo (stops : List Kind) (h : input.LooksLike keep f other) :
    (runBalancedTo stops input).LooksLike keep f (runBalancedTo stops other) := by
  obtain ⟨htaken, hleft⟩ := looksLike_splitBalanced stops 0 h.ahead
  have hsplit := splitBalanced_append stops 0 input.ahead
  refine ⟨bareOf_treesOf htaken fun lexeme hlexeme => ?_, rfl, hleft, h.trailing,
    (takes_runBalancedTo stops h.sorted).sorted, (takes_runBalancedTo stops h.sorted_other).sorted⟩
  apply h.sorted.1 lexeme
  rw [← hsplit]
  exact List.mem_append_left _ hlexeme

theorem looksLike_runMany {guard : Guard} {step step' : Input → Outcome}
    (hf : Spares guard.words f)
    (hstep : ∀ input other : Input, input.LooksLike keep f other →
      (step input).LooksLike keep f (step' other))
    (bound : Nat) (h : input.LooksLike keep f other) :
    (runMany guard step bound input).LooksLike keep f (runMany guard step' bound other) := by
  induction bound generalizing input other with
  | zero => exact looksLike_none h
  | succ bound ih =>
    rw [runMany, runMany, guard.holds_congr hf h.ahead]
    split
    · have hfirst := hstep _ _ h
      exact hfirst.andThen (ih hfirst.rest)
    · exact looksLike_none h

theorem looksLike_runNode (kind : Kind) {step step' : Input → Outcome}
    (hstep : ∀ input other : Input, input.LooksLike keep f other →
      (step input).LooksLike keep f (step' other))
    (h : input.LooksLike keep f other) :
    (runNode kind step input).LooksLike keep f (runNode kind step' other) := by
  have hflush := looksLike_runFlush h
  exact hflush.andThen ((hstep _ _ hflush.rest).wrap kind)

theorem looksLike_runExtendAs (kind : Kind) {first first' second second' : Input → Outcome}
    (guard : Guard) (hf : Spares guard.words f)
    (hfirst : ∀ input other : Input, input.LooksLike keep f other →
      (first input).LooksLike keep f (first' other))
    (hsecond : ∀ input other : Input, input.LooksLike keep f other →
      (second input).LooksLike keep f (second' other))
    (h : input.LooksLike keep f other) :
    (runExtendAs kind first guard second input).LooksLike keep f
      (runExtendAs kind first' guard second' other) := by
  have hflush := looksLike_runFlush h
  refine hflush.andThen ?_
  have hhead := hfirst _ _ hflush.rest
  dsimp only
  rw [guard.holds_congr hf hhead.rest.ahead]
  split
  · exact (hhead.andThen (hsecond _ _ hhead.rest)).wrap kind
  · exact hhead

theorem what_locate (problem : Problem) (h : input.LooksLike keep f other) :
    (other.locate problem).what = (input.locate problem).what := by
  obtain ⟨ahead, trailing, stop⟩ := input
  obtain ⟨others, trailing', stop'⟩ := other
  cases h.ahead with
  | nil => rfl
  | cons hlooks _ =>
    simp only [Input.locate, SyntaxError.what, hlooks.kind_eq]

/-- A rule does the same to inputs that look alike. -/
theorem looksLike_runWith {nested : Input → Outcome}
    (hnested : ∀ input other : Input, input.LooksLike keep f other →
      (nested input).LooksLike keep f (nested other))
    (rule : Rule) (hrule : rule.renamesToIdent = true) (hf : Spares rule.words f)
    (h : input.LooksLike keep f other) :
    (rule.runWith nested input).LooksLike keep f (rule.runWith nested other) := by
  induction rule generalizing input other with
  | skip => exact looksLike_none h
  | bump => exact looksLike_runBump (fun _ => rfl) (fun _ hvisible => hvisible) h
  | bumpAs kind =>
    obtain rfl : kind = .ident := by simpa [renamesToIdent] using hrule
    exact looksLike_runBump (fun _ => rfl) (fun _ _ => rfl) h
  | flush => exact looksLike_runFlush h
  | report problem =>
    refine ⟨rfl, ?_, h⟩
    exact congrArg (fun what => [what]) (what_locate problem h)
  | seq first second ihFirst ihSecond =>
    simp only [renamesToIdent, Bool.and_eq_true] at hrule
    have hfirst := ihFirst hrule.1 hf.of_append_left h
    exact hfirst.andThen (ihSecond hrule.2 hf.of_append_right hfirst.rest)
  | choose guard yes no ihYes ihNo =>
    simp only [renamesToIdent, Bool.and_eq_true] at hrule
    simp only [runWith, guard.holds_congr hf.of_append_left h.ahead]
    split
    · exact ihYes hrule.1 hf.of_append_right.of_append_left h
    · exact ihNo hrule.2 hf.of_append_right.of_append_right h
  | many guard body ih =>
    simp only [runWith, ← h.ahead.length_eq]
    exact looksLike_runMany hf.of_append_left
      (fun _ _ hlooks => ih hrule hf.of_append_right hlooks) _ h
  | balancedTo stops => exact looksLike_runBalancedTo stops h
  | node kind body ih => exact looksLike_runNode kind (fun _ _ hlooks => ih hrule hf hlooks) h
  | extendAs kind first guard second ihFirst ihSecond =>
    simp only [renamesToIdent, Bool.and_eq_true] at hrule
    exact looksLike_runExtendAs kind guard hf.of_append_left
      (fun _ _ hlooks => ihFirst hrule.1 hf.of_append_right.of_append_left hlooks)
      (fun _ _ hlooks => ihSecond hrule.2 hf.of_append_right.of_append_right hlooks) h
  | nested => exact hnested _ _ h

theorem looksLike_runNested {inner : Rule} (hinner : inner.renamesToIdent = true)
    (hf : Spares inner.words f) (depth : Nat) (h : input.LooksLike keep f other) :
    (runNested inner depth input).LooksLike keep f (runNested inner depth other) := by
  induction depth generalizing input other with
  | zero => exact looksLike_none h
  | succ depth ih => exact looksLike_runWith (fun _ _ hlooks => ih hlooks) inner hinner hf h

end Rule

namespace Grammar

/-- The words that have a meaning of their own without being reserved. -/
def askedWords : List String := ["ORDERED", "CIRCULAR", "SIGN"]

theorem spares_words {f : String → String} (hf : Spares askedWords f) :
    Spares enumType.words f ∧ Spares file.words f := by
  have hinner : ∀ word ∈ enumType.words, word ∈ askedWords := by decide
  have hfile : ∀ word ∈ file.words, word ∈ askedWords := by decide
  exact ⟨fun word hword => hf word (hinner word hword),
    fun word hword => hf word (hfile word hword)⟩

end Grammar

namespace Input

/-- Tokens grouped as lexemes, without offsets. -/
def blocks (pending : List Token) : List Token → List (List Token × Token) × List Token
  | [] => ([], pending.reverse)
  | token :: rest =>
    if token.kind.isTrivia then blocks (token :: pending) rest
    else ((pending.reverse, token) :: (blocks [] rest).1, (blocks [] rest).2)

theorem blocks_ofTokens (keep : Kind → Bool) (start : Nat) (pending tokens : List Token) :
    ((ofTokens start pending tokens).ahead.map fun lexeme =>
        (solidTokens keep lexeme.trivia, lexeme.token),
      solidTokens keep (ofTokens start pending tokens).trailing) =
      blocks (solidTokens keep pending) (solidTokens keep tokens) := by
  induction tokens generalizing start pending with
  | nil => simp [ofTokens, blocks, solidTokens]
  | cons token rest ih =>
    by_cases htrivia : token.kind.isTrivia = true
    · rw [ofTokens, if_pos htrivia, ih]
      by_cases hdropped : token.kind.isDropped keep = true
      · simp [solidTokens, hdropped]
      · simp [solidTokens, hdropped, blocks, htrivia]
    · have hkept : token.kind.isDropped keep = false :=
        Kind.isDropped_of_visible (Bool.eq_false_iff.mpr htrivia)
      have hrest := ih (start + token.size) []
      simp only [Prod.ext_iff] at hrest
      obtain ⟨hahead, htrailing⟩ := hrest
      rw [ofTokens, if_neg htrivia]
      simp only [solidTokens, List.filter_nil] at hahead htrailing
      simp [solidTokens, hkept, blocks, htrivia, hahead, htrailing]

theorem blocks_map_rewrite (f : String → String) (pending tokens : List Token) :
    blocks (pending.map (Token.rewrite f)) (tokens.map (Token.rewrite f)) =
      ((blocks pending tokens).1.map fun block =>
          (block.1.map (Token.rewrite f), block.2.rewrite f),
        (blocks pending tokens).2.map (Token.rewrite f)) := by
  induction tokens generalizing pending with
  | nil => simp [blocks]
  | cons token rest ih =>
    have hkind : (token.rewrite f).kind = token.kind := rfl
    rw [List.map_cons, blocks, blocks, hkind]
    split
    · exact ih (token :: pending)
    · have hrest := ih []
      rw [List.map_nil] at hrest
      simp [hrest]

theorem looksLike_ofText {keep : Kind → Bool} {f : String → String} {text other : String}
    (h : KeptAlike keep f (tokenize text) (tokenize other)) :
    (ofText text).LooksLike keep f (ofText other) := by
  have hblocks := (blocks_ofTokens keep 0 [] (tokenize other)).trans (congrArg (blocks _) h)
  have hrewrite := blocks_map_rewrite f (solidTokens keep []) (solidTokens keep (tokenize text))
  rw [← blocks_ofTokens keep 0 []] at hrewrite
  obtain ⟨hahead, htrailing⟩ := Prod.ext_iff.mp (hblocks.trans hrewrite)
  refine ⟨?_, htrailing, sorted_ofText text, sorted_ofText other⟩
  rw [List.map_map, ← List.forall₂_eq_eq_eq, List.forall₂_map_left_iff,
    List.forall₂_map_right_iff] at hahead
  refine hahead.flip.imp fun lexeme other heq => ?_
  obtain ⟨htrivia, htoken⟩ := Prod.ext_iff.mp heq
  exact ⟨htrivia, htoken⟩

end Input

/-- Texts that keep the same tokens have the same bare tree and the same errors, but for where they
stand. -/
theorem bare_parse {keep : Kind → Bool} {f : String → String} (hf : Spares Grammar.askedWords f)
    {text other : String} (h : KeptAlike keep f (tokenize text) (tokenize other)) :
    (parse other).tree.bare keep id = (parse text).tree.bare keep f ∧
      (parse other).errors.map SyntaxError.what = (parse text).errors.map SyntaxError.what := by
  have hlooks := Input.looksLike_ofText h
  obtain ⟨hinner, hfile⟩ := Grammar.spares_words hf
  have hlength := hlooks.ahead.length_eq
  have hrun := Rule.looksLike_runWith
    (fun _ _ => Rule.looksLike_runNested Grammar.renamesToIdent_enumType hinner
      (Input.ofText text).ahead.length) Grammar.file Grammar.renamesToIdent_file hfile hlooks
  have hother : Rule.run Grammar.enumType Grammar.file (Input.ofText other) =
      Grammar.file.runWith (Rule.runNested Grammar.enumType (Input.ofText text).ahead.length)
        (Input.ofText other) := by
    rw [Rule.run, hlength]
  refine ⟨?_, ?_⟩
  · simp only [parse, Tree.bare, hother]
    exact congrArg _ hrun.trees
  · simp only [parse, hother]
    exact hrun.errors

end Ili
