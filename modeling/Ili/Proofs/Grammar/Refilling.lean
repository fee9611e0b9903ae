import Ili.Proofs.Grammar.Locality

/-!
# One cardinality for another

A cardinality is read by one rule only, and no guard tells one from another: none looks past an
opening brace, but for the one that searches the property list behind a name, and that one passes
over what stands between braces. So the bounds of a cardinality can be exchanged. The rest of the
text is read as before, and the tree differs at this one place.
-/

namespace Ili

/-! ### Trees with a place left open -/

/-- A node of which one child is left open. -/
structure Frame where
  left : List Tree
  kind : Kind
  right : List Tree

namespace Frame

def fill (frame : Frame) (tree : Tree) : Tree :=
  .node frame.kind (frame.left ++ tree :: frame.right)

def fillAll (frames : List Frame) (tree : Tree) : Tree :=
  frames.foldr fill tree

def countBefore (frames : List Frame) : Nat :=
  (frames.flatMap fun frame => Tree.tokensOf frame.left).length

theorem fillAll_cons (frame : Frame) (frames : List Frame) (tree : Tree) :
    fillAll (frame :: frames) tree = frame.fill (fillAll frames tree) :=
  rfl

theorem fillAll_ne_token (frames : List Frame) (kind : Kind) (row : List Tree) (t : Token) :
    fillAll frames (.node kind row) ≠ .token t := by
  cases frames with
  | nil => nofun
  | cons frame frames => nofun

end Frame

theorem append_eq_append_cons {α : Type} {first second left right : List α} {a : α}
    (h : first ++ second = left ++ a :: right) :
    (∃ others, first = left ++ a :: others ∧ right = others ++ second) ∨
      ∃ others, left = first ++ others ∧ second = others ++ a :: right := by
  rcases List.append_eq_append_iff.mp h with ⟨others, rfl, hsecond⟩ | ⟨others, rfl, hright⟩
  · exact .inr ⟨others, rfl, hsecond⟩
  · cases others with
    | nil => exact .inr ⟨[], by simp, hright.symm⟩
    | cons other others =>
      obtain ⟨rfl, rfl⟩ := List.cons.inj hright
      exact .inl ⟨others, rfl, rfl⟩

/-! ### What stands in a cardinality -/

/-- Behind an opening brace these tokens make a cardinality. -/
def IsBounds (tokens : List Token) : Prop :=
  ∃ lower ∈ [Kind.integer, .star], tokens.map Token.kind = [lower, .rBrace] ∨
    ∃ upper ∈ [Kind.integer, .star], tokens.map Token.kind = [lower, .dotDot, upper, .rBrace]

theorem IsBounds.kind_mem {tokens : List Token} (h : IsBounds tokens) :
    ∀ t ∈ tokens, t.kind ∈ [Kind.integer, .star, .dotDot, .rBrace] := by
  have hall : ∀ lower ∈ [Kind.integer, .star], ∀ upper ∈ [Kind.integer, .star],
      ∀ kind ∈ [lower, .dotDot, upper, .rBrace],
        kind ∈ [Kind.integer, .star, .dotDot, .rBrace] := by
    decide
  intro t ht
  have hkind := List.mem_map_of_mem (f := Token.kind) ht
  obtain ⟨lower, hlower, hkinds | ⟨upper, hupper, hkinds⟩⟩ := h
  · rw [hkinds] at hkind
    refine hall lower hlower lower hlower _ ?_
    simp only [List.mem_cons, List.not_mem_nil, or_false] at hkind ⊢
    exact hkind.elim .inl fun hclosing => .inr (.inr (.inr hclosing))
  · rw [hkinds] at hkind
    exact hall lower hlower upper hupper _ hkind

namespace Guard

/-- The guard does not tell what bounds stand behind an opening brace. -/
def spansBraces (guard : Guard) : Bool :=
  guard.isSettledBy .lBrace || guard.asksSentence

theorem dropWhile_bounds {inside : List Token} (h : IsBounds inside) (behind : List Token) :
    ((inside ++ behind).map Lexeme.plain).dropWhile
        (fun l => l.kind != .rParen && l.kind != .error) =
      (behind.map Lexeme.plain).dropWhile fun l => l.kind != .rParen && l.kind != .error := by
  have hgoes : ∀ kind ∈ [Kind.integer, .star, .dotDot, .rBrace],
      (kind != .rParen && kind != .error) = true := by decide
  rw [List.map_append, List.dropWhile_append_of_pos]
  intro lexeme hlexeme
  obtain ⟨t, ht, rfl⟩ := List.mem_map.mp hlexeme
  exact hgoes t.kind (h.kind_mem t ht)

theorem meets_sentence_of_bounds {operators : List Kind} {s : Token} (hs : s.kind = .lBrace)
    {inside other : List Token} (hinside : IsBounds inside) (hother : IsBounds other)
    (front behind : List Token) :
    (both (sees [.ident]) (sentenceOf operators)).meets (front ++ s :: (inside ++ behind)) =
      (both (sees [.ident]) (sentenceOf operators)).meets (front ++ s :: (other ++ behind)) := by
  match front with
  | [] =>
    have hnone : (both (sees [.ident]) (sentenceOf operators)).decidedBy s.kind = some false := by
      rw [hs]
      rfl
    rw [List.nil_append, List.nil_append, meets_of_decidedBy hnone, meets_of_decidedBy hnone]
  | [name] =>
    have hparen : (Lexeme.plain s).kind ≠ .lParen := by
      rw [Lexeme.kind, Lexeme.plain, hs]
      decide
    simp [meets, holds, behindName, hparen]
  | name :: paren :: list =>
    by_cases hparen : paren.kind = .lParen
    · have hopen : (Lexeme.plain paren).kind = .lParen := hparen
      have hgoes :
          ((Lexeme.plain s).kind != .rParen && (Lexeme.plain s).kind != .error) = true := by
        rw [Lexeme.kind, Lexeme.plain, hs]
        decide
      simp only [meets, holds, List.cons_append, List.map_cons, behindName, List.drop_succ_cons,
        List.drop_zero, if_pos hopen]
      rw [List.map_append, List.map_append, List.dropWhile_append, List.dropWhile_append]
      cases (list.map Lexeme.plain).dropWhile fun l => l.kind != .rParen && l.kind != .error with
      | nil =>
        simp only [List.isEmpty_nil, if_true, List.map_cons, List.dropWhile_cons, hgoes,
          dropWhile_bounds hinside, dropWhile_bounds hother]
        rfl
      | cons found more => cases more <;> rfl
    · have hclosed : (Lexeme.plain paren).kind ≠ .lParen := hparen
      simp [meets, holds, behindName, hclosed]

theorem meets_of_spansBraces {guard : Guard} (h : guard.spansBraces = true) {s : Token}
    (hs : s.kind = .lBrace) {inside other : List Token} (hinside : IsBounds inside)
    (hother : IsBounds other) (front behind : List Token) :
    guard.meets (front ++ s :: (inside ++ behind)) =
      guard.meets (front ++ s :: (other ++ behind)) := by
  rcases (Bool.or_eq_true _ _).mp h with hsettled | hasks
  · exact meets_of_isSettledBy (hs ▸ hsettled) front _ _
  · obtain ⟨operators, rfl⟩ := exists_of_asksSentence hasks
    exact meets_sentence_of_bounds hs hinside hother front behind

end Guard

namespace Grammar

/-- '{' Bound ['..' Bound] '}' -/
def cardinalityBody : Rule :=
  Rule.row [.expect .lBrace, bound, .eatThen .dotDot bound, .expect .rBrace]

end Grammar

namespace Rule

def spansBraces : Rule → Bool
  | .seq first second => first.spansBraces && second.spansBraces
  | .choose guard yes no => guard.spansBraces && yes.spansBraces && no.spansBraces
  | .many guard body => guard.spansBraces && body.spansBraces
  | .node kind body =>
    (kind != .cardinality || body == Grammar.cardinalityBody) && body.spansBraces
  | .extendAs kind first guard second =>
    kind != .cardinality && first.spansBraces && guard.spansBraces && second.spansBraces
  | .skip | .bump | .bumpAs _ | .flush | .report _ | .balancedTo _ | .nested => true

variable {inner rule : Rule} {tokens left behind rest inside : List Token} {row : List Tree}
  {s : Token}

/-- What is read in front of a cardinality can be read in front of it whatever its bounds are. -/
theorem Reads.beforeBraces (h : Reads inner rule tokens row (left ++ s :: (inside ++ behind)))
    (hrule : rule.spansBraces = true) (hinner : inner.spansBraces = true) (hs : s.kind = .lBrace)
    (hinside : IsBounds inside) :
    ∃ front, tokens = front ++ s :: (inside ++ behind) ∧ ∀ other, IsBounds other →
      Reads inner rule (front ++ s :: (other ++ behind)) row (left ++ s :: (other ++ behind)) := by
  generalize hend : left ++ s :: (inside ++ behind) = last at h
  have hmeets {guard : Guard} (hguard : guard.spansBraces = true) {other : List Token}
      (hother : IsBounds other) (front : List Token) :
      guard.meets (front ++ s :: (other ++ behind)) =
        guard.meets (front ++ s :: (inside ++ behind)) :=
    Guard.meets_of_spansBraces hguard hs hother hinside front behind
  induction h generalizing left with
  | skip => exact ⟨left, hend.symm, fun _ _ => .skip⟩
  | flush => exact ⟨left, hend.symm, fun _ _ => .flush⟩
  | @bump tokens =>
    cases tokens with
    | nil => simp at hend
    | cons t others => exact ⟨t :: left, congrArg (t :: ·) hend.symm, fun _ _ => .bump⟩
  | @bumpAs kind tokens =>
    cases tokens with
    | nil => simp at hend
    | cons t others => exact ⟨t :: left, congrArg (t :: ·) hend.symm, fun _ _ => .bumpAs⟩
  | @balancedTo stops tokens =>
    obtain ⟨front, hfront, hsplit⟩ := splitTokens_congr stops 0 hend.symm
    refine ⟨front, hfront, fun other _ => ?_⟩
    have hreads : Reads inner (.balancedTo stops) (front ++ s :: (other ++ behind)) _ _ :=
      .balancedTo
    rwa [hsplit] at hreads
  | seq _ _ ihFirst ihSecond =>
    simp only [spansBraces, Bool.and_eq_true] at hrule
    obtain ⟨middle, hmiddle, hsecond⟩ := ihSecond hrule.2 hend
    obtain ⟨front, hfront, hfirst⟩ := ihFirst hrule.1 hmiddle.symm
    exact ⟨front, hfront, fun other hother => .seq (hfirst other hother) (hsecond other hother)⟩
  | yes hguard _ ih =>
    simp only [spansBraces, Bool.and_eq_true] at hrule
    obtain ⟨front, rfl, hbranch⟩ := ih hrule.1.2 hend
    exact ⟨front, rfl, fun other hother =>
      .yes ((hmeets hrule.1.1 hother front).trans hguard) (hbranch other hother)⟩
  | no hguard _ ih =>
    simp only [spansBraces, Bool.and_eq_true] at hrule
    obtain ⟨front, rfl, hbranch⟩ := ih hrule.2 hend
    exact ⟨front, rfl, fun other hother =>
      .no ((hmeets hrule.1.1 hother front).trans hguard) (hbranch other hother)⟩
  | stop hguard =>
    simp only [spansBraces, Bool.and_eq_true] at hrule
    subst hend
    exact ⟨left, rfl, fun other hother => .stop ((hmeets hrule.1 hother left).trans hguard)⟩
  | again hguard _ _ ihBody ihRest =>
    have hwhole := hrule
    simp only [spansBraces, Bool.and_eq_true] at hrule
    obtain ⟨middle, hmiddle, hrest⟩ := ihRest hwhole hend
    obtain ⟨front, rfl, hbody⟩ := ihBody hrule.2 hmiddle.symm
    exact ⟨front, rfl, fun other hother => .again ((hmeets hrule.1 hother front).trans hguard)
      (hbody other hother) (hrest other hother)⟩
  | node _ ih =>
    simp only [spansBraces, Bool.and_eq_true] at hrule
    obtain ⟨front, hfront, hbody⟩ := ih hrule.2 hend
    exact ⟨front, hfront, fun other hother => .node (hbody other hother)⟩
  | plain _ hguard ih =>
    simp only [spansBraces, Bool.and_eq_true] at hrule
    obtain ⟨front, hfront, hfirst⟩ := ih hrule.1.1.2 hend
    subst hend
    exact ⟨front, hfront, fun other hother =>
      .plain (hfirst other hother) ((hmeets hrule.1.2 hother left).trans hguard)⟩
  | extended _ hguard _ ihFirst ihSecond =>
    simp only [spansBraces, Bool.and_eq_true] at hrule
    obtain ⟨middle, rfl, hsecond⟩ := ihSecond hrule.2 hend
    obtain ⟨front, hfront, hfirst⟩ := ihFirst hrule.1.1.2 rfl
    exact ⟨front, hfront, fun other hother => .extended (hfirst other hother)
      ((hmeets hrule.1.2 hother middle).trans hguard) (hsecond other hother)⟩
  | nested _ ih =>
    obtain ⟨front, hfront, hbody⟩ := ih hinner hend
    exact ⟨front, hfront, fun other hother => .nested (hbody other hother)⟩

theorem reads_bound :
    Reads inner Grammar.bound tokens row rest ↔
      ∃ t : Token, t.kind ∈ [Kind.integer, .star] ∧ tokens = t :: rest ∧ row = [.token t] := by
  constructor
  · intro h
    cases h with
    | yes hmeets hyes =>
      cases tokens with
      | nil => cases hmeets
      | cons t others =>
        obtain ⟨rfl, rfl⟩ := reads_bump_cons.mp hyes
        exact ⟨t, List.contains_iff_mem.mp hmeets, rfl, rfl⟩
    | no _ hno => cases hno
  · rintro ⟨t, ht, rfl, rfl⟩
    exact .yes (List.contains_iff_mem.mpr ht) .bump

theorem reads_upperBound :
    Reads inner (eatThen .dotDot Grammar.bound) tokens row rest ↔
      (∃ dots upper : Token, dots.kind = .dotDot ∧ upper.kind ∈ [Kind.integer, .star] ∧
        tokens = dots :: upper :: rest ∧ row = [.token dots, .token upper]) ∨
      (Guard.sees [.dotDot]).meets tokens = false ∧ row = [] ∧ rest = tokens := by
  constructor
  · intro h
    cases h with
    | yes hmeets hyes =>
      obtain ⟨_, _, _, hbump, hupper, rfl⟩ := reads_seq.mp hyes
      obtain ⟨dots, hdots, rfl, rfl⟩ := reads_expect.mp (.yes hmeets hbump)
      obtain ⟨upper, hkind, rfl, rfl⟩ := reads_bound.mp hupper
      exact .inl ⟨dots, upper, hdots, hkind, rfl, rfl⟩
    | no hmeets hno => exact .inr ⟨hmeets, reads_skip.mp hno⟩
  · rintro (⟨dots, upper, hdots, hupper, rfl, rfl⟩ | ⟨hmeets, rfl, rfl⟩)
    · have hnext : (Guard.sees [.dotDot]).decidedBy dots.kind = some true := by
        simp [Guard.decidedBy, hdots]
      exact .yes (Guard.meets_of_decidedBy hnext _)
        (.seq .bump (reads_bound.mpr ⟨upper, hupper, rfl, rfl⟩))
    · exact .no hmeets .skip

theorem reads_cardinalityBody :
    Reads inner Grammar.cardinalityBody tokens row rest ↔
      ∃ s inside, s.kind = .lBrace ∧ IsBounds inside ∧ tokens = s :: (inside ++ rest) ∧
        row = (s :: inside).map .token := by
  constructor
  · intro h
    obtain ⟨_, _, _, hopen, hbehind, rfl⟩ := reads_seq.mp h
    obtain ⟨_, _, _, hbound, hothers, rfl⟩ := reads_seq.mp hbehind
    obtain ⟨_, _, _, hupper, hclose, rfl⟩ := reads_seq.mp hothers
    obtain ⟨s, hs, rfl, rfl⟩ := reads_expect.mp hopen
    obtain ⟨lower, hlower, rfl, rfl⟩ := reads_bound.mp hbound
    obtain ⟨closing, hclosing, rfl, rfl⟩ := reads_expect.mp hclose
    rcases reads_upperBound.mp hupper with
      ⟨dots, upper, hdots, hkind, rfl, rfl⟩ | ⟨-, rfl, rfl⟩
    · exact ⟨s, [lower, dots, upper, closing], hs, ⟨lower.kind, hlower,
        .inr ⟨upper.kind, hkind, by simp [hdots, hclosing]⟩⟩, rfl, rfl⟩
    · exact ⟨s, [lower, closing], hs, ⟨lower.kind, hlower, .inl (by simp [hclosing])⟩, rfl, rfl⟩
  · rintro ⟨s, inside, hs, ⟨lower, hlower, hkinds | ⟨upper, hupper, hkinds⟩⟩, rfl, rfl⟩
    · simp only [List.map_eq_cons_iff, List.map_eq_nil_iff] at hkinds
      obtain ⟨low, _, rfl, rfl, closing, _, rfl, hclosing, rfl⟩ := hkinds
      have hnext : (Guard.sees [.dotDot]).decidedBy closing.kind = some false := by
        simp [Guard.decidedBy, hclosing]
      exact .seq (reads_expect.mpr ⟨s, hs, rfl, rfl⟩) <|
        .seq (reads_bound.mpr ⟨low, hlower, rfl, rfl⟩) <|
        .seq (reads_upperBound.mpr (.inr ⟨Guard.meets_of_decidedBy hnext _, rfl, rfl⟩)) <|
        reads_expect.mpr ⟨closing, hclosing, rfl, rfl⟩
    · simp only [List.map_eq_cons_iff, List.map_eq_nil_iff] at hkinds
      obtain ⟨low, _, rfl, rfl, dots, _, rfl, hdots, high, _, rfl, rfl, closing, _, rfl, hclosing,
        rfl⟩ := hkinds
      exact .seq (reads_expect.mpr ⟨s, hs, rfl, rfl⟩) <|
        .seq (reads_bound.mpr ⟨low, hlower, rfl, rfl⟩) <|
        .seq (reads_upperBound.mpr (.inl ⟨dots, high, hdots, hupper, rfl, rfl⟩)) <|
        reads_expect.mpr ⟨closing, hclosing, rfl, rfl⟩

theorem spansBraces_grammar :
    Grammar.enumType.spansBraces = true ∧ Grammar.file.spansBraces = true := by
  decide +kernel

end Rule

/-! ### The exchange -/

/-- Tokens in front of a cardinality, its opening brace, and the tokens behind it. -/
structure BracedPlace where
  front : List Token
  brace : Token
  behind : List Token

namespace BracedPlace

def tokens (place : BracedPlace) (inside : List Token) : List Token :=
  place.front ++ place.brace :: (inside ++ place.behind)

def node (place : BracedPlace) (inside : List Token) : Tree :=
  .node .cardinality ((place.brace :: inside).map .token)

/-- Some cardinality is read here between the trees on the left and on the right, and any other one
would be. -/
structure Opens (place : BracedPlace) (left : List Tree) (frames : List Frame) (right : List Tree)
    (reads : List Token → List Tree → Prop) : Prop where
  brace : place.brace.kind = .lBrace
  count : place.front.length = (Tree.tokensOf left).length + Frame.countBefore frames
  reads : ∀ inside, IsBounds inside →
    reads (place.tokens inside) (left ++ Frame.fillAll frames (place.node inside) :: right)

end BracedPlace

namespace Rule

variable {inner first second rule : Rule} {tokens middle rest : List Token}
  {row other left right children : List Tree} {frames : List Frame}

/-- In what is read there is a cardinality that can be exchanged. -/
def Exchanges (reads : List Token → List Tree → Prop) (tokens : List Token) (row : List Tree) :
    Prop :=
  ∀ left frames children right,
    row = left ++ Frame.fillAll frames (.node .cardinality children) :: right →
      ∃ place : BracedPlace, ∃ inside, IsBounds inside ∧ tokens = place.tokens inside ∧
        Tree.node .cardinality children = place.node inside ∧ place.Opens left frames right reads

theorem Reads.exchanges_both (hfirst : Reads inner first tokens row middle)
    (hsecond : Reads inner second middle other rest)
    (ihFirst : Exchanges (fun tokens row => Reads inner first tokens row middle) tokens row)
    (ihSecond : Exchanges (fun tokens row => Reads inner second tokens row rest) middle other)
    (hrule : first.spansBraces = true) (hinner : inner.spansBraces = true) :
    Exchanges (fun tokens whole => ∃ row middle' other, whole = row ++ other ∧
      Reads inner first tokens row middle' ∧ Reads inner second middle' other rest ∧
      ∀ guard : Guard, guard.spansBraces = true → guard.meets middle' = guard.meets middle)
      tokens (row ++ other) := by
  intro left frames children right hwhole
  rcases append_eq_append_cons hwhole with ⟨others, rfl, rfl⟩ | ⟨others, rfl, rfl⟩
  · obtain ⟨place, inside, hinside, rfl, hnode, hopens⟩ := ihFirst left frames children others rfl
    refine ⟨place, inside, hinside, rfl, hnode, hopens.brace, hopens.count, fun new hnew => ?_⟩
    exact ⟨_, middle, other, by simp, hopens.reads new hnew, hsecond, fun _ _ => rfl⟩
  · obtain ⟨place, inside, hinside, rfl, hnode, hopens⟩ := ihSecond others frames children right rfl
    obtain ⟨front, rfl, hbefore⟩ := hfirst.beforeBraces hrule hinner hopens.brace hinside
    refine ⟨⟨front, place.brace, place.behind⟩, inside, hinside, rfl, hnode, hopens.brace, ?_,
      fun new hnew => ?_⟩
    · obtain ⟨taken, htaken, hlength⟩ := hfirst.exists_taken
      have hfront : front = taken ++ place.front := by
        rw [BracedPlace.tokens, ← List.append_assoc] at htaken
        exact List.append_cancel_right htaken
      rw [hfront, List.length_append, hopens.count, hlength, Tree.tokensOf_append,
        List.length_append, Nat.add_assoc]
    · exact ⟨row, place.tokens new, _, by rw [List.append_assoc]; rfl, hbefore new hnew,
        hopens.reads new hnew, fun guard hguard =>
          Guard.meets_of_spansBraces hguard hopens.brace hnew hinside place.front place.behind⟩

theorem exchanges_map_token {reads : List Token → List Tree → Prop} (row : List Token) :
    Exchanges reads tokens (row.map .token) := by
  intro left frames children right hrow
  have hmem : Frame.fillAll frames (.node .cardinality children) ∈ row.map .token :=
    hrow ▸ List.mem_append_right _ List.mem_cons_self
  obtain ⟨t, -, ht⟩ := List.mem_map.mp hmem
  exact (Frame.fillAll_ne_token _ _ _ _ ht.symm).elim

section

variable {reads reads' : List Token → List Tree → Prop}

theorem Exchanges.map (h : Exchanges reads tokens row)
    (hread : ∀ other whole, (∀ guard : Guard, guard.spansBraces = true →
      guard.meets other = guard.meets tokens) → reads other whole → reads' other whole) :
    Exchanges reads' tokens row := by
  intro left frames children right hrow
  obtain ⟨place, inside, hinside, rfl, hnode, hopens⟩ := h left frames children right hrow
  refine ⟨place, inside, hinside, rfl, hnode, hopens.brace, hopens.count, fun new hnew => ?_⟩
  exact hread _ _ (fun guard hguard => Guard.meets_of_spansBraces hguard hopens.brace hnew hinside
    place.front place.behind) (hopens.reads new hnew)

theorem Exchanges.node {kind : Kind} (h : Exchanges reads tokens row)
    (hread : ∀ other whole, reads other whole → reads' other [.node kind whole])
    (hself : kind = .cardinality → ∃ place : BracedPlace, ∃ inside, IsBounds inside ∧
      tokens = place.tokens inside ∧ Tree.node .cardinality row = place.node inside ∧
      place.Opens [] [] [] reads') :
    Exchanges reads' tokens [.node kind row] := by
  intro left frames children right hwhole
  obtain ⟨rfl, hfill, rfl⟩ : left = [] ∧
      Tree.node kind row = Frame.fillAll frames (.node .cardinality children) ∧ right = [] := by
    cases left with
    | nil =>
      obtain ⟨hfill, hright⟩ := List.cons.inj hwhole
      exact ⟨rfl, hfill, hright.symm⟩
    | cons first left => simp at hwhole
  cases frames with
  | nil =>
    obtain ⟨rfl, rfl⟩ := Tree.node.inj hfill
    exact hself rfl
  | cons frame frames =>
    obtain ⟨rfl, rfl⟩ := Tree.node.inj hfill
    obtain ⟨place, inside, hinside, rfl, hnode, hopens⟩ :=
      h frame.left frames children frame.right rfl
    refine ⟨place, inside, hinside, rfl, hnode, hopens.brace, ?_, fun new hnew =>
      hread _ _ (hopens.reads new hnew)⟩
    rw [hopens.count, Frame.countBefore, Frame.countBefore]
    simp [Tree.tokensOf]

end

/-- **A cardinality that is read can be exchanged for any other.** -/
theorem Reads.exchanges (h : Reads inner rule tokens row rest) (hrule : rule.spansBraces = true)
    (hinner : inner.spansBraces = true) :
    Exchanges (fun tokens row => Reads inner rule tokens row rest) tokens row := by
  induction h with
  | skip | flush | stop => exact exchanges_map_token []
  | bump | balancedTo => exact exchanges_map_token _
  | @bumpAs kind tokens =>
    have hrow : (tokens.take 1).map (fun t => Tree.token { t with kind }) =
        ((tokens.take 1).map fun t => { t with kind }).map .token := List.map_map.symm
    exact hrow ▸ exchanges_map_token _
  | seq hfirst hsecond ihFirst ihSecond =>
    simp only [spansBraces, Bool.and_eq_true] at hrule
    refine (hfirst.exchanges_both hsecond (ihFirst hrule.1) (ihSecond hrule.2) hrule.1 hinner).map
      fun other whole _ ⟨_, _, _, hwhole, hfirst, hsecond, _⟩ => ?_
    exact hwhole ▸ .seq hfirst hsecond
  | yes hmeets _ ih =>
    simp only [spansBraces, Bool.and_eq_true] at hrule
    exact (ih hrule.1.2).map fun _ _ hsame hyes => .yes ((hsame _ hrule.1.1).trans hmeets) hyes
  | no hmeets _ ih =>
    simp only [spansBraces, Bool.and_eq_true] at hrule
    exact (ih hrule.2).map fun _ _ hsame hno => .no ((hsame _ hrule.1.1).trans hmeets) hno
  | again hmeets hbody hrest ihBody ihRest =>
    have hwhole := hrule
    simp only [spansBraces, Bool.and_eq_true] at hrule
    refine (hbody.exchanges_both hrest (ihBody hrule.2) (ihRest hwhole) hrule.2 hinner).map
      fun other whole hsame ⟨_, _, _, hwhole, hbody, hrest, _⟩ => ?_
    exact hwhole ▸ .again ((hsame _ hrule.1).trans hmeets) hbody hrest
  | @node kind body tokens rest row hbody ih =>
    simp only [spansBraces, Bool.and_eq_true, Bool.or_eq_true, bne_iff_ne, beq_iff_eq] at hrule
    refine (ih hrule.2).node (fun _ _ hread => .node hread) fun hkind => ?_
    obtain rfl := hrule.1.resolve_left (not_not_intro hkind)
    obtain ⟨s, inside, hs, hinside, rfl, rfl⟩ := reads_cardinalityBody.mp hbody
    refine ⟨⟨[], s, rest⟩, inside, hinside, rfl, rfl, hs, rfl, fun new hnew => ?_⟩
    subst hkind
    exact .node (reads_cardinalityBody.mpr ⟨s, new, hs, hnew, rfl, rfl⟩)
  | plain _ hmeets ih =>
    simp only [spansBraces, Bool.and_eq_true] at hrule
    exact (ih hrule.1.1.2).map fun _ _ _ hfirst => .plain hfirst hmeets
  | extended hfirst hmeets hsecond ihFirst ihSecond =>
    simp only [spansBraces, Bool.and_eq_true, bne_iff_ne] at hrule
    refine (hfirst.exchanges_both hsecond (ihFirst hrule.1.1.2) (ihSecond hrule.2) hrule.1.1.2
      hinner).node (fun other whole ⟨_, _, _, hwhole, hfirst, hsecond, hsame⟩ => ?_)
      fun hkind => (hrule.1.1.1 hkind).elim
    exact hwhole ▸ .extended hfirst ((hsame _ hrule.1.2).trans hmeets) hsecond
  | nested _ ih => exact (ih hinner).map fun _ _ _ hread => .nested hread

end Rule

/-- **In a text without errors a cardinality can be exchanged for any other.** It is what a brace
opens; with other bounds in its place, the text has no errors either, and its tree differs there
only. -/
theorem exists_bracedPlace {text : String} (hok : (parse text).errors = []) {frames : List Frame}
    {children : List Tree} (h : (parse text).tree.bare Kind.isNothing id =
      Frame.fillAll frames (.node .cardinality children)) :
    ∃ place : BracedPlace, ∃ inside, IsBounds inside ∧
      visible (tokenize text) = place.tokens inside ∧
      Tree.node .cardinality children = place.node inside ∧ place.brace.kind = .lBrace ∧
      place.front.length = Frame.countBefore frames ∧
      ∀ other inside, IsBounds inside → visible (tokenize other) = place.tokens inside →
        (parse other).errors = [] ∧ (parse other).tree.bare Kind.isNothing id =
          Frame.fillAll frames (place.node inside) := by
  obtain ⟨hinner, hfile⟩ := Rule.spansBraces_grammar
  obtain ⟨⟨left, kind, right⟩, frames, rfl⟩ : ∃ frame others, frames = frame :: others := by
    cases frames with
    | nil => cases h
    | cons frame frames => exact ⟨frame, frames, rfl⟩
  obtain rfl : Kind.sourceFile = kind := (Tree.node.inj h).1
  obtain ⟨place, inside, hinside, htokens, hnode, hopens⟩ :=
    (parse_eq_iff_reads.mp ⟨hok, h⟩).exchanges hfile hinner left frames children right rfl
  refine ⟨place, inside, hinside, htokens, hnode, hopens.brace, ?_,
    fun other inside hinside hother => ?_⟩
  · rw [hopens.count, Frame.countBefore, Frame.countBefore, List.flatMap_cons, List.length_append]
  · exact parse_eq_iff_reads.mpr (hother ▸ hopens.reads inside hinside)

end Ili
