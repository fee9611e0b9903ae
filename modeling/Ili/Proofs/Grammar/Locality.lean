import Ili.Proofs.Grammar.Reads

/-!
# How far a reading looks ahead

Most guards look at the next two tokens. A token that decides them all by its kind, such as a
semicolon, is one no reading looks past: what is read up to it stays the same whatever stands behind
it. Only the guard that tells roles from attributes looks further, but no further than the name and
the property list that are read next. Which rules are of this sort, and which of them end in such a
token, is read off the rules.
-/

namespace Ili

namespace Guard

def looksNear : Guard → Bool
  | negate guard => guard.looksNear
  | both left right | either left right => left.looksNear && right.looksNear
  | sentenceOf _ => false
  | more | sees _ | seesKeyword | seesWord _ | thenSees _ | thenSeesKeyword => true

theorem meets_congr {guard : Guard} (h : guard.looksNear = true) {tokens other : List Token}
    (hsame : tokens.take 2 = other.take 2) : guard.meets tokens = guard.meets other := by
  have htake (tokens : List Token) : guard.meets tokens = guard.meets (tokens.take 2) := by
    induction guard with
    | more | sees | seesKeyword | seesWord | thenSees | thenSeesKeyword =>
      match tokens with
      | [] | [_] | _ :: _ :: _ => rfl
    | sentenceOf => cases h
    | negate guard ih => exact congrArg not (ih h)
    | both left right ihLeft ihRight =>
      obtain ⟨hleft, hright⟩ := (Bool.and_eq_true _ _).mp h
      exact congrArg₂ and (ihLeft hleft) (ihRight hright)
    | either left right ihLeft ihRight =>
      obtain ⟨hleft, hright⟩ := (Bool.and_eq_true _ _).mp h
      exact congrArg₂ or (ihLeft hleft) (ihRight hright)
  rw [htake tokens, htake other, hsame]

/-- The guard looks no further than the next two tokens, and not past one of this kind. -/
def isSettledBy (closer : Kind) (guard : Guard) : Bool :=
  guard.looksNear && (guard.decidedBy closer).isSome

theorem meets_of_isSettledBy {guard : Guard} {s : Token} (h : guard.isSettledBy s.kind = true)
    (front rest other : List Token) :
    guard.meets (front ++ s :: rest) = guard.meets (front ++ s :: other) := by
  obtain ⟨hnear, hdecided⟩ := (Bool.and_eq_true _ _).mp h
  obtain ⟨answer, hanswer⟩ := Option.isSome_iff_exists.mp hdecided
  match front with
  | [] =>
    rw [List.nil_append, List.nil_append, meets_of_decidedBy hanswer, meets_of_decidedBy hanswer]
  | [_] | _ :: _ :: _ => exact meets_congr hnear rfl

/-- The guard that tells roles from attributes. -/
def asksSentence : Guard → Bool
  | both (sees [.ident]) (sentenceOf _) => true
  | _ => false

theorem exists_of_asksSentence {guard : Guard} (h : guard.asksSentence = true) :
    ∃ operators, guard = both (sees [.ident]) (sentenceOf operators) := by
  unfold asksSentence at h
  split at h
  · exact ⟨_, rfl⟩
  · cases h

/-- The kind of the token behind a name and its property list stays the same, as long as the list is
closed in front of the semicolon. -/
theorem meets_sentence {guard : Guard} (h : guard.asksSentence = true) {s : Token}
    (hs : s.kind = .semicolon) {front : List Token}
    (hlist : ∀ name paren list, front = name :: paren :: list → name.kind = .ident →
      paren.kind = .lParen → ∃ t ∈ list, t.kind = .rParen) (rest other : List Token) :
    guard.meets (front ++ s :: rest) = guard.meets (front ++ s :: other) := by
  obtain ⟨operators, rfl⟩ := exists_of_asksSentence h
  match front with
  | [] =>
    have hnone : (both (sees [.ident]) (sentenceOf operators)).decidedBy s.kind = some false := by
      rw [hs]
      rfl
    rw [List.nil_append, List.nil_append, meets_of_decidedBy hnone, meets_of_decidedBy hnone]
  | [name] =>
    have hparen : (Lexeme.plain s).kind ≠ .lParen := by
      rw [Lexeme.kind, Lexeme.plain, hs]
      decide
    simp [meets, holds, behindName, hparen]
  | name :: paren :: list =>
    by_cases hname : name.kind = .ident
    · by_cases hparen : paren.kind = .lParen
      · obtain ⟨t, ht, hclosing⟩ := hlist name paren list rfl hname hparen
        have hopen : (Lexeme.plain paren).kind = .lParen := hparen
        set goesOn : Lexeme → Bool := fun l => l.kind != .rParen && l.kind != .error
        -- The search for the closing parenthesis ends inside the list.
        have hfound : (list.map Lexeme.plain).dropWhile goesOn ≠ [] := by
          rw [ne_eq, List.dropWhile_eq_nil_iff]
          intro hall
          have hgoes := hall _ (List.mem_map_of_mem ht)
          simp [goesOn, Lexeme.kind, Lexeme.plain, hclosing] at hgoes
        obtain ⟨found, behind, hsplit⟩ := List.exists_cons_of_ne_nil hfound
        have hdrop (others : List Token) : behindName ((name :: paren :: list ++ s :: others).map
            Lexeme.plain) = behind ++ Lexeme.plain s :: others.map Lexeme.plain := by
          simp only [List.cons_append, List.map_cons, List.map_append, behindName,
            List.drop_succ_cons, List.drop_zero, if_pos hopen]
          rw [List.dropWhile_append, hsplit]
          rfl
        simp only [meets, holds, hdrop]
        cases behind <;> rfl
      · have hother : (Lexeme.plain paren).kind ≠ .lParen := hparen
        simp [meets, holds, behindName, hother]
    · have hnone : (both (sees [.ident]) (sentenceOf operators)).decidedBy name.kind =
          some false := by
        simp [decidedBy, hname]
      have hmeets (others : List Token) := meets_of_decidedBy hnone (paren :: list ++ s :: others)
      exact (hmeets rest).trans (hmeets other).symm

end Guard

namespace Rule

/-- The rule reads a name, and then a property list if one opens, if an identifier is next. -/
def readsSentence : Rule → Bool
  | .node _ body => body.readsSentence
  | .choose guard yes no => yes.readsSentence && (guard = .sees [.ident] || no.readsSentence)
  | .seq first (.seq second _) => first = Grammar.name && second = Grammar.optionalProperties
  | _ => false

def isLocal (closer : Kind) : Rule → Bool
  | .seq first second => first.isLocal closer && second.isLocal closer
  | .choose guard yes no =>
    (guard.isSettledBy closer ||
      closer = .semicolon && guard.asksSentence && yes.readsSentence && no.readsSentence) &&
      yes.isLocal closer && no.isLocal closer
  | .many guard body => guard.isSettledBy closer && body.isLocal closer
  | .node _ body => body.isLocal closer
  | .extendAs _ first guard second =>
    first.isLocal closer && guard.isSettledBy closer && second.isLocal closer
  | .skip | .bump | .bumpAs _ | .flush | .report _ | .balancedTo _ | .nested => true

def alwaysReports : Rule → Bool
  | .report _ => true
  | .seq first second => first.alwaysReports || second.alwaysReports
  | .choose _ yes no => yes.alwaysReports && no.alwaysReports
  | .node _ body => body.alwaysReports
  | _ => false

/-- The rule looks no further than the token of this kind it ends in. -/
def closes (closer : Kind) : Rule → Bool
  | .report _ => true
  | .seq first second =>
    first.alwaysReports || first.isLocal closer && second.closes closer
  | .choose guard yes no =>
    guard.isSettledBy closer && (guard = .sees [closer] && yes = .bump || yes.closes closer) &&
      no.closes closer
  | .node _ body => body.closes closer
  | _ => false

variable {inner rule : Rule} {tokens middle rest left : List Token} {row other : List Tree}
  {s : Token}

theorem Reads.alwaysReports_eq (h : Reads inner rule tokens row rest) :
    rule.alwaysReports = false := by
  induction h with
  | seq _ _ ihFirst ihSecond => rw [alwaysReports, ihFirst, ihSecond]; rfl
  | yes _ _ ih => rw [alwaysReports, ih]; rfl
  | no _ _ ih => rw [alwaysReports, ih, Bool.and_false]
  | node _ ih => exact ih
  | _ => rfl

theorem Reads.exists_rParen {name paren : Token} {list : List Token}
    (h : Reads inner rule (name :: paren :: list) row rest) (hrule : rule.readsSentence = true)
    (hname : name.kind = .ident) (hparen : paren.kind = .lParen) :
    ∃ taken, list = taken ++ rest ∧ ∃ t ∈ taken, t.kind = .rParen := by
  induction rule generalizing row with
  | node kind body ih =>
    obtain ⟨children, hbody, -⟩ := reads_node.mp h
    exact ih hbody hrule
  | choose guard yes no ihYes ihNo =>
    simp only [readsSentence, Bool.and_eq_true, Bool.or_eq_true, decide_eq_true_eq] at hrule
    cases h with
    | yes _ hyes => exact ihYes hyes hrule.1
    | no hmeets hno =>
      refine ihNo hno (hrule.2.resolve_left ?_)
      rintro rfl
      have hident : (Guard.sees [.ident]).decidedBy name.kind = some true := by
        rw [hname]
        rfl
      rw [Guard.meets_of_decidedBy hident] at hmeets
      cases hmeets
  | seq first second =>
    cases second with
    | seq second third =>
      simp only [readsSentence, Bool.and_eq_true, decide_eq_true_eq] at hrule
      obtain ⟨rfl, rfl⟩ := hrule
      obtain ⟨_, middle, _, hfirst, hothers, -⟩ := reads_seq.mp h
      obtain ⟨_, behind, _, hsecond, hthird, -⟩ := reads_seq.mp hothers
      -- The name takes the identifier, so that the list is next.
      obtain ⟨-, rfl⟩ := (reads_name hname).mp hfirst
      have hopens : (Guard.sees [.lParen]).meets (paren :: list) = true :=
        Guard.meets_of_decidedBy (by rw [hparen]; rfl) _
      obtain ⟨_, hlist, -⟩ := reads_node.mp ((reads_yes hopens).mp hsecond)
      obtain ⟨_, _, _, hopen, hinside, -⟩ := reads_seq.mp hlist
      obtain ⟨_, _, _, hwords, hclose, -⟩ := reads_seq.mp hinside
      obtain ⟨_, -, heq, -⟩ := reads_expect.mp hopen
      obtain ⟨-, rfl⟩ := List.cons.inj heq
      obtain ⟨words, rfl, -⟩ := hwords.exists_taken
      obtain ⟨closing, hclosing, rfl, -⟩ := reads_expect.mp hclose
      obtain ⟨others, rfl, -⟩ := hthird.exists_taken
      exact ⟨words ++ closing :: others, by simp, closing, by simp, hclosing⟩
    | _ => cases hrule
  | _ => cases hrule

theorem Reads.meets_beforeCloser {guard : Guard} {yes no : Rule} {front : List Token}
    (h : Reads inner rule (front ++ s :: rest) row (left ++ s :: rest))
    (hrule : (Rule.choose guard yes no).isLocal s.kind = true) (hbranch : rule = yes ∨ rule = no)
    (others : List Token) :
    guard.meets (front ++ s :: others) = guard.meets (front ++ s :: rest) := by
  simp only [isLocal, Bool.and_eq_true, Bool.or_eq_true, decide_eq_true_eq] at hrule
  rcases hrule.1.1 with hsettled | ⟨⟨⟨hs, hasks⟩, hyes⟩, hno⟩
  · exact Guard.meets_of_isSettledBy hsettled front others rest
  · refine Guard.meets_sentence hasks hs (fun name paren list hfront hname hparen => ?_) others rest
    subst hfront
    have hreads : rule.readsSentence = true := by
      rcases hbranch with rfl | rfl
      exacts [hyes, hno]
    obtain ⟨taken, htaken, t, ht, hclosing⟩ := h.exists_rParen hreads hname hparen
    rw [← List.append_assoc] at htaken
    rw [List.append_cancel_right htaken]
    exact ⟨t, List.mem_append_left _ ht, hclosing⟩

theorem splitTokens_congr (stops : List Kind) (depth : Nat)
    (h : (splitTokens stops depth tokens).2 = left ++ s :: rest) :
    ∃ front, tokens = front ++ s :: rest ∧ ∀ other, splitTokens stops depth (front ++ s :: other) =
      ((splitTokens stops depth tokens).1, left ++ s :: other) := by
  induction tokens generalizing depth with
  | nil => simp [splitTokens] at h
  | cons t others ih =>
    rw [splitTokens] at h ⊢
    split at h
    · next hstop =>
      refine ⟨left, h, fun other => ?_⟩
      rw [if_pos hstop]
      cases left with
      | nil =>
        obtain ⟨rfl, -⟩ := List.cons.inj h
        rw [List.nil_append, splitTokens, if_pos hstop]
      | cons first left =>
        obtain ⟨rfl, -⟩ := List.cons.inj h
        rw [List.cons_append, splitTokens, if_pos hstop]
    · next hstop =>
      obtain ⟨front, hfront, hsplit⟩ := ih _ h
      refine ⟨t :: front, congrArg (t :: ·) hfront, fun other => ?_⟩
      rw [List.cons_append, splitTokens, if_neg hstop, if_neg hstop, hsplit]

/-- What is read in front of a token that the rule does not look past can be read in front of it
whatever stands behind. -/
theorem Reads.beforeCloser (h : Reads inner rule tokens row (left ++ s :: rest))
    (hrule : rule.isLocal s.kind = true) (hinner : inner.isLocal s.kind = true) :
    ∃ front, tokens = front ++ s :: rest ∧
      ∀ other, Reads inner rule (front ++ s :: other) row (left ++ s :: other) := by
  generalize hend : left ++ s :: rest = behind at h
  induction h generalizing left with
  | skip => exact ⟨left, hend.symm, fun _ => .skip⟩
  | flush => exact ⟨left, hend.symm, fun _ => .flush⟩
  | @bump tokens =>
    cases tokens with
    | nil => simp at hend
    | cons t others => exact ⟨t :: left, congrArg (t :: ·) hend.symm, fun _ => .bump⟩
  | @bumpAs kind tokens =>
    cases tokens with
    | nil => simp at hend
    | cons t others => exact ⟨t :: left, congrArg (t :: ·) hend.symm, fun _ => .bumpAs⟩
  | @balancedTo stops tokens =>
    obtain ⟨front, hfront, hsplit⟩ := splitTokens_congr stops 0 hend.symm
    refine ⟨front, hfront, fun other => ?_⟩
    have hreads : Reads inner (.balancedTo stops) (front ++ s :: other) _ _ := .balancedTo
    rwa [hsplit] at hreads
  | seq _ _ ihFirst ihSecond =>
    simp only [isLocal, Bool.and_eq_true] at hrule
    obtain ⟨middle, hmiddle, hsecond⟩ := ihSecond hrule.2 hend
    obtain ⟨front, hfront, hfirst⟩ := ihFirst hrule.1 hmiddle.symm
    exact ⟨front, hfront, fun other => .seq (hfirst other) (hsecond other)⟩
  | yes hmeets hyes ih =>
    have hlocal := hrule
    simp only [isLocal, Bool.and_eq_true] at hrule
    obtain ⟨front, rfl, hbranch⟩ := ih hrule.1.2 hend
    subst hend
    refine ⟨front, rfl, fun other => .yes ?_ (hbranch other)⟩
    rw [hyes.meets_beforeCloser hlocal (.inl rfl), hmeets]
  | no hmeets hno ih =>
    have hlocal := hrule
    simp only [isLocal, Bool.and_eq_true] at hrule
    obtain ⟨front, rfl, hbranch⟩ := ih hrule.2 hend
    subst hend
    refine ⟨front, rfl, fun other => .no ?_ (hbranch other)⟩
    rw [hno.meets_beforeCloser hlocal (.inr rfl), hmeets]
  | stop hmeets =>
    simp only [isLocal, Bool.and_eq_true] at hrule
    refine ⟨left, hend.symm, fun other => .stop ?_⟩
    rw [← hmeets, ← hend, Guard.meets_of_isSettledBy hrule.1]
  | again hmeets _ _ ihBody ihRest =>
    have hlocal := hrule
    simp only [isLocal, Bool.and_eq_true] at hrule
    obtain ⟨middle, hmiddle, hrest⟩ := ihRest hlocal hend
    obtain ⟨front, rfl, hbody⟩ := ihBody hrule.2 hmiddle.symm
    refine ⟨front, rfl, fun other => .again ?_ (hbody other) (hrest other)⟩
    rw [← hmeets, Guard.meets_of_isSettledBy hrule.1]
  | node _ ih =>
    obtain ⟨front, hfront, hbody⟩ := ih hrule hend
    exact ⟨front, hfront, fun other => .node (hbody other)⟩
  | plain _ hmeets ih =>
    simp only [isLocal, Bool.and_eq_true] at hrule
    obtain ⟨front, hfront, hfirst⟩ := ih hrule.1.1 hend
    refine ⟨front, hfront, fun other => .plain (hfirst other) ?_⟩
    rw [← hmeets, ← hend, Guard.meets_of_isSettledBy hrule.1.2]
  | extended _ hmeets _ ihFirst ihSecond =>
    simp only [isLocal, Bool.and_eq_true] at hrule
    obtain ⟨middle, rfl, hsecond⟩ := ihSecond hrule.2 hend
    obtain ⟨front, hfront, hfirst⟩ := ihFirst hrule.1.1 rfl
    refine ⟨front, hfront, fun other => .extended (hfirst other) ?_ (hsecond other)⟩
    rw [← hmeets, Guard.meets_of_isSettledBy hrule.1.2]
  | nested _ ih =>
    obtain ⟨front, hfront, hbody⟩ := ih hinner hend
    exact ⟨front, hfront, fun other => .nested (hbody other)⟩

theorem Reads.withCloser {closer : Kind} (h : Reads inner rule tokens row rest)
    (hrule : rule.closes closer = true) (hinner : inner.isLocal closer = true) :
    ∃ front s, s.kind = closer ∧ tokens = front ++ s :: rest ∧
      ∀ other, Reads inner rule (front ++ s :: other) row other := by
  induction h with
  | @seq first _ _ _ _ _ _ hfirst _ _ ihSecond =>
    simp only [closes, hfirst.alwaysReports_eq, Bool.false_or, Bool.and_eq_true] at hrule
    obtain ⟨middle, s, rfl, rfl, hsecond⟩ := ihSecond hrule.2
    obtain ⟨front, hfront, hreads⟩ := hfirst.beforeCloser hrule.1 hinner
    exact ⟨front, s, rfl, hfront, fun other => .seq (hreads other) (hsecond other)⟩
  | yes hmeets hyes ih =>
    simp only [closes, Bool.and_eq_true, Bool.or_eq_true, decide_eq_true_eq] at hrule
    obtain ⟨⟨hsettled, hcloses⟩, -⟩ := hrule
    rcases hcloses with ⟨rfl, rfl⟩ | hcloses
    · obtain ⟨s, rfl, rfl, rfl⟩ := reads_expect.mp (.yes hmeets hyes)
      have hnext : (Guard.sees [s.kind]).decidedBy s.kind = some true := by simp [Guard.decidedBy]
      exact ⟨[], s, rfl, rfl, fun other => .yes (Guard.meets_of_decidedBy hnext _) .bump⟩
    · obtain ⟨front, s, rfl, rfl, hreads⟩ := ih hcloses
      refine ⟨front, s, rfl, rfl, fun other => .yes ?_ (hreads other)⟩
      rw [← hmeets, Guard.meets_of_isSettledBy hsettled]
  | no hmeets _ ih =>
    simp only [closes, Bool.and_eq_true] at hrule
    obtain ⟨front, s, rfl, rfl, hreads⟩ := ih hrule.2
    refine ⟨front, s, rfl, rfl, fun other => .no ?_ (hreads other)⟩
    rw [← hmeets, Guard.meets_of_isSettledBy hrule.1.1]
  | node _ ih =>
    obtain ⟨front, s, hs, hfront, hreads⟩ := ih hrule
    exact ⟨front, s, hs, hfront, fun other => .node (hreads other)⟩
  | _ => cases hrule

end Rule

end Ili
