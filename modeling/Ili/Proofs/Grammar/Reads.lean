import Ili.Proofs.Grammar.Bare
import Ili.Proofs.Grammar.Scan

/-!
# Reading without errors

A text without errors can be read token by token: blanks and comments are left out, nothing is
reported, and what a rule yields is a row of trees and the tokens behind. Such readings and the runs
without errors are the same, so what a text without errors is read as is a matter of its visible
tokens alone.
-/

namespace Ili

def Lexeme.plain (token : Token) : Lexeme :=
  ⟨[], token, 0⟩

namespace Guard

def meets (tokens : List Token) (guard : Guard) : Bool :=
  guard.holds (tokens.map Lexeme.plain)

theorem holds_eq_meets (guard : Guard) {ahead : List Lexeme} (h : ∀ lexeme ∈ ahead, lexeme.Sorted) :
    guard.holds ahead = guard.meets (ahead.map Lexeme.token) := by
  apply guard.holds_congr (spares_id _) (List.forall₂_map_right_iff.mpr _)
  · exact Kind.isNothing
  · rw [List.forall₂_map_right_iff, List.forall₂_same]
    intro lexeme hlexeme
    refine ⟨?_, rfl⟩
    rw [KeptAlike, solidTokens_isNothing, solidTokens_isNothing,
      visible_eq_nil_iff.mpr (h lexeme hlexeme).1]
    rfl

theorem meets_of_decidedBy {guard : Guard} {t : Token} {answer : Bool}
    (h : guard.decidedBy t.kind = some answer) (rest : List Token) :
    guard.meets (t :: rest) = answer := by
  have hplain : guard.decidedBy (Lexeme.plain t).kind = some answer := h
  exact holds_of_decidedBy hplain _

end Guard

namespace Rule

def splitTokens (stops : List Kind) (depth : Nat) : List Token → List Token × List Token
  | [] => ([], [])
  | t :: rest =>
    if depth = 0 ∧ stops.contains t.kind then ([], t :: rest)
    else
      let (taken, left) := splitTokens stops (depthAfter depth t.kind) rest
      (t :: taken, left)

theorem map_splitBalanced (stops : List Kind) (depth : Nat) (ahead : List Lexeme) :
    ((splitBalanced stops depth ahead).1.map Lexeme.token,
      (splitBalanced stops depth ahead).2.map Lexeme.token) =
      splitTokens stops depth (ahead.map Lexeme.token) := by
  induction ahead generalizing depth with
  | nil => rfl
  | cons lexeme rest ih =>
    rw [List.map_cons, splitTokens, splitBalanced, ← ih]
    change _ = if depth = 0 ∧ stops.contains lexeme.kind then _ else _
    split <;> rfl

theorem splitTokens_append (stops : List Kind) (depth : Nat) (tokens : List Token) :
    (splitTokens stops depth tokens).1 ++ (splitTokens stops depth tokens).2 = tokens := by
  induction tokens generalizing depth with
  | nil => rfl
  | cons t rest ih =>
    rw [splitTokens]
    split
    · rfl
    · exact congrArg (t :: ·) (ih _)

/-- A rule, in which `nested` stands for `inner`, reads a row of trees from the front of these
tokens, and leaves the others. -/
inductive Reads (inner : Rule) : Rule → List Token → List Tree → List Token → Prop
  | skip {tokens : List Token} : Reads inner .skip tokens [] tokens
  | bump {tokens : List Token} :
      Reads inner .bump tokens ((tokens.take 1).map .token) (tokens.drop 1)
  | bumpAs {kind : Kind} {tokens : List Token} :
      Reads inner (.bumpAs kind) tokens ((tokens.take 1).map fun t => .token { t with kind })
        (tokens.drop 1)
  | flush {tokens : List Token} : Reads inner .flush tokens [] tokens
  | balancedTo {stops : List Kind} {tokens : List Token} :
      Reads inner (.balancedTo stops) tokens ((splitTokens stops 0 tokens).1.map .token)
        (splitTokens stops 0 tokens).2
  | seq {first second : Rule} {tokens middle rest : List Token} {row other : List Tree}
      (hfirst : Reads inner first tokens row middle)
      (hsecond : Reads inner second middle other rest) :
      Reads inner (.seq first second) tokens (row ++ other) rest
  | yes {guard : Guard} {yes no : Rule} {tokens rest : List Token} {row : List Tree}
      (hmeets : guard.meets tokens = true) (hyes : Reads inner yes tokens row rest) :
      Reads inner (.choose guard yes no) tokens row rest
  | no {guard : Guard} {yes no : Rule} {tokens rest : List Token} {row : List Tree}
      (hmeets : guard.meets tokens = false) (hno : Reads inner no tokens row rest) :
      Reads inner (.choose guard yes no) tokens row rest
  | stop {guard : Guard} {body : Rule} {tokens : List Token} (hmeets : guard.meets tokens = false) :
      Reads inner (.many guard body) tokens [] tokens
  | again {guard : Guard} {body : Rule} {tokens middle rest : List Token} {row other : List Tree}
      (hmeets : guard.meets tokens = true) (hbody : Reads inner body tokens row middle)
      (hrest : Reads inner (.many guard body) middle other rest) :
      Reads inner (.many guard body) tokens (row ++ other) rest
  | node {kind : Kind} {body : Rule} {tokens rest : List Token} {row : List Tree}
      (hbody : Reads inner body tokens row rest) :
      Reads inner (.node kind body) tokens [.node kind row] rest
  | plain {kind : Kind} {first second : Rule} {guard : Guard} {tokens rest : List Token}
      {row : List Tree} (hfirst : Reads inner first tokens row rest)
      (hmeets : guard.meets rest = false) :
      Reads inner (.extendAs kind first guard second) tokens row rest
  | extended {kind : Kind} {first second : Rule} {guard : Guard} {tokens middle rest : List Token}
      {row other : List Tree} (hfirst : Reads inner first tokens row middle)
      (hmeets : guard.meets middle = true) (hsecond : Reads inner second middle other rest) :
      Reads inner (.extendAs kind first guard second) tokens [.node kind (row ++ other)] rest
  | nested {tokens rest : List Token} {row : List Tree}
      (hinner : Reads inner inner tokens row rest) :
      Reads inner .nested tokens row rest

end Rule

namespace Parsing

def ahead (parsing : Parsing) : List Token :=
  parsing.input.ahead.map Lexeme.token

theorem meets_ahead {parsing : Parsing} (h : parsing.input.Sorted) (guard : Guard) :
    guard.meets parsing.ahead = guard.holds parsing.input.ahead :=
  (guard.holds_eq_meets h.1).symm

theorem ahead_flushed (parsing : Parsing) : parsing.flushed.ahead = parsing.ahead := by
  obtain ⟨⟨ahead, trailing, stop⟩, errors, builder⟩ := parsing
  cases ahead <;> rfl

/-- Between two moments of a parse this row has been put into the node started last, blanks and
comments aside. -/
def Took (parsing last : Parsing) (row : List Tree) : Prop :=
  ∃ trees, Part parsing last trees .anything .nothing ∧ Tree.bareOf Kind.isNothing id trees = row

variable {parsing middle last : Parsing} {row other : List Tree} {kind : Kind}

theorem bareOf_plain (tokens : List Token) :
    Tree.bareOf Kind.isNothing id (tokens.map .token) = (visible tokens).map .token := by
  rw [Tree.bareOf_map_token, solidTokens_isNothing, Token.rewrite_id, List.map_id]

theorem Took.none (h : parsing.input.Sorted) : Took parsing parsing [] :=
  ⟨[], (Part.none h (Outlook.holds_nothing _)).blur, rfl⟩

theorem Took.andThen (hfirst : Took parsing middle row) (hsecond : Took middle last other) :
    Took parsing last (row ++ other) := by
  obtain ⟨first, hfirst, rfl⟩ := hfirst
  obtain ⟨second, hsecond, rfl⟩ := hsecond
  exact ⟨first ++ second, (hfirst.andThen hsecond).blur, Tree.bareOf_append ..⟩

theorem Took.sorted (h : Took parsing last row) : last.input.Sorted := by
  obtain ⟨trees, hpart, -⟩ := h
  exact hpart.sorted

theorem Took.flushed (h : parsing.input.Sorted) : Took parsing parsing.flushed [] := by
  refine ⟨_, (Part.flushed h (Outlook.holds_nothing _)).blur, ?_⟩
  rw [bareOf_plain, visible_eq_nil_iff.mpr (Input.isTrivia_of_mem_pending h)]
  rfl

theorem Took.node (h : parsing.input.Sorted) (hbody : Took (parsing.flushed.start kind) last row) :
    Took parsing last.finish [.node kind row] := by
  obtain ⟨trees, hpart, rfl⟩ := hbody
  refine ⟨_, (Part.node h hpart).blur, ?_⟩
  rw [Tree.bareOf_append, bareOf_plain, visible_eq_nil_iff.mpr (Input.isTrivia_of_mem_pending h)]
  rfl

theorem Took.extended (h : parsing.input.Sorted) (hfirst : Took parsing.flushed middle row)
    (hsecond : Took (middle.startAt parsing.flushed.builder.row.length kind) last other) :
    Took parsing last.finish [.node kind (row ++ other)] := by
  obtain ⟨first, hfirst, rfl⟩ := hfirst
  obtain ⟨second, hsecond, rfl⟩ := hsecond
  refine ⟨_, (Part.extended h hfirst hsecond).blur, ?_⟩
  rw [Tree.bareOf_append, bareOf_plain, visible_eq_nil_iff.mpr (Input.isTrivia_of_mem_pending h),
    Tree.bareOf_node, Tree.bareOf_append]
  rfl

theorem Took.bump (rename : Token → Token) (h : parsing.input.Sorted)
    (hvisible : ∀ t : Token, t.kind.isTrivia = false → (rename t).kind.isTrivia = false) :
    Took parsing (parsing.after (Rule.runBump rename parsing.input))
        ((parsing.ahead.take 1).map fun t => .token (rename t)) ∧
      (parsing.after (Rule.runBump rename parsing.input)).ahead = parsing.ahead.drop 1 ∧
      (parsing.after (Rule.runBump rename parsing.input)).errors = parsing.errors := by
  obtain ⟨⟨ahead, trailing, stop⟩, errors, builder⟩ := parsing
  cases ahead with
  | nil => exact ⟨Took.flushed h, rfl, List.append_nil _⟩
  | cons lexeme rest =>
    obtain ⟨htrivia, hshown⟩ := h.1 lexeme List.mem_cons_self
    refine ⟨⟨lexeme.trivia.map .token ++ [.token (rename lexeme.token)], ?_, ?_⟩, rfl,
      List.append_nil _⟩
    · exact ⟨rfl, trivial, ⟨fun other hother => h.1 other (List.mem_cons_of_mem _ hother), h.2⟩,
        Outlook.holds_nothing _⟩
    · have hlast := bareOf_plain [rename lexeme.token]
      rw [visible, List.filter_cons_of_pos (by rw [hvisible _ hshown]; rfl), List.filter_nil,
        List.map_singleton] at hlast
      rw [Tree.bareOf_append, bareOf_plain, visible_eq_nil_iff.mpr htrivia, hlast]
      rfl

theorem Took.balancedTo (stops : List Kind) (h : parsing.input.Sorted) :
    Took parsing (parsing.after (Rule.runBalancedTo stops parsing.input))
        ((Rule.splitTokens stops 0 parsing.ahead).1.map .token) ∧
      (parsing.after (Rule.runBalancedTo stops parsing.input)).ahead =
        (Rule.splitTokens stops 0 parsing.ahead).2 := by
  have hsplit := Rule.map_splitBalanced stops 0 parsing.input.ahead
  have happend := Rule.splitBalanced_append stops 0 parsing.input.ahead
  refine ⟨⟨_, (Part.balancedTo stops h).blur, ?_⟩, congrArg Prod.snd hsplit⟩
  rw [Parsing.ahead, ← hsplit, Rule.treesOf_eq, bareOf_plain, Rule.visible_flatMap_tokens]
  intro lexeme hlexeme
  exact h.1 lexeme (happend ▸ List.mem_append_left _ hlexeme)

end Parsing

namespace Rule

variable {inner rule : Rule} {parsing last : Parsing} {tokens rest : List Token} {row : List Tree}

theorem reads_bump_cons {t : Token} :
    Reads inner .bump (t :: tokens) row rest ↔ row = [.token t] ∧ rest = tokens := by
  constructor
  · intro h
    cases h
    exact ⟨rfl, rfl⟩
  · rintro ⟨rfl, rfl⟩
    exact .bump

theorem reads_seq {first second : Rule} :
    Reads inner (.seq first second) tokens row rest ↔
      ∃ front middle back, Reads inner first tokens front middle ∧
        Reads inner second middle back rest ∧ row = front ++ back := by
  constructor
  · intro h
    cases h with
    | seq hfirst hsecond => exact ⟨_, _, _, hfirst, hsecond, rfl⟩
  · rintro ⟨front, middle, back, hfirst, hsecond, rfl⟩
    exact .seq hfirst hsecond

theorem reads_row_append {front back : List Rule} (hfront : front ≠ []) (hback : back ≠ []) :
    Reads inner (Rule.row (front ++ back)) tokens row rest ↔
      Reads inner (.seq (Rule.row front) (Rule.row back)) tokens row rest := by
  obtain ⟨last, others, rfl⟩ := List.exists_cons_of_ne_nil hback
  induction front generalizing tokens row with
  | nil => exact absurd rfl hfront
  | cons first front ih =>
    cases front with
    | nil => rfl
    | cons second front =>
      set behind := Rule.row (last :: others)
      change Reads inner (.seq first (Rule.row (second :: front ++ last :: others))) _ _ _ ↔
        Reads inner (.seq (.seq first (Rule.row (second :: front))) behind) _ _ _
      simp only [reads_seq, ih (List.cons_ne_nil second front)]
      constructor
      · rintro ⟨_, _, _, hfirst, ⟨_, _, _, hsecond, hlast, rfl⟩, rfl⟩
        exact ⟨_, _, _, ⟨_, _, _, hfirst, hsecond, rfl⟩, hlast, (List.append_assoc ..).symm⟩
      · rintro ⟨_, _, _, ⟨_, _, _, hfirst, hsecond, rfl⟩, hlast, rfl⟩
        exact ⟨_, _, _, hfirst, ⟨_, _, _, hsecond, hlast, rfl⟩, List.append_assoc ..⟩

theorem reads_node {kind : Kind} {body : Rule} :
    Reads inner (.node kind body) tokens row rest ↔
      ∃ children, Reads inner body tokens children rest ∧ row = [.node kind children] := by
  constructor
  · intro h
    cases h with
    | node hbody => exact ⟨_, hbody, rfl⟩
  · rintro ⟨children, hbody, rfl⟩
    exact .node hbody

theorem reads_yes {guard : Guard} {yes no : Rule} (hmeets : guard.meets tokens = true) :
    Reads inner (.choose guard yes no) tokens row rest ↔ Reads inner yes tokens row rest := by
  refine ⟨fun h => ?_, .yes hmeets⟩
  cases h with
  | yes _ hyes => exact hyes
  | no hnot _ => rw [hmeets] at hnot; cases hnot

theorem reads_no {guard : Guard} {yes no : Rule} (hmeets : guard.meets tokens = false) :
    Reads inner (.choose guard yes no) tokens row rest ↔ Reads inner no tokens row rest := by
  refine ⟨fun h => ?_, .no hmeets⟩
  cases h with
  | yes hholds _ => rw [hmeets] at hholds; cases hholds
  | no _ hno => exact hno

theorem reads_skip : Reads inner .skip tokens row rest ↔ row = [] ∧ rest = tokens := by
  constructor
  · intro h
    cases h
    exact ⟨rfl, rfl⟩
  · rintro ⟨rfl, rfl⟩
    exact .skip

theorem reads_when_no {guard : Guard} (hmeets : guard.meets tokens = false) :
    Reads inner (when guard rule) tokens row rest ↔ row = [] ∧ rest = tokens :=
  (reads_no hmeets).trans reads_skip

theorem reads_due {kind : Kind} {problem : Problem} :
    Reads inner (.choose (.sees [kind]) .bump (.report problem)) tokens row rest ↔
      ∃ t : Token, t.kind = kind ∧ tokens = t :: rest ∧ row = [.token t] := by
  constructor
  · intro h
    cases h with
    | yes hmeets hyes =>
      cases tokens with
      | nil => cases hmeets
      | cons t others =>
        obtain ⟨rfl, rfl⟩ := reads_bump_cons.mp hyes
        have hkind : t.kind ∈ [kind] := List.contains_iff_mem.mp hmeets
        exact ⟨t, List.mem_singleton.mp hkind, rfl, rfl⟩
    | no _ hno => cases hno
  · rintro ⟨t, rfl, rfl, rfl⟩
    exact .yes (Guard.meets_of_decidedBy (by simp [Guard.decidedBy]) _) .bump

theorem reads_expect {kind : Kind} :
    Reads inner (expect kind) tokens row rest ↔
      ∃ t : Token, t.kind = kind ∧ tokens = t :: rest ∧ row = [.token t] :=
  reads_due

theorem reads_expectThen {kind : Kind} :
    Reads inner (expectThen kind rule) tokens row rest ↔
      ∃ t others back, t.kind = kind ∧ tokens = t :: others ∧ Reads inner rule others back rest ∧
        row = .token t :: back := by
  constructor
  · intro h
    cases h with
    | yes hmeets hyes =>
      obtain ⟨front, middle, back, hbump, hrule, rfl⟩ := reads_seq.mp hyes
      obtain ⟨t, hkind, rfl, rfl⟩ := reads_expect.mp (.yes hmeets hbump)
      exact ⟨t, middle, back, hkind, rfl, hrule, rfl⟩
    | no _ hno => cases hno
  · rintro ⟨t, others, back, rfl, rfl, hrule, rfl⟩
    exact .yes (Guard.meets_of_decidedBy (by simp [Guard.decidedBy]) _) (.seq .bump hrule)

theorem reads_name {t : Token} (ht : t.kind = .ident) :
    Reads inner Grammar.name (t :: tokens) row rest ↔
      row = [.node .name [.token t]] ∧ rest = tokens := by
  have hident : (Guard.sees [.ident]).meets (t :: tokens) = true :=
    Guard.meets_of_decidedBy (by rw [ht]; rfl) _
  refine (reads_yes hident).trans ?_
  simp only [reads_node, reads_bump_cons]
  constructor
  · rintro ⟨_, ⟨rfl, rfl⟩, rfl⟩
    exact ⟨rfl, rfl⟩
  · rintro ⟨rfl, rfl⟩
    exact ⟨_, ⟨rfl, rfl⟩, rfl⟩

theorem Reads.exists_taken (h : Reads inner rule tokens row rest) :
    ∃ taken, tokens = taken ++ rest ∧ taken.length = (Tree.tokensOf row).length := by
  induction h with
  | skip | flush | stop => exact ⟨[], rfl, rfl⟩
  | @bump tokens | @bumpAs _ tokens =>
    refine ⟨tokens.take 1, (List.take_append_drop 1 _).symm, ?_⟩
    cases tokens <;> rfl
  | balancedTo =>
    exact ⟨_, (splitTokens_append _ _ _).symm, by rw [Tree.tokensOf_map_token]⟩
  | seq _ _ ihFirst ihSecond | again _ _ _ ihFirst ihSecond =>
    obtain ⟨first, rfl, hfirst⟩ := ihFirst
    obtain ⟨second, rfl, hsecond⟩ := ihSecond
    refine ⟨first ++ second, (List.append_assoc ..).symm, ?_⟩
    rw [Tree.tokensOf_append, List.length_append, List.length_append, hfirst, hsecond]
  | yes _ _ ih | no _ _ ih | plain _ _ ih | nested _ ih => exact ih
  | node _ ih =>
    obtain ⟨taken, htaken, hlength⟩ := ih
    exact ⟨taken, htaken, by rw [hlength, Tree.tokensOf, Tree.tokensOf, List.append_nil]; rfl⟩
  | extended _ _ _ ihFirst ihSecond =>
    obtain ⟨first, rfl, hfirst⟩ := ihFirst
    obtain ⟨second, rfl, hsecond⟩ := ihSecond
    refine ⟨first ++ second, (List.append_assoc ..).symm, ?_⟩
    rw [Tree.tokensOf, Tree.tokens, Tree.tokensOf, List.append_nil, Tree.tokensOf_append,
      List.length_append, List.length_append, hfirst, hsecond]

/-- A run that reports nothing reads the visible tokens. -/
theorem Runs.reads (h : Runs inner rule parsing last) (hrule : rule.renamesToIdent = true)
    (hinner : inner.renamesToIdent = true) (hok : last.errors = [])
    (hsorted : parsing.input.Sorted) :
    ∃ row, Parsing.Took parsing last row ∧ Reads inner rule parsing.ahead row last.ahead := by
  induction h with
  | skip => exact ⟨[], .none hsorted, .skip⟩
  | bump =>
    obtain ⟨htook, hrest, -⟩ := Parsing.Took.bump id hsorted fun _ hshown => hshown
    exact ⟨_, htook, hrest ▸ .bump⟩
  | @bumpAs _ kind =>
    obtain rfl : kind = .ident := by simpa [renamesToIdent] using hrule
    obtain ⟨htook, hrest, -⟩ := Parsing.Took.bump (fun t => { t with kind := .ident }) hsorted
      fun _ _ => rfl
    exact ⟨_, htook, hrest ▸ .bumpAs⟩
  | flush => exact ⟨[], .flushed hsorted, Parsing.ahead_flushed _ ▸ .flush⟩
  | report => simp at hok
  | balancedTo =>
    obtain ⟨htook, hrest⟩ := Parsing.Took.balancedTo _ hsorted
    exact ⟨_, htook, hrest ▸ .balancedTo⟩
  | seq hfirst hsecond ihFirst ihSecond =>
    simp only [renamesToIdent, Bool.and_eq_true] at hrule
    have hmiddle := List.prefix_nil.mp (hok ▸ hsecond.errors_prefix)
    obtain ⟨row, htook, hreads⟩ := ihFirst hrule.1 hmiddle hsorted
    obtain ⟨other, htook', hreads'⟩ := ihSecond hrule.2 hok htook.sorted
    exact ⟨row ++ other, htook.andThen htook', .seq hreads hreads'⟩
  | yes hholds _ ih =>
    simp only [renamesToIdent, Bool.and_eq_true] at hrule
    obtain ⟨row, htook, hreads⟩ := ih hrule.1 hok hsorted
    exact ⟨row, htook, .yes ((Parsing.meets_ahead hsorted _).trans hholds) hreads⟩
  | no hholds _ ih =>
    simp only [renamesToIdent, Bool.and_eq_true] at hrule
    obtain ⟨row, htook, hreads⟩ := ih hrule.2 hok hsorted
    exact ⟨row, htook, .no ((Parsing.meets_ahead hsorted _).trans hholds) hreads⟩
  | stop hholds =>
    exact ⟨[], .none hsorted, .stop ((Parsing.meets_ahead hsorted _).trans hholds)⟩
  | again hholds _ hrest ihBody ihRest =>
    have hmiddle := List.prefix_nil.mp (hok ▸ hrest.errors_prefix)
    obtain ⟨row, htook, hreads⟩ := ihBody hrule hmiddle hsorted
    obtain ⟨other, htook', hreads'⟩ := ihRest hrule hok htook.sorted
    exact ⟨row ++ other, htook.andThen htook',
      .again ((Parsing.meets_ahead hsorted _).trans hholds) hreads hreads'⟩
  | node _ ih =>
    obtain ⟨row, htook, hreads⟩ := ih hrule hok (Input.sorted_flushed hsorted)
    exact ⟨_, .node hsorted htook, .node (Parsing.ahead_flushed _ ▸ hreads)⟩
  | plain _ hholds ih =>
    simp only [renamesToIdent, Bool.and_eq_true] at hrule
    obtain ⟨row, htook, hreads⟩ := ih hrule.1 hok (Input.sorted_flushed hsorted)
    rw [Parsing.ahead_flushed] at hreads
    exact ⟨row, (Parsing.Took.flushed hsorted).andThen htook,
      .plain hreads ((Parsing.meets_ahead htook.sorted _).trans hholds)⟩
  | extended _ hholds hsecond ihFirst ihSecond =>
    simp only [renamesToIdent, Bool.and_eq_true] at hrule
    have hmiddle := List.prefix_nil.mp (hok ▸ hsecond.errors_prefix)
    obtain ⟨row, htook, hreads⟩ := ihFirst hrule.1 hmiddle (Input.sorted_flushed hsorted)
    obtain ⟨other, htook', hreads'⟩ := ihSecond hrule.2 hok htook.sorted
    rw [Parsing.ahead_flushed] at hreads
    exact ⟨_, .extended hsorted htook htook',
      .extended hreads ((Parsing.meets_ahead htook.sorted _).trans hholds) hreads'⟩
  | nested _ ih =>
    obtain ⟨row, htook, hreads⟩ := ih hinner hok hsorted
    exact ⟨row, htook, .nested hreads⟩

/-- What is read is what a run takes from there without reporting anything. -/
theorem Reads.runs (h : Reads inner rule tokens row rest) (hrule : rule.renamesToIdent = true)
    (hinner : inner.renamesToIdent = true) (parsing : Parsing) (hsorted : parsing.input.Sorted)
    (htokens : parsing.ahead = tokens) :
    ∃ last, Runs inner rule parsing last ∧ last.errors = parsing.errors ∧
      Parsing.Took parsing last row ∧ last.ahead = rest := by
  induction h generalizing parsing with
  | skip => exact ⟨_, .skip, rfl, .none hsorted, htokens⟩
  | bump =>
    subst htokens
    obtain ⟨htook, hrest, hok⟩ := Parsing.Took.bump id hsorted fun _ hshown => hshown
    exact ⟨_, .bump, hok, htook, hrest⟩
  | @bumpAs kind =>
    subst htokens
    obtain rfl : kind = .ident := by simpa [renamesToIdent] using hrule
    obtain ⟨htook, hrest, hok⟩ := Parsing.Took.bump (fun t => { t with kind := .ident })
      hsorted fun _ _ => rfl
    exact ⟨_, .bumpAs, hok, htook, hrest⟩
  | flush =>
    exact ⟨_, .flush, List.append_nil _, .flushed hsorted,
      (Parsing.ahead_flushed _).trans htokens⟩
  | balancedTo =>
    subst htokens
    obtain ⟨htook, hrest⟩ := Parsing.Took.balancedTo _ hsorted
    exact ⟨_, .balancedTo, List.append_nil _, htook, hrest⟩
  | seq _ _ ihFirst ihSecond =>
    simp only [renamesToIdent, Bool.and_eq_true] at hrule
    obtain ⟨middle, hfirst, hok, htook, hmiddle⟩ := ihFirst hrule.1 parsing hsorted htokens
    obtain ⟨last, hsecond, hok', htook', hlast⟩ := ihSecond hrule.2 middle htook.sorted hmiddle
    exact ⟨last, .seq hfirst hsecond, hok'.trans hok, htook.andThen htook', hlast⟩
  | yes hmeets _ ih =>
    simp only [renamesToIdent, Bool.and_eq_true] at hrule
    obtain ⟨last, hruns, hrest⟩ := ih hrule.1 parsing hsorted htokens
    subst htokens
    exact ⟨last, .yes ((Parsing.meets_ahead hsorted _).symm.trans hmeets) hruns, hrest⟩
  | no hmeets _ ih =>
    simp only [renamesToIdent, Bool.and_eq_true] at hrule
    obtain ⟨last, hruns, hrest⟩ := ih hrule.2 parsing hsorted htokens
    subst htokens
    exact ⟨last, .no ((Parsing.meets_ahead hsorted _).symm.trans hmeets) hruns, hrest⟩
  | stop hmeets =>
    subst htokens
    exact ⟨_, .stop ((Parsing.meets_ahead hsorted _).symm.trans hmeets), rfl, .none hsorted, rfl⟩
  | again hmeets _ _ ihBody ihRest =>
    obtain ⟨middle, hbody, hok, htook, hmiddle⟩ := ihBody hrule parsing hsorted htokens
    obtain ⟨last, hrest, hok', htook', hlast⟩ := ihRest hrule middle htook.sorted hmiddle
    subst htokens
    exact ⟨last, .again ((Parsing.meets_ahead hsorted _).symm.trans hmeets) hbody hrest,
      hok'.trans hok, htook.andThen htook', hlast⟩
  | @node kind _ _ _ _ _ ih =>
    obtain ⟨last, hbody, hok, htook, hlast⟩ := ih hrule (parsing.flushed.start kind)
      (Input.sorted_flushed hsorted) ((Parsing.ahead_flushed _).trans htokens)
    exact ⟨last.finish, .node hbody, hok.trans (List.append_nil _), .node hsorted htook, hlast⟩
  | plain _ hmeets ih =>
    simp only [renamesToIdent, Bool.and_eq_true] at hrule
    obtain ⟨last, hfirst, hok, htook, rfl⟩ := ih hrule.1 parsing.flushed
      (Input.sorted_flushed hsorted) ((Parsing.ahead_flushed _).trans htokens)
    exact ⟨last, .plain hfirst ((Parsing.meets_ahead htook.sorted _).symm.trans hmeets),
      hok.trans (List.append_nil _), (Parsing.Took.flushed hsorted).andThen htook, rfl⟩
  | @extended kind _ _ _ _ _ _ _ _ _ hmeets _ ihFirst ihSecond =>
    simp only [renamesToIdent, Bool.and_eq_true] at hrule
    obtain ⟨middle, hfirst, hok, htook, rfl⟩ := ihFirst hrule.1 parsing.flushed
      (Input.sorted_flushed hsorted) ((Parsing.ahead_flushed _).trans htokens)
    obtain ⟨last, hsecond, hok', htook', hlast⟩ := ihSecond hrule.2
      (middle.startAt parsing.flushed.builder.row.length kind) htook.sorted rfl
    exact ⟨last.finish,
      .extended hfirst ((Parsing.meets_ahead htook.sorted _).symm.trans hmeets) hsecond,
      hok'.trans (hok.trans (List.append_nil _)), .extended hsorted htook htook', hlast⟩
  | nested _ ih =>
    obtain ⟨last, hruns, hrest⟩ := ih hinner parsing hsorted htokens
    exact ⟨last, .nested hruns, hrest⟩

end Rule

theorem Parsing.ahead_ofText (text : String) :
    (Parsing.ofText text).ahead = visible (tokenize text) := by
  have hsorted := Input.sorted_ofText text
  rw [← Input.tokens_ofText, Input.tokens, visible_append, Rule.visible_flatMap_tokens hsorted.1,
    visible_eq_nil_iff.mpr hsorted.2, List.append_nil]
  rfl

/-- The end of a run over a text tells the errors of the text and, blanks and comments aside, its
tree. -/
theorem parse_of_runs {text : String} {last : Parsing} {row : List Tree}
    (h : Rule.Runs Grammar.enumType Grammar.file (.ofText text) last)
    (htook : Parsing.Took (.ofText text) last row) :
    (parse text).errors = last.errors ∧
      (parse text).tree.bare Kind.isNothing id = .node .sourceFile row := by
  obtain ⟨other, hruns, -, herrors, -, htree⟩ := runs_parse text
  obtain rfl := hruns.unique h
  obtain ⟨trees, hpart, rfl⟩ := htook
  refine ⟨herrors.symm, ?_⟩
  rw [htree, hpart.builder]
  rfl

/-- A text has no errors and, blanks and comments aside, this tree if and only if its visible tokens
are read so. -/
theorem parse_eq_iff_reads {text : String} {row : List Tree} :
    (parse text).errors = [] ∧ (parse text).tree.bare Kind.isNothing id = .node .sourceFile row ↔
      Rule.Reads Grammar.enumType Grammar.file (visible (tokenize text)) row [] := by
  have hsorted := Input.sorted_ofText text
  constructor
  · rintro ⟨hok, hrow⟩
    obtain ⟨last, hruns, hnil, herrors, -⟩ := runs_parse text
    obtain ⟨other, htook, hreads⟩ := hruns.reads Grammar.renamesToIdent_file
      Grammar.renamesToIdent_enumType (herrors.trans hok) hsorted
    obtain rfl : other = row := (Tree.node.inj ((parse_of_runs hruns htook).2.symm.trans hrow)).2
    have hrest : last.ahead = [] := by
      have hempty := (List.append_eq_nil_iff.mp hnil).1
      rw [List.flatMap_eq_nil_iff] at hempty
      cases hahead : last.input.ahead with
      | nil => rw [Parsing.ahead, hahead]; rfl
      | cons lexeme rest =>
        have hnone := hempty lexeme (hahead ▸ List.mem_cons_self)
        simp [Lexeme.tokens] at hnone
    rwa [Parsing.ahead_ofText, hrest] at hreads
  · intro hreads
    obtain ⟨last, hruns, hok, htook, -⟩ := hreads.runs Grammar.renamesToIdent_file
      Grammar.renamesToIdent_enumType (.ofText text) hsorted (Parsing.ahead_ofText text)
    obtain ⟨herrors, htree⟩ := parse_of_runs hruns htook
    exact ⟨herrors.trans hok, htree⟩

end Ili
