import Ili.Proofs.Grammar.Steps

/-!
# What is known of the tokens ahead

Guards tell about the next two tokens, and one of them looks further: behind a name and its property
list. What they have told is kept while tokens are taken, as far as it still says something. The
sentence of a role is followed in this way from its name to its operator.
-/

namespace Ili

namespace Guard

def behindList : List Lexeme → List Lexeme
  | [] => []
  | lexeme :: rest =>
    if lexeme.kind = .lParen then
      (rest.dropWhile fun l => l.kind != .rParen && l.kind != .error).drop 1
    else lexeme :: rest

theorem holds_sees_append {left right : List Kind} {ahead : List Lexeme}
    (h : (sees left).holds ahead = true ∨ (sees right).holds ahead = true) :
    (sees (left ++ right)).holds ahead = true := by
  cases ahead with
  | nil => exact h.elim id id
  | cons lexeme rest =>
    simp only [holds, List.head?_cons, Option.any_some, List.contains_iff_mem,
      List.mem_append] at h ⊢
    exact h

theorem holds_sees_keywords {ahead : List Lexeme} (h : seesKeyword.holds ahead = true) :
    (sees (Kind.all.filter Kind.isKeyword)).holds ahead = true := by
  cases ahead with
  | nil => exact h
  | cons lexeme rest =>
    simp only [holds, List.head?_cons, Option.any_some] at h ⊢
    exact List.contains_iff_mem.mpr (List.mem_filter.mpr ⟨Kind.mem_all _, h⟩)

end Guard

/-- Of the kinds given one stands behind a name and its property list, of which some may have been
taken already. -/
inductive Sentence where
  | unknown
  | name (operators : List Kind)
  | list (operators : List Kind)
  | inside (operators : List Kind)
  deriving DecidableEq, Repr

namespace Sentence

def Holds (ahead : List Lexeme) : Sentence → Prop
  | unknown => True
  | name operators => (Guard.sees operators).holds (Guard.behindName ahead) = true
  | list operators => (Guard.sees operators).holds (Guard.behindList ahead) = true
  | inside operators =>
    (Guard.sees operators).holds
      ((ahead.dropWhile fun l => l.kind != .rParen && l.kind != .error).drop 1) = true

def shift (next : List Kind) : Sentence → Sentence
  | unknown => unknown
  | name operators => list operators
  | list operators => if next.all (· == .lParen) then inside operators else unknown
  | inside operators =>
    if next.contains .rParen || next.contains .error then unknown else inside operators

variable {sentence : Sentence}

theorem Holds.shift {lexeme : Lexeme} {rest : List Lexeme} {next : List Kind}
    (h : sentence.Holds (lexeme :: rest)) (hnext : lexeme.kind ∈ next) :
    (sentence.shift next).Holds rest := by
  cases sentence with
  | unknown => trivial
  | name operators => exact h
  | list operators =>
    rw [Sentence.shift]
    split
    · next hall =>
      have hparen : lexeme.kind = .lParen := beq_iff_eq.mp (List.all_eq_true.mp hall _ hnext)
      rwa [Holds, Guard.behindList, if_pos hparen] at h
    · trivial
  | inside operators =>
    rw [Sentence.shift]
    split
    · trivial
    · next hopen =>
      rw [Bool.or_eq_true, not_or] at hopen
      have hparen : lexeme.kind ≠ .rParen :=
        fun heq => hopen.1 (List.contains_iff_mem.mpr (heq ▸ hnext))
      have herror : lexeme.kind ≠ .error :=
        fun heq => hopen.2 (List.contains_iff_mem.mpr (heq ▸ hnext))
      rw [Holds, List.dropWhile_cons, if_pos (by simp [hparen, herror])] at h
      exact h

theorem Holds.flushed {input : Input} (h : sentence.Holds input.ahead) :
    sentence.Holds input.flushed.ahead := by
  obtain ⟨ahead, trailing, stop⟩ := input
  cases ahead with
  | nil => exact h
  | cons lexeme rest =>
    change sentence.Holds ({ lexeme with trivia := [] } :: rest)
    have hkind : ({ lexeme with trivia := [] } : Lexeme).kind = lexeme.kind := rfl
    cases sentence with
    | unknown | name => exact h
    | list operators =>
      rw [Holds, Guard.behindList] at h ⊢
      rw [hkind]
      by_cases hparen : lexeme.kind = .lParen
      · rwa [if_pos hparen] at h ⊢
      · rwa [if_neg hparen] at h ⊢
    | inside operators =>
      rw [Holds, List.dropWhile_cons] at h ⊢
      rw [hkind]
      split at h
      · next hstays => rwa [if_pos hstays]
      · next hends => rwa [if_neg hends]

theorem Holds.operator {operators : List Kind} {ahead : List Lexeme}
    (h : (list operators).Holds ahead) (hparen : (Guard.sees [.lParen]).holds ahead = false) :
    (Guard.sees operators).holds ahead = true := by
  cases ahead with
  | nil => exact h
  | cons lexeme rest =>
    have hother : lexeme.kind ≠ .lParen := by
      rintro heq
      simp [Guard.holds, heq] at hparen
    rwa [Holds, Guard.behindList, if_neg hother] at h

theorem Holds.closed {operators : List Kind} {lexeme : Lexeme} {rest : List Lexeme}
    (h : (inside operators).Holds (lexeme :: rest)) (hparen : lexeme.kind = .rParen) :
    (Guard.sees operators).holds rest = true := by
  rw [Holds, List.dropWhile_cons, if_neg (by simp [hparen])] at h
  exact h

end Sentence

/-- What is known of the tokens ahead: the kinds the next one may have and the words it may be, the
kinds of the one behind it, and the sentence that has been begun. -/
structure Outlook where
  next : Option (List Kind)
  word : Option (List String)
  behind : Option (List Kind)
  sentence : Sentence
  deriving DecidableEq, Repr

namespace Outlook

structure Holds (outlook : Outlook) (ahead : List Lexeme) : Prop where
  next : ∀ kinds ∈ outlook.next, (Guard.sees kinds).holds ahead = true
  word : ∀ words ∈ outlook.word, (Guard.seesWord words).holds ahead = true
  behind : ∀ kinds ∈ outlook.behind, (Guard.thenSees kinds).holds ahead = true
  sentence : outlook.sentence.Holds ahead

def ofSentence (sentence : Sentence) : Outlook :=
  ⟨none, none, none, sentence⟩

def nothing : Outlook :=
  ofSentence .unknown

theorem holds_ofSentence {sentence : Sentence} {ahead : List Lexeme} (h : sentence.Holds ahead) :
    (ofSentence sentence).Holds ahead :=
  ⟨nofun, nofun, nofun, h⟩

theorem holds_nothing (ahead : List Lexeme) : nothing.Holds ahead :=
  holds_ofSentence trivial

def joinKinds (left right : Option (List Kind)) : Option (List Kind) :=
  left.bind fun kinds => right.map (kinds ++ ·)

theorem holds_joinKinds {left right : Option (List Kind)} {ahead : List Lexeme}
    (h : (∀ kinds ∈ left, (Guard.sees kinds).holds ahead = true) ∨
      ∀ kinds ∈ right, (Guard.sees kinds).holds ahead = true) :
    ∀ kinds ∈ joinKinds left right, (Guard.sees kinds).holds ahead = true := by
  intro kinds hkinds
  obtain ⟨first, hfirst, hkinds⟩ := Option.bind_eq_some_iff.mp hkinds
  obtain ⟨second, hsecond, rfl⟩ := Option.map_eq_some_iff.mp hkinds
  exact Guard.holds_sees_append (h.imp (· first hfirst) (· second hsecond))

def join (left right : Outlook) : Outlook where
  next := joinKinds left.next right.next
  word := if left.word = right.word then left.word else none
  behind := joinKinds left.behind right.behind
  sentence := if left.sentence = right.sentence then left.sentence else .unknown

theorem holds_join {left right : Outlook} {ahead : List Lexeme}
    (h : left.Holds ahead ∨ right.Holds ahead) : (left.join right).Holds ahead where
  next := holds_joinKinds (h.imp Holds.next Holds.next)
  word := by
    rw [join]
    split
    · next heq => exact h.elim Holds.word (heq ▸ ·.word)
    · exact nofun
  -- The token behind the next one is the next one of what is left.
  behind :=
    holds_joinKinds (h.imp Holds.behind Holds.behind)
  sentence := by
    change (if left.sentence = right.sentence then left.sentence else .unknown : Sentence).Holds _
    split
    · next heq => exact h.elim Holds.sentence (heq ▸ ·.sentence)
    · trivial

def assume (outlook : Outlook) : Guard → Outlook
  | .sees kinds => { outlook with next := some kinds }
  | .seesKeyword => { outlook with next := some (Kind.all.filter Kind.isKeyword) }
  | .seesWord words => { outlook with word := some words }
  | .thenSees kinds => { outlook with behind := some kinds }
  | .thenSeesKeyword => { outlook with behind := some (Kind.all.filter Kind.isKeyword) }
  | .sentenceOf operators => { outlook with sentence := .name operators }
  | .both left right => (outlook.assume left).assume right
  | .either left right => (outlook.assume left).join (outlook.assume right)
  | .more | .negate _ => outlook

theorem Holds.assume {outlook : Outlook} {ahead : List Lexeme} (h : outlook.Holds ahead)
    {guard : Guard} (hholds : guard.holds ahead = true) :
    (outlook.assume guard).Holds ahead := by
  induction guard generalizing outlook with
  | sees kinds => exact { h with next := fun _ hkinds => Option.some.inj hkinds ▸ hholds }
  | seesKeyword =>
    exact { h with
      next := fun _ hkinds => Option.some.inj hkinds ▸ Guard.holds_sees_keywords hholds }
  | seesWord words => exact { h with word := fun _ hwords => Option.some.inj hwords ▸ hholds }
  | thenSees kinds => exact { h with behind := fun _ hkinds => Option.some.inj hkinds ▸ hholds }
  | thenSeesKeyword =>
    exact { h with
      behind := fun _ hkinds =>
        Option.some.inj hkinds ▸ Guard.holds_sees_keywords hholds }
  | sentenceOf operators => exact { h with sentence := hholds }
  | both left right ihLeft ihRight =>
    obtain ⟨hleft, hright⟩ := (Bool.and_eq_true _ _).mp hholds
    exact ihRight (ihLeft h hleft) hright
  | either left right ihLeft ihRight =>
    exact holds_join (((Bool.or_eq_true _ _).mp hholds).imp (ihLeft h) (ihRight h))
  | more | negate => exact h

/-- What is known where a guard fails. Where no list opens, what stands behind it is next. -/
def deny (outlook : Outlook) : Guard → Outlook
  | .sees [.lParen] =>
    match outlook.sentence with
    | .list operators => { outlook with next := some operators }
    | _ => outlook
  | _ => outlook

theorem Holds.deny {outlook : Outlook} {ahead : List Lexeme} (h : outlook.Holds ahead)
    {guard : Guard} (hholds : guard.holds ahead = false) : (outlook.deny guard).Holds ahead := by
  unfold Outlook.deny
  split
  · split
    · next operators hlist =>
      have hsentence := h.sentence
      rw [hlist] at hsentence
      exact { h with next := fun _ hkinds => Option.some.inj hkinds ▸ hsentence.operator hholds }
    · exact h
  · exact h

def shift (outlook : Outlook) (next : List Kind) : Outlook where
  next :=
    match outlook.sentence with
    | .inside operators => if next.all (· == .rParen) then some operators else outlook.behind
    | _ => outlook.behind
  word := none
  behind := none
  sentence := outlook.sentence.shift next

theorem Holds.shift {outlook : Outlook} {lexeme : Lexeme} {rest : List Lexeme} {next : List Kind}
    (h : outlook.Holds (lexeme :: rest)) (hnext : lexeme.kind ∈ next) :
    (outlook.shift next).Holds rest where
  next := by
    rw [Outlook.shift]
    split
    · next operators hinside =>
      split
      · next hall =>
        have hparen : lexeme.kind = .rParen := beq_iff_eq.mp (List.all_eq_true.mp hall _ hnext)
        have hsentence := h.sentence
        rw [hinside] at hsentence
        exact fun _ hkinds => Option.some.inj hkinds ▸ hsentence.closed hparen
      · exact h.behind
    · exact h.behind
  word := nofun
  behind := nofun
  sentence := h.sentence.shift hnext

theorem Holds.flushed {outlook : Outlook} {input : Input} (h : outlook.Holds input.ahead) :
    outlook.Holds input.flushed.ahead where
  next kinds hkinds := (Guard.holds_flushed _ input).trans (h.next kinds hkinds)
  word words hwords := (Guard.holds_flushed _ input).trans (h.word words hwords)
  behind kinds hkinds := (Guard.holds_flushed _ input).trans (h.behind kinds hkinds)
  sentence := h.sentence.flushed

end Outlook

end Ili
