import Ili.Text.Blank
import Ili.Token.Lexer
import Mathlib.Data.List.TakeWhile

/-!
# Where a text is cut

Tokens that are cut off one after another from their own spelling are the tokens of that spelling,
and only those are. So whether a run of tokens is read back as it was written is decided token by
token: each must be what is cut off from the front of what is left.
-/

namespace Ili

theorem isWhiteSpace_of_isBlank {c : Char} (h : Lexer.isBlank c = true) :
    isWhiteSpace c = true := by
  simp only [Lexer.isBlank, Bool.or_eq_true, beq_iff_eq] at h
  rcases h with (((rfl | rfl) | rfl) | rfl) | rfl <;> decide

namespace Lexer

theorem count_le_length (p : Char → Bool) (chars : List Char) : count p chars ≤ chars.length :=
  (List.takeWhile_sublist p).length_le

theorem takeWhile_of_count {p : Char → Bool} {chars rest : List Char}
    (h : count p (chars ++ rest) = chars.length) : (chars ++ rest).takeWhile p = chars := by
  obtain ⟨after, hafter⟩ := List.takeWhile_prefix p (l := chars ++ rest)
  exact (List.append_inj hafter h).1

theorem exponent_le_length (chars : List Char) : exponent chars ≤ chars.length := by
  cases chars with
  | nil => simp [exponent]
  | cons e cs =>
    simp only [exponent]
    split
    · have hdigits (sign : Nat) : count Char.isDigit (cs.drop sign) ≤ cs.length - sign := by
        rw [← List.length_drop]
        exact count_le_length Char.isDigit (cs.drop sign)
      split
      · exact Nat.zero_le _
      · next hzero =>
        have hne : count Char.isDigit
            (cs.drop (if cs.head? = some '+' ∨ cs.head? = some '-' then 1 else 0)) ≠ 0 := hzero
        have := hdigits (if cs.head? = some '+' ∨ cs.head? = some '-' then 1 else 0)
        rw [List.length_cons]
        omega
    · exact Nat.zero_le _

theorem number_le_length (cs : List Char) : (number cs).2 ≤ cs.length := by
  have hwhole := count_le_length Char.isDigit cs
  simp only [number]
  split
  · next rest hrest =>
    have hlength := congrArg List.length hrest
    have hfraction := count_le_length Char.isDigit rest
    have hexponent := exponent_le_length (rest.drop (count Char.isDigit rest))
    rw [List.length_drop, List.length_cons] at hlength
    rw [List.length_drop] at hexponent
    split
    · exact hwhole
    · next n hn => omega
  · exact hwhole

theorem stringBody_le_length (cs : List Char) : stringBody cs ≤ cs.length := by
  fun_induction stringBody cs <;> simp_all <;> omega

theorem quoted_le_length (cs : List Char) : (quoted cs).2 ≤ cs.length := by
  have hbody := stringBody_le_length cs
  simp only [quoted]
  split
  · next hquote =>
    have hne : cs.drop (stringBody cs) ≠ [] := by
      intro hnil
      simp [hnil] at hquote
    have := List.length_pos_iff.mpr hne
    rw [List.length_drop] at this
    omega
  · exact hbody

theorem close?_le_length {cs : List Char} {n : Nat} (h : close? cs = some n) : n ≤ cs.length := by
  fun_induction close? cs generalizing n <;> simp_all <;> grind

theorem slash_le_length (cs : List Char) : (slash cs).2 ≤ cs.length := by
  unfold slash
  split <;> try simp
  all_goals
    split
    · next h => have := close?_le_length h; simp; omega
    · simp

theorem bang_le_length (cs : List Char) : (bang cs).2 ≤ cs.length := by
  unfold bang
  split <;> simp
  · next rest => have := count_le_length (· != '\n') rest; omega
  · next rest _ => have := count_le_length (· != '\n') rest; omega

theorem punctuation_le_length (c : Char) (cs : List Char) : (punctuation c cs).2 ≤ cs.length := by
  unfold punctuation
  split <;> simp

theorem munch_le_length (c : Char) (cs : List Char) : (munch c cs).2 ≤ cs.length := by
  unfold munch
  split
  · exact count_le_length isBlank cs
  · split
    · exact count_le_length isWordChar cs
    · split
      · exact number_le_length cs
      · split
        · exact quoted_le_length cs
        · split
          · exact slash_le_length cs
          · split
            · exact bang_le_length cs
            · exact punctuation_le_length c cs

theorem ofWord_ne_whitespace (word : String) : Kind.ofWord word ≠ .whitespace := by
  have hkeywords : ∀ entry ∈ Kind.keywords, entry.2 ≠ .whitespace := by decide
  rw [Kind.ofWord]
  cases hlookup : Kind.keywords.lookup word with
  | none => simp
  | some kind =>
    obtain ⟨before, after, hentries, -⟩ := List.lookup_eq_some_iff.mp hlookup
    exact hkeywords (word, kind) (by simp [hentries])

theorem number_ne_whitespace (cs : List Char) : (number cs).1 ≠ .whitespace := by
  simp only [number]
  repeat' split
  all_goals simp

theorem slash_ne_whitespace (cs : List Char) : (slash cs).1 ≠ .whitespace := by
  unfold slash
  repeat' split
  all_goals simp

theorem punctuation_ne_whitespace (c : Char) (cs : List Char) :
    (punctuation c cs).1 ≠ .whitespace := by
  unfold punctuation
  split <;> simp

theorem munch_eq_whitespace_iff {c : Char} {cs : List Char} :
    (munch c cs).1 = .whitespace ↔ isBlank c = true := by
  unfold munch
  split
  · next hblank => simp [hblank]
  · next hblank =>
    simp only [hblank, Bool.false_eq_true, iff_false]
    repeat' split
    · exact ofWord_ne_whitespace _
    · exact number_ne_whitespace cs
    · simp only [quoted]
      split <;> simp
    · exact slash_ne_whitespace cs
    · unfold bang
      split <;> simp
    · exact punctuation_ne_whitespace c cs

end Lexer

def Token.rewrite (f : String → String) (token : Token) : Token :=
  { token with text := f token.text }

theorem Token.rewrite_id : Token.rewrite id = id :=
  rfl

/-- The token is what is cut off from the front of its text with `rest` behind it. -/
def Token.Heads (token : Token) (rest : List Char) : Prop :=
  ∃ c cs, token.text.toList = c :: cs ∧ Lexer.munch c (cs ++ rest) = (token.kind, cs.length)

def visible (tokens : List Token) : List Token :=
  tokens.filter fun token => !token.kind.isTrivia

theorem visible_append (left right : List Token) :
    visible (left ++ right) = visible left ++ visible right :=
  List.filter_append ..

theorem visible_eq_nil_iff {tokens : List Token} :
    visible tokens = [] ↔ ∀ token ∈ tokens, token.kind.isTrivia = true := by
  simp [visible, List.filter_eq_nil_iff]

/-- Every token is what is cut off in front of the ones behind it. -/
def Tiled : List Token → Prop
  | [] => True
  | token :: rest => token.Heads (spelling rest) ∧ Tiled rest

theorem spelling_cons (token : Token) (rest : List Token) :
    spelling (token :: rest) = token.text.toList ++ spelling rest :=
  rfl

theorem spelling_append (left right : List Token) :
    spelling (left ++ right) = spelling left ++ spelling right :=
  List.flatMap_append

namespace Lexer

theorem tokensAfter_of_heads {token : Token} {rest : List Char} (h : token.Heads rest) :
    tokensAfter 0 (token.text.toList ++ rest) = token :: tokensAfter 0 rest := by
  obtain ⟨kind, text⟩ := token
  obtain ⟨c, cs, htext, hmunch⟩ := h
  rw [htext, List.cons_append, tokensAfter_zero_cons, hmunch]
  simp only [List.take_left', List.drop_left']
  rw [← htext, String.ofList_toList]

theorem heads_of_munch (c : Char) (cs : List Char) :
    Token.Heads ⟨(munch c cs).1, String.ofList (c :: cs.take (munch c cs).2)⟩
      (cs.drop (munch c cs).2) := by
  refine ⟨c, cs.take (munch c cs).2, String.toList_ofList, ?_⟩
  rw [List.take_append_drop, List.length_take_of_le (munch_le_length c cs)]

theorem tiled_tokensAfter (skip : Nat) (chars : List Char) : Tiled (tokensAfter skip chars) := by
  induction chars generalizing skip with
  | nil => trivial
  | cons c cs ih =>
    cases skip with
    | succ skip => exact ih skip
    | zero =>
      refine ⟨?_, ih (munch c cs).2⟩
      rw [spelling_tokensAfter]
      exact heads_of_munch c cs

theorem tokensAfter_spelling {tokens : List Token} (h : Tiled tokens) :
    tokensAfter 0 (spelling tokens) = tokens := by
  induction tokens with
  | nil => rfl
  | cons token rest ih => rw [spelling_cons, tokensAfter_of_heads h.1, ih h.2]

end Lexer

theorem tiled_tokenize (text : String) : Tiled (tokenize text) :=
  Lexer.tiled_tokensAfter 0 text.toList

/-- The tokens of a text are the only tiling of it. -/
theorem tokenize_eq_iff {text : String} {tokens : List Token} :
    tokenize text = tokens ↔ spelling tokens = text.toList ∧ Tiled tokens := by
  constructor
  · rintro rfl
    exact ⟨spelling_tokenize text, tiled_tokenize text⟩
  · rintro ⟨hspelling, htiled⟩
    rw [tokenize, ← hspelling, Lexer.tokensAfter_spelling htiled]

theorem Tiled.append_right {left right : List Token} (h : Tiled (left ++ right)) : Tiled right := by
  induction left with
  | nil => exact h
  | cons token rest ih => exact ih h.2

theorem Tiled.heads_of_mem {tokens : List Token} {token : Token} (h : Tiled tokens)
    (hmem : token ∈ tokens) : ∃ rest, token.Heads rest := by
  obtain ⟨front, back, rfl⟩ := List.append_of_mem hmem
  exact ⟨spelling back, h.append_right.1⟩

theorem Token.Heads.isBlank {token : Token} {rest : List Char} (h : token.Heads rest)
    (hkind : token.kind = .whitespace) : ∀ c ∈ token.text.toList, Lexer.isBlank c = true := by
  obtain ⟨c, cs, htext, hmunch⟩ := h
  have hblank : Lexer.isBlank c = true :=
    Lexer.munch_eq_whitespace_iff.mp ((congrArg Prod.fst hmunch).trans hkind)
  have hlength : Lexer.count Lexer.isBlank (cs ++ rest) = cs.length := by
    simpa [Lexer.munch, hblank] using congrArg Prod.snd hmunch
  have htake := Lexer.takeWhile_of_count hlength
  intro d hd
  rw [htext, List.mem_cons] at hd
  rcases hd with rfl | hd
  · exact hblank
  · rw [← htake] at hd
    exact List.mem_takeWhile_imp hd

theorem Token.Heads.exists_not_blank {token : Token} {rest : List Char} (h : token.Heads rest)
    (hkind : token.kind ≠ .whitespace) : ∃ c ∈ token.text.toList, Lexer.isBlank c = false := by
  obtain ⟨c, cs, htext, hmunch⟩ := h
  refine ⟨c, by simp [htext], ?_⟩
  rw [← Bool.not_eq_true]
  intro hblank
  exact hkind ((congrArg Prod.fst hmunch).symm.trans (Lexer.munch_eq_whitespace_iff.mpr hblank))

end Ili
