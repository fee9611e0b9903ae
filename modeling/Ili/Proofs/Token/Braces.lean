import Ili.Catalog.TypeDef
import Ili.Proofs.Token.Spelling

/-!
# Tokens around braces

An opening brace is a token of its own and goes on with nothing. So what is cut off in front of it
is cut off there whatever stands behind it, and between two texts the tokens of a cardinality are
those it is displayed with: in front of the two points digits are an integer, for no digit follows
the first of them.
-/

namespace Ili

namespace Lexer

variable {front back cs : List Char}

/-! ### What is cut off in front of a brace -/

theorem head?_beforeBrace (front back other : List Char) :
    (front ++ '\x7b' :: back).head? = (front ++ '\x7b' :: other).head? := by
  cases front <;> rfl

theorem count_beforeBrace {p : Char → Bool} (hp : p '\x7b' = false) (front back : List Char) :
    count p (front ++ '\x7b' :: back) = count p front := by
  rw [count, count, List.takeWhile_append]
  split
  · next hall => simp [hp, hall]
  · rfl

theorem exponent_beforeBrace (front back other : List Char) :
    exponent (front ++ '\x7b' :: back) = exponent (front ++ '\x7b' :: other) := by
  cases front with
  | nil => rfl
  | cons e es =>
    have hsign (back : List Char) : signLength (es ++ '\x7b' :: back) = signLength es := by
      cases es <;> rfl
    have hle : signLength es ≤ es.length := by
      cases es with
      | nil => exact Nat.le_refl 0
      | cons c es =>
        rw [signLength]
        split <;> simp
    rw [List.cons_append, List.cons_append, exponent_cons, exponent_cons, hsign, hsign,
      List.drop_append_of_le_length hle, List.drop_append_of_le_length hle,
      count_beforeBrace rfl, count_beforeBrace rfl]

theorem startsFraction_beforeBrace (front back other : List Char) :
    startsFraction (front ++ '\x7b' :: back) = startsFraction (front ++ '\x7b' :: other) := by
  cases front with
  | nil => rfl
  | cons c front =>
    by_cases hc : c = '.'
    · subst hc
      exact congrArg (Option.any Char.isDigit) (head?_beforeBrace front back other)
    · simp [startsFraction, hc]

theorem number_beforeBrace (front back other : List Char) :
    number (front ++ '\x7b' :: back) = number (front ++ '\x7b' :: other) := by
  have hle := count_le_length Char.isDigit front
  rw [number_eq, number_eq, count_beforeBrace rfl, count_beforeBrace rfl,
    List.drop_append_of_le_length hle, List.drop_append_of_le_length hle,
    startsFraction_beforeBrace _ back other]
  split
  · next hstarts =>
    cases hpoint : front.drop (count Char.isDigit front) with
    | nil => simp [hpoint, startsFraction] at hstarts
    | cons point behind =>
      have hle := count_le_length Char.isDigit behind
      dsimp only [List.cons_append, List.tail_cons]
      rw [count_beforeBrace rfl, count_beforeBrace rfl, List.drop_append_of_le_length hle,
        List.drop_append_of_le_length hle, exponent_beforeBrace _ back other]
  · rfl

theorem stringBody_beforeBrace (h : stringBody (front ++ '\x7b' :: back) = 0) (other : List Char) :
    stringBody (front ++ '\x7b' :: other) = 0 := by
  match front with
  | [] =>
    rw [List.nil_append, stringBody_cons (by decide), if_neg (by decide)] at h
    omega
  | c :: front =>
    rw [List.cons_append] at h ⊢
    by_cases hc : c = '\\'
    · subst hc
      cases front with
      | nil =>
        rw [List.nil_append, stringBody_escape, if_neg (by decide)] at h
        omega
      | cons d front =>
        rw [List.cons_append, stringBody_escape] at h ⊢
        split at h
        · next hd => rw [if_pos hd]
        · omega
    · rw [stringBody_cons hc] at h ⊢
      split at h
      · next hstop => rw [if_pos hstop]
      · omega

theorem quoted_beforeBrace {kind : Kind}
    (h : quoted (cs ++ (front ++ '\x7b' :: back)) = (kind, cs.length)) (other : List Char) :
    quoted (cs ++ (front ++ '\x7b' :: other)) = (kind, cs.length) := by
  rcases Token.kind_of_quoted h with rfl | rfl
  · exact quoted_append h
  · simp only [quoted] at h
    split at h
    · cases (Prod.mk.inj h).1
    · next hquote =>
      have hbody := (Prod.mk.inj h).2
      rw [hbody, List.drop_left' rfl, head?_beforeBrace _ back other] at hquote
      have hstop := stringBody_beforeBrace (stringBody_rest cs hbody) other
      simp only [quoted, stringBody_append cs _ hbody hstop, List.drop_left' rfl, if_neg hquote]

theorem slash_star_ne_zero {b : Char} {body : List Char} (h : b = '*' → body ≠ []) :
    (slash ('*' :: b :: body)).2 ≠ 0 := by
  by_cases hb : b = '*'
  · subst hb
    obtain ⟨d, body, rfl⟩ := List.exists_cons_of_ne_nil (h rfl)
    by_cases hd : d = '/'
    · subst hd
      cases body with
      | nil => decide
      | cons e body =>
        rw [slash_doc]
        cases close? (e :: body) <;> simp
    · rw [slash_stars hd]
      cases close? (d :: body) <;> simp
  · rw [slash_star hb]
    cases close? (b :: body) <;> simp

theorem slash_beforeBrace {kind : Kind}
    (h : slash (cs ++ (front ++ '\x7b' :: back)) = (kind, cs.length)) (other : List Char) :
    slash (cs ++ (front ++ '\x7b' :: other)) = (kind, cs.length) := by
  by_cases hcomment : kind.isComment = true
  · refine comment_append hcomment h ?_
    rintro rfl
    have hnone := nothing_behind_block h
    simp at hnone
  · by_cases hcs : cs = []
    · subst hcs
      rw [List.nil_append] at h ⊢
      -- A star would go on to a comment.
      have hstar : (front ++ '\x7b' :: back).head? ≠ some '*' := by
        intro hstar
        obtain ⟨front, rfl⟩ : ∃ others, front = '*' :: others := by
          cases front with
          | nil => cases hstar
          | cons c front => exact ⟨front, by rw [Option.some.inj hstar]⟩
        have hlength := congrArg Prod.snd h
        cases front with
        | nil => exact slash_star_ne_zero (fun hstar => absurd hstar (by decide)) hlength
        | cons b front => exact slash_star_ne_zero (fun _ => by simp) hlength
      rw [slash_of_ne hstar] at h
      rw [slash_of_ne (head?_beforeBrace front back other ▸ hstar), h]
    · have hnone := open_of_slash (Bool.eq_false_iff.mpr hcomment) hcs h
      simp at hnone

theorem bang_rest {kind : Kind} {rest : List Char} (h : bang (cs ++ rest) = (kind, cs.length)) :
    (kind.isComment = true → rest.head?.any (· != '\n') = false) ∧
      (kind = .error → rest.head?.any (fun c => c == '!' || c == '=') = false) := by
  have hline (opened : List Char) {tail : List Char} (hopened : cs ++ rest = opened ++ tail)
      (hlength : opened.length + count (· != '\n') tail = cs.length) :
      rest.head?.any (· != '\n') = false := by
    obtain ⟨body, rfl, rfl⟩ : ∃ body, cs = opened ++ body ∧ tail = body ++ rest := by
      rcases List.append_eq_append_iff.mp hopened with ⟨between, rfl, hrest⟩ | hback
      · rw [List.length_append] at hlength
        obtain rfl : between = [] := List.length_eq_zero_iff.mp (by omega)
        exact ⟨[], by simp, hrest.symm⟩
      · exact hback
    rw [List.length_append] at hlength
    exact (count_eq_length_iff.mp (Nat.add_left_cancel hlength)).2
  unfold bang at h
  split at h
  · next tail hopened =>
    obtain ⟨rfl, hlength⟩ := Prod.mk.inj h
    exact ⟨fun _ => hline ['!', '@'] hopened hlength, nofun⟩
  · next tail _ hopened =>
    obtain ⟨rfl, hlength⟩ := Prod.mk.inj h
    exact ⟨fun _ => hline ['!'] hopened hlength, nofun⟩
  · obtain ⟨rfl, -⟩ := Prod.mk.inj h
    exact ⟨nofun, nofun⟩
  · next _ hbang heq =>
    obtain ⟨rfl, hlength⟩ := Prod.mk.inj h
    obtain rfl := List.length_eq_zero_iff.mp hlength.symm
    refine ⟨nofun, fun _ => ?_⟩
    rw [List.nil_append] at hbang heq
    cases rest with
    | nil => rfl
    | cons c rest =>
      have hne : c ≠ '!' ∧ c ≠ '=' :=
        ⟨fun hc => hbang rest (hc ▸ rfl), fun hc => heq rest (hc ▸ rfl)⟩
      simp [hne]

theorem continuesPunctuation_beforeBrace (c : Char) (front back other : List Char) :
    continuesPunctuation c (front ++ '\x7b' :: back) =
      continuesPunctuation c (front ++ '\x7b' :: other) := by
  have hhead := head?_beforeBrace front back other
  have hminus : continuesMinus (front ++ '\x7b' :: back) =
      continuesMinus (front ++ '\x7b' :: other) := by
    match front with
    | [] => rfl
    | [_] | [_, _] | _ :: _ :: _ :: _ =>
      rw [continuesMinus.eq_def, continuesMinus.eq_def]
      split <;> split <;> simp_all
  unfold continuesPunctuation
  split <;> simp [hhead, hminus]

theorem mark_beforeBrace {kind : Kind} {c : Char}
    (h : punctuation c ([] ++ (front ++ '\x7b' :: back)) = (kind, ([] : List Char).length))
    (other : List Char) :
    punctuation c ([] ++ (front ++ '\x7b' :: other)) = (kind, ([] : List Char).length) := by
  rw [List.nil_append] at h ⊢
  have halone : continuesPunctuation c (front ++ '\x7b' :: back) = false := by
    rw [← Bool.not_eq_true]
    intro hmore
    have hpos := (punctuation_more hmore).1
    rw [h] at hpos
    exact Nat.lt_irrefl 0 hpos
  rw [punctuation_alone halone] at h
  rw [continuesPunctuation_beforeBrace c front back other] at halone
  rw [punctuation_alone halone, h]

end Lexer

namespace Token

variable {token : Token} {front back : List Char}

/-- A token in front of a brace does not depend on what stands behind the brace. -/
theorem Heads.beforeBrace (h : token.Heads (front ++ '\x7b' :: back)) (other : List Char) :
    token.Heads (front ++ '\x7b' :: other) := by
  obtain ⟨kind, text⟩ := token
  obtain ⟨c, cs, htext, hmunch⟩ := h
  refine ⟨c, cs, htext, ?_⟩
  have hhead := Lexer.head?_beforeBrace front back other
  have hcount {p : Char → Bool}
      (hlength : Lexer.count p (cs ++ (front ++ '\x7b' :: back)) = cs.length) :
      Lexer.count p (cs ++ (front ++ '\x7b' :: other)) = cs.length :=
    Lexer.count_append hlength (hhead ▸ (Lexer.count_eq_length_iff.mp hlength).2)
  simp only at htext hmunch ⊢
  unfold Lexer.munch at hmunch ⊢
  split at hmunch
  · next hblank =>
    obtain ⟨rfl, hlength⟩ := Prod.mk.inj hmunch
    rw [if_pos hblank, hcount hlength]
  · next hblank =>
    rw [if_neg hblank]
    split at hmunch
    · next halpha =>
      obtain ⟨rfl, hlength⟩ := Prod.mk.inj hmunch
      rw [if_pos halpha, Lexer.takeWhile_of_count hlength,
        Lexer.takeWhile_of_count (hcount hlength)]
    · next halpha =>
      rw [if_neg halpha]
      split at hmunch
      · next hdigit =>
        rw [if_pos hdigit, ← hmunch, ← List.append_assoc, ← List.append_assoc]
        exact Lexer.number_beforeBrace (cs ++ front) other back
      · next hdigit =>
        rw [if_neg hdigit]
        split at hmunch
        · next hquote =>
          rw [if_pos hquote]
          exact Lexer.quoted_beforeBrace hmunch other
        · next hquote =>
          rw [if_neg hquote]
          split at hmunch
          · next hslash =>
            rw [if_pos hslash]
            exact Lexer.slash_beforeBrace hmunch other
          · next hslash =>
            rw [if_neg hslash]
            split at hmunch
            · next hbang =>
              rw [if_pos hbang]
              obtain ⟨hline, hmark⟩ := Lexer.bang_rest hmunch
              rw [hhead] at hline hmark
              exact Lexer.bang_append hmunch hline hmark
            · next hbang =>
              rw [if_neg hbang]
              by_cases hcs : cs = []
              · subst hcs
                exact Lexer.mark_beforeBrace hmunch other
              · exact Lexer.punctuation_long hcs hmunch

end Token

theorem Tiled.beforeBrace {tokens : List Token} {brace : Token} {rest others : List Token}
    (hbrace : brace.text = "\x7b") (h : Tiled (tokens ++ brace :: rest))
    (hothers : Tiled (brace :: others)) : Tiled (tokens ++ brace :: others) := by
  induction tokens with
  | nil => exact hothers
  | cons token tokens ih =>
    refine ⟨?_, ih h.2⟩
    have hspelling (row : List Token) : spelling (tokens ++ brace :: row) =
        spelling tokens ++ '\x7b' :: spelling row := by
      rw [spelling_append, spelling_cons, hbrace]
      rfl
    have hheads := h.1
    rw [List.append_eq, hspelling] at hheads
    rw [List.append_eq, hspelling]
    exact hheads.beforeBrace (spelling others)

/-! ### Cardinalities as tokens -/

theorem digitsValue_eq_ofDigitChars (digits : List Char) :
    digitsValue digits = Nat.ofDigitChars 10 digits 0 := by
  simp only [digitsValue, Nat.ofDigitChars_eq_foldl, Nat.mul_comm]

theorem isDigit_of_mem_toString {n : Nat} : ∀ c ∈ (toString n).toList, c.isDigit = true := by
  rw [Nat.toString_eq_repr, Nat.toList_repr]
  exact fun c hc => Nat.isDigit_of_mem_toDigits (by decide) (by decide) hc

theorem toList_toString_ne_nil (n : Nat) : (toString n).toList ≠ [] := by
  rw [Nat.toString_eq_repr, Nat.toList_repr]
  exact Nat.toDigits_ne_nil

theorem parseNumber?_toString {n : Nat} (h : n < numberLimit) :
    parseNumber? (toString n) = some n := by
  have hplus : dropPlus (toString n).toList = (toString n).toList := by
    unfold dropPlus
    split
    · next heq => cases isDigit_of_mem_toString '+' (heq ▸ List.mem_cons_self)
    · rfl
  have hvalue : digitsValue (toString n).toList = n := by
    rw [digitsValue_eq_ofDigitChars, Nat.toString_eq_repr, Nat.toList_repr,
      Nat.ofDigitChars_ten_toDigits]
  have hall : (toString n).toList.all Char.isDigit = true :=
    List.all_eq_true.mpr isDigit_of_mem_toString
  simp only [parseNumber?, hplus, hvalue]
  exact if_pos ⟨toList_toString_ne_nil n, hall, h⟩

theorem Token.heads_toString (n : Nat) {rest : List Char}
    (hdigit : rest.head?.any Char.isDigit = false) (hfraction : Lexer.startsFraction rest = false) :
    Token.Heads ⟨.integer, toString n⟩ rest := by
  obtain ⟨c, cs, hchars⟩ := List.exists_cons_of_ne_nil (toList_toString_ne_nil n)
  have hall := isDigit_of_mem_toString (n := n)
  rw [hchars, List.forall_mem_cons] at hall
  refine ⟨c, cs, hchars, ?_⟩
  rw [munch_of_digit hall.1, Lexer.number_eq, Lexer.count_of_all hall.2 hdigit,
    List.drop_left' rfl, hfraction, if_neg Bool.false_ne_true]

namespace Cardinality

def openingBrace : Token :=
  ⟨.lBrace, "\x7b"⟩

def boundToken : Option Nat → Token
  | none => ⟨.star, "*"⟩
  | some n => ⟨.integer, toString n⟩

def inside (cardinality : Cardinality) : List Token :=
  if cardinality.min = cardinality.max then
    [boundToken cardinality.min, ⟨.rBrace, "\x7d"⟩]
  else
    [boundToken cardinality.min, ⟨.dotDot, ".."⟩, boundToken cardinality.max,
      ⟨.rBrace, "\x7d"⟩]

def tokens (cardinality : Cardinality) : List Token :=
  openingBrace :: cardinality.inside

theorem text_boundToken (bound : Option Nat) : (boundToken bound).text = boundText bound := by
  cases bound <;> rfl

theorem kind_boundToken (bound : Option Nat) :
    (boundToken bound).kind ∈ [Kind.integer, .star] := by
  cases bound <;> simp [boundToken]

theorem parseNumber?_boundText {bound : Option Nat} (h : ∀ n ∈ bound, n < numberLimit) :
    parseNumber? (boundText bound) = bound := by
  cases bound with
  | none => decide
  | some n => exact parseNumber?_toString (h n rfl)

theorem heads_boundToken (bound : Option Nat) {rest : List Char}
    (hdigit : rest.head?.any Char.isDigit = false) (hfraction : Lexer.startsFraction rest = false) :
    (boundToken bound).Heads rest := by
  cases bound with
  | none => exact ⟨'*', [], rfl, rfl⟩
  | some n => exact Token.heads_toString n hdigit hfraction

theorem spelling_tokens (cardinality : Cardinality) :
    spelling cardinality.tokens = cardinality.display.toList := by
  rw [tokens, inside, display]
  split <;> simp [spelling, text_boundToken, openingBrace]

theorem tiled_tokens (cardinality : Cardinality) {rest : List Token} (h : Tiled rest) :
    Tiled (cardinality.tokens ++ rest) := by
  have hclosing : Tiled (⟨.rBrace, "\x7d"⟩ :: rest) := ⟨⟨'\x7d', [], rfl, rfl⟩, h⟩
  refine ⟨⟨'\x7b', [], rfl, rfl⟩, ?_⟩
  rw [List.append_eq, inside]
  split
  · exact ⟨heads_boundToken _ rfl rfl, hclosing⟩
  · exact ⟨heads_boundToken _ rfl rfl, ⟨'.', ['.'], rfl, rfl⟩, heads_boundToken _ rfl rfl,
      hclosing⟩

theorem map_parseNumber?_tokens {cardinality : Cardinality}
    (hmin : ∀ n ∈ cardinality.min, n < numberLimit)
    (hmax : ∀ n ∈ cardinality.max, n < numberLimit) :
    (cardinality.tokens.filter fun t => t.kind == .integer || t.kind == .star).map
        (fun t => parseNumber? t.text) =
      if cardinality.min = cardinality.max then [cardinality.min]
      else [cardinality.min, cardinality.max] := by
  have hkept (bound : Option Nat) :
      ((boundToken bound).kind == .integer || (boundToken bound).kind == .star) = true := by
    cases bound <;> rfl
  rw [tokens, inside]
  split <;> simp [openingBrace, hkept, text_boundToken, parseNumber?_boundText hmin,
    parseNumber?_boundText hmax]

theorem tokenize_display (cardinality : Cardinality) :
    tokenize cardinality.display = cardinality.tokens := by
  have htiled : Tiled (cardinality.tokens ++ []) := cardinality.tiled_tokens trivial
  rw [List.append_nil] at htiled
  exact tokenize_eq_iff.mpr ⟨cardinality.spelling_tokens, htiled⟩

/-- In place of what a brace opens a cardinality is cut into its tokens, and the text around it is
cut as before. -/
theorem tokenize_exchange (cardinality : Cardinality) {front written back : List Token}
    (h : Tiled (front ++ openingBrace :: (written ++ back))) {text : String}
    (htext : text.toList = spelling front ++ cardinality.display.toList ++ spelling back) :
    tokenize text = front ++ cardinality.tokens ++ back := by
  have hback : Tiled back := h.append_right.2.append_right
  rw [tokenize_eq_iff, htext, ← spelling_tokens, spelling_append, spelling_append,
    List.append_assoc front]
  exact ⟨rfl, h.beforeBrace rfl (cardinality.tiled_tokens hback)⟩

end Cardinality

end Ili
