import Ili.Proofs.Token.Cut

/-!
# When a token ends where it ends

What is cut off from a text depends on what stands behind it only in so far as that could continue
it. A token that is moved in front of another text is still cut off there, unless what follows
continues it.
-/

namespace Ili

namespace Lexer

variable {cs rest next : List Char}

def startsFraction : List Char → Bool
  | '.' :: rest => rest.head?.any Char.isDigit
  | _ => false

theorem count_eq_length_iff {p : Char → Bool} :
    count p (cs ++ rest) = cs.length ↔ (∀ c ∈ cs, p c = true) ∧ rest.head?.any p = false := by
  constructor
  · intro h
    have htake := takeWhile_of_count h
    have hall : ∀ c ∈ cs, p c = true := by
      intro c hc
      rw [← htake] at hc
      exact List.mem_takeWhile_imp hc
    refine ⟨hall, ?_⟩
    cases rest with
    | nil => rfl
    | cons d rest =>
      rw [List.takeWhile_append_of_pos hall, List.takeWhile_cons] at htake
      split at htake
      · simp at htake
      · next hd => simpa using hd
  · rintro ⟨hall, hrest⟩
    have hnone : rest.takeWhile p = [] := by
      cases rest with
      | nil => rfl
      | cons d rest => simpa using hrest
    rw [count, List.takeWhile_append_of_pos hall, hnone, List.append_nil]

theorem count_append {p : Char → Bool} (h : count p (cs ++ rest) = cs.length)
    (hnext : next.head?.any p = false) : count p (cs ++ next) = cs.length :=
  count_eq_length_iff.mpr ⟨(count_eq_length_iff.mp h).1, hnext⟩

def continuesNumber (next : List Char) : Bool :=
  next.head?.any fun c => c.isDigit || c == 'e' || c == 'E'

theorem isDigit_of_continuesNumber (h : continuesNumber next = false) :
    next.head?.any Char.isDigit = false := by
  cases next with
  | nil => rfl
  | cons d next => simp_all [continuesNumber]

def signLength (cs : List Char) : Nat :=
  if cs.head? = some '+' ∨ cs.head? = some '-' then 1 else 0

theorem exponent_cons (e : Char) (cs : List Char) :
    exponent (e :: cs) =
      if (e = 'e' ∨ e = 'E') ∧ count Char.isDigit (cs.drop (signLength cs)) ≠ 0 then
        1 + signLength cs + count Char.isDigit (cs.drop (signLength cs))
      else 0 := by
  rw [exponent]
  by_cases he : e = 'e' ∨ e = 'E'
  · rw [if_pos he]
    have hsign : (if cs.head? = some '+' ∨ cs.head? = some '-' then 1 else 0) = signLength cs := rfl
    simp only [hsign]
    cases hdigits : count Char.isDigit (cs.drop (signLength cs)) with
    | zero =>
      rw [if_neg fun h => h.2 rfl]
      rfl
    | succ digits =>
      rw [if_pos ⟨he, Nat.succ_ne_zero digits⟩]
      rfl
  · rw [if_neg he, if_neg fun h => he h.1]

theorem exponent_append {es : List Char} (h : exponent (es ++ rest) = es.length)
    (hnext : continuesNumber next = false) : exponent (es ++ next) = es.length := by
  cases es with
  | nil =>
    cases next with
    | nil => rfl
    | cons d next =>
      have hd : ¬(d = 'e' ∨ d = 'E') := by
        rintro (rfl | rfl) <;> simp [continuesNumber] at hnext
      rw [List.nil_append, exponent_cons, if_neg fun h => hd h.1]
      rfl
  | cons e es =>
    rw [List.cons_append, exponent_cons, List.length_cons] at h ⊢
    split at h
    · next he =>
      have hne : es ≠ [] := by
        rintro rfl
        simp only [List.length_nil] at h
        omega
      have hsign (other : List Char) : signLength (es ++ other) = signLength es := by
        cases es with
        | nil => exact absurd rfl hne
        | cons c es => rfl
      have hle : signLength es ≤ es.length := by
        have hpos := List.length_pos_iff.mpr hne
        rw [signLength]
        split <;> omega
      have hdrop (other : List Char) :
          (es ++ other).drop (signLength es) = es.drop (signLength es) ++ other :=
        List.drop_append_of_le_length hle
      rw [hsign, hdrop] at h he
      have hcount : count Char.isDigit (es.drop (signLength es) ++ rest) =
          (es.drop (signLength es)).length := by
        rw [List.length_drop]
        omega
      have hcount' := count_append hcount (isDigit_of_continuesNumber hnext)
      rw [hsign, hdrop, hcount', if_pos ⟨he.1, by rw [← hcount]; exact he.2⟩, List.length_drop]
      omega
    · omega

theorem number_eq (cs : List Char) :
    number cs =
      if startsFraction (cs.drop (count Char.isDigit cs)) then
        let behind := (cs.drop (count Char.isDigit cs)).tail
        (.decimal, count Char.isDigit cs + 1 + count Char.isDigit behind +
          exponent (behind.drop (count Char.isDigit behind)))
      else (.integer, count Char.isDigit cs) := by
  have hdigits (rest : List Char) :
      rest.head?.any Char.isDigit = false ↔ count Char.isDigit rest = 0 := by
    have hiff : count Char.isDigit ([] ++ rest) = ([] : List Char).length ↔ _ :=
      count_eq_length_iff
    simpa using hiff.symm
  simp only [number]
  split
  · next rest hrest =>
    rw [hrest]
    simp only [startsFraction, List.tail_cons]
    split
    · next hzero => rw [(hdigits rest).mpr hzero, if_neg Bool.false_ne_true]
    · next hzero =>
      have htrue : rest.head?.any Char.isDigit = true := by
        rw [← Bool.not_eq_false, hdigits]
        exact hzero
      rw [if_pos htrue]
  · next hnot =>
    have hfalse : startsFraction (cs.drop (count Char.isDigit cs)) = false := by
      unfold startsFraction
      split
      · next rest hrest => exact absurd hrest (hnot rest)
      · rfl
    rw [hfalse, if_neg Bool.false_ne_true]

theorem count_of_all {p : Char → Bool} {front : List Char} (h : ∀ c ∈ front, p c = true)
    (hrest : rest.head?.any p = false) : count p (front ++ rest) = front.length :=
  count_eq_length_iff.mpr ⟨h, hrest⟩

theorem integer_append (h : number (cs ++ rest) = (.integer, cs.length))
    (hdigit : next.head?.any Char.isDigit = false) (hfraction : startsFraction next = false) :
    number (cs ++ next) = (.integer, cs.length) := by
  rw [number_eq] at h ⊢
  split at h
  · simp at h
  · have hcount := count_append (congrArg Prod.snd h) hdigit
    rw [hcount, List.drop_left' rfl, hfraction, if_neg Bool.false_ne_true]

theorem head?_dropWhile_any (p : Char → Bool) (chars : List Char) :
    (chars.dropWhile p).head?.any p = false := by
  induction chars with
  | nil => rfl
  | cons c cs ih =>
    rw [List.dropWhile_cons]
    split
    · exact ih
    · next hc => simpa using hc

theorem exists_digits (chars : List Char) :
    ∃ digits behind, chars = digits ++ behind ∧ (∀ c ∈ digits, c.isDigit = true) ∧
      behind.head?.any Char.isDigit = false ∧ count Char.isDigit chars = digits.length :=
  ⟨chars.takeWhile Char.isDigit, chars.dropWhile Char.isDigit,
    List.takeWhile_append_dropWhile.symm, fun _ => List.mem_takeWhile_imp,
    head?_dropWhile_any Char.isDigit chars, rfl⟩

theorem number_of_parts {whole fraction after : List Char} (hwhole : ∀ c ∈ whole, c.isDigit = true)
    (hfraction : ∀ c ∈ fraction, c.isDigit = true) (hne : fraction ≠ [])
    (hafter : after.head?.any Char.isDigit = false) :
    number (whole ++ '.' :: (fraction ++ after)) =
      (.decimal, whole.length + 1 + fraction.length + exponent after) := by
  have hstarts : startsFraction ('.' :: (fraction ++ after)) = true := by
    cases fraction with
    | nil => exact absurd rfl hne
    | cons c fraction => exact hfraction c List.mem_cons_self
  have hpoint : ('.' :: (fraction ++ after)).head?.any Char.isDigit = false := rfl
  rw [number_eq, count_of_all hwhole hpoint, List.drop_left' rfl, if_pos hstarts]
  simp only [List.tail_cons, count_of_all hfraction hafter, List.drop_left' rfl]

theorem decimal_append (h : number (cs ++ rest) = (.decimal, cs.length))
    (hnext : continuesNumber next = false) : number (cs ++ next) = (.decimal, cs.length) := by
  have hdigit := isDigit_of_continuesNumber hnext
  obtain ⟨whole, point, hcs, hwhole, hpoint, hcount⟩ := exists_digits (cs ++ rest)
  rw [number_eq, hcount, hcs, List.drop_left' rfl] at h
  split at h
  · next hstarts =>
    obtain ⟨behind, rfl⟩ : ∃ behind, point = '.' :: behind := by
      unfold startsFraction at hstarts
      split at hstarts
      · exact ⟨_, rfl⟩
      · cases hstarts
    obtain ⟨fraction, after, rfl, hfraction, hafter, hcount'⟩ := exists_digits behind
    simp only [List.tail_cons, hcount', List.drop_left' rfl, Prod.mk.injEq, true_and] at h
    have hexponent := exponent_le_length after
    obtain ⟨es, back, rfl, hes⟩ : ∃ es back, after = es ++ back ∧ es.length = exponent after :=
      ⟨after.take (exponent after), after.drop (exponent after), (List.take_append_drop _ _).symm,
        List.length_take_of_le hexponent⟩
    have hprefix : cs ++ rest = (whole ++ '.' :: (fraction ++ es)) ++ back := by
      rw [hcs]
      simp
    obtain ⟨rfl, rfl⟩ := List.append_inj hprefix (by
      simp only [List.length_append, List.length_cons]
      omega)
    have hne : fraction ≠ [] := by
      rintro rfl
      rw [List.nil_append] at hstarts
      rw [startsFraction, hafter] at hstarts
      cases hstarts
    have hafter' : (es ++ next).head?.any Char.isDigit = false := by
      cases es with
      | nil => exact hdigit
      | cons e es => exact hafter
    have hexponent' := exponent_append hes.symm hnext
    have hlength : (whole ++ '.' :: (fraction ++ es)).length =
        whole.length + 1 + fraction.length + exponent (es ++ next) := by
      simp only [List.length_append, List.length_cons]
      omega
    rw [hlength, ← number_of_parts hwhole hfraction hne hafter']
    simp
  · simp at h

theorem stringBody_escape (c : Char) (cs : List Char) :
    stringBody ('\\' :: c :: cs) = if c = '\n' then 0 else 2 + stringBody cs :=
  rfl

theorem stringBody_cons {c : Char} (h : c ≠ '\\') (cs : List Char) :
    stringBody (c :: cs) = if c = '"' ∨ c = '\n' then 0 else 1 + stringBody cs := by
  rw [stringBody.eq_def]
  split
  · next heq => cases heq
  · next heq => exact absurd (List.cons.inj heq).1 h
  · next heq =>
    obtain ⟨rfl, rfl⟩ := List.cons.inj heq
    simp [h]

theorem stringBody_append (cs rest : List Char) {next : List Char}
    (h : stringBody (cs ++ rest) = cs.length) (hnext : stringBody next = 0) :
    stringBody (cs ++ next) = cs.length := by
  match cs with
  | [] => exact hnext
  | [c] =>
    by_cases hc : c = '\\'
    · subst hc
      cases rest with
      | nil => simp [stringBody] at h
      | cons d rest =>
        rw [List.singleton_append, stringBody_escape, List.length_singleton] at h
        split at h <;> omega
    · rw [List.singleton_append, stringBody_cons hc, List.length_singleton] at h ⊢
      split at h
      · omega
      · next hstop => rw [if_neg hstop, hnext]
  | c :: d :: others =>
    by_cases hc : c = '\\'
    · subst hc
      rw [List.cons_append, List.cons_append, stringBody_escape, List.length_cons,
        List.length_cons] at h ⊢
      split at h
      · omega
      · next hstop =>
        rw [if_neg hstop, stringBody_append others rest (by omega) hnext]
        omega
    · rw [List.cons_append, stringBody_cons hc, List.length_cons] at h ⊢
      split at h
      · omega
      · next hstop =>
        rw [if_neg hstop, stringBody_append (d :: others) rest (by omega) hnext]
        omega

theorem stringBody_rest (cs : List Char) (h : stringBody (cs ++ rest) = cs.length) :
    stringBody rest = 0 := by
  match cs with
  | [] => exact h
  | [c] =>
    by_cases hc : c = '\\'
    · subst hc
      cases rest with
      | nil => rfl
      | cons d rest =>
        rw [List.singleton_append, stringBody_escape, List.length_singleton] at h
        split at h <;> omega
    · rw [List.singleton_append, stringBody_cons hc, List.length_singleton] at h
      split at h <;> omega
  | c :: d :: others =>
    by_cases hc : c = '\\'
    · subst hc
      rw [List.cons_append, List.cons_append, stringBody_escape, List.length_cons,
        List.length_cons] at h
      split at h
      · omega
      · exact stringBody_rest others (by omega)
    · rw [List.cons_append, stringBody_cons hc, List.length_cons] at h
      split at h
      · omega
      · exact stringBody_rest (d :: others) (by omega)

theorem two_le_close? {n : Nat} (h : close? cs = some n) : 2 ≤ n := by
  fun_induction close? cs generalizing n <;> simp_all
  grind

theorem close?_cons {c : Char} (h : ¬(c = '*' ∧ cs.head? = some '/')) :
    close? (c :: cs) = (close? cs).map (· + 1) := by
  rw [close?.eq_def]
  split
  · next heq =>
    obtain ⟨rfl, rfl⟩ := List.cons.inj heq
    exact absurd ⟨rfl, rfl⟩ h
  · next heq =>
    obtain ⟨rfl, rfl⟩ := List.cons.inj heq
    rfl
  · next heq => cases heq

theorem close?_append (cs rest next : List Char) (h : close? (cs ++ rest) = some cs.length) :
    close? (cs ++ next) = some cs.length := by
  match cs with
  | [] => exact absurd (two_le_close? h) (by decide)
  | [c] =>
    rw [List.singleton_append, List.length_singleton] at h
    by_cases hends : c = '*' ∧ rest.head? = some '/'
    · obtain ⟨rfl, hslash⟩ := hends
      obtain ⟨rest', rfl⟩ := List.head?_eq_some_iff.mp hslash
      simp [close?] at h
    · rw [close?_cons hends, Option.map_eq_some_iff] at h
      obtain ⟨n, hn, hone⟩ := h
      have := two_le_close? hn
      omega
  | c :: d :: others =>
    by_cases hends : c = '*' ∧ d = '/'
    · obtain ⟨rfl, rfl⟩ := hends
      have htwo : some 2 = some (others.length + 2) := h
      simp only [Option.some.injEq] at htwo
      exact congrArg some (by simp only [List.length_cons]; omega)
    · have hnot (other : List Char) : ¬(c = '*' ∧ (d :: others ++ other).head? = some '/') :=
        fun hboth => hends ⟨hboth.1, Option.some.inj hboth.2⟩
      rw [List.cons_append, close?_cons (hnot _), Option.map_eq_some_iff] at h
      obtain ⟨n, hn, hlength⟩ := h
      have hn' : close? (d :: others ++ rest) = some (d :: others).length := by
        rw [hn]
        exact congrArg some (Nat.succ.inj hlength)
      rw [List.cons_append, close?_cons (hnot _), close?_append (d :: others) rest next hn']
      rfl

theorem quoted_append (h : quoted (cs ++ rest) = (.string, cs.length)) :
    quoted (cs ++ next) = (.string, cs.length) := by
  simp only [quoted] at h
  split at h
  · next hquote =>
    have hlength : stringBody (cs ++ rest) + 1 = cs.length := congrArg Prod.snd h
    obtain ⟨body, x, rfl⟩ : ∃ body x, cs = body ++ [x] := by
      rcases List.eq_nil_or_concat cs with rfl | ⟨body, x, rfl⟩
      · simp at hlength
      · exact ⟨body, x, List.concat_eq_append⟩
    rw [List.append_assoc, List.singleton_append, List.length_append,
      List.length_singleton] at hlength
    rw [List.append_assoc, List.singleton_append, List.drop_left' (by omega)] at hquote
    obtain rfl : x = '"' := Option.some.inj hquote
    have hbody : stringBody (body ++ '"' :: next) = body.length :=
      stringBody_append body ('"' :: rest) (by omega) rfl
    simp only [quoted, List.append_assoc, List.singleton_append, hbody, List.drop_left' rfl,
      List.head?_cons, if_true, List.length_append, List.length_singleton]
  · cases h

theorem unclosed_append (h : quoted (cs ++ rest) = (.error, cs.length))
    (hnext : next.head?.any (· != '\n') = false) : quoted (cs ++ next) = (.error, cs.length) := by
  have hbody : stringBody (cs ++ rest) = cs.length := by
    simp only [quoted] at h
    split at h
    · cases h
    · exact congrArg Prod.snd h
  have hstop : stringBody next = 0 ∧ ¬next.head? = some '"' := by
    cases next with
    | nil => exact ⟨rfl, by simp⟩
    | cons d next =>
      obtain rfl : d = '\n' := by simpa using hnext
      exact ⟨rfl, by simp⟩
  simp only [quoted, stringBody_append cs rest hbody hstop.1, List.drop_left' rfl, if_neg hstop.2]

theorem slash_of_ne (h : cs.head? ≠ some '*') : slash cs = (.slash, 0) := by
  unfold slash
  split <;> simp_all

theorem slash_doc (b : Char) (body : List Char) :
    slash ('*' :: '*' :: '/' :: b :: body) =
      match close? (b :: body) with
      | some n => (.docComment, 3 + n)
      | none => (.error, body.length + 4) :=
  rfl

theorem slash_stars {b : Char} (h : b ≠ '/') (body : List Char) :
    slash ('*' :: '*' :: b :: body) =
      match close? (b :: body) with
      | some n => (.docComment, 2 + n)
      | none => (if hasOneStarRun (b :: body) then .slash else .error, body.length + 3) := by
  rw [slash.eq_def]
  split
  · next heq => simp at heq
  · next heq => simp at heq
  · next heq => simp [h] at heq
  · next heq => simp [h] at heq
  · next heq =>
    obtain rfl : _ = b :: body := by simpa using heq.symm
    rfl
  · next hnot heq => exact absurd (List.cons.inj heq).2.symm (hnot _)
  · next hnot => exact absurd rfl (hnot _)

theorem slash_star {b : Char} (h : b ≠ '*') (body : List Char) :
    slash ('*' :: b :: body) =
      match close? (b :: body) with
      | some n => (.blockComment, 1 + n)
      | none => (.error, body.length + 2) := by
  rw [slash.eq_def]
  split
  · next heq => simp at heq
  · next heq => simp [h] at heq
  · next heq => simp [h] at heq
  · next heq => simp [h] at heq
  · next heq => simp [h] at heq
  · next heq =>
    obtain rfl : _ = b :: body := (List.cons.inj heq).2.symm
    rfl
  · next hnot => exact absurd rfl (hnot _)

/-- What starts with a slash: a slash alone, a comment, or an opened comment that takes all. -/
theorem slash_cases (cs : List Char) :
    slash cs = (.slash, 0) ∨ (slash cs).1.isComment = true ∧ 3 ≤ (slash cs).2 ∨
      ((slash cs).1 = .slash ∨ (slash cs).1 = .error) ∧ (slash cs).2 = cs.length := by
  match cs with
  | [] => exact .inl rfl
  | c :: cs =>
    by_cases hc : c = '*'
    · subst hc
      match cs with
      | [] => exact .inl rfl
      | b :: cs =>
        by_cases hb : b = '*'
        · subst hb
          match cs with
          | [] => exact .inl rfl
          | d :: cs =>
            by_cases hd : d = '/'
            · subst hd
              match cs with
              | [] => exact .inr (.inl ⟨rfl, Nat.le_refl 3⟩)
              | e :: cs =>
                rw [slash_doc]
                cases close? (e :: cs) with
                | none => exact .inr (.inr ⟨.inr rfl, rfl⟩)
                | some n => exact .inr (.inl ⟨rfl, Nat.le_add_right 3 n⟩)
            · rw [slash_stars hd]
              cases hclose : close? (d :: cs) with
              | none => exact .inr (.inr ⟨by simp only; split <;> simp, rfl⟩)
              | some n =>
                have := two_le_close? hclose
                exact .inr (.inl ⟨rfl, by simp only; omega⟩)
        · rw [slash_star hb]
          cases hclose : close? (b :: cs) with
          | none => exact .inr (.inr ⟨.inr rfl, rfl⟩)
          | some n =>
            have := two_le_close? hclose
            exact .inr (.inl ⟨rfl, by simp only; omega⟩)
    · rw [slash_of_ne (by simpa using hc)]
      exact .inl rfl

theorem closed_append (body : List Char) {opened length : Nat} {found kind : Kind}
    {other other' : Kind × Nat} (hkind : kind.isComment = true) (hother : other.1.isComment = false)
    (hlength : length = opened + body.length)
    (h : (match close? (body ++ rest) with
      | some n => (found, opened + n)
      | none => other) = (kind, length)) :
    (match close? (body ++ next) with
      | some n => (found, opened + n)
      | none => other') = (kind, length) := by
  split at h
  · next n hn =>
    obtain ⟨rfl, hn'⟩ := Prod.mk.inj h
    obtain rfl : n = body.length := by omega
    rw [close?_append body rest next hn]
    exact h
  · rw [h, hkind] at hother
    cases hother

theorem nothing_behind_block {kind : Kind}
    (h : slash (['*', '*', '/'] ++ rest) = (kind, 3)) : rest = [] := by
  cases rest with
  | nil => rfl
  | cons e rest =>
    have hlonger : slash ('*' :: '*' :: '/' :: e :: rest) = (kind, 3) := h
    rw [slash_doc] at hlonger
    split at hlonger
    · next n hn =>
      have := two_le_close? hn
      simp only [Prod.mk.injEq] at hlonger
      omega
    · simp at hlonger

theorem comment_append {kind : Kind} (hkind : kind.isComment = true)
    (h : slash (cs ++ rest) = (kind, cs.length)) (hnext : cs = ['*', '*', '/'] → next = []) :
    slash (cs ++ next) = (kind, cs.length) := by
  have hslash : kind ≠ .slash := by
    rintro rfl
    cases hkind
  have hlength : 3 ≤ cs.length := by
    rcases slash_cases (cs ++ rest) with hcase | ⟨-, hcase⟩ | ⟨hcase, -⟩
    · rw [hcase] at h
      exact absurd (congrArg Prod.fst h).symm hslash
    · rwa [h] at hcase
    · rw [h] at hcase
      rcases hcase with rfl | rfl <;> cases hkind
  match cs with
  | c :: b :: d :: cs =>
    by_cases hc : c = '*'
    · subst hc
      by_cases hb : b = '*'
      · subst hb
        by_cases hd : d = '/'
        · subst hd
          match cs with
          | [] =>
            obtain rfl := nothing_behind_block h
            rw [hnext rfl]
            exact h
          | e :: cs =>
            simp only [List.cons_append] at h ⊢
            rw [slash_doc] at h ⊢
            exact closed_append (e :: cs) hkind rfl (by simp only [List.length_cons]; omega) h
        · simp only [List.cons_append] at h ⊢
          rw [slash_stars hd] at h ⊢
          refine closed_append (d :: cs) hkind ?_ (by simp only [List.length_cons]; omega) h
          simp only
          split <;> rfl
      · simp only [List.cons_append] at h ⊢
        rw [slash_star hb] at h ⊢
        exact closed_append (b :: d :: cs) hkind rfl (by simp only [List.length_cons]; omega) h
    · rw [List.cons_append, slash_of_ne (by simpa using hc)] at h
      exact absurd (congrArg Prod.fst h).symm hslash

theorem open_of_slash {kind : Kind} (hkind : kind.isComment = false) (hcs : cs ≠ [])
    (h : slash (cs ++ rest) = (kind, cs.length)) : rest = [] := by
  rcases slash_cases (cs ++ rest) with hslash | ⟨hslash, -⟩ | ⟨-, hslash⟩
  · rw [hslash] at h
    exact absurd (List.length_eq_zero_iff.mp (congrArg Prod.snd h).symm) hcs
  · rw [h, hkind] at hslash
    cases hslash
  · rw [h, List.length_append] at hslash
    exact List.length_eq_zero_iff.mp (by simp only at hslash; omega)

theorem bang_of_ne (hbang : cs.head? ≠ some '!') (heq : cs.head? ≠ some '=') :
    bang cs = (.error, 0) := by
  unfold bang
  split <;> simp_all

theorem bang_line (h : cs.head? ≠ some '@') :
    bang ('!' :: cs) = (.lineComment, 1 + count (· != '\n') cs) := by
  rw [bang.eq_def]
  split
  · next heq =>
    obtain rfl := (List.cons.inj heq).2
    exact absurd rfl h
  · next heq =>
    obtain rfl := (List.cons.inj heq).2
    rfl
  · next heq => cases heq
  · next hnot _ => exact absurd rfl (hnot cs)

theorem bang_append {kind : Kind} (h : bang (cs ++ rest) = (kind, cs.length))
    (hline : kind.isComment = true → next.head?.any (· != '\n') = false)
    (hmark : kind = .error → next.head?.any (fun c => c == '!' || c == '=') = false) :
    bang (cs ++ next) = (kind, cs.length) := by
  match cs with
  | [] =>
    have hnone : kind = .error := by
      simp only [List.nil_append, List.length_nil, bang] at h
      split at h <;> simp_all
    have hnext := hmark hnone
    rw [hnone]
    change bang next = (.error, 0)
    apply bang_of_ne <;> intro hhead <;> simp [hhead] at hnext
  | c :: cs =>
    by_cases hc : c = '!'
    · subst hc
      rw [List.cons_append] at h ⊢
      by_cases hat : (cs ++ rest).head? = some '@'
      · obtain ⟨tail, htail⟩ := List.head?_eq_some_iff.mp hat
        have hmeta : bang ('!' :: (cs ++ rest)) =
            (.metaComment, 2 + count (· != '\n') tail) := by
          rw [htail]
          rfl
        rw [hmeta] at h
        obtain ⟨rfl, hlength⟩ := Prod.mk.inj h
        cases cs with
        | nil =>
          rw [List.length_singleton] at hlength
          omega
        | cons d cs =>
          obtain rfl : d = '@' := (List.cons.inj htail).1
          have htail' : cs ++ rest = tail := (List.cons.inj htail).2
          rw [← htail'] at hlength
          have hcount : count (· != '\n') (cs ++ rest) = cs.length := by
            simp only [List.length_cons] at hlength
            omega
          rw [← hlength, hcount, ← count_append hcount (hline rfl)]
          rfl
      · rw [bang_line hat] at h
        obtain ⟨rfl, hlength⟩ := Prod.mk.inj h
        have hcount : count (· != '\n') (cs ++ rest) = cs.length := by
          simp only [List.length_cons] at hlength
          omega
        have hat' : (cs ++ next).head? ≠ some '@' := by
          cases cs with
          | nil =>
            intro hhead
            have hnext := hline rfl
            simp only [List.nil_append] at hhead
            simp [hhead] at hnext
          | cons d cs => exact hat
        rw [bang_line hat', count_append hcount (hline rfl), List.length_cons, Nat.add_comm]
    · by_cases heq : c = '='
      · subst heq
        exact h
      · rw [List.cons_append, bang_of_ne (by simpa using hc) (by simpa using heq)] at h
        simp at h

def continuesMinus : List Char → Bool
  | '-' :: _ | '>' :: _ | '<' :: '>' :: _ | '<' :: '#' :: '>' :: _ => true
  | _ => false

def continuesPunctuation (c : Char) (next : List Char) : Bool :=
  match c with
  | '-' => continuesMinus next
  | '.' => next.head? == some '.'
  | '<' => next.head?.any fun d => d == '>' || d == '='
  | '=' | '>' | ':' => next.head? == some '='
  | _ => false

theorem punctuation_of_ne {c : Char} (h : c ∉ ['-', '.', '=', '<', '>', ':']) (cs : List Char) :
    punctuation c cs = punctuation c [] := by
  unfold punctuation
  split <;> simp_all

theorem punctuation_alone {c : Char} (h : continuesPunctuation c cs = false) :
    punctuation c cs = punctuation c [] := by
  by_cases hc : c ∈ ['-', '.', '=', '<', '>', ':']
  · simp only [List.mem_cons, List.not_mem_nil, or_false] at hc
    rcases hc with rfl | rfl | rfl | rfl | rfl | rfl <;>
      (rw [punctuation.eq_def]
       split <;> simp_all [continuesPunctuation, continuesMinus, punctuation])
  · exact punctuation_of_ne hc cs

theorem punctuation_more {c : Char} (h : continuesPunctuation c cs = true) :
    0 < (punctuation c cs).2 ∧ (punctuation c cs).1 ≠ (punctuation c []).1 := by
  have hhead {d : Char} (hd : (cs.head? == some d) = true) : ∃ x, cs = d :: x :=
    List.head?_eq_some_iff.mp (beq_iff_eq.mp hd)
  unfold continuesPunctuation at h
  split at h
  · unfold continuesMinus at h
    split at h <;> simp_all [punctuation]
  · obtain ⟨x, rfl⟩ := hhead h
    exact ⟨Nat.one_pos, nofun⟩
  · cases cs with
    | nil => cases h
    | cons d cs =>
      simp only [List.head?_cons, Option.any_some, Bool.or_eq_true, beq_iff_eq] at h
      rcases h with rfl | rfl <;> exact ⟨Nat.one_pos, nofun⟩
  · obtain ⟨x, rfl⟩ := hhead h
    exact ⟨Nat.one_pos, nofun⟩
  · obtain ⟨x, rfl⟩ := hhead h
    exact ⟨Nat.one_pos, nofun⟩
  · obtain ⟨x, rfl⟩ := hhead h
    exact ⟨Nat.one_pos, nofun⟩
  · cases h

theorem punctuation_long {kind : Kind} {c : Char} (hne : cs ≠ [])
    (h : punctuation c (cs ++ rest) = (kind, cs.length)) :
    punctuation c (cs ++ next) = (kind, cs.length) := by
  have hpos := List.length_pos_iff.mpr hne
  have hcs : cs = (cs ++ rest).take cs.length := (List.take_left' rfl).symm
  unfold punctuation at h
  split at h <;> obtain ⟨rfl, hlength⟩ := Prod.mk.inj h
  all_goals first
    | omega
    | next heq =>
      rw [heq, ← hlength] at hcs
      rw [hcs]
      rfl

theorem isAlpha_of_munch {c : Char} (cs : List Char)
    (h : ((munch c cs).1 == .ident || (munch c cs).1.isKeyword) = true) : c.isAlpha = true := by
  have hpunctuation :
      ((punctuation c cs).1 == .ident || (punctuation c cs).1.isKeyword) = false := by
    unfold punctuation
    split <;> rfl
  unfold munch at h
  split at h
  · cases h
  · split at h
    · next halpha => exact halpha
    · exfalso
      split at h
      · rw [number_eq] at h
        split at h <;> cases h
      · split at h
        · simp only [quoted] at h
          split at h <;> cases h
        · split at h
          · rcases slash_cases cs with hcase | ⟨hcase, -⟩ | ⟨hcase | hcase, -⟩
            · rw [hcase] at h
              cases h
            · revert hcase h
              cases (slash cs).1 <;> decide
            · rw [hcase] at h
              cases h
            · rw [hcase] at h
              cases h
          · split at h
            · unfold bang at h
              split at h <;> cases h
            · rw [hpunctuation] at h
              cases h

end Lexer

/-- With these characters behind it the token would be read on. -/
def Token.continuedBy (token : Token) (next : List Char) : Bool :=
  match token.kind with
  | .whitespace => next.head?.any Lexer.isBlank
  | .lineComment | .metaComment => next.head?.any (· != '\n')
  | .blockComment => token.text == "/**/" && !next.isEmpty
  | .integer => next.head?.any Char.isDigit || Lexer.startsFraction next
  | .decimal => Lexer.continuesNumber next
  | .slash => if token.text == "/" then next.head? == some '*' else !next.isEmpty
  | .error =>
    match token.text.toList with
    | '"' :: _ => next.head?.any (· != '\n')
    | '/' :: _ => !next.isEmpty
    | '!' :: _ => next.head?.any fun c => c == '!' || c == '='
    | _ => false
  | .minus => Lexer.continuesPunctuation '-' next
  | .dot => Lexer.continuesPunctuation '.' next
  | .lt => Lexer.continuesPunctuation '<' next
  | .eq => Lexer.continuesPunctuation '=' next
  | .gt => Lexer.continuesPunctuation '>' next
  | .colon => Lexer.continuesPunctuation ':' next
  | kind => (kind == .ident || kind.isKeyword) && next.head?.any Lexer.isWordChar

namespace Token

theorem continuedBy_of_word {token : Token}
    (h : (token.kind == .ident || token.kind.isKeyword) = true)
    (next : List Char) : token.continuedBy next = next.head?.any Lexer.isWordChar := by
  unfold continuedBy
  split <;> first
    | next heq => rw [heq] at h; cases h
    | rw [h, Bool.true_and]

theorem isWord_ofWord (word : String) :
    (Kind.ofWord word == .ident || (Kind.ofWord word).isKeyword) = true := by
  have hkeywords : ∀ entry ∈ Kind.keywords, entry.2.isKeyword = true := by decide
  rw [Kind.ofWord]
  cases hlookup : Kind.keywords.lookup word with
  | none => rfl
  | some kind =>
    obtain ⟨before, after, hentries, -⟩ := List.lookup_eq_some_iff.mp hlookup
    simp [hkeywords (word, kind) (by simp [hentries])]

theorem kind_of_number {cs : List Char} {kind : Kind} {n : Nat} (h : Lexer.number cs = (kind, n)) :
    kind = .integer ∨ kind = .decimal := by
  rw [Lexer.number_eq] at h
  split at h
  · exact .inr (Prod.mk.inj h).1.symm
  · exact .inl (Prod.mk.inj h).1.symm

theorem kind_of_quoted {cs : List Char} {kind : Kind} {n : Nat} (h : Lexer.quoted cs = (kind, n)) :
    kind = .string ∨ kind = .error := by
  simp only [Lexer.quoted] at h
  split at h
  · exact .inl (Prod.mk.inj h).1.symm
  · exact .inr (Prod.mk.inj h).1.symm

theorem kind_of_bang {cs : List Char} {kind : Kind} {n : Nat} (h : Lexer.bang cs = (kind, n)) :
    kind = .lineComment ∨ kind = .metaComment ∨ kind = .bangEq ∨ kind = .error := by
  unfold Lexer.bang at h
  split at h <;> simp [← (Prod.mk.inj h).1]

theorem slash_append {kind : Kind} {text : String} {cs rest next : List Char}
    (htext : text.toList = '/' :: cs) (h : Lexer.slash (cs ++ rest) = (kind, cs.length))
    (hnext : continuedBy ⟨kind, text⟩ next = false) :
    Lexer.slash (cs ++ next) = (kind, cs.length) := by
  by_cases hcomment : kind.isComment = true
  · refine Lexer.comment_append hcomment h ?_
    rintro rfl
    have hblock : kind = .blockComment := by
      obtain rfl := Lexer.nothing_behind_block h
      exact (Prod.mk.inj h).1.symm
    have hspelled : text = "/**/" := String.toList_inj.mp htext
    subst hblock hspelled
    simpa [continuedBy] using hnext
  · have hkinds : kind = .slash ∨ kind = .error := by
      rcases Lexer.slash_cases (cs ++ rest) with hcase | ⟨hcase, -⟩ | ⟨hcase, -⟩
      · exact .inl (congrArg Prod.fst (h.symm.trans hcase))
      · rw [h] at hcase
        exact absurd hcase hcomment
      · rwa [h] at hcase
    by_cases hcs : cs = []
    · subst hcs
      have hslash : kind = .slash := by
        rcases Lexer.slash_cases ([] ++ rest) with hcase | ⟨-, hcase⟩ | ⟨-, hcase⟩
        · exact congrArg Prod.fst (h.symm.trans hcase)
        · rw [h] at hcase
          simp at hcase
        · rw [h] at hcase
          obtain rfl := List.length_eq_zero_iff.mp hcase.symm
          exact (Prod.mk.inj h).1.symm
      have hspelled : text = "/" := String.toList_inj.mp htext
      subst hslash hspelled
      exact Lexer.slash_of_ne (by simpa [continuedBy] using hnext)
    · have hrest := Lexer.open_of_slash (Bool.eq_false_iff.mpr hcomment) hcs h
      have hspelled : text ≠ "/" := by
        rintro rfl
        exact hcs (List.cons.inj htext).2.symm
      have hnil : next = [] := by
        rcases hkinds with rfl | rfl
        · simpa [continuedBy, hspelled] using hnext
        · simpa [continuedBy, htext] using hnext
      rw [hnil, ← hrest]
      exact h

theorem mark_append {kind : Kind} {text : String} {c : Char} {rest next : List Char}
    (h : Lexer.punctuation c ([] ++ rest) = (kind, ([] : List Char).length))
    (hnext : continuedBy ⟨kind, text⟩ next = false) :
    Lexer.punctuation c ([] ++ next) = (kind, ([] : List Char).length) := by
  have hnone : Lexer.continuesPunctuation c rest = false := by
    rw [← Bool.not_eq_true]
    intro hmore
    have hpos := (Lexer.punctuation_more hmore).1
    rw [List.nil_append] at h
    rw [h] at hpos
    exact Nat.lt_irrefl 0 hpos
  rw [List.nil_append, Lexer.punctuation_alone hnone] at h
  have hnext' : Lexer.continuesPunctuation c next = false := by
    by_cases hc : c ∈ ['-', '.', '=', '<', '>', ':']
    · simp only [List.mem_cons, List.not_mem_nil, or_false] at hc
      obtain rfl := (congrArg Prod.fst h)
      rcases hc with rfl | rfl | rfl | rfl | rfl | rfl <;> exact hnext
    · unfold Lexer.continuesPunctuation
      split <;> simp_all
  rw [List.nil_append, Lexer.punctuation_alone hnext', h]

/-- A token is cut off in front of whatever does not continue it. -/
theorem Heads.append {token : Token} {rest next : List Char} (h : token.Heads rest)
    (hnext : token.continuedBy next = false) : token.Heads next := by
  obtain ⟨kind, text⟩ := token
  obtain ⟨c, cs, htext, hmunch⟩ := h
  refine ⟨c, cs, htext, ?_⟩
  simp only at htext hmunch ⊢
  -- The cases of `munch` in turn: what is cut stays the same as long as nothing continues it.
  unfold Lexer.munch at hmunch ⊢
  split at hmunch
  · next hblank =>
    obtain ⟨rfl, hlength⟩ := Prod.mk.inj hmunch
    rw [if_pos hblank, Lexer.count_append hlength hnext]
  · next hblank =>
    rw [if_neg hblank]
    split at hmunch
    · next halpha =>
      obtain ⟨rfl, hlength⟩ := Prod.mk.inj hmunch
      have hword := (continuedBy_of_word (isWord_ofWord _) next).symm.trans hnext
      have hcount := Lexer.count_append hlength hword
      rw [if_pos halpha, Lexer.takeWhile_of_count hlength, Lexer.takeWhile_of_count hcount]
    · next halpha =>
      rw [if_neg halpha]
      split at hmunch
      · next hdigit =>
        rw [if_pos hdigit]
        rcases kind_of_number hmunch with rfl | rfl
        · obtain ⟨hdigit, hfraction⟩ := (Bool.or_eq_false_iff).mp hnext
          exact Lexer.integer_append hmunch hdigit hfraction
        · exact Lexer.decimal_append hmunch hnext
      · next hdigit =>
        rw [if_neg hdigit]
        split at hmunch
        · next hquote =>
          subst hquote
          rw [if_pos rfl]
          rcases kind_of_quoted hmunch with rfl | rfl
          · exact Lexer.quoted_append hmunch
          · apply Lexer.unclosed_append hmunch
            simpa only [continuedBy, htext] using hnext
        · next hquote =>
          rw [if_neg hquote]
          split at hmunch
          · next hslash =>
            subst hslash
            rw [if_pos rfl]
            exact slash_append htext hmunch hnext
          · next hslash =>
            rw [if_neg hslash]
            split at hmunch
            · next hbang =>
              subst hbang
              rw [if_pos rfl]
              apply Lexer.bang_append hmunch
              · intro hcomment
                rcases kind_of_bang hmunch with rfl | rfl | rfl | rfl
                · exact hnext
                · exact hnext
                · cases hcomment
                · cases hcomment
              · rintro rfl
                simpa only [continuedBy, htext] using hnext
            · next hbang =>
              rw [if_neg hbang]
              by_cases hcs : cs = []
              · subst hcs
                exact mark_append hmunch hnext
              · exact Lexer.punctuation_long hcs hmunch

theorem Heads.head_of_whitespace {token : Token} {rest : List Char} (h : token.Heads rest)
    (hkind : token.kind = .whitespace) : rest.head?.any Lexer.isBlank = false := by
  obtain ⟨c, cs, -, hmunch⟩ := h
  have hblank : Lexer.isBlank c = true :=
    Lexer.munch_eq_whitespace_iff.mp ((congrArg Prod.fst hmunch).trans hkind)
  have hlength : Lexer.count Lexer.isBlank (cs ++ rest) = cs.length := by
    simpa [Lexer.munch, hblank] using congrArg Prod.snd hmunch
  exact (Lexer.count_eq_length_iff.mp hlength).2

theorem Heads.head_of_word {token : Token} {rest : List Char} (h : token.Heads rest)
    (hword : (token.kind == .ident || token.kind.isKeyword) = true) :
    token.text.toList.head?.any Char.isAlpha = true ∧
      rest.head?.any Lexer.isWordChar = false := by
  obtain ⟨c, cs, htext, hmunch⟩ := h
  have halpha : c.isAlpha = true := by
    apply Lexer.isAlpha_of_munch (cs ++ rest)
    rw [hmunch]
    exact hword
  have hblank : ¬Lexer.isBlank c = true := by
    intro hblank
    have hkind : token.kind = .whitespace :=
      (congrArg Prod.fst hmunch).symm.trans (Lexer.munch_eq_whitespace_iff.mpr hblank)
    rw [hkind] at hword
    cases hword
  have hlength : Lexer.count Lexer.isWordChar (cs ++ rest) = cs.length := by
    rw [Lexer.munch, if_neg hblank, if_pos halpha] at hmunch
    exact congrArg Prod.snd hmunch
  refine ⟨?_, (Lexer.count_eq_length_iff.mp hlength).2⟩
  rw [htext]
  exact halpha

end Token

end Ili
