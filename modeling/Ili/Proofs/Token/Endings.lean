import Ili.Proofs.Token.Spelling

/-!
# How tokens end

Line feeds stand in blanks and inside comments and nowhere else, and a closed comment ends with a
slash. So no token but a blank or an opened comment ends with a line feed. What an opened comment is
does not depend on the line feeds at its end, as long as it does not close or vanish without them.
-/

namespace Ili

namespace Lexer

theorem of_mem_count {p : Char → Bool} {cs : List Char} {c : Char}
    (h : c ∈ cs.take (count p cs)) : p c = true := by
  have htake : cs.take (count p cs) = cs.takeWhile p :=
    (List.prefix_iff_eq_take.mp (List.takeWhile_prefix p)).symm
  rw [htake] at h
  exact List.mem_takeWhile_imp h

theorem newline_notMem_count {p : Char → Bool} (hp : p '\n' = false) (cs : List Char) :
    '\n' ∉ cs.take (count p cs) := by
  intro hmem
  rw [of_mem_count hmem] at hp
  cases hp

def isNumberChar (c : Char) : Bool :=
  c.isDigit || c == '.' || c == 'e' || c == 'E' || c == '+' || c == '-'

theorem isNumberChar_of_isDigit {c : Char} (h : c.isDigit = true) : isNumberChar c = true := by
  simp [isNumberChar, h]

theorem isNumberChar_of_mem_exponent {cs : List Char} {c : Char}
    (h : c ∈ cs.take (exponent cs)) : isNumberChar c = true := by
  cases cs with
  | nil => simp at h
  | cons e cs =>
    rw [exponent_cons] at h
    split at h
    · next he =>
      rw [Nat.add_assoc, Nat.add_comm, List.take_succ_cons, List.take_add, List.mem_cons,
        List.mem_append] at h
      rcases h with rfl | hsign | hdigit
      · rcases he.1 with rfl | rfl <;> rfl
      · rw [signLength] at hsign
        split at hsign
        · next hhead =>
          cases cs with
          | nil => simp at hsign
          | cons sign cs =>
            obtain rfl : c = sign := by simpa using hsign
            simp only [List.head?_cons, Option.some.injEq] at hhead
            rcases hhead with rfl | rfl <;> rfl
        · simp at hsign
      · exact isNumberChar_of_isDigit (of_mem_count hdigit)
    · simp at h

theorem isNumberChar_of_mem_number {cs : List Char} {c : Char}
    (h : c ∈ cs.take (number cs).2) : isNumberChar c = true := by
  rw [number_eq] at h
  split at h
  · next hpoint =>
    simp only [Nat.add_assoc, List.take_add (i := count Char.isDigit cs), List.mem_append] at h
    rcases h with hwhole | hbehind
    · exact isNumberChar_of_isDigit (of_mem_count hwhole)
    · cases hrest : cs.drop (count Char.isDigit cs) with
      | nil => simp [hrest] at hbehind
      | cons point behind =>
        obtain rfl : point = '.' := by
          rw [hrest] at hpoint
          unfold startsFraction at hpoint
          split at hpoint
          · next heq => exact (List.cons.inj heq).1
          · cases hpoint
        rw [hrest, Nat.add_comm 1, List.take_succ_cons, List.mem_cons, List.tail_cons,
          List.take_add, List.mem_append] at hbehind
        rcases hbehind with rfl | hfraction | hexponent
        · rfl
        · exact isNumberChar_of_isDigit (of_mem_count hfraction)
        · exact isNumberChar_of_mem_exponent hexponent
  · exact isNumberChar_of_isDigit (of_mem_count h)

theorem newline_notMem_stringBody (cs : List Char) : '\n' ∉ cs.take (stringBody cs) := by
  match cs with
  | [] => simp
  | [c] =>
    by_cases hc : c = '\n'
    · subst hc
      simp [stringBody]
    · intro hmem
      exact hc (List.mem_singleton.mp (List.mem_of_mem_take hmem)).symm
  | c :: d :: cs =>
    by_cases hc : c = '\\'
    · subst hc
      have hrest := newline_notMem_stringBody cs
      rw [stringBody_escape]
      split
      · simp
      · next hd =>
        rw [Nat.add_comm, List.take_succ_cons, List.take_succ_cons]
        simp [hrest, Ne.symm hd]
    · have hrest := newline_notMem_stringBody (d :: cs)
      rw [stringBody_cons hc]
      split
      · simp
      · next hstop =>
        rw [Nat.add_comm, List.take_succ_cons, List.mem_cons, not_or]
        exact ⟨fun heq => hstop (.inr heq.symm), hrest⟩

theorem newline_notMem_quoted (cs : List Char) : '\n' ∉ cs.take (quoted cs).2 := by
  have hbody := newline_notMem_stringBody cs
  simp only [quoted]
  split
  · next hquote =>
    obtain ⟨tail, htail⟩ := List.head?_eq_some_iff.mp hquote
    rw [List.take_add, htail, List.mem_append]
    rintro (hmem | hmem)
    · exact hbody hmem
    · simp at hmem
  · exact hbody

theorem newline_notMem_bang (cs : List Char) : '\n' ∉ cs.take (bang cs).2 := by
  have hline := newline_notMem_count (p := (· != '\n')) rfl
  unfold bang
  split
  · next rest => simpa [Nat.add_comm 2] using hline rest
  · next rest _ => simpa [Nat.add_comm 1] using hline rest
  · simp
  · simp

theorem getLast?_close (cs : List Char) {n : Nat} (h : close? cs = some n) :
    (cs.take n).getLast? = some '/' := by
  match cs with
  | [] => cases h
  | c :: cs =>
    by_cases hends : c = '*' ∧ cs.head? = some '/'
    · obtain ⟨rfl, hslash⟩ := hends
      obtain ⟨tail, rfl⟩ := List.head?_eq_some_iff.mp hslash
      obtain rfl := Option.some.inj h
      rfl
    · rw [close?_cons hends, Option.map_eq_some_iff] at h
      obtain ⟨m, hm, rfl⟩ := h
      have hlast := getLast?_close cs hm
      rw [List.take_succ_cons, List.getLast?_cons, hlast]
      rfl

theorem getLast?_closed (opened body : List Char) {n : Nat}
    (h : close? body = some n) :
    ((opened ++ body).take (opened.length + n)).getLast? = some '/' := by
  rw [List.take_length_add_append, List.getLast?_append, getLast?_close body h]
  rfl

theorem closed_cases {cs : List Char} (h : (slash cs).1.isComment = true) :
    cs = ['*', '*', '/'] ∧ slash cs = (.blockComment, 3) ∨
    ∃ opened body n, cs = opened ++ body ∧ close? body = some n ∧
      (opened = ['*'] ∧ body.head? ≠ some '*' ∧ slash cs = (.blockComment, 1 + n) ∨
        opened = ['*', '*'] ∧ body.head? ≠ some '/' ∧ slash cs = (.docComment, 2 + n) ∨
        opened = ['*', '*', '/'] ∧ slash cs = (.docComment, 3 + n)) := by
  rcases cs with - | ⟨c, cs⟩
  · cases h
  by_cases hc : c = '*'
  · subst hc
    rcases cs with - | ⟨b, cs⟩
    · cases h
    by_cases hb : b = '*'
    · subst hb
      rcases cs with - | ⟨d, cs⟩
      · cases h
      by_cases hd : d = '/'
      · subst hd
        rcases cs with - | ⟨e, cs⟩
        · exact .inl ⟨rfl, rfl⟩
        rw [slash_doc] at h ⊢
        cases hclose : close? (e :: cs) with
        | none => rw [hclose] at h; cases h
        | some n => exact .inr ⟨['*', '*', '/'], _, n, rfl, hclose, .inr (.inr ⟨rfl, rfl⟩)⟩
      · rw [slash_stars hd] at h ⊢
        cases hclose : close? (d :: cs) with
        | none =>
          rw [hclose] at h
          simp only at h
          split at h <;> cases h
        | some n =>
          exact .inr ⟨['*', '*'], _, n, rfl, hclose, .inr (.inl ⟨rfl, by simpa using hd, rfl⟩)⟩
    · rw [slash_star hb] at h ⊢
      cases hclose : close? (b :: cs) with
      | none => rw [hclose] at h; cases h
      | some n => exact .inr ⟨['*'], _, n, rfl, hclose, .inl ⟨rfl, by simpa using hb, rfl⟩⟩
  · rw [slash_of_ne (by simpa using hc)] at h
    cases h

theorem getLast?_comment (cs : List Char) (h : (slash cs).1.isComment = true) :
    (cs.take (slash cs).2).getLast? = some '/' := by
  rcases closed_cases h with ⟨rfl, hslash⟩ | ⟨opened, body, n, rfl, hclose, hcase⟩
  · rfl
  · rcases hcase with ⟨rfl, -, hslash⟩ | ⟨rfl, -, hslash⟩ | ⟨rfl, hslash⟩
    · rw [hslash]
      exact getLast?_closed ['*'] body hclose
    · rw [hslash]
      exact getLast?_closed ['*', '*'] body hclose
    · rw [hslash]
      exact getLast?_closed ['*', '*', '/'] body hclose

theorem newline_notMem_punctuation {c : Char} (cs : List Char) :
    '\n' ∉ cs.take (punctuation c cs).2 := by
  unfold punctuation
  split <;> simp

theorem kind_of_not_closed {kind found unclosed : Kind} {closed : Option Nat}
    {opened length whole : Nat} (hkind : kind.isComment = false) (hfound : found.isComment = true)
    (h : (match closed with
      | some n => (found, opened + n)
      | none => (unclosed, whole)) = (kind, length)) : closed = none ∧ kind = unclosed := by
  cases closed with
  | none => exact ⟨rfl, (Prod.mk.inj h).1.symm⟩
  | some n =>
    obtain ⟨rfl, -⟩ := Prod.mk.inj h
    rw [hfound] at hkind
    cases hkind

theorem opened_cases {cs : List Char} {kind : Kind} (hkind : kind.isComment = false) (hcs : cs ≠ [])
    (h : slash cs = (kind, cs.length)) :
    ∃ opened b body, cs = opened ++ b :: body ∧ close? (b :: body) = none ∧
      (opened = ['*'] ∧ b ≠ '*' ∧ kind = .error ∨
        opened = ['*', '*'] ∧ b ≠ '/' ∧
          kind = (if hasOneStarRun (b :: body) then .slash else .error) ∨
        opened = ['*', '*', '/'] ∧ kind = .error) := by
  obtain ⟨c, cs, rfl⟩ := List.exists_cons_of_ne_nil hcs
  by_cases hc : c = '*'
  · subst hc
    rcases cs with - | ⟨b, cs⟩
    · cases h
    by_cases hb : b = '*'
    · subst hb
      rcases cs with - | ⟨d, cs⟩
      · cases h
      by_cases hd : d = '/'
      · subst hd
        rcases cs with - | ⟨e, cs⟩
        · obtain ⟨rfl, -⟩ := Prod.mk.inj h
          cases hkind
        rw [slash_doc] at h
        obtain ⟨hclose, rfl⟩ := kind_of_not_closed hkind rfl h
        exact ⟨['*', '*', '/'], e, cs, rfl, hclose, .inr (.inr ⟨rfl, rfl⟩)⟩
      · rw [slash_stars hd] at h
        obtain ⟨hclose, rfl⟩ := kind_of_not_closed hkind rfl h
        exact ⟨['*', '*'], d, cs, rfl, hclose, .inr (.inl ⟨rfl, hd, rfl⟩)⟩
    · rw [slash_star hb] at h
      obtain ⟨hclose, rfl⟩ := kind_of_not_closed hkind rfl h
      exact ⟨['*'], b, cs, rfl, hclose, .inl ⟨rfl, hb, rfl⟩⟩
  · rw [slash_of_ne (by simpa using hc)] at h
    cases h

theorem close?_concat (cs : List Char) : close? (cs ++ ['\n']) = close? cs := by
  match cs with
  | [] => rfl
  | c :: cs =>
    have hrest := close?_concat cs
    by_cases hends : c = '*' ∧ cs.head? = some '/'
    · obtain ⟨rfl, hslash⟩ := hends
      obtain ⟨tail, rfl⟩ := List.head?_eq_some_iff.mp hslash
      rfl
    · have hends' : ¬(c = '*' ∧ (cs ++ ['\n']).head? = some '/') := by
        cases cs with
        | nil => simp
        | cons d cs => exact hends
      rw [List.cons_append, close?_cons hends', close?_cons hends, hrest]

theorem hasOneStarRun_concat (cs : List Char) :
    hasOneStarRun (cs ++ ['\n']) = hasOneStarRun cs := by
  simp only [hasOneStarRun, List.dropWhile_append]
  by_cases hstar : (cs.dropWhile (· != '*')).isEmpty = true
  · rw [if_pos hstar, List.isEmpty_iff.mp hstar]
    rfl
  · rw [if_neg hstar, List.dropWhile_append]
    split
    · next hrun =>
      rw [List.isEmpty_iff.mp hrun]
      rfl
    · rw [List.all_append]
      exact Bool.and_true _

end Lexer

namespace Token

variable {token : Token} {rest : List Char}

theorem Heads.isNumberChar (h : token.Heads rest) (hkind : token.kind = .decimal) :
    ∀ c ∈ token.text.toList, Lexer.isNumberChar c = true := by
  obtain ⟨d, ds, hchars, hbegin⟩ := h.mayBegin
  obtain ⟨c, cs, htext, hmunch⟩ := h
  rw [hchars] at htext
  obtain ⟨rfl, rfl⟩ := List.cons.inj htext
  rw [hkind] at hbegin
  rw [munch_of_digit hbegin] at hmunch
  rw [hchars]
  intro c hc
  rcases List.mem_cons.mp hc with rfl | hc
  · exact Lexer.isNumberChar_of_isDigit hbegin
  · have hnumber : c ∈ (ds ++ rest).take (Lexer.number (ds ++ rest)).2 := by
      rw [hmunch, List.take_left' rfl]
      exact hc
    exact Lexer.isNumberChar_of_mem_number hnumber

/-- Only blanks and opened comments can end with a line feed. -/
theorem Heads.getLast?_ne_newline (h : token.Heads rest) (hkind : token.kind ≠ .whitespace)
    (hopen : token.isOpenComment = false) : token.text.toList.getLast? ≠ some '\n' := by
  have hfirst := h.head_not_blank hkind []
  obtain ⟨kind, text⟩ := token
  obtain ⟨c, cs, htext, hmunch⟩ := h
  have hcs : (cs ++ rest).take cs.length = cs := List.take_left' rfl
  simp only [htext] at hmunch hfirst ⊢
  have hc : c ≠ '\n' := by
    rintro rfl
    cases hfirst
  have hline {found : Kind × Nat} (hfound : found = (kind, cs.length))
      (hnot : '\n' ∉ (cs ++ rest).take found.2) : (c :: cs).getLast? ≠ some '\n' := by
    rw [hfound, hcs] at hnot
    intro hlast
    rcases List.mem_cons.mp (List.mem_of_getLast? hlast) with heq | hmem
    · exact hc heq.symm
    · exact hnot hmem
  unfold Lexer.munch at hmunch
  split at hmunch
  · exact absurd (Prod.mk.inj hmunch).1.symm hkind
  · split at hmunch
    · exact hline hmunch (Lexer.newline_notMem_count rfl _)
    · split at hmunch
      · exact hline hmunch fun hmem => nomatch Lexer.isNumberChar_of_mem_number hmem
      · split at hmunch
        · exact hline hmunch (Lexer.newline_notMem_quoted _)
        · split at hmunch
          · next hslash =>
            subst hslash
            by_cases hnil : cs = []
            · rw [hnil]
              decide
            · have hcomment : kind.isComment = true := by
                have hopens := (opensComment_iff htext).mpr ⟨rfl, hnil⟩
                simpa [isOpenComment, hopens, Kind.isTrivia, hkind] using hopen
              have hlast := Lexer.getLast?_comment (cs ++ rest) (by rw [hmunch]; exact hcomment)
              rw [hmunch, hcs] at hlast
              rw [List.getLast?_cons, hlast]
              decide
          · split at hmunch
            · exact hline hmunch (Lexer.newline_notMem_bang _)
            · exact hline hmunch (Lexer.newline_notMem_punctuation _)

end Token

end Ili
