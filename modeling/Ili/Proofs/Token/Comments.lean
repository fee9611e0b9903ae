import Ili.Proofs.Token.Endings

/-!
# Where comments end

A block comment ends where it is closed first. There is one exception: the shortest comment of all,
which is opened and closed by the same star, counts as the opening of a documentation comment if
anything behind it can close that one. Then all that stands in between is taken into the comment.
-/

namespace Ili

namespace Lexer

def ClosedAt (chars : List Char) (place : Nat) : Prop :=
  ['*', '/'] <+: chars.drop place

/-- Of the places from this one on, the last two characters are the first that close a comment. -/
structure ClosesFrom (place : Nat) (chars : List Char) : Prop where
  bound : place + 2 ≤ chars.length
  closed : ClosedAt chars (chars.length - 2)
  first : ∀ other, place ≤ other → other + 2 < chars.length → ¬ClosedAt chars other

theorem closedAt_zero_iff {c : Char} {cs : List Char} :
    ClosedAt (c :: cs) 0 ↔ c = '*' ∧ cs.head? = some '/' := by
  cases cs <;> simp [ClosedAt, eq_comm]

theorem closedAt_append (opened body : List Char) (place : Nat) :
    ClosedAt (opened ++ body) (opened.length + place) ↔ ClosedAt body place := by
  rw [ClosedAt, ClosedAt, List.drop_length_add_append]

theorem ClosesFrom.append {body : List Char} (h : ClosesFrom 0 body) (opened : List Char) :
    ClosesFrom opened.length (opened ++ body) where
  bound := by
    have := h.bound
    rw [List.length_append]
    omega
  closed := by
    have hbound := h.bound
    have hplace : (opened ++ body).length - 2 = opened.length + (body.length - 2) := by
      rw [List.length_append]
      omega
    rw [hplace, closedAt_append]
    exact h.closed
  first other hother hlt := by
    obtain ⟨place, rfl⟩ := Nat.exists_eq_add_of_le hother
    rw [closedAt_append]
    rw [List.length_append] at hlt
    exact h.first place (Nat.zero_le _) (by omega)

theorem ClosesFrom.pred {place : Nat} {chars : List Char} (h : ClosesFrom (place + 1) chars)
    (hnot : ¬ClosedAt chars place) : ClosesFrom place chars where
  bound := by
    have := h.bound
    omega
  closed := h.closed
  first other hother hlt := by
    rcases Nat.eq_or_lt_of_le hother with rfl | hlater
    · exact hnot
    · exact h.first other hlater hlt

theorem closesFrom_take {cs : List Char} {n : Nat} (h : close? cs = some n) :
    ClosesFrom 0 (cs.take n) := by
  induction cs generalizing n with
  | nil => cases h
  | cons c cs ih =>
    by_cases hends : c = '*' ∧ cs.head? = some '/'
    · obtain ⟨rfl, hslash⟩ := hends
      obtain ⟨rest, rfl⟩ := List.head?_eq_some_iff.mp hslash
      obtain rfl : n = 2 := (Option.some.inj h).symm
      refine ⟨le_rfl, List.prefix_rfl, fun other _ hlt => ?_⟩
      simp only [List.take_succ_cons, List.take_zero, List.length_cons, List.length_nil] at hlt
      omega
    · rw [close?_cons hends] at h
      obtain ⟨n, hclose, rfl⟩ := Option.map_eq_some_iff.mp h
      have hhead : (cs.take n).head? = cs.head? := by
        have := two_le_close? hclose
        rw [List.head?_take, if_neg (by omega)]
      have hbehind : ClosesFrom 1 (c :: cs.take n) := (ih hclose).append [c]
      refine hbehind.pred fun hclosed => hends ?_
      rwa [closedAt_zero_iff, hhead] at hclosed

end Lexer

namespace Token

/-- The token begins with a comment that is closed by the star that opens it, and goes on. -/
def SwallowsClose (token : Token) : Prop :=
  ['/', '*', '*', '/'] <+: token.text.toList ∧ 4 < token.text.toList.length

variable {token : Token} {rest : List Char}

theorem Heads.munch_comment (h : token.Heads rest)
    (hkind : token.kind = .blockComment ∨ token.kind = .docComment) :
    ∃ cs, token.text.toList = '/' :: cs ∧ Lexer.slash (cs ++ rest) = (token.kind, cs.length) := by
  obtain ⟨kind, text⟩ := token
  obtain ⟨c, cs, htext, hmunch⟩ := h
  simp only at hkind htext hmunch
  unfold Lexer.munch at hmunch
  split at hmunch
  · obtain ⟨rfl, -⟩ := Prod.mk.inj hmunch
    simp at hkind
  · split at hmunch
    · obtain ⟨rfl, -⟩ := Prod.mk.inj hmunch
      have hword :=
        isWord_ofWord (String.ofList (c :: (cs ++ rest).takeWhile Lexer.isWordChar))
      rcases hkind with heq | heq <;> rw [heq] at hword <;> cases hword
    · split at hmunch
      · rcases kind_of_number hmunch with rfl | rfl <;> simp at hkind
      · split at hmunch
        · rcases kind_of_quoted hmunch with rfl | rfl <;> simp at hkind
        · split at hmunch
          · next hslash =>
            subst hslash
            exact ⟨cs, htext, hmunch⟩
          · split at hmunch
            · rcases kind_of_bang hmunch with rfl | rfl | rfl | rfl <;> simp at hkind
            · unfold Lexer.punctuation at hmunch
              split at hmunch <;> (obtain ⟨rfl, -⟩ := Prod.mk.inj hmunch; simp at hkind)

/-- What such a comment looks like: it is closed behind what opens it, or it is the shortest one. -/
theorem Heads.comment_cases (h : token.Heads rest)
    (hkind : token.kind = .blockComment ∨ token.kind = .docComment) :
    token.text.toList = ['/', '*', '*', '/'] ∨
    ∃ opened body, token.text.toList = opened ++ body ∧ Lexer.ClosesFrom 0 body ∧
      (opened = ['/', '*'] ∧ body.head? ≠ some '*' ∨
        opened = ['/', '*', '*'] ∧ body.head? ≠ some '/' ∨
        opened = ['/', '*', '*', '/'] ∧ token.kind = .docComment) := by
  obtain ⟨cs, htext, hslash⟩ := h.munch_comment hkind
  have hcomment : (Lexer.slash (cs ++ rest)).1.isComment = true := by
    rw [hslash]
    rcases hkind with heq | heq <;> rw [heq] <;> rfl
  rw [htext]
  have htaken : cs = (cs ++ rest).take cs.length := (List.take_left' rfl).symm
  rcases Lexer.closed_cases hcomment with ⟨hcs, hshort⟩ | ⟨opened, body, n, hcs, hclose, hcase⟩
  · have hlength : cs.length = 3 := (Prod.mk.inj (hslash.symm.trans hshort)).2
    rw [hcs, hlength] at htaken
    rw [htaken]
    exact .inl rfl
  · have hbody (hlength : cs.length = opened.length + n) :
        '/' :: cs = '/' :: opened ++ body.take n := by
      rw [htaken, hcs, hlength, List.take_length_add_append, List.cons_append]
    have hhead : (body.take n).head? = body.head? := by
      have := Lexer.two_le_close? hclose
      rw [List.head?_take, if_neg (by omega)]
    refine .inr ⟨'/' :: opened, body.take n, ?_, Lexer.closesFrom_take hclose, ?_⟩
    · rcases hcase with ⟨rfl, -, hlong⟩ | ⟨rfl, -, hlong⟩ | ⟨rfl, hlong⟩ <;>
        exact hbody (Prod.mk.inj (hslash.symm.trans hlong)).2
    · rw [hhead]
      rcases hcase with ⟨rfl, hnot, -⟩ | ⟨rfl, hnot, -⟩ | ⟨rfl, hlong⟩
      · exact .inl ⟨rfl, hnot⟩
      · exact .inr (.inl ⟨rfl, hnot⟩)
      · exact .inr (.inr ⟨rfl, (Prod.mk.inj (hslash.symm.trans hlong)).1⟩)

end Token

/-- A comment between stars ends at the first place from its third character on where it is closed,
unless the star that opens it closes it and it goes on. Then it is a documentation comment, and it
ends at the first place behind that. -/
theorem comment_closes {text : String} {token : Token} (hmem : token ∈ tokenize text)
    (hkind : token.kind = .blockComment ∨ token.kind = .docComment) :
    (Lexer.ClosesFrom 2 token.text.toList ↔ ¬token.SwallowsClose) ∧
      (token.SwallowsClose →
        token.kind = .docComment ∧ Lexer.ClosesFrom 4 token.text.toList) := by
  obtain ⟨rest, hheads⟩ := (tiled_tokenize text).heads_of_mem hmem
  rw [Token.SwallowsClose]
  rcases hheads.comment_cases hkind with htext | ⟨opened, body, htext, hcloses, hcase⟩
  · rw [htext]
    refine ⟨iff_of_true ⟨le_rfl, List.prefix_rfl, fun other hother hlt => ?_⟩ fun hlong => ?_,
      fun hlong => absurd hlong.2 (by decide)⟩
    · simp only [List.length_cons, List.length_nil] at hlt
      omega
    · exact absurd hlong.2 (by decide)
  · have hbehind := hcloses.append opened
    obtain ⟨b, behind, rfl⟩ : ∃ b behind, body = b :: behind :=
      List.exists_cons_of_length_pos (by have := hcloses.bound; omega)
    rw [htext]
    rcases hcase with ⟨rfl, hnot⟩ | ⟨rfl, hnot⟩ | ⟨rfl, hdoc⟩
    · have hplain : ¬['/', '*', '*', '/'] <+: ['/', '*'] ++ b :: behind := by
        simp only [List.cons_append, List.nil_append, List.cons_prefix_cons, true_and]
        exact fun hprefix => hnot (congrArg some hprefix.1.symm)
      exact ⟨iff_of_true hbehind fun hlong => hplain hlong.1, fun hlong => absurd hlong.1 hplain⟩
    · have hplain : ¬['/', '*', '*', '/'] <+: ['/', '*', '*'] ++ b :: behind := by
        simp only [List.cons_append, List.nil_append, List.cons_prefix_cons, true_and]
        exact fun hprefix => hnot (congrArg some hprefix.1.symm)
      have hopen : ¬Lexer.ClosedAt (['/', '*', '*'] ++ b :: behind) 2 :=
        fun hclosed => hnot (Lexer.closedAt_zero_iff.mp hclosed).2
      exact ⟨iff_of_true (hbehind.pred hopen) fun hlong => hplain hlong.1,
        fun hlong => absurd hlong.1 hplain⟩
    · have hopened : ['/', '*', '*', '/'] <+: ['/', '*', '*', '/'] ++ b :: behind :=
        List.prefix_append _ _
      have hlong : 4 < (['/', '*', '*', '/'] ++ b :: behind).length := by simp
      have hclosed : Lexer.ClosedAt (['/', '*', '*', '/'] ++ b :: behind) 2 := ⟨b :: behind, rfl⟩
      exact ⟨iff_of_false (fun hfirst => hfirst.first 2 le_rfl hlong hclosed)
        fun hnot => hnot ⟨hopened, hlong⟩, fun _ => ⟨hdoc, hbehind⟩⟩

/-- What stands between the shortest comment and the next close is no code any more. -/
theorem comment_closes_swallowed :
    let token : Token := ⟨.docComment, "/**/ x */"⟩
    token ∈ tokenize "/**/ x */" ∧ token.SwallowsClose ∧
      ¬Lexer.ClosesFrom 2 token.text.toList ∧ Lexer.ClosesFrom 4 token.text.toList := by
  intro token
  have hmem : token ∈ tokenize "/**/ x */" := by decide
  have hswallows : token.SwallowsClose := ⟨by decide, by decide⟩
  obtain ⟨hfirst, hlater⟩ := comment_closes hmem (.inr rfl)
  exact ⟨hmem, hswallows, fun hcloses => hfirst.mp hcloses hswallows, (hlater hswallows).2⟩

end Ili
