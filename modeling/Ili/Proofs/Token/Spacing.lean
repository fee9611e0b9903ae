import Ili.Proofs.Grammar.Bare
import Ili.Proofs.Token.Spelling

/-!
# Tokens and the blanks between them

In a tiled row blanks stand in runs of their own. A row of that form is determined by its tokens
other than blanks and by what it spells.
-/

namespace Ili

/-- Tokens begin with a blank just when they are blanks, and a run of blanks is not followed by
another one. -/
def Spaced : List Token → Prop
  | [] => True
  | token :: rest =>
    (∃ c cs, token.text.toList = c :: cs ∧ (token.kind = .whitespace ↔ Lexer.isBlank c = true)) ∧
      (token.kind = .whitespace → (∀ c ∈ token.text.toList, Lexer.isBlank c = true) ∧
        (spelling rest).head?.any Lexer.isBlank = false) ∧
      Spaced rest

theorem Token.Heads.begins {token : Token} {rest : List Char} (h : token.Heads rest) :
    ∃ c cs, token.text.toList = c :: cs ∧
      (token.kind = .whitespace ↔ Lexer.isBlank c = true) := by
  obtain ⟨c, cs, htext, hmunch⟩ := h
  refine ⟨c, cs, htext, ?_⟩
  have hkind : (Lexer.munch c (cs ++ rest)).1 = token.kind := congrArg Prod.fst hmunch
  rw [← hkind]
  exact Lexer.munch_eq_whitespace_iff

theorem Tiled.spaced {tokens : List Token} (h : Tiled tokens) : Spaced tokens := by
  induction tokens with
  | nil => trivial
  | cons token rest ih =>
    exact ⟨h.1.begins, fun hkind => ⟨h.1.isBlank hkind, h.1.head_of_whitespace hkind⟩, ih h.2⟩

theorem Kind.isDropped_isComment (kind : Kind) :
    kind.isDropped Kind.isComment = (kind == .whitespace) := by
  rw [isDropped, isTrivia]
  cases hkind : kind == .whitespace
  · simp
  · rw [eq_of_beq hkind]
    rfl

theorem solidTokens_cons (token : Token) (rest : List Token) :
    solidTokens Kind.isComment (token :: rest) =
      if token.kind = .whitespace then solidTokens Kind.isComment rest
      else token :: solidTokens Kind.isComment rest := by
  simp only [solidTokens, Kind.isDropped_isComment, List.filter_cons]
  by_cases hkind : token.kind = .whitespace <;> simp [hkind]

theorem takeWhile_isBlank {front back : List Char} (h : ∀ c ∈ front, Lexer.isBlank c = true)
    (hback : back.head?.any Lexer.isBlank = false) :
    (front ++ back).takeWhile Lexer.isBlank = front := by
  rw [List.takeWhile_append_of_pos h]
  cases back with
  | nil => rw [List.takeWhile_nil, List.append_nil]
  | cons c back =>
    have hc : ¬Lexer.isBlank c = true := by simpa using hback
    rw [List.takeWhile_cons_of_neg hc, List.append_nil]

theorem eq_of_spaced {tokens others : List Token} (h : Spaced tokens) (hother : Spaced others)
    (hspelling : spelling tokens = spelling others)
    (hsolid : solidTokens Kind.isComment tokens = solidTokens Kind.isComment others) :
    tokens = others := by
  induction tokens generalizing others with
  | nil =>
    cases others with
    | nil => rfl
    | cons other others =>
      obtain ⟨⟨c, cs, htext, -⟩, -⟩ := hother
      rw [spelling_cons, htext] at hspelling
      cases hspelling
  | cons token rest ih =>
    obtain ⟨⟨c, cs, htext, hblank⟩, hrun, hrest⟩ := h
    cases others with
    | nil =>
      rw [spelling_cons, htext] at hspelling
      cases hspelling
    | cons other others =>
      obtain ⟨⟨d, ds, htext', hblank'⟩, hrun', hothers⟩ := hother
      rw [spelling_cons, spelling_cons] at hspelling
      have hfirst : c = d := by
        rw [htext, htext'] at hspelling
        exact (List.cons.inj hspelling).1
      have hkind : token.kind = .whitespace ↔ other.kind = .whitespace := by
        rw [hblank, hblank', hfirst]
      rw [solidTokens_cons, solidTokens_cons] at hsolid
      have hsame : token = other ∧
          solidTokens Kind.isComment rest = solidTokens Kind.isComment others := by
        by_cases hwhite : token.kind = .whitespace
        · have hwhite' := hkind.mp hwhite
          rw [if_pos hwhite, if_pos hwhite'] at hsolid
          -- No token behind begins with a blank, so the spelling says how long the run is.
          have htexts := congrArg (List.takeWhile Lexer.isBlank) hspelling
          rw [takeWhile_isBlank (hrun hwhite).1 (hrun hwhite).2,
            takeWhile_isBlank (hrun' hwhite').1 (hrun' hwhite').2] at htexts
          obtain ⟨kind, text⟩ := token
          obtain ⟨kind', text'⟩ := other
          obtain rfl : kind = kind' := hwhite.trans hwhite'.symm
          obtain rfl := String.toList_inj.mp htexts
          exact ⟨rfl, hsolid⟩
        · rw [if_neg hwhite, if_neg fun hwhite' => hwhite (hkind.mpr hwhite')] at hsolid
          exact ⟨(List.cons.inj hsolid).1, (List.cons.inj hsolid).2⟩
      obtain ⟨rfl, hsame⟩ := hsame
      rw [ih hrest hothers (List.append_cancel_left hspelling) hsame]

end Ili
