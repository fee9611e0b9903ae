import Ili.Layout.Render
import Ili.Proofs.Token.Endings
import Mathlib.Data.List.DropRight

/-!
# The end of a layout

Ending a text concerns the line feeds at its end. They belong to no token, except that a comment
which is never closed takes them in; such a comment ends as the options say and is still the same
token, unless nothing but its opening is left.
-/

namespace Ili.Layout

def ended (options : LayoutOptions) (chars : List Char) : List Char :=
  let chars := if options.trimFinalNewlines then chars.rdropWhile (· == '\n') else chars
  if options.insertFinalNewline && !(chars.getLast? == some '\n') then chars ++ ['\n'] else chars

variable (options : LayoutOptions)

theorem toList_finish (text : String) :
    (finish options text).toList = ended options text.toList := by
  simp only [finish, ended]
  split <;> split <;> simp_all [List.rdropWhile]

theorem rdropWhile_append {p : Char → Bool} {front : List Char}
    (h : ∀ c ∈ front.getLast?, p c = false) (back : List Char) :
    (front ++ back).rdropWhile p = front ++ back.rdropWhile p := by
  induction back using List.reverseRecOn with
  | nil =>
    rw [List.append_nil, List.rdropWhile_nil, List.append_nil, List.rdropWhile_eq_self_iff]
    intro hne
    rw [Bool.not_eq_true]
    exact h _ (List.getLast?_eq_getLast_of_ne_nil hne)
  | append_singleton back c ih =>
    rw [← List.append_assoc, List.rdropWhile_concat, List.rdropWhile_concat, ih]
    split <;> simp

theorem ended_append {front : List Char} (h : front.getLast? ≠ some '\n') (back : List Char) :
    ended options (front ++ back) = front ++ ended options back := by
  have htrim : (front ++ back).rdropWhile (· == '\n') = front ++ back.rdropWhile (· == '\n') := by
    apply rdropWhile_append
    intro c hc
    rw [beq_eq_false_iff_ne]
    rintro rfl
    exact h hc
  have hlast (back : List Char) :
      ((front ++ back).getLast? == some '\n') = (back.getLast? == some '\n') := by
    cases hback : back.getLast? with
    | none =>
      rw [List.getLast?_eq_none_iff.mp hback, List.append_nil, beq_eq_false_iff_ne.mpr h]
      rfl
    | some c => rw [List.getLast?_append, hback, Option.some_or]
  simp only [ended, htrim]
  split <;> (rw [hlast]; split <;> simp)

theorem ended_nil : ended options [] = if options.insertFinalNewline then ['\n'] else [] := by
  simp [ended]

theorem ended_ended (chars : List Char) :
    ended options (ended options chars) = ended options chars := by
  have hconcat (chars : List Char) :
      (chars ++ ['\n']).rdropWhile (· == '\n') = chars.rdropWhile (· == '\n') :=
    List.rdropWhile_concat_pos _ _ _ rfl
  have htwice (chars : List Char) :
      (chars.rdropWhile (· == '\n')).rdropWhile (· == '\n') = chars.rdropWhile (· == '\n') :=
    List.rdropWhile_idempotent _ _
  by_cases htrim : options.trimFinalNewlines = true
  · simp only [ended, if_pos htrim]
    split
    · next hinsert => rw [hconcat, htwice, if_pos hinsert]
    · next hinsert => rw [htwice, if_neg hinsert]
  · simp only [ended, if_neg htrim]
    split
    · rw [if_neg (by simp)]
    · rfl

theorem ended_congr {α : Type} {g : List Char → α} (hg : ∀ chars, g (chars ++ ['\n']) = g chars)
    (chars : List Char) : g (ended options chars) = g chars := by
  have htrim : g (chars.rdropWhile (· == '\n')) = g chars := by
    induction chars using List.reverseRecOn with
    | nil => rfl
    | append_singleton chars c ih =>
      rw [List.rdropWhile_concat]
      split
      · next hc => rw [ih, eq_of_beq hc, hg]
      · rfl
  simp only [ended]
  split <;> split <;> simp only [hg, htrim]

theorem head?_ended (chars : List Char) {c : Char} (h : c ∈ (ended options chars).head?) :
    c = '\n' ∨ c ∈ chars.head? := by
  have htrimmed : (if options.trimFinalNewlines then chars.rdropWhile (· == '\n') else chars) <+:
      chars := by
    split
    · exact List.rdropWhile_prefix _ _
    · exact List.prefix_rfl
  simp only [ended] at h
  revert h htrimmed
  generalize (if options.trimFinalNewlines then chars.rdropWhile (· == '\n') else chars) = trimmed
  rintro h ⟨tail, rfl⟩
  cases trimmed with
  | nil =>
    left
    split at h
    · exact (Option.some.inj h).symm
    · cases h
  | cons d trimmed =>
    right
    split at h <;> exact h

end Ili.Layout

namespace Ili.Token

open Layout

variable {options : LayoutOptions} {token : Token}

/-- What an opened comment becomes at the end of a text. Nothing else changes. -/
def finish (options : LayoutOptions) (token : Token) : Token :=
  if token.isOpenComment then token.rewrite (Layout.finish options) else token

/-- At the end of the text an opened comment would be lost. -/
def closesUp (options : LayoutOptions) (token : Token) : Bool :=
  token.isOpenComment && ["/*", "/**", "/**/"].contains (Layout.finish options token.text)

/-- What begins as an opened comment is one, if what stands behind its opening begins alike and is
not closed either. -/
theorem heads_finish {kind : Kind} {text : String} {opened body : List Char} {b : Char}
    (htext : text.toList = ('/' :: opened) ++ b :: body)
    (hopened : ('/' :: opened).getLast? ≠ some '\n')
    (hne : (Layout.finish options text).toList ≠ '/' :: opened)
    (hslash : ∀ d tail, d = '\n' ∨ d = b →
      Lexer.close? (d :: tail) = Lexer.close? (b :: body) →
      Lexer.hasOneStarRun (d :: tail) = Lexer.hasOneStarRun (b :: body) →
        Lexer.slash (opened ++ d :: tail) = (kind, (opened ++ d :: tail).length)) :
    Heads ⟨kind, Layout.finish options text⟩ [] := by
  have hended := ended_append options hopened (b :: body)
  have hclose := ended_congr options Lexer.close?_concat (b :: body)
  have hstars := ended_congr options Lexer.hasOneStarRun_concat (b :: body)
  rw [toList_finish, htext, hended] at hne
  refine ⟨'/', opened ++ ended options (b :: body), ?_, ?_⟩
  · rw [toList_finish, htext, hended]
    rfl
  · cases htail : ended options (b :: body) with
    | nil => rw [htail, List.append_nil] at hne; exact absurd rfl hne
    | cons d tail =>
      rw [htail] at hclose hstars
      have hhead : d ∈ (ended options (b :: body)).head? := by
        rw [htail]
        rfl
      have hd : d = '\n' ∨ d = b :=
        (head?_ended options _ hhead).imp id fun hb => (Option.some.inj hb).symm
      rw [List.append_nil]
      exact hslash d tail hd hclose hstars

theorem Heads.finish (h : token.Heads []) (hopen : token.isOpenComment = true)
    (hends : token.closesUp options = false) : (token.finish options).Heads [] := by
  obtain ⟨kind, text⟩ := token
  rw [Token.finish, if_pos hopen]
  simp only [closesUp, hopen, Bool.true_and] at hends
  obtain ⟨c, cs, htext, hmunch⟩ := h
  simp only at htext hmunch
  simp only [isOpenComment, Bool.and_eq_true, Bool.not_eq_true'] at hopen
  obtain ⟨rfl, hcs⟩ := (opensComment_iff htext).mp hopen.2
  have hslash : Lexer.slash cs = (kind, cs.length) := by rwa [List.append_nil] at hmunch
  have hcomment : kind.isComment = false := by
    rw [← Bool.not_eq_true]
    intro hcomment
    simp [Kind.isTrivia, hcomment] at hopen
  have hne (left : String) (hleft : left ∈ ["/*", "/**", "/**/"]) :
      (Layout.finish options text).toList ≠ left.toList := by
    intro heq
    rw [String.toList_inj.mp heq] at hends
    rw [List.contains_iff_mem.mpr hleft] at hends
    cases hends
  obtain ⟨opened, b, body, rfl, hclose, hcase⟩ := Lexer.opened_cases hcomment hcs hslash
  rcases hcase with ⟨rfl, hb, rfl⟩ | ⟨rfl, hb, rfl⟩ | ⟨rfl, rfl⟩
  · refine heads_finish htext (by decide) (hne "/*" (by decide)) ?_
    intro d tail hd hclose' _
    have hd' : d ≠ '*' := by rcases hd with rfl | rfl <;> [decide; exact hb]
    have hopened := Lexer.slash_star hd' tail
    rw [hclose', hclose] at hopened
    exact hopened
  · refine heads_finish htext (by decide) (hne "/**" (by decide)) ?_
    intro d tail hd hclose' hstars
    have hd' : d ≠ '/' := by rcases hd with rfl | rfl <;> [decide; exact hb]
    have hopened := Lexer.slash_stars hd' tail
    rw [hclose', hclose, hstars] at hopened
    exact hopened
  · refine heads_finish htext (by decide) (hne "/**/" (by decide)) ?_
    intro d tail _ hclose' _
    have hopened := Lexer.slash_doc d tail
    rw [hclose', hclose] at hopened
    exact hopened

end Ili.Token
