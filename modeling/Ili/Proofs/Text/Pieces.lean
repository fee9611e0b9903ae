import Ili.Text.Blank

/-!
# Cutting what was joined

Pieces that were joined by a separator are found again by cutting there, provided that none of them
holds one.
-/

namespace Ili

section Pieces

variable {p : Char → Bool} {separator : Char} {piece : List Char}

theorem splitWhere_of_none (h : ∀ c ∈ piece, p c = false) : splitWhere p piece = [piece] := by
  induction piece with
  | nil => rfl
  | cons c cs ih =>
    have hc : ¬p c = true := Bool.eq_false_iff.mp (h c List.mem_cons_self)
    rw [splitWhere, if_neg hc, ih fun other hother => h other (List.mem_cons_of_mem c hother)]

theorem splitWhere_append (h : ∀ c ∈ piece, p c = false) (hseparator : p separator = true)
    (rest : List Char) :
    splitWhere p (piece ++ separator :: rest) = piece :: splitWhere p rest := by
  induction piece with
  | nil => rw [List.nil_append, splitWhere, if_pos hseparator]
  | cons c cs ih =>
    have hc : ¬p c = true := Bool.eq_false_iff.mp (h c List.mem_cons_self)
    rw [List.cons_append, splitWhere, if_neg hc,
      ih fun other hother => h other (List.mem_cons_of_mem c hother)]

theorem splitWhere_intercalate {pieces : List (List Char)} (hne : pieces ≠ [])
    (h : ∀ piece ∈ pieces, ∀ c ∈ piece, p c = false) (hseparator : p separator = true) :
    splitWhere p ([separator].intercalate pieces) = pieces := by
  induction pieces with
  | nil => exact absurd rfl hne
  | cons first rest ih =>
    have hfirst := h first List.mem_cons_self
    cases rest with
    | nil =>
      rw [List.intercalate_singleton]
      exact splitWhere_of_none hfirst
    | cons next others =>
      have hrest := ih (List.cons_ne_nil _ _) fun piece hpiece =>
        h piece (List.mem_cons_of_mem first hpiece)
      rw [List.intercalate_cons_cons, List.append_assoc, List.singleton_append,
        splitWhere_append hfirst hseparator, hrest]

theorem mem_intercalate {separator : List Char} {pieces : List (List Char)} {c : Char}
    (h : c ∈ separator.intercalate pieces) : c ∈ separator ∨ ∃ piece ∈ pieces, c ∈ piece := by
  induction pieces with
  | nil => cases h
  | cons first rest ih =>
    cases rest with
    | nil =>
      rw [List.intercalate_singleton] at h
      exact .inr ⟨first, List.mem_cons_self, h⟩
    | cons next others =>
      rw [List.intercalate_cons_cons] at h
      rcases List.mem_append.mp h with h | h
      · exact (List.mem_append.mp h).elim (fun h => .inr ⟨first, List.mem_cons_self, h⟩) .inl
      · exact (ih h).imp_right fun ⟨piece, hpiece, hc⟩ =>
          ⟨piece, List.mem_cons_of_mem first hpiece, hc⟩

end Pieces

end Ili
