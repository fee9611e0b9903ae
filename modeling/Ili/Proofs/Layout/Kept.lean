import Ili.Proofs.Layout.Words
import Mathlib.Data.List.Perm.Basic

/-!
# Which tokens are printed

Attachment looks from a visible token back to the comments in front of it and stops at a gap, so a
comment in front of a gap is found from no token. Behind the last visible token it is the other way
round: comments are looked for forwards, and those behind a gap are not found. All other tokens but
blanks are printed, once and in order.
-/

namespace Ili

open scoped List

def Leaf.isWord (leaf : Leaf) : Bool :=
  leaf.isToken fun kind => !kind.isTrivia

namespace Leaf

def printable (leaves : List Leaf) : List Token :=
  (tokensOf leaves).filter fun token => token.kind != .whitespace

/-- The tokens found by attachment. `pending` holds the comments met since the last visible token or
gap. -/
def kept (pending : List Token) : List Leaf → List Token
  | [] => pending
  | .gap :: rest => if rest.any isWord then kept [] rest else pending
  | .token t :: rest =>
    if t.kind.isComment then kept (pending ++ [t]) rest
    else if t.kind.isTrivia then kept pending rest
    else pending ++ t :: kept [] rest

/-- The comments not found by attachment: those with a gap between them and the next visible token,
and those with a gap between them and the last one. -/
def lost (pending : List Token) : List Leaf → List Token
  | [] => []
  | .gap :: rest => if rest.any isWord then pending ++ lost [] rest else printable rest
  | .token t :: rest =>
    if t.kind.isComment then lost (pending ++ [t]) rest
    else if t.kind.isTrivia then lost pending rest
    else lost [] rest

theorem printable_cons_token (t : Token) (rest : List Leaf) :
    printable (.token t :: rest) =
      if t.kind = .whitespace then printable rest else t :: printable rest := by
  by_cases h : t.kind = .whitespace <;> simp [printable, tokensOf_cons_token, h]

theorem printable_cons_gap (rest : List Leaf) : printable (.gap :: rest) = printable rest :=
  rfl

theorem ne_whitespace_of_isComment {kind : Kind} (h : kind.isComment = true) :
    kind ≠ .whitespace := by
  rintro rfl
  cases h

theorem eq_whitespace_of_isTrivia {kind : Kind} (h : kind.isTrivia = true)
    (hcomment : ¬kind.isComment = true) : kind = .whitespace := by
  simpa [Kind.isTrivia, hcomment] using h

theorem ne_whitespace_of_not_isTrivia {kind : Kind} (h : ¬kind.isTrivia = true) :
    kind ≠ .whitespace := by
  rintro rfl
  exact h rfl

theorem kept_sublist (pending : List Token) (leaves : List Leaf) :
    (kept pending leaves).Sublist (pending ++ printable leaves) := by
  induction leaves generalizing pending with
  | nil => simp [kept, printable, tokensOf]
  | cons leaf rest ih =>
    cases leaf with
    | gap =>
      rw [kept, printable_cons_gap]
      split
      · exact (ih []).trans (List.sublist_append_right _ _)
      · exact List.sublist_append_left _ _
    | token t =>
      rw [kept, printable_cons_token]
      split
      · next hcomment =>
        rw [if_neg (ne_whitespace_of_isComment hcomment)]
        simpa using ih (pending ++ [t])
      · next hcomment =>
        split
        · next htrivia =>
          rw [if_pos (eq_whitespace_of_isTrivia htrivia hcomment)]
          exact ih pending
        · next htrivia =>
          rw [if_neg (ne_whitespace_of_not_isTrivia htrivia)]
          exact (List.Sublist.cons_cons t (ih [])).append_left pending

/-- Every token but the blanks is found or lost, and none is both. -/
theorem perm_kept_append_lost (pending : List Token) (leaves : List Leaf) :
    (pending ++ printable leaves).Perm (kept pending leaves ++ lost pending leaves) := by
  induction leaves generalizing pending with
  | nil => simp [kept, lost, printable, tokensOf]
  | cons leaf rest ih =>
    cases leaf with
    | gap =>
      rw [kept, lost, printable_cons_gap]
      split
      · calc pending ++ printable rest
            = pending ++ ([] ++ printable rest) := rfl
          _ ~ pending ++ (kept [] rest ++ lost [] rest) := (ih []).append_left pending
          _ ~ kept [] rest ++ (pending ++ lost [] rest) := by
            rw [← List.append_assoc, ← List.append_assoc]
            exact List.perm_append_comm.append_right _
      · exact List.Perm.refl _
    | token t =>
      rw [kept, lost, printable_cons_token]
      by_cases hcomment : t.kind.isComment = true
      · rw [if_pos hcomment, if_pos hcomment, if_neg (ne_whitespace_of_isComment hcomment)]
        simpa using ih (pending ++ [t])
      · rw [if_neg hcomment, if_neg hcomment]
        by_cases htrivia : t.kind.isTrivia = true
        · rw [if_pos htrivia, if_pos htrivia,
            if_pos (eq_whitespace_of_isTrivia htrivia hcomment)]
          exact ih pending
        · rw [if_neg htrivia, if_neg htrivia,
            if_neg (ne_whitespace_of_not_isTrivia htrivia), List.append_assoc, List.cons_append]
          exact ((ih []).cons t).append_left pending

theorem kept_eq_printable {pending : List Token} {leaves : List Leaf}
    (h : lost pending leaves = []) : kept pending leaves = pending ++ printable leaves := by
  have hperm := perm_kept_append_lost pending leaves
  rw [h, List.append_nil] at hperm
  exact (kept_sublist pending leaves).eq_of_length hperm.length_eq.symm

theorem isComment_of_mem_printable {leaves : List Leaf}
    (h : ∀ leaf ∈ leaves, leaf.isWord = false) :
    ∀ token ∈ printable leaves, token.kind.isComment = true := by
  intro token htoken
  obtain ⟨hmem, hkind⟩ := List.mem_filter.mp htoken
  obtain ⟨leaf, hleaf, hsome⟩ := List.mem_filterMap.mp hmem
  have hword := h leaf hleaf
  cases leaf with
  | gap => cases hsome
  | token t =>
    obtain rfl := Option.some.inj hsome
    have htrivia : t.kind.isTrivia = true := by simpa [isWord, isToken] using hword
    by_contra hcomment
    exact absurd (eq_whitespace_of_isTrivia htrivia hcomment) (by simpa using hkind)

theorem isComment_of_mem_lost {pending : List Token} {leaves : List Leaf}
    (hpending : ∀ token ∈ pending, token.kind.isComment = true) :
    ∀ token ∈ lost pending leaves, token.kind.isComment = true := by
  induction leaves generalizing pending with
  | nil => simp [lost]
  | cons leaf rest ih =>
    cases leaf with
    | gap =>
      rw [lost]
      split
      · intro token htoken
        rcases List.mem_append.mp htoken with htoken | htoken
        · exact hpending token htoken
        · exact ih (by simp) token htoken
      · next hnone => exact isComment_of_mem_printable (by simpa using hnone)
    | token t =>
      rw [lost]
      split
      · next hcomment =>
        apply ih
        intro token htoken
        rcases List.mem_append.mp htoken with htoken | htoken
        · exact hpending token htoken
        · rw [List.mem_singleton.mp htoken]
          exact hcomment
      · split
        · exact ih hpending
        · exact ih (by simp)

theorem visible_tokensOf_of_not_any {leaves : List Leaf} (h : ¬leaves.any isWord = true) :
    visible (tokensOf leaves) = [] := by
  rw [visible_eq_nil_iff]
  intro token htoken
  obtain ⟨leaf, hleaf, hsome⟩ := List.mem_filterMap.mp htoken
  simp only [List.any_eq_true, not_exists, not_and, Bool.not_eq_true] at h
  have hword := h leaf hleaf
  cases leaf with
  | gap => cases hsome
  | token t =>
    obtain rfl := Option.some.inj hsome
    simpa [isWord, isToken] using hword

theorem visible_kept {pending : List Token} (h : visible pending = []) (leaves : List Leaf) :
    visible (kept pending leaves) = visible (tokensOf leaves) := by
  induction leaves generalizing pending with
  | nil => exact h
  | cons leaf rest ih =>
    cases leaf with
    | gap =>
      rw [kept, tokensOf_cons_gap]
      split
      · exact ih rfl
      · next hnone => rw [h, visible_tokensOf_of_not_any hnone]
    | token t =>
      have hcons : visible (t :: tokensOf rest) = visible [t] ++ visible (tokensOf rest) :=
        visible_append [t] _
      have htrivia (ht : t.kind.isTrivia = true) : visible [t] = [] := by simp [visible, ht]
      rw [kept, tokensOf_cons_token, hcons]
      split
      · next hcomment =>
        have hnone := htrivia (by simp [Kind.isTrivia, hcomment])
        rw [ih (by rw [visible_append, h, hnone]; rfl), hnone, List.nil_append]
      · split
        · next ht => rw [ih h, htrivia ht, List.nil_append]
        · have htail : visible (t :: kept [] rest) = visible [t] ++ visible (kept [] rest) :=
            visible_append [t] _
          rw [visible_append, h, List.nil_append, htail, ih rfl]

end Leaf

theorem behindLastWord_cons (leaf : Leaf) (rest : List Leaf) :
    behindLastWord (leaf :: rest) =
      if rest.any Leaf.isWord then behindLastWord rest
      else if leaf.isWord then rest else leaf :: rest := by
  have hdef (leaves : List Leaf) : behindLastWord leaves =
      (leaves.reverse.takeWhile fun leaf => !leaf.isWord).reverse := rfl
  rw [hdef, hdef, List.reverse_cons]
  by_cases hrest : rest.any Leaf.isWord = true
  · rw [if_pos hrest]
    obtain ⟨word, hword, hisWord⟩ := List.any_eq_true.mp hrest
    rw [List.takeWhile_append, if_neg]
    intro hlength
    have hall := List.takeWhile_eq_self_iff.mp
      ((List.takeWhile_prefix _).eq_of_length hlength) word (List.mem_reverse.mpr hword)
    simp [hisWord] at hall
  · rw [if_neg hrest]
    have hall : rest.reverse.takeWhile (fun leaf => !leaf.isWord) = rest.reverse := by
      rw [List.takeWhile_eq_self_iff]
      intro word hword
      simp only [List.any_eq_true, not_exists, not_and, Bool.not_eq_true] at hrest
      simp [hrest word (List.mem_reverse.mp hword)]
    rw [List.takeWhile_append, if_pos (by rw [hall])]
    by_cases hleaf : leaf.isWord = true <;> simp [hleaf]

theorem attachedWords_eq_nil {leaves : List Leaf} (h : ¬leaves.any Leaf.isWord = true)
    (pending : List Mark) : attachedWords pending leaves = [] := by
  induction leaves generalizing pending with
  | nil => rfl
  | cons leaf rest ih =>
    rw [List.any_cons, Bool.or_eq_true, not_or] at h
    cases leaf with
    | gap => exact ih h.2 []
    | token t =>
      have htrivia : t.kind.isTrivia = true := by simpa [Leaf.isWord, Leaf.isToken] using h.1
      rw [attachedWords]
      by_cases hcomment : t.kind.isComment = true
      · rw [if_pos hcomment]
        exact ih h.2 _
      · rw [if_neg hcomment, if_pos htrivia]
        exact ih h.2 pending

theorem commentsBeforeGap_cons_token (t : Token) (rest : List Leaf) :
    commentsBeforeGap (.token t :: rest) =
      if t.kind.isComment then ⟨t, breaksAhead rest⟩ :: commentsBeforeGap rest
      else commentsBeforeGap rest :=
  rfl

/-- Layout prints the tokens that attachment finds. -/
theorem flatMap_wordTokens_attachedWords (pending : List Mark) (leaves : List Leaf) :
    (attachedWords pending leaves).flatMap Layout.wordTokens ++
        (if leaves.any Leaf.isWord then
          (commentsBeforeGap (behindLastWord leaves)).map Mark.token
        else pending.map Mark.token ++ (commentsBeforeGap leaves).map Mark.token) =
      Leaf.kept (pending.map Mark.token) leaves := by
  induction leaves generalizing pending with
  | nil => simp [attachedWords, commentsBeforeGap, Leaf.kept]
  | cons leaf rest ih =>
    rw [behindLastWord_cons, List.any_cons]
    -- With a word ahead, comments wait for it; behind the last word they are found up to a gap.
    by_cases hrest : rest.any Leaf.isWord = true
    · simp only [hrest, if_true, Bool.or_true] at ih ⊢
      cases leaf with
      | gap => simpa [attachedWords, Leaf.kept, hrest] using ih []
      | token t =>
        rw [attachedWords, Leaf.kept]
        split
        · have hpending := ih (pending ++ [⟨t, breaksAhead rest⟩])
          rw [List.map_append] at hpending
          exact hpending
        · split
          · exact ih pending
          · simpa [Layout.wordTokens, List.append_assoc] using ih []
    · simp only [hrest, if_false, Bool.or_false, Bool.false_eq_true] at ih ⊢
      cases leaf with
      | gap =>
        have hgap : Leaf.gap.isWord = false := rfl
        simp [attachedWords, attachedWords_eq_nil hrest, Leaf.kept, hrest, hgap, commentsBeforeGap]
      | token t =>
        rw [attachedWords, Leaf.kept, commentsBeforeGap_cons_token]
        split
        · next hcomment =>
          have hword : Leaf.isWord (.token t) = false := by
            simp [Leaf.isWord, Leaf.isToken, Kind.isTrivia, hcomment]
          have hpending := ih (pending ++ [⟨t, breaksAhead rest⟩])
          rw [List.map_append, List.append_assoc] at hpending
          simpa [hword] using hpending
        · split
          · next htrivia =>
            have hword : Leaf.isWord (.token t) = false := by
              simp [Leaf.isWord, Leaf.isToken, htrivia]
            simpa [hword] using ih pending
          · next htrivia =>
            have hword : Leaf.isWord (.token t) = true := by
              simpa [Leaf.isWord, Leaf.isToken] using htrivia
            simpa [hword, Layout.wordTokens] using ih []

namespace Layout

theorem map_token_slotsOf (tree : Tree) :
    (slotsOf tree).map Slot.token = Leaf.kept [] tree.leaves := by
  have hall := flatMap_wordTokens_attachedWords [] tree.leaves
  have htrailing : (tree.trailingComments.map fun comment => (⟨[], comment⟩ : Word)).flatMap
      wordTokens = tree.trailingComments.map Mark.token := by
    induction tree.trailingComments with
    | nil => rfl
    | cons comment comments ih => simpa [wordTokens] using ih
  rw [slotsOf_eq, map_token_slotsOfWords, map_word_joinedTree, List.flatMap_append, htrailing]
  rw [List.map_nil, List.nil_append] at hall
  rw [← hall, Tree.trailingComments]
  congr 1
  split
  · rfl
  · next hnone =>
    have hbehind : behindLastWord tree.leaves = tree.leaves := by
      have hdef : behindLastWord tree.leaves =
          (tree.leaves.reverse.takeWhile fun leaf => !leaf.isWord).reverse := rfl
      have hself : tree.leaves.reverse.takeWhile (fun leaf => !leaf.isWord) =
          tree.leaves.reverse := by
        rw [List.takeWhile_eq_self_iff]
        intro word hword
        simp only [List.any_eq_true, not_exists, not_and, Bool.not_eq_true] at hnone
        simp [hnone word (List.mem_reverse.mp hword)]
      rw [hdef, hself, List.reverse_reverse]
    rw [hbehind]

end Layout

end Ili
