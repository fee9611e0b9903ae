import Ili.Proofs.Layout.Legible

/-!
# Reading a layout back

The slots of a parsed text hold tokens cut off from that text, in order, with sound separators. So
the layout of a text is read back as it was printed just when it is legible.
-/

namespace Ili

open Layout

theorem Tiled.pairwise {tokens : List Token} (h : Tiled tokens) :
    tokens.Pairwise fun token _ => token.reachesEnd = false := by
  induction tokens with
  | nil => exact .nil
  | cons token rest ih =>
    refine .cons ?_ (ih h.2)
    intro other hother
    rw [← Bool.not_eq_true]
    intro hend
    have hnil := h.1.rest_eq_nil hend
    cases rest with
    | nil => cases hother
    | cons next rest =>
      obtain ⟨c, cs, htext, -⟩ := h.2.1
      rw [spelling_cons, htext] at hnil
      cases hnil

theorem reachesEnd_restore (token : Token) : token.restore.reachesEnd = token.reachesEnd := by
  rw [Token.reachesEnd, Token.reachesEnd, isOpenComment_restore, Token.text_restore]

namespace Layout

variable {options : LayoutOptions}

theorem getLast?_text {slot : Slot} (hheads : ∃ rest, slot.token.restore.Heads rest)
    (hkind : slot.token.kind ≠ .whitespace) (hopen : slot.token.isOpenComment = false) :
    ((slot.separator.text options).toList ++ slot.token.text.toList).getLast? ≠ some '\n' := by
  obtain ⟨rest, hheads⟩ := hheads
  have hlast := hheads.getLast?_ne_newline (restore_ne_whitespace hkind)
    (by rw [isOpenComment_restore, hopen])
  obtain ⟨c, cs, htext, -⟩ := hheads
  rw [Token.text_restore] at hlast htext
  rw [htext] at hlast
  rw [List.getLast?_append, htext]
  cases hcs : (c :: cs).getLast? with
  | none => simp at hcs
  | some d =>
    rw [hcs] at hlast
    exact hlast

theorem spelling_printedTokens (options : LayoutOptions) {slots : List Slot} (h : Printable slots)
    (hne : slots ≠ []) :
    spelling (printedTokens options slots) = ended options (textOf options slots).toList := by
  induction slots with
  | nil => exact absurd rfl hne
  | cons slot rest ih =>
    have hheads := h.heads slot List.mem_cons_self
    have hkind := h.visible slot List.mem_cons_self
    rw [printedTokens_eq, spelling_append, spelling_cons, spelling_separator, toList_textOf_cons]
    cases rest with
    | nil =>
      have hnil : (textOf options []).toList = [] := by simp [textOf]
      rw [hnil, behind, if_pos rfl]
      simp only [endingOf, List.getLast?_singleton]
      by_cases hopen : slot.token.isOpenComment = true
      · have hfront : ((slot.separator.text options).toList ++ ['/']).getLast? ≠ some '\n' := by
          simp
        have hslash := ended_append options (show ['/'].getLast? ≠ some '\n' by decide)
        have hhead := hopen
        simp only [Token.isOpenComment, Token.opensComment, Bool.and_eq_true, beq_iff_eq] at hhead
        obtain ⟨cs, htext⟩ := List.head?_eq_some_iff.mp hhead.2.1
        have hfinish : (slot.token.finish options).text.toList = '/' :: ended options cs := by
          rw [Token.finish, if_pos hopen]
          change (finish options slot.token.text).toList = _
          rw [toList_finish, htext]
          exact hslash cs
        have hended := ended_append options hfront cs
        rw [if_pos (by rw [hopen]; rfl), hfinish, htext]
        simp only [List.append_assoc, List.singleton_append] at hended
        simp only [List.append_nil, hended, spelling, List.flatMap_nil]
      · rw [Bool.not_eq_true] at hopen
        rw [ended_append options (getLast?_text hheads hkind hopen), ended_nil, hopen,
          Bool.false_or, finish_of_not hopen, List.append_assoc]
        cases options.insertFinalNewline <;> rfl
    | cons next others =>
      have hopen := isOpenComment_of_reachesEnd
        ((List.pairwise_cons.mp h.last).1 next List.mem_cons_self)
      rw [finish_of_not hopen, behind, if_neg (List.cons_ne_nil _ _),
        ih h.tail (List.cons_ne_nil _ _), ended_append options (getLast?_text hheads hkind hopen),
        List.append_assoc]

end Layout

section Parsed

variable (text : String)

theorem map_token_slotsOf_sublist :
    ((slotsOf (parse text).tree).map Slot.token).Sublist (parse text).tree.tokens := by
  rw [map_token_slotsOf, ← Tree.tokensOf_leaves]
  exact (Leaf.kept_sublist [] _).trans List.filter_sublist

theorem pairwise_tokens_parse :
    (parse text).tree.tokens.Pairwise fun token _ => token.reachesEnd = false := by
  have hpairwise := (tiled_tokenize text).pairwise
  rw [← map_restore_tokens_parse, List.pairwise_map] at hpairwise
  simpa only [reachesEnd_restore] using hpairwise

theorem proper_parse :
    (∀ word ∈ attachedWords [] (parse text).tree.leaves,
        Proper word ∧ word.mark.token.kind.isTrivia = false) ∧
      ∀ comment ∈ (parse text).tree.trailingComments, comment.token.kind.isComment = true := by
  have hproper := proper_gather [] (cutsOf text) (parse text).tree.tokens (fun _ => nofun)
  rwa [gather_parse] at hproper

theorem proper_joinedTree : ∀ next ∈ joinedTree (parse text).tree, Proper next.word := by
  intro next hnext
  have hmem := List.mem_map_of_mem (f := JoinedWord.word) hnext
  rw [map_word_joinedTree] at hmem
  rcases List.mem_append.mp hmem with hmem | hmem
  · exact ((proper_parse text).1 _ hmem).1
  · obtain ⟨comment, -, hword⟩ := List.mem_map.mp hmem
    rw [← hword]
    exact fun _ => nofun

theorem printable_slotsOf : Printable (slotsOf (parse text).tree) where
  heads slot hslot := by
    have hmem : slot.token ∈ (parse text).tree.tokens :=
      (map_token_slotsOf_sublist text).subset (List.mem_map_of_mem hslot)
    apply (tiled_tokenize text).heads_of_mem
    rw [← map_restore_tokens_parse]
    exact List.mem_map_of_mem hmem
  visible slot hslot := by
    have hmem : slot.token ∈ Leaf.printable (parse text).tree.leaves := by
      apply (Leaf.kept_sublist [] _).subset
      rw [← map_token_slotsOf]
      exact List.mem_map_of_mem hslot
    exact (mem_tokens_of_mem_printable hmem).2
  last := by
    have hpairwise := (pairwise_tokens_parse text).sublist (map_token_slotsOf_sublist text)
    rwa [List.pairwise_map] at hpairwise
  sound := by
    rw [slotsOf_eq]
    exact sound_slotsOfWords (proper_joinedTree text) (excusing_joinedTree (regular_parse text))

theorem toList_formatText (options : LayoutOptions) :
    (formatText text options).toList =
      spelling (printedTokens options (slotsOf (parse text).tree)) := by
  have hprintable := printable_slotsOf text
  rw [formatText, Tree.format]
  revert hprintable
  generalize slotsOf (parse text).tree = slots
  intro hprintable
  cases slots with
  | nil => rfl
  | cons slot rest =>
    have hspelling := spelling_printedTokens options hprintable (List.cons_ne_nil _ _)
    exact (toList_finish options (textOf options (slot :: rest))).trans hspelling.symm

/-- A layout is read back as it was printed just when it is legible. -/
theorem tokenize_formatText_iff (options : LayoutOptions) :
    tokenize (formatText text options) =
        (printedTokens options (slotsOf (parse text).tree)).map Token.restore ↔
      legible options (slotsOf (parse text).tree) = true := by
  rw [tokenize_eq_iff, spelling_map_restore, toList_formatText,
    tiled_iff_legible (printable_slotsOf text)]
  exact and_iff_right rfl

end Parsed

end Ili
