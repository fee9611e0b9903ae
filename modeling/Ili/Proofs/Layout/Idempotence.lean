import Ili.Proofs.Layout.Unclosed

/-!
# Layout of a layout

A legible layout is read back as it was printed, so it has the visible tokens of the text, the same
tree but for blanks and comments, and the same words with their line breaks settled. Settled words
are printed as before: laying out a legible layout changes nothing.
-/

namespace Ili

open Layout

namespace Layout

variable {options : LayoutOptions}

theorem visible_tokensOfSlots (slots : List Slot) :
    visible (tokensOfSlots options slots) = visible (slots.map Slot.token) := by
  induction slots with
  | nil => rfl
  | cons slot rest ih =>
    have hseparator : visible (slot.separator.tokens options) = [] := by
      cases slot.separator <;> rfl
    have hcons (tokens : List Token) :
        visible (slot.token :: tokens) = visible [slot.token] ++ visible tokens :=
      visible_append [slot.token] tokens
    rw [tokensOfSlots_cons, visible_append, hseparator, List.nil_append, List.map_cons,
      hcons (tokensOfSlots options rest), hcons (rest.map Slot.token), ih]

theorem kind_of_mem_endingOf (options : LayoutOptions) (slots : List Slot) :
    ∀ token ∈ endingOf options slots, token.kind = .whitespace := by
  intro token htoken
  unfold endingOf at htoken
  split at htoken
  · cases htoken
  · split at htoken
    · cases htoken
    · rw [List.mem_singleton.mp htoken]

theorem visible_endingOf (slots : List Slot) : visible (endingOf options slots) = [] := by
  rw [visible_eq_nil_iff]
  intro token htoken
  rw [kind_of_mem_endingOf options slots token htoken]
  rfl

def finishText (options : LayoutOptions) (text : String) : String :=
  if Token.opensComment text then finish options text else text

theorem finish_eq_rewrite {token : Token} (h : token.kind.isTrivia = false) :
    token.finish options = token.rewrite (finishText options) := by
  rw [Token.finish, Token.isOpenComment, h, Token.rewrite, Token.rewrite, finishText]
  by_cases hopens : Token.opensComment token.text = true <;> simp [hopens]

theorem visible_map_restore (tokens : List Token) :
    visible (tokens.map Token.restore) = (visible tokens).map Token.restore := by
  simp only [visible, List.filter_map]
  congr 1
  apply List.filter_congr
  intro token _
  rw [Function.comp_apply, Token.isTrivia_restore]

theorem visible_printedTokens (slots : List Slot) :
    visible (printedTokens options slots) =
      (visible (slots.map Slot.token)).map (Token.rewrite (finishText options)) := by
  have hmap : (slots.map (Slot.finish options)).map Slot.token =
      (slots.map Slot.token).map (Token.finish options) := by
    simp only [List.map_map]
    rfl
  rw [printedTokens, visible_append, visible_tokensOfSlots, visible_endingOf, List.append_nil, hmap]
  simp only [visible, List.filter_map]
  have hkind : (fun token : Token => !token.kind.isTrivia) ∘ Token.finish options =
      fun token => !token.kind.isTrivia := by
    funext token
    rw [Function.comp_apply, kind_finish]
  rw [hkind]
  apply List.map_congr_left
  intro token htoken
  obtain ⟨slot, hslot, rfl⟩ := List.mem_map.mp htoken
  exact finish_eq_rewrite (by simpa using (List.mem_filter.mp hslot).2)

theorem spares_finishText (options : LayoutOptions) :
    Spares Grammar.askedWords (finishText options) := by
  intro word hword text
  have hslash : word.toList.head? ≠ some '/' := by
    simp only [Grammar.askedWords, List.mem_cons, List.not_mem_nil, or_false] at hword
    rcases hword with rfl | rfl | rfl <;> decide
  rw [finishText]
  split
  · next hopens =>
    have hopen : Token.isOpenComment ⟨.error, text⟩ = true := by
      rw [Token.isOpenComment, hopens]
      rfl
    have hhead := head?_of_isOpenComment hopen
    have hfinish := head?_finish options ⟨.error, text⟩
    rw [Token.finish, if_pos hopen, hhead] at hfinish
    constructor
    · rintro rfl
      exact absurd hfinish hslash
    · rintro rfl
      exact absurd hhead hslash
  · rfl

end Layout

section Parsed

variable {text : String} {options : LayoutOptions}

theorem visible_slotsOf (text : String) :
    visible ((slotsOf (parse text).tree).map Slot.token) = visible (parse text).tree.tokens := by
  rw [map_token_slotsOf, Leaf.visible_kept rfl, Tree.tokensOf_leaves]

theorem visible_tokenize_formatText (h : legible options (slotsOf (parse text).tree) = true) :
    visible (tokenize (formatText text options)) =
      (visible (tokenize text)).map (Token.rewrite (finishText options)) := by
  rw [(tokenize_formatText_iff text options).mpr h, visible_map_restore, visible_printedTokens,
    visible_slotsOf, ← map_restore_tokens_parse text, visible_map_restore, List.map_map,
      List.map_map]
  apply List.map_congr_left
  intro token htoken
  obtain ⟨hmem, hvisible⟩ := List.mem_filter.mp htoken
  have htrivia : token.kind.isTrivia = false := by simpa using hvisible
  obtain ⟨rest, hheads⟩ : ∃ rest, token.restore.Heads rest := by
    apply (tiled_tokenize text).heads_of_mem
    rw [← map_restore_tokens_parse]
    exact List.mem_map_of_mem hmem
  rw [Function.comp_apply, Function.comp_apply, ← finish_eq_rewrite htrivia, restore_finish hheads,
    finish_eq_rewrite ((Token.isTrivia_restore token).trans htrivia)]

theorem bare_formatText (h : legible options (slotsOf (parse text).tree) = true) :
    (parse (formatText text options)).tree.bare Kind.isNothing id =
        (parse text).tree.bare Kind.isNothing (finishText options) ∧
      (parse (formatText text options)).errors.map SyntaxError.what =
        (parse text).errors.map SyntaxError.what := by
  apply bare_parse (spares_finishText options)
  rw [KeptAlike, solidTokens_isNothing, solidTokens_isNothing]
  exact visible_tokenize_formatText h

theorem tokens_formatText (h : legible options (slotsOf (parse text).tree) = true) :
    (parse (formatText text options)).tree.tokens =
      printedTokens options (slotsOf (parse text).tree) := by
  have hbare := congrArg Tree.tokens (bare_formatText h).1
  rw [Tree.tokens_bare _ _ rfl, Tree.tokens_bare _ _ rfl, solidTokens_isNothing,
    solidTokens_isNothing] at hbare
  apply eq_of_map_restore
  · rw [map_restore_tokens_parse, (tokenize_formatText_iff text options).mpr h]
  · rw [visible_printedTokens, visible_slotsOf, ← hbare]
    exact (List.map_id _).symm

/-- What is asked for in front of the words does not depend on blanks, comments and texts. -/
theorem asked_joinedBody_congr {keep : Kind → Bool} {f : String → String} {tree other : Tree}
    (hbare : other.bare keep id = tree.bare keep f)
    (hwords : (attachedWords [] other.leaves).map kindOnly =
      (attachedWords [] tree.leaves).map kindOnly) :
    (joinedBody other).map JoinedWord.asked = (joinedBody tree).map JoinedWord.asked := by
  have hskeleton : other.skeleton?.map (Skeleton.mapWords kindOnly) =
      tree.skeleton?.map (Skeleton.mapWords kindOnly) := by
    have hdress (tree : Tree) : (tree.dress ((attachedWords [] tree.leaves).map kindOnly)).1 =
        (tree.dress (attachedWords [] tree.leaves)).1.map (Skeleton.mapWords kindOnly) :=
      congrArg Prod.fst (Tree.dress_map kindOnly tree _)
    rw [Tree.skeleton?, Tree.skeleton?, ← hdress, ← hdress, ← Tree.dress_bare keep id, hbare,
      Tree.dress_bare, hwords]
  rw [joinedBody, joinedBody]
  revert hskeleton
  cases tree.skeleton? with
  | none => cases other.skeleton? <;> simp
  | some skeleton =>
    cases other.skeleton? with
    | none => rintro ⟨⟩
    | some other =>
      intro hskeleton
      exact asked_joined_congr (Option.some.inj hskeleton) 0

theorem map_asked_settledBehind (ending : Nat) (left : Mark) (words : List JoinedWord) :
    (settledBehind ending left words).map JoinedWord.asked = words.map JoinedWord.asked := by
  induction words generalizing left with
  | nil => rfl
  | cons next rest ih => simp only [settledBehind, List.map_cons, ih, JoinedWord.asked]

theorem map_asked_settled (ending : Nat) (words : List JoinedWord) :
    (settled ending words).map JoinedWord.asked = words.map JoinedWord.asked := by
  cases words with
  | nil => rfl
  | cons first rest => simp only [settled, List.map_cons, map_asked_settledBehind, JoinedWord.asked]

theorem eq_of_asked {words others : List JoinedWord}
    (hasked : words.map JoinedWord.asked = others.map JoinedWord.asked)
    (hword : words.map JoinedWord.word = others.map JoinedWord.word) : words = others := by
  induction words generalizing others with
  | nil => exact (List.map_eq_nil_iff.mp hasked.symm).symm
  | cons next rest ih =>
    cases others with
    | nil => cases hasked
    | cons other others =>
      obtain ⟨insert, level, word⟩ := next
      obtain ⟨insert', level', word'⟩ := other
      simp only [List.map_cons, List.cons.injEq, JoinedWord.asked, Prod.mk.injEq] at hasked hword
      obtain ⟨⟨rfl, rfl⟩, hrest⟩ := hasked
      obtain ⟨rfl, hrest'⟩ := hword
      rw [ih hrest hrest']

theorem visible_joinedBody (text : String) (options : LayoutOptions) :
    ∀ next ∈ (joinedBody (parse text).tree).map (JoinedWord.map (finishWord options)),
      Visible next := by
  intro next hnext
  obtain ⟨original, horiginal, rfl⟩ := List.mem_map.mp hnext
  have hmem := List.mem_map_of_mem (f := JoinedWord.word) horiginal
  rw [map_word_joinedBody] at hmem
  obtain ⟨hproper, hvisible⟩ := (proper_parse text).1 _ hmem
  refine ⟨hproper, ?_⟩
  rw [JoinedWord.map, finishWord, kind_finish]
  exact hvisible

theorem trailing_joinedTree (text : String) (options : LayoutOptions) :
    ∀ next ∈ ((parse text).tree.trailingComments.map fun comment =>
        (⟨none, 0, ⟨[], comment⟩⟩ : JoinedWord)).map (JoinedWord.map (finishWord options)),
      Trailing next := by
  intro next hnext
  obtain ⟨original, horiginal, rfl⟩ := List.mem_map.mp hnext
  obtain ⟨comment, hcomment, rfl⟩ := List.mem_map.mp horiginal
  refine ⟨rfl, ?_⟩
  rw [JoinedWord.map, finishWord, kind_finish]
  exact (proper_parse text).2 comment hcomment

theorem respectsCuts_map {cuts : List Bool} {words : List Word} {g : Word → Word}
    (hg : ∀ word, (g word).comments = word.comments) (h : RespectsCuts cuts words) :
    RespectsCuts cuts (words.map g) := by
  induction words generalizing cuts with
  | nil => trivial
  | cons word rest ih => exact ⟨fun hcut => (hg word).trans (h.1 hcut), ih h.2⟩

theorem respectsCuts_joinedBody (text : String) (options : LayoutOptions) :
    RespectsCuts (cutsOf text)
      (((joinedBody (parse text).tree).map (JoinedWord.map (finishWord options))).map
        JoinedWord.word) := by
  have hcuts := respectsCuts_gather [] (cutsOf text) (parse text).tree.tokens
  rw [gather_parse] at hcuts
  have hwords : ((joinedBody (parse text).tree).map (JoinedWord.map (finishWord options))).map
      JoinedWord.word = (attachedWords [] (parse text).tree.leaves).map (finishWord options) := by
    rw [← map_word_joinedBody, List.map_map, List.map_map]
    rfl
  rw [hwords]
  exact respectsCuts_map (fun _ => rfl) hcuts

theorem slotsOfWords_formatText (h : legible options (slotsOf (parse text).tree) = true) :
    slotsOfWords ((joinedTree (parse text).tree).map (JoinedWord.map (finishWord options))) =
      (slotsOf (parse text).tree).map (Slot.finish options) := by
  have hprintable := printable_slotsOf text
  rw [slotsOf_eq] at hprintable h ⊢
  exact slotsOfWords_finish (proper_joinedTree text) (excusing_joinedTree (regular_parse text))
    hprintable h

theorem words_formatText (h : legible options (slotsOf (parse text).tree) = true) :
    attachedWords [] (parse (formatText text options)).tree.leaves ++
        (parse (formatText text options)).tree.trailingComments.map bareComment =
      (settled (breaksIn (endingOf options (slotsOf (parse text).tree)))
        ((joinedTree (parse text).tree).map (JoinedWord.map (finishWord options)))).map
          JoinedWord.word ∧
      (attachedWords [] (parse (formatText text options)).tree.leaves).length =
        (joinedBody (parse text).tree).length := by
  have hgather := gather_parse (formatText text options)
  rw [cutsOf_congr (bare_formatText h).1, tokens_formatText h, printedTokens,
    ← slotsOfWords_formatText h, joinedTree, List.map_append] at hgather
  have hread := gather_slotsOfWords options (cutsOf text) (visible_joinedBody text options)
    (trailing_joinedTree text options) (respectsCuts_joinedBody text options)
    (kind_of_mem_endingOf options (slotsOf (parse text).tree))
  simp only [hgather, List.length_map] at hread
  rw [joinedTree, List.map_append]
  exact hread

theorem kindOnly_formatText (h : legible options (slotsOf (parse text).tree) = true) :
    (attachedWords [] (parse (formatText text options)).tree.leaves).map kindOnly =
      (attachedWords [] (parse text).tree.leaves).map kindOnly := by
  rw [map_kindOnly_attachedWords, map_kindOnly_attachedWords, tokens_formatText h,
    visible_printedTokens, visible_slotsOf, List.map_map]
  rfl

/-- The words of a legible layout are those of the text with their breaks settled. -/
theorem joinedTree_formatText (h : legible options (slotsOf (parse text).tree) = true) :
    joinedTree (parse (formatText text options)).tree =
      settled (breaksIn (endingOf options (slotsOf (parse text).tree)))
        ((joinedTree (parse text).tree).map (JoinedWord.map (finishWord options))) := by
  obtain ⟨hwords, hlength⟩ := words_formatText h
  have hbody := asked_joinedBody_congr (bare_formatText h).1 (kindOnly_formatText h)
  have htrailing : (parse (formatText text options)).tree.trailingComments.length =
      (parse text).tree.trailingComments.length := by
    have hall := congrArg List.length (map_asked_settled
      (breaksIn (endingOf options (slotsOf (parse text).tree)))
      ((joinedTree (parse text).tree).map (JoinedWord.map (finishWord options))))
    have hcount := congrArg List.length hwords
    simp only [List.length_append, List.length_map, joinedTree] at hall hcount
    omega
  apply eq_of_asked
  · have hfinish : ((joinedTree (parse text).tree).map (JoinedWord.map (finishWord options))).map
        JoinedWord.asked = (joinedTree (parse text).tree).map JoinedWord.asked := by
      rw [List.map_map]
      rfl
    rw [map_asked_settled, hfinish, joinedTree, joinedTree, List.map_append, List.map_append, hbody,
      map_asked_trailing, map_asked_trailing, htrailing]
  · rw [map_word_joinedTree]
    exact hwords

theorem slotsOf_formatText (h : legible options (slotsOf (parse text).tree) = true) :
    slotsOf (parse (formatText text options)).tree =
      (slotsOf (parse text).tree).map (Slot.finish options) := by
  have hproper : ∀ next ∈ (joinedTree (parse text).tree).map (JoinedWord.map (finishWord options)),
      Proper next.word := by
    intro next hnext
    obtain ⟨original, horiginal, rfl⟩ := List.mem_map.mp hnext
    exact proper_joinedTree text original horiginal
  rw [slotsOf_eq, joinedTree_formatText h, slotsOfWords_settled _ hproper,
    slotsOfWords_formatText h]

theorem finish_finish (token : Token) :
    (token.finish options).finish options = token.finish options := by
  by_cases hopen : token.isOpenComment = true
  · rw [Token.finish]
    split
    · rw [Token.finish, if_pos hopen, Token.rewrite, Token.rewrite]
      congr 1
      rw [← String.toList_inj, toList_finish, toList_finish, ended_ended]
    · rfl
  · rw [finish_of_not (Bool.eq_false_iff.mpr hopen), finish_of_not (Bool.eq_false_iff.mpr hopen)]

theorem printedTokens_finish {slots : List Slot} (h : Printable slots)
    (hlegible : legible options slots = true) :
    printedTokens options (slots.map (Slot.finish options)) = printedTokens options slots := by
  have htwice : (slots.map (Slot.finish options)).map (Slot.finish options) =
      slots.map (Slot.finish options) := by
    rw [List.map_map]
    apply List.map_congr_left
    intro slot _
    rw [Function.comp_apply, Slot.finish, Slot.finish, finish_finish]
  have hending : endingOf options (slots.map (Slot.finish options)) = endingOf options slots := by
    rcases List.eq_nil_or_concat slots with rfl | ⟨front, last, rfl⟩
    · rfl
    · rw [List.concat_eq_append] at *
      have hopen : (last.token.finish options).isOpenComment = last.token.isOpenComment := by
        by_cases hopen : last.token.isOpenComment = true
        · rw [hopen, isOpenComment_finish (heads_finish_of_legible h hlegible hopen).1 hopen]
        · rw [finish_of_not (Bool.eq_false_iff.mpr hopen)]
      simp only [endingOf, List.map_append, List.map_singleton, List.getLast?_concat, Slot.finish,
        hopen]
  rw [printedTokens, printedTokens, htwice, hending]

/-- A layout is read back as it was printed just when it is legible, and then laying it out again
changes nothing. -/
theorem formatText_idempotent (text : String) (options : LayoutOptions) :
    (legible options (slotsOf (parse text).tree) = true ↔
        tokenize (formatText text options) =
          (printedTokens options (slotsOf (parse text).tree)).map Token.restore) ∧
      (legible options (slotsOf (parse text).tree) = true →
        formatText (formatText text options) options = formatText text options) := by
  refine ⟨(tokenize_formatText_iff text options).symm, fun h => ?_⟩
  rw [← String.toList_inj, toList_formatText, toList_formatText, slotsOf_formatText h,
    printedTokens_finish (printable_slotsOf text) h]

end Parsed

end Ili
