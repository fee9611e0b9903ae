import Ili.Proofs.Grammar.Closing
import Ili.Proofs.Layout.Idempotence
import Ili.Proofs.Token.Spacing

/-!
# Layout of a text without errors

In a text without errors no comment is lost and none is left open. So all its tokens but blanks are
printed as they are, and the layout has the tree of the text, comments included, just when it is
legible.
-/

namespace Ili

open Layout

theorem solidTokens_map_restore (tokens : List Token) :
    solidTokens Kind.isComment (tokens.map Token.restore) =
      (solidTokens Kind.isComment tokens).map Token.restore := by
  induction tokens with
  | nil => rfl
  | cons token rest ih =>
    rw [List.map_cons, solidTokens_cons, solidTokens_cons, ih]
    simp only [restore_kind_eq_whitespace_iff]
    split <;> rfl

theorem solidTokens_blank {tokens : List Token} (h : ∀ token ∈ tokens, token.kind = .whitespace) :
    solidTokens Kind.isComment tokens = [] := by
  rw [solidTokens, List.filter_eq_nil_iff]
  intro token htoken
  rw [Kind.isDropped_isComment, h token htoken]
  decide

namespace Layout

variable {options : LayoutOptions} {slots : List Slot}

theorem kind_of_mem_separator (separator : Separator) :
    ∀ token ∈ separator.tokens options, token.kind = .whitespace := by
  cases separator <;> simp [Separator.tokens]

theorem solidTokens_printedTokens (options : LayoutOptions)
    (h : ∀ slot ∈ slots, slot.token.kind ≠ .whitespace) :
    solidTokens Kind.isComment (printedTokens options slots) =
      (slots.map Slot.token).map (Token.finish options) := by
  have hslots : ∀ slots : List Slot, (∀ slot ∈ slots, slot.token.kind ≠ .whitespace) →
      solidTokens Kind.isComment (tokensOfSlots options slots) = slots.map Slot.token := by
    intro slots hslots
    induction slots with
    | nil => rfl
    | cons slot rest ih =>
      rw [tokensOfSlots_cons, solidTokens_append,
        solidTokens_blank (kind_of_mem_separator slot.separator), solidTokens_cons,
        if_neg (hslots slot List.mem_cons_self),
        ih fun other hother => hslots other (List.mem_cons_of_mem _ hother)]
      rfl
  rw [printedTokens, solidTokens_append, solidTokens_blank (kind_of_mem_endingOf options slots),
    List.append_nil, hslots, List.map_map, List.map_map]
  · rfl
  · intro slot hslot
    obtain ⟨original, horiginal, rfl⟩ := List.mem_map.mp hslot
    rw [Slot.finish, kind_finish]
    exact h original horiginal

theorem spaced_printedTokens (options : LayoutOptions) (h : Printable slots) :
    Spaced ((printedTokens options slots).map Token.restore) := by
  induction slots with
  | nil => trivial
  | cons slot rest ih =>
    have hkind := h.visible slot List.mem_cons_self
    obtain ⟨after, hheads⟩ := h.heads slot List.mem_cons_self
    obtain ⟨c, cs, htext, hblank⟩ := hheads.begins
    rw [Token.text_restore] at htext
    have hsolid : (slot.token.finish options).restore.kind ≠ .whitespace := by
      apply restore_ne_whitespace
      rwa [kind_finish]
    have hnot : ¬Lexer.isBlank c = true := hblank.not.mp (restore_ne_whitespace hkind)
    have hhead := head?_finish options slot.token
    rw [htext] at hhead
    obtain ⟨ds, htext'⟩ := List.head?_eq_some_iff.mp hhead
    have hbehind : Spaced ((behind options slot rest).map Token.restore) := by
      cases rest with
      | nil =>
        simp only [behind, if_true, endingOf, List.getLast?_singleton]
        split
        · trivial
        · have hblank : ∀ c ∈ ['\n'], Lexer.isBlank c = true := by simp [Lexer.isBlank]
          exact ⟨⟨'\n', [], rfl, by decide⟩, fun _ => ⟨hblank, rfl⟩, trivial⟩
      | cons next others =>
        rw [behind, if_neg (List.cons_ne_nil _ _)]
        exact ih h.tail
    have hrest : Spaced ((slot.token.finish options).restore ::
        (behind options slot rest).map Token.restore) :=
      ⟨⟨c, ds, (congrArg String.toList (Token.text_restore _)).trans htext',
        iff_of_false hsolid hnot⟩, fun hwhite => absurd hwhite hsolid, hbehind⟩
    rw [printedTokens_eq, List.map_append, List.map_cons]
    -- The separator is the only blank that can stand in front.
    by_cases htight : slot.separator = .tight
    · rw [htight]
      exact hrest
    · have htokens : (slot.separator.tokens options).map Token.restore =
          [⟨.whitespace, slot.separator.text options⟩] := by
        cases hseparator : slot.separator <;> first | rfl | exact absurd hseparator htight
      obtain ⟨d, tail, hspace, -⟩ := head_separator options htight
      have hall := solid_eq_nil_iff.mp (solid_separator options slot.separator)
      rw [htokens, List.singleton_append]
      refine ⟨⟨d, tail, hspace, iff_of_true rfl (hall d (by simp [hspace]))⟩,
        fun _ => ⟨hall, ?_⟩, hrest⟩
      rw [spelling_cons, Token.text_restore, htext']
      simpa using hnot

/-- A layout in which the printed tokens are found again was read back as it was printed. -/
theorem tokenize_eq_of_solidTokens {layout : String} (h : Printable slots)
    (hspelling : layout.toList = spelling (printedTokens options slots))
    (hsolid : solidTokens Kind.isComment (tokenize layout) =
      solidTokens Kind.isComment ((printedTokens options slots).map Token.restore)) :
    tokenize layout = (printedTokens options slots).map Token.restore := by
  apply eq_of_spaced (tiled_tokenize layout).spaced (spaced_printedTokens options h) _ hsolid
  rw [spelling_tokenize, spelling_map_restore, hspelling]

end Layout

section Faithful

variable {text : String} {options : LayoutOptions}

theorem map_token_slotsOf_of_ok (hok : (parse text).errors = []) :
    (slotsOf (parse text).tree).map Slot.token =
      solidTokens Kind.isComment (parse text).tree.tokens := by
  rw [map_token_slotsOf, Leaf.kept_eq_printable (lost_eq_nil_of_ok hok), List.nil_append,
    Leaf.printable, Tree.tokensOf_leaves]
  apply List.filter_congr
  intro token _
  rw [Kind.isDropped_isComment]
  rfl

theorem isOpenComment_of_ok (hok : (parse text).errors = []) :
    ∀ token ∈ (parse text).tree.tokens, token.isOpenComment = false := by
  intro token htoken
  rw [← Bool.not_eq_true]
  intro hopen
  have hvisible : token ∈ visible (parse text).tree.tokens := by
    rw [Token.isOpenComment, Bool.and_eq_true] at hopen
    exact List.mem_filter.mpr ⟨htoken, hopen.1⟩
  have hpairwise : (visible (parse text).tree.tokens).Pairwise
      fun token _ => token.reachesEnd = false :=
    (pairwise_tokens_parse text).sublist List.filter_sublist
  obtain ⟨front, back, hsplit⟩ := List.append_of_mem hvisible
  have hback : back = [] := by
    rw [hsplit] at hpairwise
    cases back with
    | nil => rfl
    | cons other others =>
      have hend := (List.pairwise_cons.mp (List.pairwise_append.mp hpairwise).2.1).1 other
        List.mem_cons_self
      rw [isOpenComment_of_reachesEnd hend] at hopen
      cases hopen
  have hkind := getLast?_parse hok token (by rw [hsplit, hback]; simp)
  obtain ⟨rest, hheads⟩ : ∃ rest, token.restore.Heads rest := by
    apply (tiled_tokenize text).heads_of_mem
    rw [← map_restore_tokens_parse]
    exact List.mem_map_of_mem htoken
  simp only [Token.isOpenComment, Token.opensComment, Bool.and_eq_true, beq_iff_eq] at hopen
  rcases hkind with hkind | hkind
  · have hmark := text_of_mark hheads (show token.kind.mark? = some ";" by rw [hkind]; rfl)
    rw [hmark] at hopen
    exact absurd hopen.2.1 (by decide)
  · have hmark := text_of_mark hheads (show token.kind.mark? = some "." by rw [hkind]; rfl)
    rw [hmark] at hopen
    exact absurd hopen.2.1 (by decide)

theorem solidTokens_printedTokens_of_ok (options : LayoutOptions)
    (hok : (parse text).errors = []) :
    solidTokens Kind.isComment
        ((printedTokens options (slotsOf (parse text).tree)).map Token.restore) =
      solidTokens Kind.isComment (tokenize text) := by
  have hfinish : ((slotsOf (parse text).tree).map Slot.token).map (Token.finish options) =
      (slotsOf (parse text).tree).map Slot.token := by
    refine (List.map_congr_left (g := id) fun token htoken => ?_).trans (List.map_id _)
    rw [map_token_slotsOf_of_ok hok] at htoken
    exact finish_of_not (isOpenComment_of_ok hok token (List.mem_filter.mp htoken).1)
  rw [solidTokens_map_restore, solidTokens_printedTokens options (printable_slotsOf text).visible,
    hfinish, map_token_slotsOf_of_ok hok, ← map_restore_tokens_parse text, solidTokens_map_restore]

theorem keptAlike_id {keep : Kind → Bool} {tokens others : List Token}
    (h : solidTokens keep others = solidTokens keep tokens) : KeptAlike keep id tokens others := by
  rw [KeptAlike, h]
  exact (List.map_id _).symm

theorem tree_formatText (hok : (parse text).errors = [])
    (h : legible options (slotsOf (parse text).tree) = true) :
    (parse (formatText text options)).tree.bare Kind.isComment id =
        (parse text).tree.bare Kind.isComment id ∧
      (parse (formatText text options)).errors = [] := by
  have hread := (tokenize_formatText_iff text options).mpr h
  have hsolid := (congrArg (solidTokens Kind.isComment) hread).trans
    (solidTokens_printedTokens_of_ok options hok)
  obtain ⟨htree, herrors⟩ := bare_parse (fun _ _ _ => Iff.rfl) (keptAlike_id hsolid)
  rw [hok] at herrors
  exact ⟨htree, List.map_eq_nil_iff.mp herrors⟩

/-- The layout of a text without errors has its tree just when it is legible. -/
theorem tree_formatText_iff (hok : (parse text).errors = []) (options : LayoutOptions) :
    (parse (formatText text options)).tree.bare Kind.isComment id =
        (parse text).tree.bare Kind.isComment id ↔
      legible options (slotsOf (parse text).tree) = true := by
  refine ⟨fun htree => ?_, fun h => (tree_formatText hok h).1⟩
  have htokens := congrArg Tree.tokens htree
  rw [Tree.tokens_bare _ _ rfl, Tree.tokens_bare _ _ rfl] at htokens
  have hidentity (tokens : List Token) : tokens.map (Token.rewrite id) = tokens := List.map_id _
  rw [hidentity, hidentity] at htokens
  have hrestored := congrArg (List.map Token.restore) htokens
  rw [← solidTokens_map_restore, ← solidTokens_map_restore, map_restore_tokens_parse,
    map_restore_tokens_parse, ← solidTokens_printedTokens_of_ok options hok] at hrestored
  apply (tokenize_formatText_iff text options).mp
  exact tokenize_eq_of_solidTokens (printable_slotsOf text) (toList_formatText text options)
    hrestored

end Faithful

end Ili
