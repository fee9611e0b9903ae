import Ili.Proofs.Layout.ReadBack

/-!
# What is written between two tokens

A layout is its tokens in a row, and between two neighbours stands nothing, a space, or one or two
line feeds with an indentation. What may stand there depends on the two tokens alone: comments are
never touched, what runs to the end of its line is followed by a line feed, and two tokens touch
only where they have been tried and do not fuse.
-/

namespace Ili

namespace Layout

/-- What a layout may write between two neighbouring tokens. -/
inductive Separates (options : LayoutOptions) (left right : Token) : String → Prop
  | nothing (hleft : left.kind.isComment = false) (hright : right.kind.isComment = false)
      (hfuse : wouldFuse left right = false) : Separates options left right ""
  | space (hleft : endsLine left.kind = false) : Separates options left right " "
  | newline (level : Nat) : Separates options left right ("\n" ++ options.indent level)
  | blankLine (level : Nat) : Separates options left right ("\n\n" ++ options.indent level)

/-- A text written token by token, with a separator between any two neighbours and nothing around
them. -/
inductive Separated (options : LayoutOptions) : List Token → String → Prop
  | nil : Separated options [] ""
  | single (token : Token) : Separated options [token] token.text
  | cons {left right : Token} {rest : List Token} {separator text : String}
      (hseparator : Separates options left right separator)
      (hrest : Separated options (right :: rest) text) :
      Separated options (left :: right :: rest) (left.text ++ separator ++ text)

variable {options : LayoutOptions}

theorem separates_lineBreaks {left : Mark} {level count : Nat} (hkept : keptBreaks left ≤ count)
    (token : Token) :
    Separates options left.token token ((lineBreaks level count).text options) := by
  match count with
  | 0 =>
    apply Separates.space
    rw [← Bool.not_eq_true]
    exact fun hends => keptBreaks_of_endsLine hends (Nat.le_zero.mp hkept)
  | 1 => exact .newline level
  | _ + 2 => exact .blankLine level

theorem separates_tightest {left right : Token} (hleft : left.kind.isComment = false)
    (hright : right.kind.isComment = false) :
    Separates options left right ((tightest left right).text options) := by
  rw [tightest]
  split
  · exact .space (Bool.eq_false_iff.mpr (mt isComment_of_endsLine (by simp [hleft])))
  · next hfuse => exact .nothing hleft hright (Bool.eq_false_iff.mpr hfuse)

/-- Whatever a rule asks for, the separator between two tokens is one that may stand there. -/
theorem separates_separatorBetween (left : Mark) (right : Token) (insert : Option Insert)
    (level : Nat) :
    Separates options left.token right
      ((separatorBetween left right insert level).text options) := by
  simp only [separatorBetween]
  split
  · exact separates_lineBreaks (Nat.le_refl _) right
  · next hcomment =>
    rw [Bool.or_eq_true, not_or, Bool.not_eq_true, Bool.not_eq_true] at hcomment
    obtain ⟨hleft, hright⟩ := hcomment
    have hends : endsLine left.token.kind = false :=
      Bool.eq_false_iff.mpr (mt isComment_of_endsLine (by simp [hleft]))
    cases insert with
    | none =>
      simp only
      split
      · exact separates_tightest hleft hright
      · exact .space hends
    | some insert =>
      cases insert with
      | space => exact .space hends
      | nothing => exact separates_tightest hleft hright
      | newline => exact .newline level
      | blankLine => exact .blankLine level

theorem textOf_cons (slot : Slot) (rest : List Slot) :
    textOf options (slot :: rest) =
      slot.separator.text options ++ slot.token.text ++ textOf options rest := by
  rw [← String.toList_inj, toList_textOf_cons, String.toList_append, String.toList_append]

theorem separated_textOf (first : Token) {slots : List Slot}
    (h : (⟨.tight, first⟩ :: slots).IsChain fun left slot =>
      Separates options left.token slot.token (slot.separator.text options)) :
    Separated options (first :: slots.map Slot.token) (first.text ++ textOf options slots) := by
  induction slots generalizing first with
  | nil =>
    have hnil : textOf options [] = "" := by simp [textOf]
    rw [hnil, String.append_empty]
    exact .single first
  | cons slot rest ih =>
    obtain ⟨hfirst, hrest⟩ := List.isChain_cons_cons.mp h
    have hchain : (⟨.tight, slot.token⟩ :: rest).IsChain fun left slot =>
        Separates options left.token slot.token (slot.separator.text options) := by
      cases rest with
      | nil => exact .singleton _
      | cons next others =>
        obtain ⟨hnext, hothers⟩ := List.isChain_cons_cons.mp hrest
        exact .cons_cons hnext hothers
    rw [textOf_cons, String.append_assoc, ← String.append_assoc]
    exact .cons hfirst (ih slot.token hchain)

theorem exists_slotsOfWords_eq_cons {words : List JoinedWord} (h : words ≠ []) :
    ∃ token slots, slotsOfWords words = ⟨.tight, token⟩ :: slots := by
  obtain ⟨first, rest, rfl⟩ := List.exists_cons_of_ne_nil h
  rw [slotsOfWords]
  cases first.word.comments with
  | nil => exact ⟨_, _, rfl⟩
  | cons comment others => exact ⟨_, _, rfl⟩

theorem separated_slotsOfWords {words : List JoinedWord}
    (h : ∀ next ∈ words, Proper next.word) :
    Separated options ((slotsOfWords words).map Slot.token)
      (textOf options (slotsOfWords words)) := by
  have hchain := chain_slotsOfWords
    (R := fun left slot => Separates options left slot.token (slot.separator.text options))
    (fun left level count token hkept _ => separates_lineBreaks hkept token) h
    (List.Pairwise.isChain (List.pairwise_of_forall fun left next =>
      separates_separatorBetween left.word.mark next.word.mark.token next.insert next.level))
  by_cases hwords : words = []
  · subst hwords
    have hnil : textOf options [] = "" := by simp [textOf]
    rw [slotsOfWords, hnil]
    exact .nil
  · obtain ⟨token, slots, hslots⟩ := exists_slotsOfWords_eq_cons hwords
    rw [hslots] at hchain ⊢
    rw [textOf_cons, Separator.text, String.empty_append]
    exact separated_textOf token hchain

end Layout

/-- Before its end is adjusted, the layout of any text is the tokens that attachment finds, each two
neighbours with a separator that may stand between them. -/
theorem formatText_separated (text : String) (options : LayoutOptions) :
    ∃ rendered, Layout.Separated options (Leaf.kept [] (parse text).tree.leaves) rendered ∧
      formatText? text options false =
        some (if Leaf.kept [] (parse text).tree.leaves = [] then ""
          else Layout.finish options rendered) := by
  have hseparated : Layout.Separated options
      ((Layout.slotsOf (parse text).tree).map Layout.Slot.token)
      (Layout.textOf options (Layout.slotsOf (parse text).tree)) := by
    rw [Layout.slotsOf_eq]
    exact Layout.separated_slotsOfWords (proper_joinedTree text)
  rw [← Layout.map_token_slotsOf]
  refine ⟨_, hseparated, ?_⟩
  rw [formatText?, if_neg Bool.false_ne_true, formatText, Tree.format]
  cases Layout.slotsOf (parse text).tree with
  | nil => rfl
  | cons slot rest => rfl

end Ili
