import Ili.Proofs.Layout.Weld
import Ili.Proofs.Token.Cut

/-!
# The words of a tree

Layout takes every visible token of a tree once, in order, and with it the comments attached to it.
Nothing else of a word matters for where it goes: what is asked for in front of a word depends on
the kinds of the tokens alone.
-/

namespace Ili

namespace Leaf

def tokensOf (leaves : List Leaf) : List Token :=
  leaves.filterMap fun
    | .token t => some t
    | .gap => none

theorem tokensOf_append (left right : List Leaf) :
    tokensOf (left ++ right) = tokensOf left ++ tokensOf right :=
  List.filterMap_append

theorem tokensOf_cons_token (t : Token) (rest : List Leaf) :
    tokensOf (.token t :: rest) = t :: tokensOf rest :=
  rfl

theorem tokensOf_cons_gap (rest : List Leaf) : tokensOf (.gap :: rest) = tokensOf rest :=
  rfl

end Leaf

mutual

theorem Tree.tokensOf_leaves (tree : Tree) : Leaf.tokensOf tree.leaves = tree.tokens := by
  match tree with
  | .token _ => rfl
  | .node _ [] => rfl
  | .node _ (child :: rest) =>
    rw [leaves, tokens, tokensOf, Leaf.tokensOf_append, child.tokensOf_leaves,
      Tree.tokensOf_leavesOf rest]

theorem Tree.tokensOf_leavesOf (row : List Tree) :
    Leaf.tokensOf (Tree.leavesOf row) = Tree.tokensOf row := by
  match row with
  | [] => rfl
  | tree :: rest =>
    rw [leavesOf, tokensOf, Leaf.tokensOf_append, tree.tokensOf_leaves,
      Tree.tokensOf_leavesOf rest]

end

theorem map_token_attachedWords (pending : List Mark) (leaves : List Leaf) :
    (attachedWords pending leaves).map (fun word => word.mark.token) =
      visible (Leaf.tokensOf leaves) := by
  induction leaves generalizing pending with
  | nil => rfl
  | cons leaf rest ih =>
    cases leaf with
    | gap => exact ih []
    | token token =>
      rw [Leaf.tokensOf_cons_token]
      by_cases hcomment : token.kind.isComment = true
      · have htrivia : token.kind.isTrivia = true := by simp [Kind.isTrivia, hcomment]
        simp [attachedWords, hcomment, visible, htrivia, ih]
      · by_cases htrivia : token.kind.isTrivia = true
        · simp [attachedWords, hcomment, htrivia, visible, ih]
        · simp [attachedWords, hcomment, htrivia, visible, ih]

namespace Skeleton

mutual

def words : Skeleton → List Word
  | word w => [w]
  | node _ children => wordsOf children

def wordsOf : List Skeleton → List Word
  | [] => []
  | skeleton :: rest => skeleton.words ++ wordsOf rest

end

theorem wordsOf_append (left right : List Skeleton) :
    wordsOf (left ++ right) = wordsOf left ++ wordsOf right := by
  induction left with
  | nil => rfl
  | cons skeleton rest ih => simp [wordsOf, ih]

mutual

def mapWords (f : Word → Word) : Skeleton → Skeleton
  | word w => word (f w)
  | node kind children => node kind (mapWordsOf f children)

def mapWordsOf (f : Word → Word) : List Skeleton → List Skeleton
  | [] => []
  | skeleton :: rest => skeleton.mapWords f :: mapWordsOf f rest

end

theorem mapWordsOf_eq_map (f : Word → Word) (row : List Skeleton) :
    mapWordsOf f row = row.map (mapWords f) := by
  induction row with
  | nil => rfl
  | cons skeleton rest ih => rw [mapWordsOf, ih, List.map_cons]

end Skeleton

namespace Tree

mutual

/-- Dressing a tree uses up as many words as it has visible tokens, and those are the words of its
skeleton. -/
theorem dress_words (tree : Tree) (words rest : List Word)
    (hlength : words.length = (visible tree.tokens).length) :
    Skeleton.wordsOf (tree.dress (words ++ rest)).1.toList = words ∧
      (tree.dress (words ++ rest)).2 = rest := by
  match tree with
  | .token t =>
    by_cases htrivia : t.kind.isTrivia = true
    · have hnil : words = [] := by simpa [tokens, visible, htrivia] using hlength
      simp [dress, htrivia, hnil, Skeleton.wordsOf]
    · obtain ⟨word, rfl⟩ : ∃ word, words = [word] := by
        apply List.length_eq_one_iff.mp
        simpa [tokens, visible, htrivia] using hlength
      simp [dress, htrivia, Skeleton.wordsOf, Skeleton.words]
  | .node kind children =>
    obtain ⟨hwords, hrest⟩ := dressAll_words children words rest hlength
    cases hdressed : (dressAll children (words ++ rest)).1 with
    | nil =>
      have hnil : words = [] := by rw [← hwords, hdressed, Skeleton.wordsOf]
      have hpair : dressAll children (words ++ rest) = ([], rest) := Prod.ext hdressed hrest
      rw [dress, hpair]
      exact ⟨hnil.symm, rfl⟩
    | cons first others =>
      have hpair : dressAll children (words ++ rest) = (first :: others, rest) :=
        Prod.ext hdressed hrest
      rw [hdressed] at hwords
      simp only [dress, hpair, Option.toList_some, Skeleton.wordsOf, Skeleton.words,
        List.append_nil, and_true]
      exact hwords

theorem dressAll_words (row : List Tree) (words rest : List Word)
    (hlength : words.length = (visible (tokensOf row)).length) :
    Skeleton.wordsOf (dressAll row (words ++ rest)).1 = words ∧
      (dressAll row (words ++ rest)).2 = rest := by
  match row with
  | [] =>
    have hnil : words = [] := by simpa [tokensOf, visible] using hlength
    simp [dressAll, hnil, Skeleton.wordsOf]
  | tree :: others =>
    rw [tokensOf, visible_append, List.length_append] at hlength
    obtain ⟨front, back, rfl, hfront⟩ : ∃ front back, words = front ++ back ∧
        front.length = (visible tree.tokens).length :=
      ⟨words.take (visible tree.tokens).length, words.drop _, (List.take_append_drop _ _).symm, by
        rw [List.length_take]; omega⟩
    have hback : back.length = (visible (tokensOf others)).length := by
      rw [List.length_append] at hlength
      omega
    obtain ⟨hfirst, hafter⟩ := dress_words tree front (back ++ rest) hfront
    obtain ⟨hothers, hrest⟩ := dressAll_words others back rest hback
    simp only [dressAll, List.append_assoc, hafter, Skeleton.wordsOf_append, hfirst, hothers, hrest,
      and_self]

end

/-- The words of the skeleton are the visible tokens with what is attached to them. -/
theorem words_skeleton? (tree : Tree) :
    Skeleton.wordsOf tree.skeleton?.toList = attachedWords [] tree.leaves := by
  have hlength : (attachedWords [] tree.leaves).length = (visible tree.tokens).length := by
    rw [← tree.tokensOf_leaves, ← map_token_attachedWords [] tree.leaves, List.length_map]
  simpa [skeleton?] using (tree.dress_words _ [] hlength).1

end Tree

namespace Layout

theorem map_word_reopen (insert : Option Insert) (level : Nat) (words : List JoinedWord) :
    (reopen insert level words).map JoinedWord.word = words.map JoinedWord.word := by
  cases words <;> rfl

mutual

theorem map_word_joined (level : Nat) (skeleton : Skeleton) :
    (joined level skeleton).map JoinedWord.word = skeleton.words := by
  match skeleton with
  | .word word => rfl
  | .node kind children =>
    rw [joined, Skeleton.words]
    exact map_word_joinedAll _ _ children

theorem map_word_joinedAll (rules : List Rule) (progress : Progress) (children : List Skeleton) :
    (joinedAll rules progress children).map JoinedWord.word = Skeleton.wordsOf children := by
  match children with
  | [] => rfl
  | child :: rest =>
    rw [joinedAll, List.map_append, map_word_reopen, map_word_joined _ child,
      map_word_joinedAll _ _ rest, Skeleton.wordsOf]

end

theorem map_word_joinedBody (tree : Tree) :
    (joinedBody tree).map JoinedWord.word = attachedWords [] tree.leaves := by
  rw [joinedBody, ← tree.words_skeleton?]
  cases tree.skeleton? with
  | none => rfl
  | some skeleton => simpa [Skeleton.wordsOf] using map_word_joined 0 skeleton

theorem map_word_joinedTree (tree : Tree) :
    (joinedTree tree).map JoinedWord.word =
      attachedWords [] tree.leaves ++ tree.trailingComments.map fun comment => ⟨[], comment⟩ := by
  rw [joinedTree, List.map_append, List.map_map, map_word_joinedBody]
  rfl

/-- The tokens of a word in the order they are printed. -/
def wordTokens (word : Word) : List Token :=
  word.comments.map Mark.token ++ [word.mark.token]

theorem map_token_commentSlots (level : Nat) (left : Mark) (comments : List Mark) :
    (Part.commentSlots level left comments).map Slot.token = comments.map Mark.token := by
  induction comments generalizing left with
  | nil => rfl
  | cons comment rest ih => simp [Part.commentSlots, ih]

theorem map_token_slotsBehind (left : Mark) (words : List JoinedWord) :
    (slotsBehind left words).map Slot.token =
      (words.map JoinedWord.word).flatMap wordTokens := by
  induction words generalizing left with
  | nil => rfl
  | cons next rest ih =>
    simp [slotsBehind, map_token_commentSlots, ih, wordTokens]

theorem map_token_slotsOfWords (words : List JoinedWord) :
    (slotsOfWords words).map Slot.token = (words.map JoinedWord.word).flatMap wordTokens := by
  cases words with
  | nil => rfl
  | cons first rest =>
    cases hcomments : first.word.comments <;>
      simp [slotsOfWords, hcomments, map_token_commentSlots, map_token_slotsBehind, wordTokens]

end Layout

end Ili
