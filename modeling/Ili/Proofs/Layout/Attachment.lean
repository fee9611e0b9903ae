import Ili.Proofs.Layout.Kept
import Ili.Proofs.Grammar.Blocks

/-!
# Attachment by tokens

In a tree of a text a gap stands behind all blanks and comments it could stand among. So what is
attached to a visible token follows from the row of tokens alone, but for one bit: whether a gap
cuts the token off from the comments in front of it. Those bits can be read off the bare tree.
-/

namespace Ili

def breaksIn : List Token → Nat
  | [] => 0
  | t :: rest => if t.kind = .whitespace then t.text.toList.count '\n' + breaksIn rest else 0

/-- The words of a row of tokens, and the comments behind the last one. `pending` holds the comments
met since the last visible token and `cuts` says of every visible token whether it is cut off from
them. -/
def gather (pending : List Mark) (cuts : List Bool) : List Token → List Word × List Mark
  | [] => ([], pending)
  | t :: rest =>
    if t.kind.isComment then gather (pending ++ [⟨t, breaksIn rest⟩]) cuts rest
    else if t.kind.isTrivia then gather pending cuts rest
    else
      let (words, trailing) := gather [] cuts.tail rest
      (⟨if cuts.headD false then [] else pending, ⟨t, breaksIn rest⟩⟩ :: words, trailing)

namespace Leaf

/-- For every visible token, whether a gap stands between it and the one before. -/
def cuts (seen : Bool) : List Leaf → List Bool
  | [] => []
  | .gap :: rest => cuts true rest
  | .token t :: rest => if t.kind.isTrivia then cuts seen rest else seen :: cuts false rest

theorem cuts_bare (keep : Kind → Bool) (f : String → String) (seen : Bool) (leaves : List Leaf) :
    cuts seen (bare keep f leaves) = cuts seen leaves := by
  induction leaves generalizing seen with
  | nil => rfl
  | cons leaf rest ih =>
    have hcons : bare keep f (leaf :: rest) =
        if leaf.isDropped keep then bare keep f rest else leaf.rewrite f :: bare keep f rest := by
      by_cases hdropped : leaf.isDropped keep = true <;> simp [bare, hdropped]
    rw [hcons]
    cases leaf with
    | gap => exact ih true
    | token t =>
      have hkind : (t.rewrite f).kind = t.kind := rfl
      split
      · next hdropped =>
        have htrivia : t.kind.isTrivia = true := ((Bool.and_eq_true _ _).mp hdropped).1
        rw [ih, cuts, if_pos htrivia]
      · rw [rewrite, cuts, cuts, hkind, ih, ih]

theorem Snug.tail {leaf : Leaf} {rest : List Leaf} (h : Snug (leaf :: rest)) : Snug rest :=
  List.IsChain.tail h

theorem Snug.isTrivia_of_gap {rest : List Leaf} (h : Snug (.gap :: rest)) :
    ∀ token ∈ (tokensOf rest).head?, token.kind.isTrivia = false := by
  induction rest with
  | nil => simp [tokensOf]
  | cons leaf rest ih =>
    cases leaf with
    | gap => exact ih h.tail
    | token t =>
      intro token htoken
      obtain rfl := Option.some.inj htoken
      exact (List.isChain_cons_cons.mp h).1 rfl

theorem breaksIn_of_visible {tokens : List Token}
    (h : ∀ token ∈ tokens.head?, token.kind.isTrivia = false) : breaksIn tokens = 0 := by
  cases tokens with
  | nil => rfl
  | cons t rest =>
    rw [breaksIn, if_neg]
    intro hkind
    have hvisible := h t rfl
    rw [hkind] at hvisible
    cases hvisible

theorem breaksAhead_eq {leaves : List Leaf} (h : Snug leaves) :
    breaksAhead leaves = breaksIn (tokensOf leaves) := by
  induction leaves with
  | nil => rfl
  | cons leaf rest ih =>
    cases leaf with
    | gap => exact (breaksIn_of_visible h.isTrivia_of_gap).symm
    | token t => rw [breaksAhead, tokensOf_cons_token, breaksIn, ih h.tail]

theorem attachedWords_eq {leaves : List Leaf} (h : Snug leaves) (pending : List Mark)
    (seen : Bool) (hseen : seen = true → Snug (.gap :: leaves)) :
    attachedWords (if seen then [] else pending) leaves =
      (gather pending (cuts seen leaves) (tokensOf leaves)).1 := by
  induction leaves generalizing pending seen with
  | nil => rfl
  | cons leaf rest ih =>
    cases leaf with
    | gap => exact ih h.tail pending true fun _ => h
    | token t =>
      rw [attachedWords, cuts, tokensOf_cons_token, gather, breaksAhead_eq h.tail]
      have hunseen : false = true → Snug (.gap :: rest) := fun h => absurd h Bool.false_ne_true
      by_cases htrivia : t.kind.isTrivia = true
      · obtain rfl : seen = false := by
          rw [← Bool.not_eq_true]
          intro hgap
          have hvisible : t.kind.isTrivia = false :=
            (hseen hgap).isTrivia_of_gap t (by rw [tokensOf_cons_token]; rfl)
          rw [htrivia] at hvisible
          cases hvisible
        rw [if_pos htrivia, if_pos htrivia, if_pos htrivia]
        split
        · exact ih h.tail _ false hunseen
        · exact ih h.tail pending false hunseen
      · have hcomment : ¬t.kind.isComment = true := by
          intro hcomment
          simp [Kind.isTrivia, hcomment] at htrivia
        rw [if_neg hcomment, if_neg hcomment, if_neg htrivia, if_neg htrivia, if_neg htrivia]
        exact congrArg _ (ih h.tail [] false hunseen)

theorem gather_snd_of_any {leaves : List Leaf} (h : leaves.any isWord = true)
    (pending other : List Mark) (flags : List Bool) :
    (gather pending flags (tokensOf leaves)).2 = (gather other flags (tokensOf leaves)).2 := by
  induction leaves generalizing pending other with
  | nil => cases h
  | cons leaf rest ih =>
    cases leaf with
    | gap => exact ih h pending other
    | token t =>
      rw [tokensOf_cons_token, gather, gather]
      by_cases htrivia : t.kind.isTrivia = true
      · have hrest : rest.any isWord = true := by
          have hword : (Leaf.token t).isWord = false := by simp [isWord, isToken, htrivia]
          rwa [List.any_cons, hword, Bool.false_or] at h
        rw [if_pos htrivia, if_pos htrivia]
        split <;> exact ih hrest _ _
      · have hcomment : ¬t.kind.isComment = true := by
          intro hcomment
          simp [Kind.isTrivia, hcomment] at htrivia
        rw [if_neg hcomment, if_neg hcomment, if_neg htrivia, if_neg htrivia]

theorem gather_snd_of_not_any {leaves : List Leaf} (hsnug : Snug leaves)
    (h : ¬leaves.any isWord = true) (pending : List Mark) (flags : List Bool) :
    (gather pending flags (tokensOf leaves)).2 = pending ++ commentsBeforeGap leaves := by
  induction leaves generalizing pending with
  | nil => simp [tokensOf, gather, commentsBeforeGap]
  | cons leaf rest ih =>
    rw [List.any_cons, Bool.or_eq_true, not_or] at h
    cases leaf with
    | gap =>
      -- A token behind the gap would be visible.
      have hnil : tokensOf rest = [] := by
        cases htokens : tokensOf rest with
        | nil => rfl
        | cons t others =>
          have hvisible := hsnug.isTrivia_of_gap t (by rw [htokens]; rfl)
          have hmem : Leaf.token t ∈ rest := by
            have ht : t ∈ tokensOf rest := by simp [htokens]
            obtain ⟨leaf, hleaf, hsome⟩ := List.mem_filterMap.mp ht
            cases leaf with
            | gap => cases hsome
            | token s => rwa [← Option.some.inj hsome]
          exact absurd (List.any_eq_true.mpr ⟨_, hmem, by simp [isWord, isToken, hvisible]⟩) h.2
      rw [tokensOf_cons_gap, hnil]
      simp [gather, commentsBeforeGap]
    | token t =>
      have htrivia : t.kind.isTrivia = true := by simpa [isWord, isToken] using h.1
      rw [tokensOf_cons_token, gather, commentsBeforeGap_cons_token, if_pos htrivia,
        breaksAhead_eq hsnug.tail]
      split
      · rw [ih hsnug.tail h.2, List.append_assoc]
        rfl
      · exact ih hsnug.tail h.2 pending

theorem commentsBeforeGap_behindLastWord {leaves : List Leaf} (h : Snug leaves)
    (flags : List Bool) :
    commentsBeforeGap (behindLastWord leaves) = (gather [] flags (tokensOf leaves)).2 := by
  induction leaves generalizing flags with
  | nil => rfl
  | cons leaf rest ih =>
    rw [behindLastWord_cons]
    split
    · next hany =>
      cases leaf with
      | gap => exact ih h.tail flags
      | token t =>
        rw [tokensOf_cons_token, gather]
        split
        · rw [ih h.tail flags]
          exact gather_snd_of_any hany _ _ _
        · split <;> exact ih h.tail _
    · next hnone =>
      split
      · next hword =>
        cases leaf with
        | gap => cases hword
        | token t =>
          have htrivia : ¬t.kind.isTrivia = true := by simpa [isWord, isToken] using hword
          have hcomment : ¬t.kind.isComment = true := by
            intro hcomment
            simp [Kind.isTrivia, hcomment] at htrivia
          rw [tokensOf_cons_token, gather, if_neg hcomment, if_neg htrivia]
          exact (gather_snd_of_not_any h.tail hnone [] _).symm
      · next hword =>
        have hall : ¬(leaf :: rest).any isWord = true := by
          rw [List.any_cons, Bool.or_eq_true, not_or]
          exact ⟨hword, hnone⟩
        rw [gather_snd_of_not_any h hall, List.nil_append]

end Leaf

def cutsOf (text : String) : List Bool :=
  Leaf.cuts false (Tree.leavesOf (parse text).tree.children)

section Parsed

variable (text : String)

theorem leaves_parse : (parse text).tree.leaves = Tree.leavesOf (parse text).tree.children ∨
    (parse text).tree.leaves = [.gap] ∧ Tree.leavesOf (parse text).tree.children = [] := by
  have hroot : (parse text).tree = .node .sourceFile (parse text).tree.children := rfl
  by_cases hchildren : (parse text).tree.children = []
  · right
    rw [hroot]
    simp only [Tree.children] at hchildren
    simp [hchildren, Tree.leaves, Tree.leavesOf, Tree.children]
  · left
    conv_lhs => rw [hroot]
    exact Tree.leaves_node _ hchildren

/-- The words of a parsed text and the comments behind them. -/
theorem gather_parse :
    gather [] (cutsOf text) (parse text).tree.tokens =
      (attachedWords [] (parse text).tree.leaves, (parse text).tree.trailingComments) := by
  obtain ⟨hsnug, -⟩ := places_parse text
  rw [← Tree.tokensOf_leaves, cutsOf, Tree.trailingComments]
  rcases leaves_parse text with hleaves | ⟨hleaves, hnil⟩
  · rw [hleaves]
    exact Prod.ext (Leaf.attachedWords_eq hsnug [] false fun h => absurd h Bool.false_ne_true).symm
      (Leaf.commentsBeforeGap_behindLastWord hsnug _).symm
  · rw [hleaves, hnil]
    rfl

end Parsed

theorem cutsOf_congr {keep : Kind → Bool} {f : String → String} {text other : String}
    (h : (parse other).tree.bare keep id = (parse text).tree.bare keep f) :
    cutsOf other = cutsOf text := by
  have hrow (text : String) (f : String → String) :
      cutsOf text = Leaf.cuts false (Tree.leavesOf ((parse text).tree.bare keep f).children) := by
    have hchildren : ((parse text).tree.bare keep f).children =
        Tree.bareOf keep f (parse text).tree.children := rfl
    rw [hchildren, Tree.leavesOf_bareOf keep f (places_parse text).2, Leaf.cuts_bare]
    rfl
  rw [hrow other id, hrow text f, h]

namespace Tree

section Bare

variable (keep : Kind → Bool) (f : String → String)

mutual

theorem dress_bare (tree : Tree) (words : List Word) :
    (tree.bare keep f).dress words = tree.dress words := by
  match tree with
  | token t =>
    have hkind : (t.rewrite f).kind = t.kind := rfl
    simp only [bare, dress, hkind]
  | node kind children => rw [bare, dress, dress, dressAll_bareOf children words]

theorem dressAll_bareOf (row : List Tree) (words : List Word) :
    dressAll (bareOf keep f row) words = dressAll row words := by
  match row with
  | [] => rfl
  | tree :: rest =>
    rw [bareOf]
    split
    · next hdropped =>
      cases tree with
      | token t =>
        have htrivia : t.kind.isTrivia = true := ((Bool.and_eq_true _ _).mp hdropped).1
        simp [dressAll, dress, htrivia, dressAll_bareOf rest words]
      | node kind children => cases hdropped
    · simp only [dressAll, dress_bare tree words]
      rw [dressAll_bareOf rest _]

end

end Bare

mutual

theorem dress_map (g : Word → Word) (tree : Tree) (words : List Word) :
    tree.dress (words.map g) =
      ((tree.dress words).1.map (Skeleton.mapWords g), (tree.dress words).2.map g) := by
  match tree with
  | token t =>
    by_cases htrivia : t.kind.isTrivia = true <;> cases words <;>
      simp [dress, htrivia, Skeleton.mapWords]
  | node kind children =>
    simp only [dress, dressAll_map g children words]
    obtain ⟨dressed, rest⟩ := dressAll children words
    cases dressed <;> rfl

theorem dressAll_map (g : Word → Word) (row : List Tree) (words : List Word) :
    dressAll row (words.map g) =
      (Skeleton.mapWordsOf g (dressAll row words).1, (dressAll row words).2.map g) := by
  match row with
  | [] => rfl
  | tree :: rest =>
    simp only [dressAll, dress_map g tree words, dressAll_map g rest _, Skeleton.mapWordsOf_eq_map,
      List.map_append]
    cases (tree.dress words).1 <;> rfl

end

end Tree

end Ili
