import Ili.Proofs.Grammar.Regular
import Ili.Proofs.Grammar.Steps
import Ili.Proofs.Text.Places

/-!
# Where paths stand

The node of a path begins and ends with a word, also in a text with errors. Two words never stand
next to each other, they would be one. So between any two paths of a text there is something else,
and the ranges they cover do not touch.
-/

namespace Ili

theorem Lexer.munch_ne_path (c : Char) (cs : List Char) : (munch c cs).1 ≠ .path := by
  unfold munch
  repeat' split
  · simp
  · intro hpath
    have hkind : Kind.ofWord (String.ofList (c :: cs.takeWhile isWordChar)) = .path := hpath
    have hword := Token.isWord_ofWord (String.ofList (c :: cs.takeWhile isWordChar))
    rw [hkind] at hword
    cases hword
  · rw [number_eq]
    split <;> simp
  · simp only [quoted]
    split <;> simp
  · unfold slash
    repeat' split
    all_goals simp
  · unfold bang
    split <;> simp
  · unfold punctuation
    split <;> simp

namespace Token

theorem Heads.size_pos {token : Token} {rest : List Char} (h : token.Heads rest) :
    0 < token.size := by
  obtain ⟨c, cs, htext, -⟩ := h
  rw [size, htext]
  exact utf8Length_pos (List.cons_ne_nil c cs)

theorem Heads.isWordLike_next {token next : Token} {rest : List Char}
    (h : token.Heads (next.text.toList ++ rest)) (hword : Token.isWordLike token = true) :
    Token.isWordLike next = false := by
  have hend := (h.read_of_isWordLike hword).2
  rw [Token.isWordLike]
  cases hnext : next.text.toList with
  | nil => rfl
  | cons d ds =>
    rw [hnext] at hend
    have hd : (d.isAlphanum || d == '_') = false := hend
    simp only [Char.isAlphanum, Bool.or_eq_false_iff] at hd
    exact hd.1.1

/-- The tokens of a text: none is empty, and no two words are neighbours. -/
structure Cut (tokens : List Token) : Prop where
  size_pos : ∀ token ∈ tokens, 0 < token.size
  words : tokens.IsChain fun token next => token.isWordLike = true → next.isWordLike = false

theorem cut_of_tiled {tokens : List Token} (h : Tiled tokens) : Cut tokens where
  size_pos token htoken := by
    obtain ⟨rest, hheads⟩ := h.heads_of_mem htoken
    exact hheads.size_pos
  words := by
    induction tokens with
    | nil => exact .nil
    | cons token rest ih =>
      refine List.isChain_cons.mpr ⟨fun next hnext => ?_, ih h.2⟩
      obtain ⟨others, rfl⟩ := List.head?_eq_some_iff.mp hnext
      exact h.1.isWordLike_next

theorem Cut.of_map {tokens : List Token} {f : Token → Token} (hf : ∀ t, (f t).text = t.text)
    (h : Cut (tokens.map f)) : Cut tokens where
  size_pos token htoken := by
    have hpos := h.size_pos _ (List.mem_map_of_mem htoken)
    rwa [size, hf] at hpos
  words := by
    refine ((List.isChain_map f).mp h.words).imp fun token next hnext => ?_
    simpa only [isWordLike, hf] using hnext

end Token

theorem cut_parse (text : String) : Token.Cut (parse text).tree.tokens := by
  apply Token.Cut.of_map Token.text_restore
  rw [map_restore_tokens_parse]
  exact Token.cut_of_tiled (tiled_tokenize text)

theorem kind_ne_path_parse (text : String) : ∀ t ∈ (parse text).tree.tokens, t.kind ≠ .path := by
  intro t ht hpath
  have hmem : t.restore ∈ tokenize text := by
    rw [← map_restore_tokens_parse]
    exact List.mem_map_of_mem ht
  have hrestore : t.restore = t := Token.restore_of_ne (by rw [hpath]; nofun)
  obtain ⟨rest, c, cs, -, hmunch⟩ := (tiled_tokenize text).heads_of_mem hmem
  refine Lexer.munch_ne_path c (cs ++ rest) ?_
  rw [hmunch, hrestore]
  exact hpath

/-! ### Paths begin and end with words -/

structure Token.Spell (tokens : List Token) : Prop where
  first : ∃ first rest, tokens = first :: rest ∧ first.isWordLike = true
  last : ∃ front last, tokens = front ++ [last] ∧ last.isWordLike = true

def Tree.PathsSpelled (row : List Tree) : Prop :=
  ∀ node ∈ nodesOf row, node.kind = .path → Token.Spell node.tokens

namespace Tree

theorem PathsSpelled.append {left right : List Tree} (hleft : PathsSpelled left)
    (hright : PathsSpelled right) : PathsSpelled (left ++ right) := by
  intro node hnode
  rw [nodesOf_append] at hnode
  exact (List.mem_append.mp hnode).elim (hleft node) (hright node)

theorem pathsSpelled_nil : PathsSpelled [] :=
  List.forall_mem_nil _

theorem pathsSpelled_map_token (row : List Token) : PathsSpelled (row.map token) := by
  rw [PathsSpelled, nodesOf_map_token]
  exact List.forall_mem_nil _

theorem PathsSpelled.node {kind : Kind} {children : List Tree} (h : PathsSpelled children)
    (hkind : kind = .path → Token.Spell (tokensOf children)) :
    PathsSpelled [.node kind children] := by
  intro node hnode
  rcases List.mem_append.mp hnode with hnode | hnode
  · rcases List.mem_cons.mp hnode with rfl | hnode
    · exact hkind
    · exact h node hnode
  · cases hnode

end Tree

namespace Rule

def leavesPaths : Rule → Bool
  | .choose guard yes no =>
    .choose guard yes no = Grammar.path || yes.leavesPaths && no.leavesPaths
  | .node kind body => kind != .path && body.leavesPaths
  | .extendAs kind first _ second => kind != .path && first.leavesPaths && second.leavesPaths
  | .seq first second => first.leavesPaths && second.leavesPaths
  | .many _ body => body.leavesPaths
  | .skip | .bump | .bumpAs _ | .flush | .report _ | .balancedTo _ | .nested => true

def seesSegment : Guard :=
  .both (.sees [.dot]) (.either (.thenSees [.ident]) .thenSeesKeyword)

theorem exists_segment {ahead : List Lexeme} (h : seesSegment.holds ahead = true) :
    ∃ dot word rest, ahead = dot :: word :: rest ∧
      (word.kind == .ident || word.kind.isKeyword) = true := by
  match ahead with
  | [] => cases h
  | [_] => simp [seesSegment, Guard.holds] at h
  | dot :: word :: rest =>
    refine ⟨dot, word, rest, rfl, ?_⟩
    simp only [seesSegment, Guard.holds, Bool.and_eq_true] at h
    simpa using h.2

theorem segments_runMany {nested : Input → Outcome} (bound : Nat) {input : Input}
    (hworded : input.Worded) :
    ∃ row : List Token, (runMany seesSegment ((seq bump bump).runWith nested) bound input).trees =
      row.map .token ∧
      (row = [] ∨ ∃ front last, row = front ++ [last] ∧ last.isWordLike = true) := by
  induction bound generalizing input with
  | zero => exact ⟨[], rfl, .inl rfl⟩
  | succ bound ih =>
    rw [runMany]
    split
    · next hholds =>
      obtain ⟨dot, word, rest, hahead, hkind⟩ := exists_segment hholds
      have hstep : (seq bump bump).runWith nested input =
          ⟨(dot.tokens ++ word.tokens).map .token, [], { input with ahead := rest }⟩ := by
        simp [runWith, runBump, Outcome.andThen, hahead, Lexeme.tokens]
      have hrest : ({ input with ahead := rest } : Input).Worded := fun lexeme hlexeme =>
        hworded lexeme (by rw [hahead]; exact .tail _ (.tail _ hlexeme))
      have hword : word.token.isWordLike = true :=
        hworded word (by rw [hahead]; exact .tail _ (.head _)) hkind
      obtain ⟨row, hrow, hlast⟩ := ih hrest
      refine ⟨dot.tokens ++ word.tokens ++ row, ?_, .inr ?_⟩
      · have hsplit : (dot.tokens ++ word.tokens ++ row).map Tree.token =
            (dot.tokens ++ word.tokens).map Tree.token ++ row.map Tree.token := List.map_append
        rw [hstep, hsplit, ← hrow]
        rfl
      · rcases hlast with rfl | ⟨front, last, rfl, hlast⟩
        · exact ⟨dot.tokens ++ word.trivia, word.token, by simp [Lexeme.tokens], hword⟩
        · exact ⟨dot.tokens ++ word.tokens ++ front, last, by simp, hlast⟩
    · exact ⟨[], rfl, .inl rfl⟩

theorem pathsSpelled_path {nested : Input → Outcome} {input : Input} (hworded : input.Worded) :
    Tree.PathsSpelled (Grammar.path.runWith nested input).trees := by
  cases hholds : (Guard.sees Grammar.pathStarts).holds input.ahead with
  | false =>
    rw [Grammar.path, runWith_choose_of_not_holds hholds]
    exact Tree.pathsSpelled_nil
  | true =>
    rw [Grammar.path, runWith_choose_of_holds hholds]
    obtain ⟨ahead, trailing, stop⟩ := input
    cases ahead with
    | nil => cases hholds
    | cons first rest =>
      have hkind : (first.kind == .ident || first.kind.isKeyword) = true := by
        have hstart : first.kind = .ident ∨ first.kind = .interlisKw := by
          simpa [Guard.holds, Grammar.pathStarts] using hholds
        rcases hstart with hstart | hstart <;> rw [hstart] <;> rfl
      have hfirst : first.token.isWordLike = true := hworded first (.head _) hkind
      have hrest : (⟨rest, trailing, stop⟩ : Input).Worded := fun lexeme hlexeme =>
        hworded lexeme (.tail _ hlexeme)
      obtain ⟨row, hrow, hlast⟩ := segments_runMany rest.length hrest
      have hspell : Token.Spell (first.token :: row) := by
        refine ⟨⟨first.token, row, rfl, hfirst⟩, ?_⟩
        rcases hlast with rfl | ⟨front, last, rfl, hlast⟩
        · exact ⟨[], first.token, rfl, hfirst⟩
        · exact ⟨first.token :: front, last, rfl, hlast⟩
      change Tree.PathsSpelled (first.trivia.map .token ++ [.node .path (.token first.token ::
        (runMany seesSegment ((seq bump bump).runWith nested) rest.length
          ⟨rest, trailing, stop⟩).trees)])
      rw [hrow, ← List.map_cons]
      refine (Tree.pathsSpelled_map_token _).append
        ((Tree.pathsSpelled_map_token _).node fun _ => ?_)
      rwa [Tree.tokensOf_map_token]

theorem pathsSpelled_runMany {guard : Guard} {step : Input → Outcome}
    (htakes : ∀ input : Input, input.Sorted → (step input).Takes input)
    (hstep : ∀ input : Input, input.Sorted → input.Worded → Tree.PathsSpelled (step input).trees)
    (bound : Nat) {input : Input} (h : input.Sorted) (hworded : input.Worded) :
    Tree.PathsSpelled (runMany guard step bound input).trees := by
  induction bound generalizing input with
  | zero => exact Tree.pathsSpelled_nil
  | succ bound ih =>
    rw [runMany]
    split
    · have hfirst := htakes input h
      exact (hstep input h hworded).append (ih hfirst.sorted (hfirst.worded hworded))
    · exact Tree.pathsSpelled_nil

theorem pathsSpelled_runWith {nested : Input → Outcome}
    (htakes : ∀ input : Input, input.Sorted → (nested input).Takes input)
    (hnested : ∀ input : Input, input.Sorted → input.Worded →
      Tree.PathsSpelled (nested input).trees)
    (rule : Rule) (hrule : rule.renamesToIdent = true) (hleaves : rule.leavesPaths = true)
    {input : Input} (h : input.Sorted) (hworded : input.Worded) :
    Tree.PathsSpelled (rule.runWith nested input).trees := by
  induction rule generalizing input with
  | skip | report => exact Tree.pathsSpelled_nil
  | bump | bumpAs =>
    obtain ⟨ahead, trailing, stop⟩ := input
    cases ahead with
    | nil => exact Tree.pathsSpelled_map_token _
    | cons lexeme rest =>
      exact (Tree.pathsSpelled_map_token lexeme.trivia).append (Tree.pathsSpelled_map_token [_])
  | flush => exact Tree.pathsSpelled_map_token _
  | seq first second ihFirst ihSecond =>
    simp only [renamesToIdent, Bool.and_eq_true] at hrule
    simp only [leavesPaths, Bool.and_eq_true] at hleaves
    have hfirst := takes_runWith htakes first hrule.1 h
    exact (ihFirst hrule.1 hleaves.1 h hworded).append
      (ihSecond hrule.2 hleaves.2 hfirst.sorted (hfirst.worded hworded))
  | choose guard yes no ihYes ihNo =>
    simp only [renamesToIdent, Bool.and_eq_true] at hrule
    simp only [leavesPaths, Bool.or_eq_true, Bool.and_eq_true, decide_eq_true_eq] at hleaves
    rcases hleaves with hpath | hleaves
    · rw [hpath]
      exact pathsSpelled_path hworded
    · simp only [runWith]
      split
      · exact ihYes hrule.1 hleaves.1 h hworded
      · exact ihNo hrule.2 hleaves.2 h hworded
  | many guard body ih =>
    exact pathsSpelled_runMany (fun _ hother => takes_runWith htakes body hrule hother)
      (fun _ hother hwords => ih hrule hleaves hother hwords) _ h hworded
  | balancedTo stops =>
    change Tree.PathsSpelled (treesOf _)
    rw [treesOf_eq]
    exact Tree.pathsSpelled_map_token _
  | node kind body ih =>
    simp only [leavesPaths, Bool.and_eq_true, bne_iff_ne] at hleaves
    have hbody := ih hrule hleaves.2 (Input.sorted_flushed h) hworded.flushed
    exact (Tree.pathsSpelled_map_token _).append (hbody.node fun hkind => absurd hkind hleaves.1)
  | extendAs kind first guard second ihFirst ihSecond =>
    simp only [renamesToIdent, Bool.and_eq_true] at hrule
    simp only [leavesPaths, Bool.and_eq_true, bne_iff_ne] at hleaves
    obtain ⟨⟨hkind, hfirst⟩, hsecond⟩ := hleaves
    have hsorted := Input.sorted_flushed h
    have hhead := takes_runWith htakes first hrule.1 hsorted
    have hspelled := ihFirst hrule.1 hfirst hsorted hworded.flushed
    refine (Tree.pathsSpelled_map_token _).append ?_
    dsimp only
    split
    · have hrest := ihSecond hrule.2 hsecond hhead.sorted (hhead.worded hworded.flushed)
      exact (hspelled.append hrest).node fun heq => absurd heq hkind
    · exact hspelled
  | nested => exact hnested input h hworded

theorem pathsSpelled_runNested {inner : Rule} (hrename : inner.renamesToIdent = true)
    (hleaves : inner.leavesPaths = true) (depth : Nat) {input : Input} (h : input.Sorted)
    (hworded : input.Worded) : Tree.PathsSpelled (runNested inner depth input).trees := by
  induction depth generalizing input with
  | zero => exact Tree.pathsSpelled_nil
  | succ depth ih =>
    exact pathsSpelled_runWith (fun _ hother => takes_runNested hrename depth hother)
      (fun _ hother hwords => ih hother hwords) inner hrename hleaves h hworded

end Rule

theorem spell_of_path_parse (text : String) :
    ∀ node ∈ (parse text).tree.nodes, node.kind = .path → Token.Spell node.tokens := by
  have hfile : Tree.PathsSpelled
      (Rule.run Grammar.enumType Grammar.file (Input.ofText text)).trees :=
    Rule.pathsSpelled_runWith (Grammar.takes_nested _)
      (fun _ hother hwords => Rule.pathsSpelled_runNested Grammar.renamesToIdent_enumType
        (by decide) _ hother hwords)
      Grammar.file Grammar.renamesToIdent_file (by decide) (Input.sorted_ofText text)
      (worded_ofText text)
  intro node hnode hkind
  rcases List.mem_cons.mp hnode with rfl | hnode
  · cases hkind
  · exact hfile node hnode hkind

/-! ### The ranges of paths -/

namespace Tree

mutual

def pathRanges (start : Nat) : Tree → List (Nat × Nat)
  | token t => if t.kind = .path then [(start, start + t.size)] else []
  | node kind children =>
    if kind = .path then [(start, start + sizeOfAll children)] else pathRangesOf start children

def pathRangesOf (start : Nat) : List Tree → List (Nat × Nat)
  | [] => []
  | tree :: rest => tree.pathRanges start ++ pathRangesOf (start + tree.size) rest

end

mutual

theorem size_eq (tree : Tree) : tree.size = utf8Length (spelling tree.tokens) := by
  match tree with
  | token t => simp [size, Token.size, tokens, spelling]
  | node _ children => exact sizeOfAll_eq children

theorem sizeOfAll_eq (row : List Tree) : sizeOfAll row = utf8Length (spelling (tokensOf row)) := by
  match row with
  | [] => rfl
  | tree :: rest =>
    rw [sizeOfAll, tokensOf, spelling_append, utf8Length_append, size_eq tree, sizeOfAll_eq rest]

end

mutual

theorem bounds_of_mem_pathRanges {start : Nat} (tree : Tree) :
    ∀ range ∈ tree.pathRanges start, start ≤ range.1 ∧ range.2 ≤ start + tree.size := by
  match tree with
  | token t =>
    intro range hrange
    rw [pathRanges] at hrange
    split at hrange
    · rw [List.mem_singleton.mp hrange]
      exact ⟨Nat.le_refl _, Nat.le_refl _⟩
    · cases hrange
  | node kind children =>
    intro range hrange
    rw [pathRanges] at hrange
    split at hrange
    · rw [List.mem_singleton.mp hrange]
      exact ⟨Nat.le_refl _, Nat.le_refl _⟩
    · exact bounds_of_mem_pathRangesOf children range hrange

theorem bounds_of_mem_pathRangesOf {start : Nat} (row : List Tree) :
    ∀ range ∈ pathRangesOf start row, start ≤ range.1 ∧ range.2 ≤ start + sizeOfAll row := by
  match row with
  | [] => exact nofun
  | tree :: rest =>
    intro range hrange
    rw [sizeOfAll]
    rcases List.mem_append.mp hrange with hrange | hrange
    · have := bounds_of_mem_pathRanges tree range hrange
      omega
    · have := bounds_of_mem_pathRangesOf rest range hrange
      omega

end

mutual

theorem ordered_pathRanges {start : Nat} (tree : Tree) :
    (tree.pathRanges start).Pairwise fun range next => range.2 ≤ next.1 := by
  match tree with
  | token t =>
    rw [pathRanges]
    split
    · exact List.pairwise_singleton _ _
    · exact .nil
  | node kind children =>
    rw [pathRanges]
    split
    · exact List.pairwise_singleton _ _
    · exact ordered_pathRangesOf children

theorem ordered_pathRangesOf {start : Nat} (row : List Tree) :
    (pathRangesOf start row).Pairwise fun range next => range.2 ≤ next.1 := by
  match row with
  | [] => exact .nil
  | tree :: rest =>
    refine List.pairwise_append.mpr
      ⟨ordered_pathRanges tree, ordered_pathRangesOf rest, fun range hrange next hnext => ?_⟩
    exact Nat.le_trans (bounds_of_mem_pathRanges tree range hrange).2
      (bounds_of_mem_pathRangesOf rest next hnext).1

end

end Tree

/-- The range covers tokens of the row, from a word to a word. -/
def Token.Covers (tokens : List Token) (range : Nat × Nat) : Prop :=
  ∃ left inner right, tokens = left ++ inner ++ right ∧ Spell inner ∧
    range = (utf8Length (spelling left), utf8Length (spelling (left ++ inner)))

namespace Tree

mutual

theorem covers_pathRanges (tree : Tree) (hkind : ∀ t ∈ tree.tokens, t.kind ≠ .path)
    (hspell : ∀ node ∈ tree.nodes, node.kind = .path → Token.Spell node.tokens)
    (left right : List Token) :
    ∀ range ∈ tree.pathRanges (utf8Length (spelling left)),
      Token.Covers (left ++ tree.tokens ++ right) range := by
  match tree with
  | token t =>
    rw [pathRanges, if_neg (hkind t (.head _))]
    exact nofun
  | node kind children =>
    rw [pathRanges]
    split
    · next hpath =>
      intro range hrange
      refine ⟨left, tokensOf children, right, rfl, hspell _ (.head _) hpath, ?_⟩
      rw [List.mem_singleton.mp hrange, sizeOfAll_eq, spelling_append, utf8Length_append]
    · exact covers_pathRangesOf children hkind (fun node hnode => hspell node (.tail _ hnode))
        left right

theorem covers_pathRangesOf (row : List Tree) (hkind : ∀ t ∈ tokensOf row, t.kind ≠ .path)
    (hspell : ∀ node ∈ nodesOf row, node.kind = .path → Token.Spell node.tokens)
    (left right : List Token) :
    ∀ range ∈ pathRangesOf (utf8Length (spelling left)) row,
      Token.Covers (left ++ tokensOf row ++ right) range := by
  match row with
  | [] => exact nofun
  | tree :: rest =>
    intro range hrange
    rw [tokensOf] at hkind ⊢
    rw [nodesOf] at hspell
    rcases List.mem_append.mp hrange with hrange | hrange
    · have hcovers := covers_pathRanges tree (fun t ht => hkind t (List.mem_append_left _ ht))
        (fun node hnode => hspell node (List.mem_append_left _ hnode)) left
        (tokensOf rest ++ right) range hrange
      simpa only [List.append_assoc] using hcovers
    · rw [size_eq, ← utf8Length_append, ← spelling_append] at hrange
      have hcovers := covers_pathRangesOf rest (fun t ht => hkind t (List.mem_append_right _ ht))
        (fun node hnode => hspell node (List.mem_append_right _ hnode)) (left ++ tree.tokens)
        right range hrange
      simpa only [List.append_assoc] using hcovers

end

end Tree

namespace Token

theorem eq_nil_of_size_eq_zero {tokens : List Token} (h : ∀ t ∈ tokens, 0 < t.size)
    (hsize : utf8Length (spelling tokens) = 0) : tokens = [] := by
  cases tokens with
  | nil => rfl
  | cons t rest =>
    have hpos := h t (.head _)
    rw [spelling_cons, utf8Length_append] at hsize
    rw [size] at hpos
    omega

theorem Cut.prefix_eq {tokens first second : List Token} (h : Cut tokens)
    (hfirst : first <+: tokens) (hsecond : second <+: tokens)
    (hsize : utf8Length (spelling first) = utf8Length (spelling second)) : first = second := by
  wlog hle : first <+: second generalizing first second with hother
  · exact (hother hsecond hfirst hsize.symm
      ((List.prefix_or_prefix_of_prefix hfirst hsecond).resolve_left hle)).symm
  obtain ⟨rest, rfl⟩ := hle
  rw [spelling_append, utf8Length_append] at hsize
  have hnil : rest = [] := eq_nil_of_size_eq_zero
    (fun t ht => h.size_pos t (hsecond.subset (List.mem_append_right _ ht))) (by omega)
  rw [hnil, List.append_nil]

/-- Ranges from word to word do not touch. -/
theorem Cut.lt_of_covers {tokens : List Token} (h : Cut tokens) {range next : Nat × Nat}
    (hrange : Covers tokens range) (hnext : Covers tokens next) (hle : range.2 ≤ next.1) :
    range.2 < next.1 := by
  obtain ⟨left, inner, right, htokens, hspell, rfl⟩ := hrange
  obtain ⟨left', inner', right', htokens', hspell', rfl⟩ := hnext
  refine Nat.lt_of_le_of_ne hle fun heq => ?_
  have hfront : left ++ inner = left' := by
    refine h.prefix_eq ⟨right, htokens.symm⟩ ⟨inner' ++ right', ?_⟩ heq
    rw [htokens', List.append_assoc]
  obtain ⟨front, last, rfl, hlast⟩ := hspell.last
  obtain ⟨first, rest, rfl, hfirst⟩ := hspell'.first
  have hwords := h.words
  rw [htokens', ← hfront] at hwords
  have hpair : [last, first] <:+: left ++ (front ++ [last]) ++ first :: rest ++ right' :=
    ⟨left ++ front, rest ++ right', by simp⟩
  have hneighbours := List.IsChain.infix hwords hpair
  have hnot := List.isChain_pair.mp hneighbours hlast
  rw [hfirst] at hnot
  cases hnot

end Token

theorem covers_parse (text : String) :
    ∀ range ∈ (parse text).tree.pathRanges 0, Token.Covers (parse text).tree.tokens range := by
  intro range hrange
  have hcovers := Tree.covers_pathRanges _ (kind_ne_path_parse text) (spell_of_path_parse text) []
    [] range hrange
  rwa [List.nil_append, List.append_nil] at hcovers

/-- **Paths stand apart**: there is something between any two paths of a text. -/
theorem pathRanges_parse (text : String) :
    ((parse text).tree.pathRanges 0).Pairwise fun range next => range.2 < next.1 :=
  (Tree.ordered_pathRanges _).imp_of_mem fun hrange hnext hle =>
    (cut_parse text).lt_of_covers (covers_parse text _ hrange) (covers_parse text _ hnext) hle

theorem isBoundary_parse {text : String} {range : Nat × Nat}
    (h : range ∈ (parse text).tree.pathRanges 0) :
    IsBoundary text range.1 ∧ IsBoundary text range.2 := by
  obtain ⟨left, inner, right, htokens, -, rfl⟩ := covers_parse text range h
  have htext := spelling_tokens_parse text
  rw [htokens] at htext
  constructor
  · refine ⟨spelling left, ⟨spelling (inner ++ right), ?_⟩, rfl⟩
    rw [← htext, ← spelling_append, List.append_assoc]
  · refine ⟨spelling (left ++ inner), ⟨spelling right, ?_⟩, rfl⟩
    rw [← htext, ← spelling_append]

end Ili
