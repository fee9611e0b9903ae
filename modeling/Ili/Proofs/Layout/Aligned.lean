import Ili.Proofs.Layout.Containers
import Ili.Proofs.Layout.Faithful
import Ili.Proofs.Layout.Separators

/-!
# Blocks in line

In the layout of a text without comments and errors every block begins a line, and so does its
`END`, at the same level; what stands in its body begins a line one level deeper. Only an `END`
directly behind the equals sign of a class or an association stays where it is.
-/

namespace Ili

open Layout

section Plain

variable {text : String}

theorem not_isComment_parse (h : ∀ token ∈ tokenize text, token.kind.isComment = false) :
    ∀ token ∈ (parse text).tree.tokens, token.kind.isComment = false := by
  intro token htoken
  rw [← Bool.not_eq_true]
  intro hcomment
  have hmem := List.mem_map_of_mem (f := Token.restore) htoken
  have hident : token.kind ≠ .ident := by
    intro hident
    rw [hident] at hcomment
    cases hcomment
  rw [map_restore_tokens_parse, Token.restore_of_ne hident] at hmem
  rw [h token hmem] at hcomment
  cases hcomment

theorem wordTokens_subset_parse {next : JoinedWord} (h : next ∈ joinedTree (parse text).tree) :
    wordTokens next.word ⊆ (parse text).tree.tokens := by
  intro token htoken
  have hsublist := map_token_slotsOf_sublist text
  rw [slotsOf_eq, map_token_slotsOfWords] at hsublist
  exact hsublist.subset (List.mem_flatMap.mpr ⟨_, List.mem_map_of_mem h, htoken⟩)

def Layout.JoinedWord.IsPlain (next : JoinedWord) : Prop :=
  next.word.comments = [] ∧ next.word.mark.token.kind.isComment = false

theorem isPlain_joinedTree (h : ∀ token ∈ tokenize text, token.kind.isComment = false) :
    ∀ next ∈ joinedTree (parse text).tree, next.IsPlain := by
  intro next hnext
  have htokens := wordTokens_subset_parse hnext
  refine ⟨List.eq_nil_iff_forall_not_mem.mpr fun comment hcomment => ?_, ?_⟩
  · have hkind := proper_joinedTree text next hnext comment hcomment
    have hmem : comment.token ∈ wordTokens next.word :=
      List.mem_append_left _ (List.mem_map_of_mem hcomment)
    rw [not_isComment_parse h _ (htokens hmem)] at hkind
    cases hkind
  · exact not_isComment_parse h _ (htokens (List.mem_append_right _ List.mem_cons_self))

theorem joinedTree_of_plain (h : ∀ token ∈ tokenize text, token.kind.isComment = false) :
    joinedTree (parse text).tree = joinedBody (parse text).tree := by
  have hnil : (parse text).tree.trailingComments = [] := by
    refine List.eq_nil_iff_forall_not_mem.mpr fun comment hcomment => ?_
    have hplain := isPlain_joinedTree h ⟨none, 0, ⟨[], comment⟩⟩
      (List.mem_append_right _ (List.mem_map.mpr ⟨comment, hcomment, rfl⟩))
    have hkind := (proper_parse text).2 comment hcomment
    rw [hplain.2] at hkind
    cases hkind
  rw [joinedTree, hnil, List.map_nil, List.append_nil]

end Plain

namespace Layout

theorem slotsOfWords_joint {before after : List JoinedWord} {previous next : JoinedWord}
    (h : ∀ word ∈ before ++ previous :: next :: after, word.IsPlain) :
    ∃ separator back, slotsOfWords (before ++ previous :: next :: after) =
      slotsOfWords before ++ ⟨separator, previous.word.mark.token⟩ ::
        ⟨separatorBetween previous.word.mark next.word.mark.token next.insert next.level,
          next.word.mark.token⟩ :: back := by
  have hprevious := (h previous (by simp)).1
  have hnext := (h next (by simp)).1
  have hjoint (left : Mark) : slotsBehind left (previous :: next :: after) =
      ⟨separatorBefore left previous, previous.word.mark.token⟩ ::
        ⟨separatorBetween previous.word.mark next.word.mark.token next.insert next.level,
          next.word.mark.token⟩ :: slotsBehind next.word.mark after := by
    have hempty : next.word.comments.isEmpty = true := by rw [hnext]; rfl
    rw [slotsBehind, slotsBehind, hprevious, hnext,
      separatorBefore_of_isEmpty previous.word.mark hempty]
    rfl
  cases before with
  | nil =>
    have hslots : slotsOfWords (previous :: next :: after) =
        ⟨.tight, previous.word.mark.token⟩ :: slotsBehind previous.word.mark (next :: after) := by
      rw [slotsOfWords, hprevious]
      rfl
    have hrest := hjoint previous.word.mark
    rw [slotsBehind, hprevious] at hrest
    exact ⟨_, _, hslots.trans (congrArg _ (List.cons.inj hrest).2)⟩
  | cons first before =>
    refine ⟨separatorBefore (lastMark first.word.mark before) previous,
      slotsBehind next.word.mark after, ?_⟩
    rw [List.cons_append, slotsOfWords, slotsBehind_append, hjoint, slotsOfWords, List.append_assoc]

theorem map_token_slotsOfWords_of_plain {words : List JoinedWord}
    (h : ∀ word ∈ words, word.IsPlain) :
    (slotsOfWords words).map Slot.token = words.map fun word => word.word.mark.token := by
  rw [map_token_slotsOfWords, List.flatMap_map]
  induction words with
  | nil => rfl
  | cons first rest ih =>
    rw [List.flatMap_cons, ih fun word hword => h word (List.mem_cons_of_mem _ hword), wordTokens,
      (h first List.mem_cons_self).1]
    rfl

theorem toList_textOf_append (options : LayoutOptions) (front back : List Slot) :
    (textOf options (front ++ back)).toList =
      (textOf options front).toList ++ (textOf options back).toList := by
  induction front with
  | nil => simp [textOf]
  | cons slot rest ih =>
    rw [List.cons_append, toList_textOf_cons, toList_textOf_cons, ih, List.append_assoc,
      List.append_assoc, List.append_assoc]

end Layout

theorem exists_formatText_eq {text : String} (options : LayoutOptions) {front back : List Slot}
    {slot : Slot} (hslots : slotsOf (parse text).tree = front ++ slot :: back)
    (hopen : slot.token.isOpenComment = false) :
    ∃ after, formatText text options =
      textOf options front ++ slot.separator.text options ++ slot.token.text ++ after := by
  have hprintable := printable_slotsOf text
  have hmem : slot ∈ slotsOf (parse text).tree := by simp [hslots]
  have hlast : ((slot.separator.text options).toList ++ slot.token.text.toList).getLast? ≠
      some '\n' :=
    getLast?_text (hprintable.heads slot hmem) (hprintable.visible slot hmem) hopen
  have hfront : ((textOf options front).toList ++
      ((slot.separator.text options).toList ++ slot.token.text.toList)).getLast? ≠ some '\n' := by
    rw [List.getLast?_append]
    cases hend : ((slot.separator.text options).toList ++ slot.token.text.toList).getLast? with
    | none =>
      obtain ⟨rest, c, cs, htext, -⟩ := hprintable.heads slot hmem
      rw [Token.text_restore] at htext
      simp [htext] at hend
    | some c =>
      rw [hend] at hlast
      exact hlast
  refine ⟨String.ofList (ended options (textOf options back).toList), ?_⟩
  have hformat : formatText text options =
      finish options (textOf options (slotsOf (parse text).tree)) := by
    rw [formatText, Tree.format, hslots]
    cases front <;> rfl
  rw [← String.toList_inj, hformat, toList_finish, hslots, toList_textOf_append,
    toList_textOf_cons, ← List.append_assoc, ended_append options hfront]
  simp only [String.toList_append, String.toList_ofList, List.append_assoc]

/-- In the output the token with this number begins a line with so many levels of indentation; in
front of that line stands what the tokens before it show. -/
def BeginsLine (options : LayoutOptions) (tokens : List Token) (output : String)
    (number level : Nat) : Prop :=
  ∃ token before after, tokens[number]? = some token ∧
    solid before.toList = solid (spelling (tokens.take number)) ∧
    output = before ++ "\n" ++ options.indent level ++ token.text ++ after

/-- In the output the token with this number stands one space behind the token before it. -/
def StaysOnLine (tokens : List Token) (output : String) (number : Nat) : Prop :=
  ∃ earlier previous token before after, number = earlier + 1 ∧
    tokens[earlier]? = some previous ∧ tokens[number]? = some token ∧
    solid before.toList = solid (spelling (tokens.take earlier)) ∧
    output = before ++ previous.text ++ " " ++ token.text ++ after

section Lines

variable {text : String} {number level : Nat} {first : JoinedWord} {skeleton : Skeleton}

theorem map_token_joinedBody (tree : Tree) :
    (joinedBody tree).map (fun next => next.word.mark.token) = visible tree.tokens := by
  have hwords := congrArg (List.map fun word : Word => word.mark.token) (map_word_joinedBody tree)
  rw [List.map_map, map_token_attachedWords, Tree.tokensOf_leaves] at hwords
  exact hwords

theorem exists_joint (hok : (parse text).errors = [])
    (hplain : ∀ token ∈ tokenize text, token.kind.isComment = false) (options : LayoutOptions)
    (h : Stands (joinedBody (parse text).tree) number first level skeleton) (hpos : 0 < number) :
    ∃ earlier previous before after, number = earlier + 1 ∧
      (visible (parse text).tree.tokens)[earlier]? = some previous.token ∧
      (visible (parse text).tree.tokens)[number]? = some first.word.mark.token ∧
      previous.token.kind.isComment = false ∧ first.word.mark.token.kind.isComment = false ∧
      solid before.toList = solid (spelling ((visible (parse text).tree.tokens).take earlier)) ∧
      formatText text options = before ++ previous.token.text ++
        (separatorBetween previous first.word.mark.token first.insert first.level).text options ++
          first.word.mark.token.text ++ after := by
  obtain ⟨words, others, hbody, rfl⟩ := h
  obtain ⟨earlier, previous, rfl⟩ := List.eq_nil_or_concat words |>.resolve_left
    (List.length_pos_iff.mp hpos)
  have hplainWords := isPlain_joinedTree hplain
  rw [joinedTree_of_plain hplain] at hplainWords
  have hsplit : joinedBody (parse text).tree =
      earlier ++ previous :: first :: ((joined level skeleton).tail ++ others) := by
    rw [hbody]
    simp
  have hslots := slotsOf_eq (parse text).tree
  rw [joinedTree_of_plain hplain, hsplit] at hslots
  rw [hsplit] at hplainWords
  obtain ⟨separator, back, hjoint⟩ := slotsOfWords_joint hplainWords
  have htokens := map_token_joinedBody (parse text).tree
  rw [hsplit, List.map_append, List.map_cons, List.map_cons] at htokens
  have hearlier : (visible (parse text).tree.tokens).take earlier.length =
      (slotsOfWords earlier).map Slot.token := by
    rw [← htokens, List.take_left' (by rw [List.length_map]),
      map_token_slotsOfWords_of_plain fun word hword => hplainWords word (by simp [hword])]
  have hopen : first.word.mark.token.isOpenComment = false := by
    apply isOpenComment_of_ok hok
    have hmem : first.word.mark.token ∈ visible (parse text).tree.tokens := by simp [← htokens]
    exact (List.mem_filter.mp hmem).1
  rw [hjoint, List.append_cons] at hslots
  obtain ⟨after, hformat⟩ := exists_formatText_eq options hslots hopen
  refine ⟨earlier.length, previous.word.mark,
    textOf options (slotsOfWords earlier) ++ separator.text options, after, ?_, ?_, ?_,
    (hplainWords previous (by simp)).2, (hplainWords first (by simp)).2, ?_, ?_⟩
  · simp
  · rw [← htokens]
    simp
  · rw [← htokens]
    simp
  · rw [String.toList_append, solid_append, solid_separator, List.append_nil, solid_textOf,
      hearlier]
  · have hfront : textOf options (slotsOfWords earlier ++
        [⟨separator, previous.word.mark.token⟩]) =
          textOf options (slotsOfWords earlier) ++ separator.text options ++
            previous.word.mark.token.text := by
      rw [← String.toList_inj, toList_textOf_append, toList_textOf_cons]
      simp [textOf]
    rw [hformat, hfront]

theorem beginsLine_of_stands (hok : (parse text).errors = [])
    (hplain : ∀ token ∈ tokenize text, token.kind.isComment = false) (options : LayoutOptions)
    (h : Stands (joinedBody (parse text).tree) number first level skeleton) (hpos : 0 < number)
    (hbreaks : breaksOf first.insert ≠ 0) :
    BeginsLine options (visible (parse text).tree.tokens) (formatText text options) number
      first.level := by
  obtain ⟨earlier, previous, before, after, rfl, hprevious, htoken, hleft, hright, hbefore,
    hformat⟩ := exists_joint hok hplain options h hpos
  have hspelling : spelling ((visible (parse text).tree.tokens).take (earlier + 1)) =
      spelling ((visible (parse text).tree.tokens).take earlier) ++ previous.token.text.toList := by
    rw [List.take_add_one, hprevious, Option.toList_some, spelling_append, spelling_cons]
    simp [spelling]
  have hsolid : solid (before ++ previous.token.text).toList =
      solid (spelling ((visible (parse text).tree.tokens).take (earlier + 1))) := by
    rw [String.toList_append, solid_append, hbefore, hspelling, solid_append]
  have hcomment : ¬(previous.token.kind.isComment ||
      first.word.mark.token.kind.isComment) = true := by
    rw [hleft, hright]
    exact Bool.false_ne_true
  simp only [separatorBetween, if_neg hcomment] at hformat
  cases hinsert : first.insert with
  | none => exact absurd (by rw [hinsert]; rfl) hbreaks
  | some insert =>
    cases insert with
    | newline =>
      rw [hinsert] at hformat
      refine ⟨_, before ++ previous.token.text, after, htoken, hsolid, ?_⟩
      rw [hformat]
      simp only [Separator.text, String.append_assoc]
    | blankLine =>
      rw [hinsert] at hformat
      refine ⟨_, before ++ previous.token.text ++ "\n", after, htoken, ?_, ?_⟩
      · rw [String.toList_append, solid_append, hsolid]
        exact List.append_nil _
      · rw [hformat]
        have htwo : "\n\n" = "\n" ++ "\n" := rfl
        simp only [Separator.text, htwo, String.append_assoc]
    | space | nothing => exact absurd (by rw [hinsert]; rfl) hbreaks

theorem staysOnLine_of_stands (hok : (parse text).errors = [])
    (hplain : ∀ token ∈ tokenize text, token.kind.isComment = false) (options : LayoutOptions)
    (h : Stands (joinedBody (parse text).tree) number first level skeleton) (hpos : 0 < number)
    (hinsert : first.insert = some .space) :
    StaysOnLine (visible (parse text).tree.tokens) (formatText text options) number := by
  obtain ⟨earlier, previous, before, after, hnumber, hprevious, htoken, hleft, hright, hbefore,
    hformat⟩ := exists_joint hok hplain options h hpos
  refine ⟨earlier, _, _, before, after, hnumber, hprevious, htoken, hbefore, ?_⟩
  have hcomment : ¬(previous.token.kind.isComment ||
      first.word.mark.token.kind.isComment) = true := by
    rw [hleft, hright]
    exact Bool.false_ne_true
  simp only [separatorBetween, if_neg hcomment, hinsert] at hformat
  exact hformat

end Lines

/-! ### Blocks and what stands in them -/

/-- How a block with these children is laid out that begins with the token of this number. -/
structure Aligns (options : LayoutOptions) (tokens : List Token) (output : String)
    (number level : Nat) (kind : Kind) (children : List Tree) : Prop where
  block : BeginsLine options tokens output number level
  closes : ∃ child ∈ children, child.kind = .endKw
  closing : ∀ {front : List Tree} {child : Tree} {back : List Tree},
    children = front ++ child :: back → child.kind = .endKw →
      if (kind = .classDef ∨ kind = .association) ∧
          (Tree.shown front).getLast?.map Tree.kind = some .eq then
        StaysOnLine tokens output (number + (visible (Tree.tokensOf front)).length)
      else BeginsLine options tokens output (number + (visible (Tree.tokensOf front)).length) level
  member : ∀ {front back : List Tree} {inner : Kind} {below : List Tree},
    children = front ++ .node inner below :: back → (∃ tree ∈ front, tree.kind = .eq) →
      BeginsLine options tokens output (number + (visible (Tree.tokensOf front)).length) (level + 1)
  heading : ∀ {front : List Tree} {child : Tree} {back : List Tree},
    children = front ++ child :: back → child.kind = .attributeKw ∨ child.kind = .parameterKw →
      BeginsLine options tokens output (number + (visible (Tree.tokensOf front)).length) level

section Children

open Grammar

variable {text : String} {kind : Kind} {front back : List Tree} {child : Tree}

theorem inner_kind (hkind : kind ∈ blocks) {inner : Kind}
    (h : inner ∈ .endKw :: bodyWords kind ++ bodyNodes kind) :
    inner ∉ openingKinds kind ∧ inner.isTrivia = false ∧
      depthBehind kind (some inner) = if inner ∈ bodyNodes kind then 1 else 0 := by
  have hall : ∀ kind ∈ blocks, ∀ inner ∈ .endKw :: bodyWords kind ++ bodyNodes kind,
      inner ∉ openingKinds kind ∧ inner.isTrivia = false ∧
        depthBehind kind (some inner) = if inner ∈ bodyNodes kind then 1 else 0 := by
    decide +kernel
  exact hall kind hkind inner h

/-- A child that cannot be the first of its block stands among the words of the file, and what is
asked for in front of it is what its kind and that of the child before it say. -/
theorem stands_child (hok : (parse text).errors = []) {count level : Nat}
    {children : List Tree} (hchildren : children = front ++ child :: back)
    (hblock : (parse text).tree.StandsBehind count (.node kind children)) (hkind : kind ∈ blocks)
    {first : JoinedWord} {skeleton : Skeleton}
    (hdresses : (Tree.node kind children).Dresses skeleton)
    (hstands : Stands (joinedBody (parse text).tree) count first level skeleton)
    (hvisible : child.isTrivia = false) (hopening : child.kind ∉ openingKinds kind) :
    ∃ previous word inner, (Tree.shown front).getLast? = some previous ∧
      AsksFor kind previous.kind child.kind ∧
      Stands (joinedBody (parse text).tree) (count + (visible (Tree.tokensOf front)).length)
        ⟨(rulingAt kind (some previous.kind) child.kind).insert,
          level + depthBehind kind (some child.kind), word⟩
        (level + depthBehind kind (some child.kind)) inner ∧
      0 < count + (visible (Tree.tokensOf front)).length := by
  subst hchildren
  have hcontainer : kind ∈ containers := List.mem_cons_of_mem _ hkind
  have hform := containerForm_parse hok hcontainer (hblock.nodes_subset List.mem_cons_self)
  have hfull := hblock.full (full_parse hok)
  have hshown : Tree.shown (front ++ child :: back) =
      Tree.shown front ++ child :: Tree.shown back := by
    rw [Tree.shown_append]
    simp [Tree.shown, hvisible]
  have hfront : Tree.shown front ≠ [] := by
    intro hnil
    exact hopening (hform.head child (by simp [hshown, hnil]))
  obtain ⟨previous, hprevious⟩ := Option.ne_none_iff_exists'.mp
    (mt List.getLast?_eq_none_iff.mp hfront)
  have hkinds := hform.kinds previous (by
    rw [hshown]
    exact List.mem_append_left _ (List.mem_of_getLast? hprevious))
  obtain ⟨word, inner, -, hplace⟩ := Stands.of_child hcontainer hform hfull hdresses hvisible hfront
    hstands
  rw [hprevious] at hplace
  have hpos := List.length_pos_iff.mpr
    (Tree.visible_tokensOf_ne_nil (Tree.allFull_append.mp hfull.2).1 hfront)
  exact ⟨previous, word, inner, hprevious, asksFor_block hkind hkinds child.kind, hplace, by omega⟩

theorem aligns_child (hok : (parse text).errors = [])
    (hplain : ∀ token ∈ tokenize text, token.kind.isComment = false) (options : LayoutOptions)
    {count level : Nat} {children : List Tree} (hchildren : children = front ++ child :: back)
    (hblock : (parse text).tree.StandsBehind count (.node kind children)) (hkind : kind ∈ blocks)
    {first : JoinedWord} {skeleton : Skeleton}
    (hdresses : (Tree.node kind children).Dresses skeleton)
    (hstands : Stands (joinedBody (parse text).tree) count first level skeleton)
    (hinner : child.kind ∈ .endKw :: bodyWords kind ++ bodyNodes kind) :
    ∃ previous, (Tree.shown front).getLast? = some previous ∧
      if child.kind = .endKw ∧ closesInline kind previous.kind = true then
        StaysOnLine (visible (parse text).tree.tokens) (formatText text options)
          (count + (visible (Tree.tokensOf front)).length)
      else
        BeginsLine options (visible (parse text).tree.tokens) (formatText text options)
          (count + (visible (Tree.tokensOf front)).length)
          (level + if child.kind ∈ bodyNodes kind then 1 else 0) := by
  obtain ⟨hopening, htrivia, hdepth⟩ := inner_kind hkind hinner
  have hvisible := Tree.isTrivia_of_kind htrivia
  obtain ⟨previous, word, inner, hprevious, hasks, hplace, hpos⟩ :=
    stands_child hok hchildren hblock hkind hdresses hstands hvisible hopening
  refine ⟨previous, hprevious, ?_⟩
  split
  · next hinline =>
    exact staysOnLine_of_stands hok hplain options hplace hpos (hasks.inline hinline.1 hinline.2)
  · next hinline =>
    have hbreaks : breaksOf (rulingAt kind (some previous.kind) child.kind).insert ≠ 0 := by
      simp only [List.cons_append, List.mem_cons, List.mem_append] at hinner
      rcases hinner with hclosing | hword | hnode
      · exact hasks.closing hclosing (Bool.eq_false_iff.mpr fun h => hinline ⟨hclosing, h⟩)
      · exact hasks.word hword
      · exact hasks.node hnode
    have hline := beginsLine_of_stands hok hplain options hplace hpos hbreaks
    rwa [hdepth] at hline

theorem mem_bodyNodes_of_behind (hok : (parse text).errors = []) {count : Nat}
    {children below : List Tree} {inner : Kind}
    (hchildren : children = front ++ .node inner below :: back)
    (hblock : (parse text).tree.StandsBehind count (.node kind children)) (hkind : kind ∈ blocks)
    (hsign : ∃ tree ∈ front, tree.kind = .eq) : inner ∈ bodyNodes kind ∧ inner ≠ .endKw := by
  obtain ⟨head, sign, body, closing, tail, hshown, hform⟩ :=
    exists_blockForm_parse hok (hblock.nodes_subset List.mem_cons_self) hkind
  have hregular := (hblock.regular (regular_parse text)).2.2
  rw [hchildren, Tree.regularAll_append] at hregular
  have hnode : inner.isNode = true := hregular.2.1.1
  have hrow : Tree.shown front ++ .node inner below :: Tree.shown back =
      head ++ sign :: body ++ closing :: tail := by
    rw [← hshown, Tree.visibleChildren, Tree.children, hchildren, Tree.shown_append]
    rfl
  obtain ⟨tree, htree, heq⟩ := hsign
  have hshows : tree ∈ Tree.shown front := by
    rw [Tree.shown, List.mem_filter, Tree.isTrivia_of_kind (by rw [heq]; rfl)]
    exact ⟨htree, rfl⟩
  refine ⟨hform.mem_bodyNodes hkind hrow ⟨tree, hshows, heq⟩ hnode, ?_⟩
  rintro rfl
  cases hnode

theorem mem_bodyWords_of_heading (hok : (parse text).errors = []) {count : Nat}
    {children : List Tree} (hchildren : children = front ++ child :: back)
    (hblock : (parse text).tree.StandsBehind count (.node kind children)) (hkind : kind ∈ blocks)
    (hheading : child.kind = .attributeKw ∨ child.kind = .parameterKw) :
    child.kind ∈ bodyWords kind ∧ child.kind ∉ bodyNodes kind ∧ child.kind ≠ .endKw := by
  have hwords : ∀ kind ∈ blocks, ∀ inner ∈ (production kind).kinds,
      inner = .attributeKw ∨ inner = .parameterKw →
        inner ∈ bodyWords kind ∧ inner ∉ bodyNodes kind ∧ inner ≠ .endKw := by
    decide +kernel
  have hform := containerForm_parse hok (List.mem_cons_of_mem _ hkind)
    (hblock.nodes_subset List.mem_cons_self)
  have hvisible : child.isTrivia = false :=
    Tree.isTrivia_of_kind (by rcases hheading with h | h <;> rw [h] <;> rfl)
  have hshows : child ∈ Tree.shown children := by
    rw [hchildren, Tree.shown_append]
    simp [Tree.shown, hvisible]
  exact hwords kind hkind child.kind (hform.kinds child hshows) hheading

end Children

/-- In the layout of a text without comments and errors every block begins a line, what closes it
begins one at the same level or stays behind the equals sign, and the members in it begin lines one
level deeper. -/
theorem formatText_aligns {text : String} (hok : (parse text).errors = [])
    (hplain : ∀ token ∈ tokenize text, token.kind.isComment = false) (options : LayoutOptions)
    {count : Nat} {kind : Kind} {children : List Tree}
    (hblock : (parse text).tree.StandsBehind count (.node kind children))
    (hkind : kind ∈ Grammar.blocks) :
    ∃ level, Aligns options (visible (parse text).tree.tokens) (formatText text options) count level
      kind children := by
  obtain ⟨first, level, skeleton, hdresses, hstands, hfirst⟩ :=
    stands_container hok hblock rfl (List.mem_cons_of_mem _ hkind)
  obtain ⟨hbreaks, rfl, hpos⟩ := hfirst hkind
  obtain ⟨head, sign, body, closing, tail, hshown, hform⟩ :=
    Grammar.exists_blockForm_parse hok (hblock.nodes_subset List.mem_cons_self) hkind
  have hchild {front back : List Tree} {child : Tree}
      (hchildren : children = front ++ child :: back)
      (hinner : child.kind ∈ .endKw :: Grammar.bodyWords kind ++ Grammar.bodyNodes kind) :=
    aligns_child hok hplain options hchildren hblock hkind hdresses hstands hinner
  refine ⟨first.level, beginsLine_of_stands hok hplain options hstands hpos hbreaks, ?_, ?_, ?_, ?_⟩
  · have hmem : closing ∈ Tree.shown children := by
      have hvisible : Tree.shown children = head ++ sign :: body ++ closing :: tail := hshown
      simp [hvisible]
    exact ⟨closing, List.mem_of_mem_filter hmem, hform.closing⟩
  · intro front child back hchildren hclosing
    obtain ⟨previous, hprevious, haligned⟩ := hchild hchildren (by simp [hclosing])
    have houtside : ∀ kind ∈ Grammar.blocks, Kind.endKw ∉ Grammar.bodyNodes kind := by decide
    have hinline : ((kind = .classDef ∨ kind = .association) ∧
        (Tree.shown front).getLast?.map Tree.kind = some .eq) ↔
          child.kind = .endKw ∧ closesInline kind previous.kind = true := by
      simp [closesInline, hprevious, hclosing]
    simp only [hinline]
    have hnode : child.kind ∉ Grammar.bodyNodes kind := by
      rw [hclosing]
      exact houtside kind hkind
    rwa [if_neg hnode, Nat.add_zero] at haligned
  · intro front back inner below hchildren hsign
    obtain ⟨hmem, hinside⟩ := mem_bodyNodes_of_behind hok hchildren hblock hkind hsign
    obtain ⟨previous, -, haligned⟩ := hchild hchildren (by simp [Tree.kind, hmem])
    rw [if_neg fun h => hinside h.1] at haligned
    rwa [Tree.kind, if_pos hmem] at haligned
  · intro front child back hchildren hheading
    obtain ⟨hword, hnode, hclosing⟩ := mem_bodyWords_of_heading hok hchildren hblock hkind hheading
    obtain ⟨previous, -, haligned⟩ := hchild hchildren (by simp [hword])
    rwa [if_neg fun h => hclosing h.1, if_neg hnode, Nat.add_zero] at haligned

theorem formatText_aligns_model :
    let text := "INTERLIS 2.4; MODEL M = TOPIC T = CLASS A = ATTRIBUTE a : TEXT; END A; END T; " ++
      "END M."
    ∃ count children level, (parse text).tree.StandsBehind count (.node .model children) ∧
      Aligns .standard (visible (parse text).tree.tokens) (formatText text .standard) count level
        .model children := by
  intro text
  have hok : (parse text).errors = [] := by decide +kernel
  have hplain : ∀ token ∈ tokenize text, token.kind.isComment = false := by decide +kernel
  have hmodel : Kind.model ∈ Tree.nodeKinds (parse text).tree.children := by decide +kernel
  obtain ⟨left, children, right, hsplit⟩ := Tree.exists_of_mem_nodeKinds hmodel
  have hroot : (parse text).tree.StandsBehind 0 (.node .sourceFile (parse text).tree.children) :=
    .root
  rw [hsplit] at hroot
  obtain ⟨level, haligns⟩ := formatText_aligns hok hplain .standard hroot.child (by decide)
  exact ⟨_, children, level, hroot.child, haligns⟩

end Ili
