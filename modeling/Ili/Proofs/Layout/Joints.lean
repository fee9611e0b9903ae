import Ili.Proofs.Layout.Settled
import Ili.Proofs.Layout.Asked
import Ili.Proofs.Grammar.Regular

/-!
# Where tokens are printed without a space

Rules ask for no space only next to a star, a minus or a range sign, and in front of a star only
behind a reserved word. Everywhere else tokens stand close only next to brackets and the like. So a
token that touches its neighbour does so at punctuation, and what was printed closes up only there.
-/

namespace Ili

namespace Skeleton

mutual

/-- Nodes are of composite kinds and hold words; text types are rows of their kind. -/
def Regular : Skeleton → Prop
  | word _ => True
  | node kind children =>
    children ≠ [] ∧ kind.isNode = true ∧
      (kind = .textType → Tree.isTextRow (children.map Skeleton.kind) = true) ∧
      RegularAll children

def RegularAll : List Skeleton → Prop
  | [] => True
  | skeleton :: rest => skeleton.Regular ∧ RegularAll rest

end

theorem regularAll_append {left right : List Skeleton} :
    RegularAll (left ++ right) ↔ RegularAll left ∧ RegularAll right := by
  induction left with
  | nil => simp [RegularAll]
  | cons skeleton rest ih => simp [RegularAll, ih, and_assoc]

mutual

theorem words_ne_nil {skeleton : Skeleton} (h : skeleton.Regular) : skeleton.words ≠ [] := by
  match skeleton with
  | word w => exact List.cons_ne_nil _ _
  | node kind children =>
    rw [words]
    exact wordsOf_ne_nil h.1 h.2.2.2

theorem wordsOf_ne_nil {row : List Skeleton} (hne : row ≠ []) (h : RegularAll row) :
    wordsOf row ≠ [] := by
  match row with
  | [] => exact absurd rfl hne
  | skeleton :: rest =>
    rw [wordsOf]
    exact fun hnil => words_ne_nil h.1 (List.append_eq_nil_iff.mp hnil).1

end

end Skeleton

namespace Tree

def tokensOfWords (words : List Word) : List Token :=
  words.map fun word => word.mark.token

theorem exists_words_append {words : List Word} {left right : List Token}
    (h : tokensOfWords words = left ++ right) :
    ∃ front back, words = front ++ back ∧ tokensOfWords front = left ∧
      tokensOfWords back = right := by
  obtain ⟨front, back, rfl, hfront, hback⟩ := List.map_eq_append_iff.mp h
  exact ⟨front, back, rfl, hfront, hback⟩

theorem dress_of_trivia {t : Token} (h : t.kind.isTrivia = true) (words : List Word) :
    (token t).dress words = (none, words) := by
  rw [dress.eq_def]
  exact if_pos h

theorem dress_of_visible {t : Token} (h : t.kind.isTrivia = false) (word : Word)
    (words : List Word) : (token t).dress (word :: words) = (some (.word word), words) := by
  rw [dress.eq_def]
  exact if_neg (by rw [h]; exact Bool.false_ne_true)

theorem map_kind_dressAll {row : List Tree} (hrow : allTokens row = true) (words rest : List Word)
    (h : tokensOfWords words = visible (tokensOf row)) :
    (dressAll row (words ++ rest)).1.map Skeleton.kind = visibleKinds row := by
  induction row generalizing words with
  | nil => rfl
  | cons tree others ih =>
    cases tree with
    | node kind children => cases hrow
    | token t =>
      have hothers : allTokens others = true := hrow
      have hcons : visible (tokensOf (token t :: others)) =
        visible [t] ++ visible (tokensOf others) :=
        visible_append [t] (tokensOf others)
      have hkinds : visibleKinds (token t :: others) =
          (visible [t]).map Token.kind ++ visibleKinds others := by
        rw [visibleKinds, hcons, List.map_append]
        rfl
      rw [hcons] at h
      rw [hkinds, dressAll]
      by_cases htrivia : t.kind.isTrivia = true
      · have hnone : visible [t] = [] := by simp [visible, htrivia]
        rw [hnone, List.nil_append] at h
        rw [hnone, dress_of_trivia htrivia]
        exact ih hothers words h
      · rw [Bool.not_eq_true] at htrivia
        have hone : visible [t] = [t] := by simp [visible, htrivia]
        rw [hone] at h
        obtain ⟨word, words, rfl, hword, hwords⟩ := List.map_eq_cons_iff.mp h
        rw [hone, List.cons_append, dress_of_visible htrivia]
        simp only [Option.toList_some, List.singleton_append, List.map_cons, List.map_nil,
          ih hothers words hwords, Skeleton.kind, hword]

mutual

theorem regular_dress {tree : Tree} (hregular : tree.Regular) (words rest : List Word)
    (h : tokensOfWords words = visible tree.tokens) :
    ∀ skeleton ∈ (tree.dress (words ++ rest)).1, skeleton.Regular := by
  match tree with
  | token t =>
    intro skeleton hskeleton
    rw [dress.eq_def] at hskeleton
    simp only at hskeleton
    split at hskeleton
    · cases hskeleton
    · split at hskeleton
      · cases hskeleton
      · obtain rfl := Option.some.inj hskeleton
        trivial
  | node kind children =>
    intro skeleton hskeleton
    have hchildren := regularAll_dressAll hregular.2.2 words rest h
    have hkinds := fun hrow => map_kind_dressAll hrow words rest h
    rw [dress] at hskeleton
    cases hdressed : dressAll children (words ++ rest) with
    | mk dressed others =>
      rw [hdressed] at hskeleton hchildren hkinds
      cases dressed with
      | nil => cases hskeleton
      | cons first dressed =>
        obtain rfl := Option.some.inj hskeleton
        refine ⟨List.cons_ne_nil _ _, hregular.1, ?_, hchildren⟩
        intro hkind
        obtain ⟨hrow, htext⟩ := hregular.2.1 hkind
        rw [hkinds hrow]
        exact htext

theorem regularAll_dressAll {row : List Tree} (hregular : RegularAll row) (words rest : List Word)
    (h : tokensOfWords words = visible (tokensOf row)) :
    Skeleton.RegularAll (dressAll row (words ++ rest)).1 := by
  match row with
  | [] => trivial
  | tree :: others =>
    rw [tokensOf, visible_append] at h
    obtain ⟨front, back, rfl, hfront, hback⟩ := exists_words_append h
    have hlength : front.length = (visible tree.tokens).length := by
      rw [← hfront, tokensOfWords, List.length_map]
    have hafter := (tree.dress_words front (back ++ rest) hlength).2
    have hfirst := regular_dress hregular.1 front (back ++ rest) hfront
    have hothers := regularAll_dressAll hregular.2 back rest hback
    simp only [dressAll, List.append_assoc, hafter]
    refine Skeleton.regularAll_append.mpr ⟨?_, hothers⟩
    cases hdressed : (tree.dress (front ++ (back ++ rest))).1 with
    | none => trivial
    | some skeleton => exact ⟨hfirst skeleton hdressed, trivial⟩

end

theorem regular_skeleton? {tree : Tree} (h : tree.Regular) :
    ∀ skeleton ∈ tree.skeleton?, skeleton.Regular := by
  have htokens : tokensOfWords (attachedWords [] tree.leaves) = visible tree.tokens := by
    rw [← tree.tokensOf_leaves]
    exact map_token_attachedWords [] tree.leaves
  simpa [skeleton?] using regular_dress h _ [] htokens

end Tree

namespace Layout

def Excused (left right : Kind) : Prop :=
  left = .star ∨ left = .dotDot ∨ left = .minus ∨ right = .dotDot ∨
    right = .star ∧ left.isKeyword = true

def JoinedWord.kind (next : JoinedWord) : Kind :=
  next.word.mark.token.kind

def Excusing (words : List JoinedWord) : Prop :=
  words.IsChain fun left next => next.insert = some .nothing → Excused left.kind next.kind

theorem exists_rule_of_ruling {rules : List Rule} {progress : Progress} {child : Skeleton}
    {insert : Insert} (h : (progress.ruling rules child).insert = some insert) :
    ∃ rule ∈ rules, rule.insert = some insert ∧ ∃ ordinal,
      rule.matchesJoin progress.previous ⟨child.kind, ordinal⟩ = true := by
  simp only [Progress.ruling] at h
  split at h
  · cases h
  · simp only [rulingOf, Option.or_eq_some_iff] at h
    have hactive {side : Side} {found : List Insert}
        (hfound : found = (rules.filter fun rule => rule.side == side &&
          rule.matchesJoin progress.previous
            ⟨child.kind, progress.passed.count child.kind⟩).filterMap Rule.insert)
        (hlast : found.getLast? = some insert) :
        ∃ rule ∈ rules, rule.insert = some insert ∧ ∃ ordinal,
          rule.matchesJoin progress.previous ⟨child.kind, ordinal⟩ = true := by
      have hmem := List.mem_of_getLast? hlast
      rw [hfound] at hmem
      obtain ⟨rule, hrule, hinsert⟩ := List.mem_filterMap.mp hmem
      obtain ⟨hrule, hmatches⟩ := List.mem_filter.mp hrule
      exact ⟨rule, hrule, hinsert, _, ((Bool.and_eq_true _ _).mp hmatches).2⟩
    rcases h with h | ⟨-, h⟩
    · exact hactive rfl h
    · exact hactive rfl h

/-- A rule that asks for no space stands beside a star, a range sign or a minus. -/
def staysBeside (kind : Kind) (rule : Rule) : Bool :=
  rule.insert != some .nothing ||
    match rule.side with
    | .before => kind == .textType && rule.kinds == [.star] || rule.kinds == [.dotDot]
    | .behind => rule.kinds == [.star] || rule.kinds == [.dotDot] || rule.kinds == [.minus]

theorem staysBeside_of_mem {kind : Kind} {children : List Skeleton} {rule : Rule}
    (h : rule ∈ rulesFor kind children) : staysBeside kind rule = true := by
  unfold rulesFor at h
  split at h
  all_goals try exact List.all_eq_true.mp (by decide) rule h
  · split at h <;> exact List.all_eq_true.mp (by decide) rule h
  · split at h <;> exact List.all_eq_true.mp (by decide) rule h
  · exact absurd h List.not_mem_nil

theorem mem_of_matchesJoin {rule : Rule} {previous : Option Neighbour} {next : Neighbour}
    (h : rule.matchesJoin previous next = true) :
    rule.side = .before ∧ next.kind ∈ rule.kinds ∨
      rule.side = .behind ∧ ∃ neighbour ∈ previous, neighbour.kind ∈ rule.kinds := by
  simp only [Rule.matchesJoin, Bool.and_eq_true] at h
  obtain ⟨-, hfits⟩ := h
  cases hside : rule.side with
  | before =>
    rw [hside] at hfits
    simp only [Bool.and_eq_true, List.contains_iff_mem] at hfits
    exact .inl ⟨rfl, hfits.1⟩
  | behind =>
    rw [hside] at hfits
    simp only [Option.any_eq_true, Bool.and_eq_true, List.contains_iff_mem] at hfits
    obtain ⟨neighbour, hprevious, hkind, -⟩ := hfits
    exact .inr ⟨rfl, neighbour, hprevious, hkind⟩

theorem beside_of_ruling {kind : Kind} {children : List Skeleton} {progress : Progress}
    {child : Skeleton}
    (h : (progress.ruling (rulesFor kind children) child).insert = some .nothing) :
    child.kind = .dotDot ∨ kind = .textType ∧ child.kind = .star ∨
      ∃ previous ∈ progress.previous,
        previous.kind = .star ∨ previous.kind = .dotDot ∨ previous.kind = .minus := by
  obtain ⟨rule, hrule, hinsert, ordinal, hmatches⟩ := exists_rule_of_ruling h
  have hbeside := staysBeside_of_mem hrule
  simp only [staysBeside, hinsert, bne_self_eq_false, Bool.false_or] at hbeside
  rcases mem_of_matchesJoin hmatches with ⟨hside, hkind⟩ | ⟨hside, previous, hprevious, hkind⟩
  · simp only [hside, Bool.or_eq_true, Bool.and_eq_true, beq_iff_eq] at hbeside
    rcases hbeside with ⟨htext, hkinds⟩ | hkinds
    · rw [hkinds] at hkind
      exact .inr (.inl ⟨htext, List.mem_singleton.mp hkind⟩)
    · rw [hkinds] at hkind
      exact .inl (List.mem_singleton.mp hkind)
  · refine .inr (.inr ⟨previous, hprevious, ?_⟩)
    simp only [hside, Bool.or_eq_true, beq_iff_eq] at hbeside
    rcases hbeside with (hkinds | hkinds) | hkinds <;> rw [hkinds] at hkind
    · exact .inl (List.mem_singleton.mp hkind)
    · exact .inr (.inl (List.mem_singleton.mp hkind))
    · exact .inr (.inr (List.mem_singleton.mp hkind))

theorem word_of_kind {skeleton : Skeleton} (h : skeleton.Regular)
    (hkind : skeleton.kind.isNode = false) : ∃ w, skeleton = .word w := by
  cases skeleton with
  | word w => exact ⟨w, rfl⟩
  | node kind children =>
    have hnode : kind.isNode = true := h.2.1
    rw [Skeleton.kind, hnode] at hkind
    cases hkind

theorem isNode_of_isKeyword {kind : Kind} (h : kind.isKeyword = true) : kind.isNode = false := by
  have horder : Kind.thisKw.number < Kind.sourceFile.number := by decide
  simp only [Kind.isKeyword, Bool.and_eq_true, decide_eq_true_eq] at h
  simp only [Kind.isNode, Bool.and_eq_false_iff, decide_eq_false_iff_not]
  omega

/-- In a text type a star stands behind a reserved word. -/
def JointOf (kind : Kind) (left right : Skeleton) : Prop :=
  kind = .textType → right.kind = .star → left.kind.isKeyword = true

theorem isChain_of_isTextRow {kinds : List Kind} (h : Tree.isTextRow kinds = true) :
    kinds.IsChain fun left right => right = .star → left.isKeyword = true := by
  unfold Tree.isTextRow at h
  split at h
  · exact .nil
  · exact .singleton _
  · exact .cons_cons (fun _ => h) (.singleton _)
  · exact .cons_cons (fun _ => h) (.cons_cons nofun (.singleton _))
  · cases h

theorem getLast?_kind {skeleton : Skeleton} (h : skeleton.Regular)
    (hkind : skeleton.kind.isNode = false) :
    ∀ w ∈ skeleton.words.getLast?, w.mark.token.kind = skeleton.kind := by
  obtain ⟨w, rfl⟩ := word_of_kind h hkind
  intro other hother
  obtain rfl := Option.some.inj hother
  rfl

theorem head?_kind {skeleton : Skeleton} (h : skeleton.Regular)
    (hkind : skeleton.kind.isNode = false) :
    ∀ w ∈ skeleton.words.head?, w.mark.token.kind = skeleton.kind := by
  obtain ⟨w, rfl⟩ := word_of_kind h hkind
  intro other hother
  obtain rfl := Option.some.inj hother
  rfl

theorem excused_of_ruling {kind : Kind} {children : List Skeleton} {progress : Progress}
    {left child : Skeleton} (hleft : left.Regular) (hchild : child.Regular)
    (hprevious : progress.previous.map Neighbour.kind = some left.kind)
    (hjoint : JointOf kind left child)
    (h : (progress.ruling (rulesFor kind children) child).insert = some .nothing)
    {last first : Word} (hlast : last ∈ left.words.getLast?) (hfirst : first ∈ child.words.head?) :
    Excused last.mark.token.kind first.mark.token.kind := by
  rcases beside_of_ruling h with hkind | ⟨htext, hkind⟩ | ⟨previous, hprevious', hkind⟩
  · rw [head?_kind hchild (by rw [hkind]; rfl) first hfirst, hkind]
    exact .inr (.inr (.inr (.inl rfl)))
  · have hkeyword := hjoint htext hkind
    have hnode := isNode_of_isKeyword hkeyword
    rw [head?_kind hchild (by rw [hkind]; rfl) first hfirst, getLast?_kind hleft hnode last hlast]
    exact .inr (.inr (.inr (.inr ⟨hkind, hkeyword⟩)))
  · have hsame : previous.kind = left.kind := by
      rw [Option.mem_def.mp hprevious'] at hprevious
      exact Option.some.inj hprevious
    rw [hsame] at hkind
    have hnode : left.kind.isNode = false := by
      rcases hkind with hkind | hkind | hkind <;> rw [hkind] <;> rfl
    rw [getLast?_kind hleft hnode last hlast]
    exact hkind.imp id (Or.imp id fun hminus => .inl hminus)

theorem excusing_reopen {insert : Option Insert} {level : Nat} {words : List JoinedWord}
    (h : Excusing words) : Excusing (reopen insert level words) := by
  cases words with
  | nil => exact h
  | cons first rest =>
    cases rest with
    | nil => exact .singleton _
    | cons next rest =>
      obtain ⟨hfirst, hrest⟩ := List.isChain_cons_cons.mp h
      exact .cons_cons hfirst hrest

theorem head?_reopen {insert : Option Insert} {level : Nat} {words : List JoinedWord}
    {next : JoinedWord} (h : next ∈ (reopen insert level words).head?) :
    next.insert = insert ∧ next.word ∈ (words.map JoinedWord.word).head? := by
  cases words with
  | nil => cases h
  | cons first rest =>
    obtain rfl := Option.some.inj h
    exact ⟨rfl, rfl⟩

theorem getLast?_reopen {insert : Option Insert} {level : Nat} {words : List JoinedWord}
    {next : JoinedWord} (h : next ∈ (reopen insert level words).getLast?) :
    next.word ∈ (words.map JoinedWord.word).getLast? := by
  rw [← map_word_reopen insert level, List.getLast?_map]
  exact Option.mem_map_of_mem _ h

mutual

/-- In a regular skeleton no space is asked for only at excused joins. -/
theorem excusing_joined (level : Nat) {skeleton : Skeleton} (h : skeleton.Regular) :
    Excusing (joined level skeleton) := by
  match skeleton with
  | .word w => exact .singleton _
  | .node kind children =>
    have htext : kind = .textType → (children.map Skeleton.kind).IsChain fun left right =>
        right = .star → left.isKeyword = true :=
      fun hkind => isChain_of_isTextRow (h.2.2.1 hkind)
    rw [joined]
    exact (excusing_joinedAll children ⟨level, none, none, []⟩ none h.2.2.2 (by simp) rfl htext).1

theorem excusing_joinedAll {kind : Kind} (whole : List Skeleton) (progress : Progress)
    (left : Option Skeleton) {children : List Skeleton} (h : Skeleton.RegularAll children)
    (hleft : ∀ skeleton ∈ left, skeleton.Regular)
    (hprevious : progress.previous.map Neighbour.kind = left.map Skeleton.kind)
    (htext : kind = .textType → ((left.toList ++ children).map Skeleton.kind).IsChain
      fun left right => right = .star → left.isKeyword = true) :
    Excusing (joinedAll (rulesFor kind whole) progress children) ∧
      ∀ skeleton ∈ left, ∀ last ∈ skeleton.words.getLast?,
        ∀ next ∈ (joinedAll (rulesFor kind whole) progress children).head?,
          next.insert = some .nothing → Excused last.mark.token.kind next.kind := by
  match children with
  | [] => exact ⟨.nil, fun _ _ _ _ next hnext => by cases hnext⟩
  | child :: rest =>
    obtain ⟨hchild, hrest⟩ := h
    rw [joinedAll]
    have hjoined := excusing_joined
      ((progress.ruling (rulesFor kind whole) child).shifts.foldl Shift.apply progress.level) hchild
    have hstep := excusing_joinedAll whole (progress.step
      (progress.ruling (rulesFor kind whole) child).insert
      ((progress.ruling (rulesFor kind whole) child).shifts.foldl Shift.apply progress.level)
      child none) (some child) hrest (fun _ hmem => Option.some.inj hmem ▸ hchild) rfl
      (fun hkind => by
        have hchain := htext hkind
        cases left with
        | none => exact hchain
        | some skeleton => exact List.IsChain.tail hchain)
    have hne : joined
        ((progress.ruling (rulesFor kind whole) child).shifts.foldl Shift.apply progress.level)
        child ≠ [] := by
      intro hnil
      have hwords := map_word_joined
        ((progress.ruling (rulesFor kind whole) child).shifts.foldl Shift.apply progress.level)
        child
      rw [hnil] at hwords
      exact Skeleton.words_ne_nil hchild hwords.symm
    -- Two joints are new: from the last word of the child on, and from the left neighbour to it.
    refine ⟨List.IsChain.append (excusing_reopen hjoined) hstep.1 ?_, ?_⟩
    · intro last hlast next hnext hinsert
      have hword := getLast?_reopen hlast
      rw [map_word_joined] at hword
      exact hstep.2 child rfl last.word hword next hnext hinsert
    · intro skeleton hskeleton last hlast next hnext hinsert
      obtain rfl := Option.mem_def.mp hskeleton
      have hnext' : next ∈ (reopen (progress.ruling (rulesFor kind whole) child).insert
          ((progress.ruling (rulesFor kind whole) child).shifts.foldl Shift.apply progress.level)
          (joined ((progress.ruling (rulesFor kind whole) child).shifts.foldl Shift.apply
            progress.level) child)).head? := by
        revert hnext
        cases hwords : joined ((progress.ruling (rulesFor kind whole) child).shifts.foldl
          Shift.apply progress.level) child with
        | nil => exact absurd hwords hne
        | cons first others => exact id
      obtain ⟨hasked, hword⟩ := head?_reopen hnext'
      rw [map_word_joined] at hword
      have hjoint : JointOf kind skeleton child :=
        fun hkind => (List.isChain_cons_cons.mp (htext hkind)).1
      exact excused_of_ruling (hleft skeleton rfl) hchild hprevious hjoint (hasked ▸ hinsert) hlast
        hword

end

section Neighbours

variable {R : Token → Slot → Prop}

def FitsBreaks (R : Token → Slot → Prop) : Prop :=
  ∀ (left : Mark) (level count : Nat) (token : Token), keptBreaks left ≤ count → count ≤ 2 →
    R left.token ⟨lineBreaks level count, token⟩

def FitsJoint (R : Token → Slot → Prop) (left : Mark) (next : JoinedWord) : Prop :=
  R left.token ⟨separatorBetween left next.word.mark.token next.insert next.level,
    next.word.mark.token⟩

theorem chain_commentSlots (hbreaks : FitsBreaks R) (level : Nat) (separator : Separator)
    (left : Mark) (comments : List Mark) {slots : List Slot}
    (h : (⟨separator, (comments.getLastD left).token⟩ :: slots).IsChain
      fun left slot => R left.token slot) :
    (⟨separator, left.token⟩ :: (Part.commentSlots level left comments ++ slots)).IsChain
      fun left slot => R left.token slot := by
  induction comments generalizing separator left with
  | nil => exact h
  | cons comment rest ih =>
    refine .cons_cons (hbreaks left level _ _ (Nat.le_refl _) (keptBreaks_le left)) ?_
    apply ih
    rw [List.getLastD_cons] at h
    cases slots with
    | nil => exact .singleton _
    | cons slot slots =>
      obtain ⟨hfirst, hslots⟩ := List.isChain_cons_cons.mp h
      exact .cons_cons hfirst hslots

theorem chain_slotsBehind (hbreaks : FitsBreaks R) (separator : Separator) (left : Mark)
    {words : List JoinedWord} (hproper : ∀ next ∈ words, Proper next.word)
    (hjoints : words.IsChain fun left next => FitsJoint R left.word.mark next)
    (hleft : ∀ next ∈ words.head?, FitsJoint R left next) :
    (⟨separator, left.token⟩ :: slotsBehind left words).IsChain
      fun left slot => R left.token slot := by
  induction words generalizing separator left with
  | nil => exact .singleton _
  | cons next rest ih =>
    have hnext := hproper next List.mem_cons_self
    have hrest : (⟨separatorBefore left next, next.word.mark.token⟩ ::
        slotsBehind next.word.mark rest).IsChain fun left slot => R left.token slot := by
      apply ih _ _ (fun other hother => hproper other (List.mem_cons_of_mem _ hother)) hjoints.tail
      intro other hother
      cases rest with
      | nil => cases hother
      | cons first others =>
        obtain rfl := Option.some.inj hother
        exact (List.isChain_cons_cons.mp hjoints).1
    rw [slotsBehind]
    apply chain_commentSlots hbreaks
    refine .cons_cons ?_ hrest
    by_cases hempty : next.word.comments.isEmpty = true
    · rw [separatorBefore_of_isEmpty left hempty, List.isEmpty_iff.mp hempty]
      exact hleft next rfl
    · rw [Bool.not_eq_true] at hempty
      have hkept := keptBreaks_le (next.word.comments.getLastD left)
      have hasked := breaksOf_le next.insert
      rw [separatorBefore_of_comments left hempty hnext]
      apply hbreaks
      · split <;> omega
      · split <;> omega

/-- What holds of line breaks and at the joints of the words holds between printed tokens. -/
theorem chain_slotsOfWords (hbreaks : FitsBreaks R) {words : List JoinedWord}
    (hproper : ∀ next ∈ words, Proper next.word)
    (hjoints : words.IsChain fun left next => FitsJoint R left.word.mark next) :
    (slotsOfWords words).IsChain fun left slot => R left.token slot := by
  cases words with
  | nil => exact .nil
  | cons first rest =>
    have hrest (separator : Separator) : (⟨separator, first.word.mark.token⟩ ::
        slotsBehind first.word.mark rest).IsChain fun left slot => R left.token slot := by
      apply chain_slotsBehind hbreaks _ _
        (fun other hother => hproper other (List.mem_cons_of_mem _ hother)) hjoints.tail
      intro other hother
      cases rest with
      | nil => cases hother
      | cons next others =>
        obtain rfl := Option.some.inj hother
        exact (List.isChain_cons_cons.mp hjoints).1
    rw [slotsOfWords]
    cases first.word.comments with
    | nil => exact hrest .tight
    | cons comment others =>
      simp only [List.append_assoc, List.cons_append]
      apply chain_commentSlots hbreaks
      exact .cons_cons (hbreaks _ _ _ _ (Nat.le_refl _) (keptBreaks_le _)) (hrest _)

end Neighbours

/-- Kinds that may stand next to each other without a space. -/
def Touching (left right : Kind) : Prop :=
  isOpening left = true ∨ isClosing right = true ∨ Excused left right

/-- A separator that fits behind a token: nothing only where tokens may touch and do not fuse, and a
line break behind a comment that must end its line. -/
def Sound (left : Token) (slot : Slot) : Prop :=
  (slot.separator = .tight →
    Touching left.kind slot.token.kind ∧ wouldFuse left slot.token = false) ∧
  (endsLine left.kind = true → slot.separator.breaks ≠ 0)

theorem keptBreaks_of_endsLine {mark : Mark} (h : endsLine mark.token.kind = true) :
    keptBreaks mark ≠ 0 := by
  rw [keptBreaks, if_pos h]
  omega

theorem lineBreaks_ne_tight (level count : Nat) : lineBreaks level count ≠ .tight := by
  unfold lineBreaks
  split <;> simp

theorem sound_lineBreaks {left : Mark} {level count : Nat} (hkept : keptBreaks left ≤ count)
    (hcount : count ≤ 2) (token : Token) : Sound left.token ⟨lineBreaks level count, token⟩ := by
  refine ⟨fun htight => absurd htight (lineBreaks_ne_tight level count), fun hends => ?_⟩
  have := keptBreaks_of_endsLine hends
  rw [breaks_lineBreaks level hcount]
  omega

theorem isComment_of_endsLine {kind : Kind} (h : endsLine kind = true) :
    kind.isComment = true := by
  revert h
  unfold endsLine
  split <;> simp [Kind.isComment]

theorem sound_tightest {left right : Token} (h : Touching left.kind right.kind) :
    tightest left right = .tight →
      Touching left.kind right.kind ∧ wouldFuse left right = false := by
  rw [tightest]
  split
  · nofun
  · next hfuse => exact fun _ => ⟨h, Bool.eq_false_iff.mpr hfuse⟩

theorem sound_separatorBetween {left : Mark} {right : Token} {insert : Option Insert} {level : Nat}
    (h : insert = some .nothing → Excused left.token.kind right.kind) :
    Sound left.token ⟨separatorBetween left right insert level, right⟩ := by
  by_cases hcomment : (left.token.kind.isComment || right.kind.isComment) = true
  · have hseparator : separatorBetween left right insert level =
        lineBreaks level (keptBreaks left) := if_pos hcomment
    rw [hseparator]
    exact sound_lineBreaks (Nat.le_refl _) (keptBreaks_le left) right
  · refine ⟨?_, fun hends => ?_⟩
    · simp only [separatorBetween, if_neg hcomment]
      split
      · rintro ⟨⟩
      · exact sound_tightest (.inr (.inr (h rfl)))
      · rintro ⟨⟩
      · rintro ⟨⟩
      · split
        · next htouch =>
          apply sound_tightest
          rcases (Bool.or_eq_true _ _).mp htouch with hopening | hclosing
          · exact .inl hopening
          · exact .inr (.inl hclosing)
        · rintro ⟨⟩
    · simp [isComment_of_endsLine hends] at hcomment

def SoundRow (slots : List Slot) : Prop :=
  slots.IsChain fun left slot => Sound left.token slot

theorem sound_slotsOfWords {words : List JoinedWord} (hproper : ∀ next ∈ words, Proper next.word)
    (hwords : Excusing words) : SoundRow (slotsOfWords words) :=
  chain_slotsOfWords (fun _ _ _ token hkept hcount => sound_lineBreaks hkept hcount token) hproper
    (hwords.imp fun _ _ => sound_separatorBetween)

theorem excusing_of_none {words : List JoinedWord} (h : ∀ next ∈ words, next.insert = none) :
    Excusing words := by
  induction words with
  | nil => exact .nil
  | cons first rest ih =>
    cases rest with
    | nil => exact .singleton _
    | cons next others =>
      refine .cons_cons ?_ (ih fun other hother => h other (List.mem_cons_of_mem _ hother))
      intro hinsert
      rw [h next (List.mem_cons_of_mem _ List.mem_cons_self)] at hinsert
      cases hinsert

theorem excusing_append_trailing {words : List JoinedWord} (h : Excusing words)
    (comments : List Mark) :
    Excusing (words ++ comments.map fun comment => ⟨none, 0, ⟨[], comment⟩⟩) := by
  have htrailing : ∀ next ∈ comments.map fun comment => (⟨none, 0, ⟨[], comment⟩⟩ : JoinedWord),
      next.insert = none := by
    intro next hnext
    obtain ⟨comment, -, rfl⟩ := List.mem_map.mp hnext
    rfl
  refine List.IsChain.append h ?_ ?_
  · exact excusing_of_none htrailing
  · intro last _ next hnext hinsert
    rw [htrailing next (List.mem_of_mem_head? hnext)] at hinsert
    cases hinsert

theorem excusing_joinedTree {tree : Tree} (h : tree.Regular) : Excusing (joinedTree tree) := by
  apply excusing_append_trailing
  rw [joinedBody]
  cases hskeleton : tree.skeleton? with
  | none => exact .nil
  | some skeleton => exact excusing_joined 0 (Tree.regular_skeleton? h skeleton hskeleton)

end Layout

end Ili
