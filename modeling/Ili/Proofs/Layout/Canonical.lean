import Ili.Proofs.Layout.Idempotence
import Ili.Proofs.Token.Spacing

/-!
# Layout is canonical

Two texts with the same tokens, blanks left aside, have the same layout as long as they agree on the
line breaks next to comments, and there only up to a blank line. All other blanks have no influence.
-/

namespace Ili

/-- The tokens that are not blanks, each with the line feeds in the blanks behind it. -/
def marksOf : List Token → List Mark
  | [] => []
  | t :: rest => if t.kind = .whitespace then marksOf rest else ⟨t, breaksIn rest⟩ :: marksOf rest

theorem map_token_marksOf (tokens : List Token) :
    (marksOf tokens).map Mark.token = solidTokens Kind.isComment tokens := by
  induction tokens with
  | nil => rfl
  | cons t rest ih =>
    rw [solidTokens_cons, marksOf]
    split
    · exact ih
    · rw [List.map_cons, ih]

namespace Mark

/-- Where a comment stands next to them, the breaks behind two marks count alike. -/
def Agree (here next : Mark × Mark) : Prop :=
  (here.1.token.kind.isComment || next.1.token.kind.isComment) = true →
    min here.1.breaksBehind Layout.maxKeptBreaks = min here.2.breaksBehind Layout.maxKeptBreaks

instance : DecidableRel Agree :=
  fun _ _ => inferInstanceAs (Decidable (_ → _))

structure Paired (pairs : List (Mark × Mark)) : Prop where
  token : ∀ pair ∈ pairs, pair.1.token = pair.2.token
  agree : pairs.IsChain Agree

theorem Paired.tail {pair : Mark × Mark} {pairs : List (Mark × Mark)}
    (h : Paired (pair :: pairs)) : Paired pairs :=
  ⟨fun other hother => h.token other (List.mem_cons_of_mem _ hother), h.agree.tail⟩

def Alike (mark other : Mark) : Prop :=
  mark.token = other.token ∧ Layout.keptBreaks mark = Layout.keptBreaks other

theorem Paired.alike {here next : Mark × Mark} {pairs : List (Mark × Mark)}
    (h : Paired (here :: next :: pairs))
    (hcomment : (here.1.token.kind.isComment || next.1.token.kind.isComment) = true) :
    here.1.Alike here.2 := by
  have htoken := h.token here List.mem_cons_self
  have hbreaks := (List.isChain_cons_cons.mp h.agree).1 hcomment
  refine ⟨htoken, ?_⟩
  rw [Layout.keptBreaks, Layout.keptBreaks, hbreaks, htoken]

theorem Paired.forall₂_alike {pending : List (Mark × Mark)} {next : Mark × Mark}
    {pairs : List (Mark × Mark)} (h : Paired (pending ++ next :: pairs))
    (hpending : ∀ pair ∈ pending, pair.1.token.kind.isComment = true) :
    List.Forall₂ Alike (pending.map Prod.fst) (pending.map Prod.snd) := by
  induction pending with
  | nil => exact .nil
  | cons pair rest ih =>
    have hcomment := hpending pair List.mem_cons_self
    have hrest := ih h.tail fun other hother => hpending other (List.mem_cons_of_mem _ hother)
    refine .cons ?_ hrest
    cases rest with
    | nil => exact Paired.alike h (by rw [hcomment, Bool.true_or])
    | cons second others => exact Paired.alike h (by rw [hcomment, Bool.true_or])

end Mark

def gatherMarks (pending : List Mark) (cuts : List Bool) : List Mark → List Word × List Mark
  | [] => ([], pending)
  | mark :: rest =>
    if mark.token.kind.isComment then gatherMarks (pending ++ [mark]) cuts rest
    else
      let (words, trailing) := gatherMarks [] cuts.tail rest
      (⟨if cuts.headD false then [] else pending, mark⟩ :: words, trailing)

theorem gather_eq_gatherMarks (pending : List Mark) (cuts : List Bool) (tokens : List Token) :
    gather pending cuts tokens = gatherMarks pending cuts (marksOf tokens) := by
  induction tokens generalizing pending cuts with
  | nil => rfl
  | cons t rest ih =>
    rw [gather, marksOf]
    by_cases hblank : t.kind = .whitespace
    · have hcomment : t.kind.isComment = false := by rw [hblank]; rfl
      have htrivia : t.kind.isTrivia = true := by rw [hblank]; rfl
      rw [hcomment, if_neg Bool.false_ne_true, if_pos htrivia, if_pos hblank, ih]
    · rw [if_neg hblank, gatherMarks]
      by_cases hcomment : t.kind.isComment = true
      · rw [if_pos hcomment, if_pos hcomment, ih]
      · have htrivia : ¬t.kind.isTrivia = true := by
          simp [Kind.isTrivia, hblank, hcomment]
        rw [if_neg hcomment, if_neg hcomment, if_neg htrivia, ih]

namespace Layout

/-- Two rows of words that print alike behind two marks. The breaks behind a mark count only where a
comment follows or precedes. -/
inductive WordsAlike : Mark → Mark → List Word → List Word → Prop
  | nil {left other : Mark} : WordsAlike left other [] []
  | cons {left other : Mark} {word word' : Word} {rest others : List Word}
      (htoken : word.mark.token = word'.mark.token)
      (hcomments : List.Forall₂ Mark.Alike word.comments word'.comments)
      (hleft : keptBreaks left = keptBreaks other ∨ word.comments = [] ∧
        left.token.kind.isComment = false ∧ word.mark.token.kind.isComment = false)
      (hrest : WordsAlike word.mark word'.mark rest others) :
      WordsAlike left other (word :: rest) (word' :: others)

theorem commentSlots_congr {left other : Mark} {comments others : List Mark} (level : Nat)
    (hleft : comments = [] ∨ keptBreaks left = keptBreaks other)
    (hcomments : List.Forall₂ Mark.Alike comments others) :
    Part.commentSlots level left comments = Part.commentSlots level other others := by
  induction hcomments generalizing left other with
  | nil => rfl
  | @cons comment comment' rest rest' halike _ ih =>
    have hkept := hleft.resolve_left (List.cons_ne_nil _ _)
    rw [Part.commentSlots, Part.commentSlots, hkept, halike.1, ih (.inr halike.2)]

theorem getLastD_alike {left other : Mark} {comments others : List Mark}
    (hleft : left.Alike other) (hcomments : List.Forall₂ Mark.Alike comments others) :
    (comments.getLastD left).Alike (others.getLastD other) := by
  induction hcomments generalizing left other with
  | nil => exact hleft
  | cons halike _ ih =>
    rw [List.getLastD_cons, List.getLastD_cons]
    exact ih halike

theorem separatorBetween_congr {left other : Mark} (h : left.Alike other) (right : Token)
    (insert : Option Insert) (level : Nat) :
    separatorBetween left right insert level = separatorBetween other right insert level := by
  simp only [separatorBetween, h.1, h.2]

theorem separatorBefore_congr {left other : Mark} {next next' : JoinedWord}
    (htokens : left.token = other.token) (hasked : next.asked = next'.asked)
    (htoken : next.word.mark.token = next'.word.mark.token)
    (hcomments : List.Forall₂ Mark.Alike next.word.comments next'.word.comments)
    (hleft : keptBreaks left = keptBreaks other ∨ next.word.comments = [] ∧
      left.token.kind.isComment = false ∧ next.word.mark.token.kind.isComment = false) :
    separatorBefore left next = separatorBefore other next' := by
  have hinsert : next.insert = next'.insert := congrArg Prod.fst hasked
  have hlevel : next.level = next'.level := congrArg Prod.snd hasked
  rcases hleft with hkept | ⟨hnone, hvisible, hword⟩
  · have hlast := getLastD_alike ⟨htokens, hkept⟩ hcomments
    have hempty : next.word.comments.isEmpty = next'.word.comments.isEmpty := by
      rw [Bool.eq_iff_iff, List.isEmpty_iff_length_eq_zero, List.isEmpty_iff_length_eq_zero,
        hcomments.length_eq]
    simp only [separatorBefore, hempty, hkept, hlast.2, htoken, hinsert, hlevel,
      separatorBetween_congr hlast]
  · have hnone' : next'.word.comments = [] := by
      rw [hnone] at hcomments
      exact List.forall₂_nil_left_iff.mp hcomments
    have hword' : next'.word.mark.token.kind.isComment = false := by rw [← htoken, hword]
    have hvisible' : other.token.kind.isComment = false := by rw [← htokens, hvisible]
    simp only [separatorBefore, hnone, hnone', List.isEmpty_nil, if_true, List.getLastD_nil]
    -- No comment is near, so only the kinds and the rules decide.
    simp only [separatorBetween, htokens, htoken, hvisible', hword', hinsert, hlevel, Bool.or_self,
      Bool.false_eq_true, if_false]

theorem slotsBehind_congr {left other : Mark} {words others : List JoinedWord}
    (htokens : left.token = other.token)
    (hasked : words.map JoinedWord.asked = others.map JoinedWord.asked)
    (halike : WordsAlike left other (words.map JoinedWord.word) (others.map JoinedWord.word)) :
    slotsBehind left words = slotsBehind other others := by
  induction words generalizing left other others with
  | nil =>
    obtain rfl := List.map_eq_nil_iff.mp hasked.symm
    rfl
  | cons next rest ih =>
    cases others with
    | nil => cases hasked
    | cons next' rest' =>
      obtain ⟨hnext, hrest⟩ := List.cons.inj hasked
      cases halike with
      | cons htoken hcomments hleft hwords =>
        have hlevel : next.level = next'.level := congrArg Prod.snd hnext
        rw [slotsBehind, slotsBehind, ih htoken hrest hwords, hlevel, htoken,
          separatorBefore_congr htokens hnext htoken hcomments hleft,
          commentSlots_congr next'.level (hleft.symm.imp_left And.left) hcomments]

inductive BeginAlike : List Word → List Word → Prop
  | nil : BeginAlike [] []
  | cons {word word' : Word} {rest others : List Word}
      (htoken : word.mark.token = word'.mark.token)
      (hcomments : List.Forall₂ Mark.Alike word.comments word'.comments)
      (hrest : WordsAlike word.mark word'.mark rest others) :
      BeginAlike (word :: rest) (word' :: others)

theorem WordsAlike.length_eq {left other : Mark} {words others : List Word}
    (h : WordsAlike left other words others) : words.length = others.length := by
  induction h with
  | nil => rfl
  | cons _ _ _ _ ih => rw [List.length_cons, List.length_cons, ih]

theorem BeginAlike.length_eq {words others : List Word} (h : BeginAlike words others) :
    words.length = others.length := by
  cases h with
  | nil => rfl
  | cons _ _ hrest => rw [List.length_cons, List.length_cons, hrest.length_eq]

theorem slotsOfWords_congr {words others : List JoinedWord}
    (hasked : words.map JoinedWord.asked = others.map JoinedWord.asked)
    (halike : BeginAlike (words.map JoinedWord.word) (others.map JoinedWord.word)) :
    slotsOfWords words = slotsOfWords others := by
  cases words with
  | nil =>
    obtain rfl := List.map_eq_nil_iff.mp hasked.symm
    rfl
  | cons next rest =>
    cases others with
    | nil => cases hasked
    | cons next' rest' =>
      obtain ⟨-, hrest⟩ := List.cons.inj hasked
      obtain ⟨insert, level, comments, mark⟩ := next
      obtain ⟨insert', level', comments', mark'⟩ := next'
      cases halike with
      | cons htoken hcomments hwords =>
        have hbehind := slotsBehind_congr htoken hrest hwords
        rw [slotsOfWords, slotsOfWords, hbehind]
        congr 1
        cases hcomments with
        | nil => rw [htoken]
        | cons hfirst hothers =>
          have hlast := getLastD_alike hfirst hothers
          dsimp only
          rw [commentSlots_congr 0 (.inr hfirst.2) hothers, hlast.2, hfirst.1, htoken]

end Layout

open Layout

/-- The words of a row of marks, with the comments behind the last one as words of their own. -/
def wordsOfMarks (pending : List Mark) (cuts : List Bool) (marks : List Mark) : List Word :=
  (gatherMarks pending cuts marks).1 ++ (gatherMarks pending cuts marks).2.map bareComment

theorem wordsOfMarks_comment {mark : Mark} (h : mark.token.kind.isComment = true)
    (pending : List Mark) (cuts : List Bool) (rest : List Mark) :
    wordsOfMarks pending cuts (mark :: rest) = wordsOfMarks (pending ++ [mark]) cuts rest := by
  simp only [wordsOfMarks, gatherMarks, h, if_true]

theorem wordsOfMarks_visible {mark : Mark} (h : mark.token.kind.isComment = false)
    (pending : List Mark) (cuts : List Bool) (rest : List Mark) :
    wordsOfMarks pending cuts (mark :: rest) =
      ⟨if cuts.headD false then [] else pending, mark⟩ :: wordsOfMarks [] cuts.tail rest := by
  simp only [wordsOfMarks, gatherMarks, h, Bool.false_eq_true, if_false, List.cons_append]

namespace Mark.Paired

variable {pending pairs : List (Mark × Mark)} {left : Mark × Mark}

theorem isComment_concat {pair : Mark × Mark}
    (hpending : ∀ pair ∈ pending, pair.1.token.kind.isComment = true)
    (hpair : pair.1.token.kind.isComment = true) :
    ∀ other ∈ pending ++ [pair], other.1.token.kind.isComment = true := by
  intro other hother
  rcases List.mem_append.mp hother with hold | hlast
  · exact hpending other hold
  · rw [List.mem_singleton.mp hlast, hpair]

theorem wordsAlike_trailing (h : Paired (left :: pending))
    (hpending : ∀ pair ∈ pending, pair.1.token.kind.isComment = true) :
    WordsAlike left.1 left.2 ((pending.map Prod.fst).map bareComment)
      ((pending.map Prod.snd).map bareComment) := by
  induction pending generalizing left with
  | nil => exact .nil
  | cons pair rest ih =>
    have hcomment := hpending pair List.mem_cons_self
    have hrest := ih h.tail fun other hother => hpending other (List.mem_cons_of_mem _ hother)
    have hleft := h.alike (by rw [hcomment, Bool.or_true])
    exact .cons (h.tail.token pair List.mem_cons_self) .nil (.inl hleft.2) hrest

theorem forall₂_attached {next : Mark × Mark} (cut : Bool) (h : Paired (pending ++ next :: pairs))
    (hpending : ∀ pair ∈ pending, pair.1.token.kind.isComment = true) :
    List.Forall₂ Alike (if cut then [] else pending.map Prod.fst)
      (if cut then [] else pending.map Prod.snd) := by
  cases cut with
  | true => exact .nil
  | false => exact h.forall₂_alike hpending

theorem wordsAlike (cuts : List Bool) (h : Paired (left :: (pending ++ pairs)))
    (hleft : left.1.token.kind.isComment = false)
    (hpending : ∀ pair ∈ pending, pair.1.token.kind.isComment = true) :
    WordsAlike left.1 left.2 (wordsOfMarks (pending.map Prod.fst) cuts (pairs.map Prod.fst))
      (wordsOfMarks (pending.map Prod.snd) cuts (pairs.map Prod.snd)) := by
  induction pairs generalizing left pending cuts with
  | nil =>
    rw [List.append_nil] at h
    exact h.wordsAlike_trailing hpending
  | cons pair rest ih =>
    have htoken : pair.1.token = pair.2.token := h.token pair (by simp)
    by_cases hcomment : pair.1.token.kind.isComment = true
    · have hcomment' : pair.2.token.kind.isComment = true := by rw [← htoken, hcomment]
      rw [List.map_cons, List.map_cons, wordsOfMarks_comment hcomment,
        wordsOfMarks_comment hcomment']
      have hrow : Paired (left :: ((pending ++ [pair]) ++ rest)) := by simpa using h
      have hstep := ih cuts hrow hleft (isComment_concat hpending hcomment)
      simpa only [List.map_append, List.map_cons, List.map_nil] using hstep
    · rw [Bool.not_eq_true] at hcomment
      have hcomment' : pair.2.token.kind.isComment = false := by rw [← htoken, hcomment]
      rw [List.map_cons, List.map_cons, wordsOfMarks_visible hcomment,
        wordsOfMarks_visible hcomment']
      have hbehind : Paired (pair :: ([] ++ rest)) :=
        ⟨fun other hother => h.token other (by simp_all), (List.isChain_append.mp h.agree.tail).2.1⟩
      have hrest := ih cuts.tail hbehind hcomment (by simp)
      refine .cons htoken (h.tail.forall₂_attached _ hpending) ?_ hrest
      cases pending with
      | nil => exact .inr ⟨by simp, hleft, hcomment⟩
      | cons comment others =>
        have hfirst := hpending comment List.mem_cons_self
        exact .inl (h.alike (by rw [hfirst, Bool.or_true])).2

theorem beginAlike (cuts : List Bool) (h : Paired (pending ++ pairs))
    (hpending : ∀ pair ∈ pending, pair.1.token.kind.isComment = true) :
    BeginAlike (wordsOfMarks (pending.map Prod.fst) cuts (pairs.map Prod.fst))
      (wordsOfMarks (pending.map Prod.snd) cuts (pairs.map Prod.snd)) := by
  induction pairs generalizing pending with
  | nil =>
    rw [List.append_nil] at h
    cases pending with
    | nil => exact .nil
    | cons first rest =>
      exact .cons (h.token first List.mem_cons_self) .nil <| h.wordsAlike_trailing
        fun other hother => hpending other (List.mem_cons_of_mem _ hother)
  | cons pair rest ih =>
    have htoken : pair.1.token = pair.2.token := h.token pair (by simp)
    by_cases hcomment : pair.1.token.kind.isComment = true
    · have hcomment' : pair.2.token.kind.isComment = true := by rw [← htoken, hcomment]
      rw [List.map_cons, List.map_cons, wordsOfMarks_comment hcomment,
        wordsOfMarks_comment hcomment']
      have hrow : Paired ((pending ++ [pair]) ++ rest) := by simpa using h
      have hstep := ih hrow (isComment_concat hpending hcomment)
      simpa only [List.map_append, List.map_cons, List.map_nil] using hstep
    · rw [Bool.not_eq_true] at hcomment
      have hcomment' : pair.2.token.kind.isComment = false := by rw [← htoken, hcomment]
      rw [List.map_cons, List.map_cons, wordsOfMarks_visible hcomment,
        wordsOfMarks_visible hcomment']
      have hbehind : Paired (pair :: ([] ++ rest)) :=
        ⟨fun other hother => h.token other (by simp_all), (List.isChain_append.mp h.agree).2.1⟩
      exact .cons htoken (h.forall₂_attached _ hpending)
        (hbehind.wordsAlike cuts.tail hcomment (by simp))

end Mark.Paired

namespace Mark

/-- The mark with its token as it stands in the text, where a reserved word taken as a name is no
name yet. -/
def restore (mark : Mark) : Mark :=
  ⟨mark.token.restore, mark.breaksBehind⟩

theorem isComment_restore (mark : Mark) :
    mark.restore.token.kind.isComment = mark.token.kind.isComment := by
  rw [restore, Token.restore]
  split
  · next hident =>
    have hword := Token.isTrivia_of_word (Token.isWord_ofWord mark.token.text)
    rw [Kind.isTrivia, Bool.or_eq_false_iff] at hword
    rw [hident]
    exact hword.2
  · rfl

theorem agree_restore_iff (here next : Mark × Mark) :
    Agree (here.map restore restore) (next.map restore restore) ↔ Agree here next := by
  simp only [Agree, Prod.map_fst, isComment_restore]
  rfl

end Mark

theorem breaksIn_map_restore (tokens : List Token) :
    breaksIn (tokens.map Token.restore) = breaksIn tokens := by
  induction tokens with
  | nil => rfl
  | cons t rest ih =>
    simp only [List.map_cons, breaksIn, restore_kind_eq_whitespace_iff, Token.text_restore, ih]

theorem marksOf_map_restore (tokens : List Token) :
    marksOf (tokens.map Token.restore) = (marksOf tokens).map Mark.restore := by
  induction tokens with
  | nil => rfl
  | cons t rest ih =>
    simp only [List.map_cons, marksOf, restore_kind_eq_whitespace_iff]
    split
    · exact ih
    · rw [List.map_cons, ih, breaksIn_map_restore]
      rfl

theorem isChain_agree_of_no_comment {marks : List Mark} (others : List Mark)
    (h : ∀ mark ∈ marks, mark.token.kind.isComment = false) :
    (marks.zip others).IsChain Mark.Agree := by
  refine (List.pairwise_of_forall_mem_list fun here hhere next hnext hcomment => ?_).isChain
  rw [h _ (List.of_mem_zip hhere).1, h _ (List.of_mem_zip hnext).1] at hcomment
  cases hcomment

section Parsed

variable {text other : String}

theorem paired_parse
    (hbare : (parse other).tree.bare Kind.isComment id = (parse text).tree.bare Kind.isComment id)
    (hagree : ((marksOf (tokenize text)).zip (marksOf (tokenize other))).IsChain Mark.Agree) :
    ∃ pairs, Mark.Paired pairs ∧ pairs.map Prod.fst = marksOf (parse text).tree.tokens ∧
      pairs.map Prod.snd = marksOf (parse other).tree.tokens := by
  have hsame : List.Forall₂ (fun mark mark' : Mark => mark.token = mark'.token)
      (marksOf (parse text).tree.tokens) (marksOf (parse other).tree.tokens) := by
    have hsolid := congrArg Tree.tokens hbare
    rw [Tree.tokens_bare _ _ rfl, Tree.tokens_bare _ _ rfl, Token.rewrite_id, List.map_id,
      List.map_id, ← map_token_marksOf, ← map_token_marksOf, ← List.forall₂_eq_eq_eq,
      List.forall₂_map_left_iff, List.forall₂_map_right_iff] at hsolid
    exact hsolid.flip.imp fun _ _ heq => heq.symm
  obtain ⟨hlength, htoken⟩ := List.forall₂_iff_zip.mp hsame
  refine ⟨(marksOf (parse text).tree.tokens).zip (marksOf (parse other).tree.tokens),
    ⟨fun pair hpair => htoken hpair, ?_⟩, List.map_fst_zip hlength.le, List.map_snd_zip hlength.ge⟩
  rw [← map_restore_tokens_parse text, ← map_restore_tokens_parse other, marksOf_map_restore,
    marksOf_map_restore, List.zip_map, List.isChain_map] at hagree
  exact hagree.imp fun here next => (Mark.agree_restore_iff here next).mp

/-- Texts that agree are printed alike. -/
theorem slotsOf_parse_congr
    (htokens : (marksOf (tokenize other)).map Mark.token =
      (marksOf (tokenize text)).map Mark.token)
    (hagree : ((marksOf (tokenize text)).zip (marksOf (tokenize other))).IsChain Mark.Agree) :
    slotsOf (parse other).tree = slotsOf (parse text).tree := by
  have hkept : KeptAlike Kind.isComment id (tokenize text) (tokenize other) := by
    rw [KeptAlike, Token.rewrite_id, List.map_id, ← map_token_marksOf, htokens, map_token_marksOf]
  have hbare := (bare_parse (spares_id _) hkept).1
  obtain ⟨pairs, hpaired, hfirst, hsecond⟩ := paired_parse hbare hagree
  -- The same marks with the same cuts are gathered to words that print alike.
  have hwords (text : String) : wordsOfMarks [] (cutsOf text) (marksOf (parse text).tree.tokens) =
      (joinedTree (parse text).tree).map JoinedWord.word := by
    rw [wordsOfMarks, ← gather_eq_gatherMarks, gather_parse, map_word_joinedTree]
    rfl
  have halike : BeginAlike ((joinedTree (parse text).tree).map JoinedWord.word)
      ((joinedTree (parse other).tree).map JoinedWord.word) := by
    rw [← hwords, ← hwords, cutsOf_congr hbare, ← hfirst, ← hsecond]
    have hrow : Mark.Paired ([] ++ pairs) := hpaired
    exact hrow.beginAlike (cutsOf text) (by simp)
  -- What is asked for in front of them is the same because the kinds are.
  have hkinds : (attachedWords [] (parse other).tree.leaves).map kindOnly =
      (attachedWords [] (parse text).tree.leaves).map kindOnly := by
    have hvisible := congrArg visible (congrArg Tree.tokens hbare)
    rw [Tree.tokens_bare _ _ rfl, Tree.tokens_bare _ _ rfl, Token.rewrite_id, List.map_id,
      List.map_id, visible_solidTokens, visible_solidTokens] at hvisible
    rw [map_kindOnly_attachedWords, map_kindOnly_attachedWords, hvisible]
  have hbody := asked_joinedBody_congr hbare hkinds
  have htrailing : (parse other).tree.trailingComments.length =
      (parse text).tree.trailingComments.length := by
    have hcount := halike.length_eq
    have hbodies := congrArg List.length hbody
    simp only [joinedTree, List.length_map, List.length_append] at hcount hbodies
    omega
  rw [slotsOf_eq, slotsOf_eq]
  refine (slotsOfWords_congr ?_ halike).symm
  rw [joinedTree, joinedTree, List.map_append, List.map_append, hbody, map_asked_trailing,
    map_asked_trailing, htrailing]

end Parsed

/-- **Layout is canonical.** It depends on the tokens that are not blanks and, where one of two
neighbours is a comment, on the line breaks between them, of which no more than two count. Without
comments it depends on the tokens alone. -/
theorem formatText_canonical {text other : String}
    (htokens : (marksOf (tokenize other)).map Mark.token =
      (marksOf (tokenize text)).map Mark.token) :
    (((marksOf (tokenize text)).zip (marksOf (tokenize other))).IsChain Mark.Agree →
      ∀ options, formatText other options = formatText text options) ∧
    ((∀ mark ∈ marksOf (tokenize text), mark.token.kind.isComment = false) →
      ∀ options, formatText other options = formatText text options) := by
  have hsame (hagree : ((marksOf (tokenize text)).zip (marksOf (tokenize other))).IsChain
      Mark.Agree) (options : LayoutOptions) :
      formatText other options = formatText text options := by
    rw [formatText, formatText, Tree.format, Tree.format, slotsOf_parse_congr htokens hagree]
  exact ⟨hsame, fun hplain => hsame (isChain_agree_of_no_comment _ hplain)⟩

/-- A model with comments beside and above its words. -/
def looseText : String :=
  "INTERLIS 2.4;\n!! about\n\n\n\nMODEL  M = /* a */ CLASS A = x : 1 .. 5;\nEND A; END M."

def denseText : String :=
  "INTERLIS   2.4 ;\n!! about\n\nMODEL M\n= /* a */ CLASS A=x:1..5;END\n\nA;END M ."

def plainLines : String :=
  "INTERLIS 2.4;\nMODEL M =\nEND M."

def plainLine : String :=
  "INTERLIS 2.4; MODEL M=END M."

theorem formatText_canonical_dense :
    (∀ options, formatText denseText options = formatText looseText options) ∧
      ∀ options, formatText plainLine options = formatText plainLines options :=
  ⟨(formatText_canonical (by decide +kernel)).1 (by decide +kernel),
    (formatText_canonical (by decide +kernel)).2 (by decide +kernel)⟩

end Ili
