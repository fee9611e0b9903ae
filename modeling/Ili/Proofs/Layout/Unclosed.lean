import Ili.Proofs.Layout.ReadBack

/-!
# A comment that is not closed in a layout

A comment that is never closed is the last word of a text, and ending the text may change the line
feeds in it. What is printed in front of it stays as it is: the tokens it may touch do not fuse with
anything that begins with a slash.
-/

namespace Ili.Layout

variable {options : LayoutOptions}

def finishWord (options : LayoutOptions) (word : Word) : Word :=
  ⟨word.comments, word.mark.token.finish options, word.mark.breaksBehind⟩

theorem text_of_leadsTight {kind : Kind} (h : leadsTight kind = true) :
    ∃ c cs, kind.mark? = some (String.ofList (c :: cs)) ∧ c ≠ '/' := by
  revert h
  cases kind <;> intro h
  all_goals first
    | exact absurd h (by decide)
    | exact ⟨_, _, rfl, by decide⟩

theorem head?_of_isOpenComment {token : Token} (h : token.isOpenComment = true) :
    token.text.toList.head? = some '/' := by
  simp only [Token.isOpenComment, Token.opensComment, Bool.and_eq_true, beq_iff_eq] at h
  exact h.2.1

theorem wouldFuse_of_isOpenComment {left right : Token} {before : List Char}
    (hleft : left.restore.Heads before) (hleads : leadsTight left.kind = true)
    (hright : right.restore.Heads []) (hopen : right.isOpenComment = true) :
    wouldFuse left right = false := by
  have hother {kind : Kind} (hkind : leadsTight kind = false) : left.kind ≠ kind := by
    rintro rfl
    rw [hkind] at hleads
    cases hleads
  have hleftIdent : left.kind ≠ .ident := hother rfl
  have hrightIdent := restore_of_isOpenComment hright hopen
  obtain ⟨c, cs, hmark, hc⟩ := text_of_leadsTight hleads
  have htext := text_of_mark hleft hmark
  have hfirst : left.text.toList.head? ≠ some '/' := by
    rw [htext, String.toList_ofList]
    simpa using hc
  have hend : left.reachesEnd = false := by
    rw [Token.reachesEnd, Bool.or_eq_false_iff]
    refine ⟨by simp [Token.isOpenComment, Token.opensComment, hfirst], ?_⟩
    rw [beq_eq_false_iff_ne]
    intro hblock
    rw [hblock] at hfirst
    exact hfirst rfl
  obtain ⟨tail, htail⟩ := List.head?_eq_some_iff.mp (head?_of_isOpenComment hopen)
  have hcontinued : left.restore.continuedBy ('/' :: tail) = false := by
    apply continuedBy_restore hleft _ hend rfl
    · refine ⟨.inr ⟨hother rfl, hother rfl, ?_⟩, fun _ => rfl, fun _ => by decide,
        fun _ hdot => absurd hdot (by decide), fun _ => by decide⟩
      simp [Token.isOpenString, show left.kind ≠ .error from hother rfl]
    · exact hother rfl
  have htiled : tokenize (left.text ++ right.text) = [left, right] := by
    rw [tokenize_eq_iff, String.toList_append]
    rw [Token.restore_of_ne hleftIdent] at hleft hcontinued
    rw [Token.restore_of_ne hrightIdent] at hright
    refine ⟨by simp [spelling], hleft.append ?_, hright, trivial⟩
    simpa [spelling, htail] using hcontinued
  rw [wouldFuse, htiled]
  simp

theorem not_followsTight_of_isOpenComment {token : Token} {rest : List Char}
    (h : token.restore.Heads rest) (hopen : token.isOpenComment = true) :
    followsTight token.kind = false := by
  rw [← Bool.not_eq_true]
  intro hfollows
  obtain ⟨c, cs, hmark, -, hother, -⟩ := mark_of_followsTight hfollows
  have hhead := head?_of_isOpenComment hopen
  rw [text_of_mark h hmark, String.toList_ofList] at hhead
  obtain rfl := Option.some.inj hhead
  exact hother (by decide)

theorem separatorBetween_finish {left : Mark} {token : Token} {insert : Option Insert}
    {before : List Char} (hleft : left.token.restore.Heads before)
    (hheads : token.restore.Heads []) (hheads' : (token.finish options).restore.Heads [])
    (hopen : token.isOpenComment = true) (hopen' : (token.finish options).isOpenComment = true)
    (hexcused : insert = some .nothing → Excused left.token.kind token.kind) (level : Nat) :
    separatorBetween left (token.finish options) insert level =
      separatorBetween left token insert level := by
  have hfollows := not_followsTight_of_isOpenComment hheads hopen
  have htightest (htouch : Touching left.token.kind token.kind) :
      tightest left.token (token.finish options) = tightest left.token token := by
    rcases followsTight_or_of_touching htouch with ⟨hnot, -⟩ | hleads
    · rw [hfollows] at hnot
      cases hnot
    · rw [tightest, tightest, wouldFuse_of_isOpenComment hleft hleads hheads hopen,
        wouldFuse_of_isOpenComment hleft hleads hheads' hopen']
  simp only [separatorBetween, kind_finish]
  split
  · rfl
  · split
    · rfl
    · exact htightest (.inr (.inr (hexcused rfl)))
    · rfl
    · rfl
    · split
      · next htouch =>
        apply htightest
        exact ((Bool.or_eq_true _ _).mp htouch).imp id .inl
      · rfl

theorem slotsOfWords_append (first : JoinedWord) (rest others : List JoinedWord) :
    slotsOfWords (first :: rest ++ others) =
      slotsOfWords (first :: rest) ++ slotsBehind (lastMark first.word.mark rest) others := by
  rw [List.cons_append, slotsOfWords, slotsOfWords, slotsBehind_append, List.append_assoc]

theorem map_mark_getLast? (first : JoinedWord) (rest : List JoinedWord) :
    (first :: rest).getLast?.map (fun next => next.word.mark) =
      some (lastMark first.word.mark rest) := by
  induction rest generalizing first with
  | nil => rfl
  | cons next rest ih =>
    rw [List.getLast?_cons_cons, ih]
    rfl

theorem map_finish_of_not {slots : List Slot}
    (h : ∀ slot ∈ slots, slot.token.isOpenComment = false) :
    slots.map (Slot.finish options) = slots := by
  rw [List.map_congr_left (g := id)
    (fun slot hslot => by rw [Slot.finish, finish_of_not (h slot hslot), id]),
    List.map_id]

theorem isOpenComment_finish {token : Token} (h : token.restore.Heads [])
    (hopen : token.isOpenComment = true) : (token.finish options).isOpenComment = true := by
  obtain ⟨c, cs, htext, hmunch⟩ := h
  rw [Token.text_restore] at htext
  have hparts := hopen
  simp only [Token.isOpenComment, Bool.and_eq_true] at hparts
  obtain ⟨rfl, hcs⟩ := (Token.opensComment_iff htext).mp hparts.2
  have hstar : cs.head? = some '*' := by
    by_contra hne
    rw [List.append_nil] at hmunch
    have hslash := (Lexer.slash_of_ne hne).symm.trans hmunch
    exact hcs (List.length_eq_zero_iff.mp (congrArg Prod.snd hslash).symm)
  obtain ⟨body, rfl⟩ := List.head?_eq_some_iff.mp hstar
  have hended := ended_append options (show ['/', '*'].getLast? ≠ some '\n' by decide) body
  have htext' : (finish options token.text).toList = '/' :: '*' :: ended options body := by
    rw [toList_finish, htext]
    exact hended
  rw [Token.finish, if_pos hopen, Token.isOpenComment, Bool.and_eq_true]
  exact ⟨hparts.1, (Token.opensComment_iff htext').mpr ⟨rfl, List.cons_ne_nil _ _⟩⟩

theorem finishWord_of_not {next : JoinedWord} (h : next.word.mark.token.isOpenComment = false) :
    next.map (finishWord options) = next := by
  rw [JoinedWord.map, finishWord, finish_of_not h]

theorem slotsOfWords_concat (init : List JoinedWord) (last : JoinedWord) :
    ∃ front separator, slotsOfWords (init ++ [last]) =
      front ++ [⟨separator, last.word.mark.token⟩] ∧
      ∀ other : JoinedWord, other.word.comments = last.word.comments → other.level = last.level →
        (∀ left, init.getLast?.map (fun next => next.word.mark) = some left →
          separatorBefore left other = separatorBefore left last) →
        slotsOfWords (init ++ [other]) = front ++ [⟨separator, other.word.mark.token⟩] := by
  cases init with
  | nil =>
    cases hcomments : last.word.comments with
    | nil =>
      refine ⟨[], .tight, by simp [slotsOfWords, hcomments, slotsBehind],
        fun other hother _ _ => ?_⟩
      simp [slotsOfWords, hother, slotsBehind]
    | cons comment others =>
      refine ⟨⟨.tight, comment.token⟩ :: Part.commentSlots 0 comment others,
        lineBreaks 0 (keptBreaks (others.getLastD comment)),
        by simp [slotsOfWords, hcomments, slotsBehind], fun other hother _ _ => ?_⟩
      simp [slotsOfWords, hother, slotsBehind]
  | cons first rest =>
    refine ⟨slotsOfWords (first :: rest) ++
      Part.commentSlots last.level (lastMark first.word.mark rest) last.word.comments,
      separatorBefore (lastMark first.word.mark rest) last, ?_,
        fun other hcomments hlevel hseparator => ?_⟩
    · rw [slotsOfWords_append, slotsBehind, slotsBehind, List.append_assoc]
    · rw [slotsOfWords_append, slotsBehind, slotsBehind, hcomments, hlevel,
        hseparator _ (map_mark_getLast? first rest), List.append_assoc]

theorem endsWell_of_legible {front : List Slot} {last : Slot}
    (h : legible options (front ++ [last]) = true) : endsWell options last.token = true := by
  induction front with
  | nil => exact h
  | cons slot rest ih =>
    cases rest with
    | nil =>
      simp only [List.cons_append, List.nil_append, legible, Bool.and_eq_true] at h
      exact h.2
    | cons next rest =>
      simp only [List.cons_append, legible, Bool.and_eq_true] at h
      exact ih h.2

/-- What the end of a layout does to an opened comment leaves it an opened comment. -/
theorem heads_finish_of_legible {front : List Slot} {last : Slot} (h : Printable (front ++ [last]))
    (hlegible : legible options (front ++ [last]) = true)
    (hopen : last.token.isOpenComment = true) :
    last.token.restore.Heads [] ∧ (last.token.finish options).restore.Heads [] := by
  obtain ⟨before, hheads⟩ := h.heads last (by simp)
  obtain rfl := hheads.rest_eq_nil (by simp [Token.reachesEnd, isOpenComment_restore, hopen])
  refine ⟨hheads, ?_⟩
  have hends := endsWell_of_legible hlegible
  simp only [endsWell, Bool.and_eq_true, Bool.not_eq_true'] at hends
  have hident := restore_of_isOpenComment hheads hopen
  rw [restore_finish hheads]
  rw [Token.restore_of_ne hident] at hheads ⊢
  exact hheads.finish hopen hends.1

theorem slotsOfWords_finish {words : List JoinedWord} (hproper : ∀ next ∈ words, Proper next.word)
    (hexcusing : Excusing words) (h : Printable (slotsOfWords words))
    (hlegible : legible options (slotsOfWords words) = true) :
    slotsOfWords (words.map (JoinedWord.map (finishWord options))) =
      (slotsOfWords words).map (Slot.finish options) := by
  rcases List.eq_nil_or_concat words with rfl | ⟨init, last, rfl⟩
  · rfl
  · rw [List.concat_eq_append] at *
    obtain ⟨front, separator, hslots, hother⟩ := slotsOfWords_concat init last
    have htokens : front.map Slot.token =
        (init.map JoinedWord.word).flatMap wordTokens ++ last.word.comments.map Mark.token := by
      have hall := map_token_slotsOfWords (init ++ [last])
      rw [hslots, List.map_append, List.map_append, List.flatMap_append] at hall
      have hlast : front.map Slot.token ++ [last.word.mark.token] =
          ((init.map JoinedWord.word).flatMap wordTokens ++ last.word.comments.map Mark.token) ++
            [last.word.mark.token] := by
        simpa [wordTokens] using hall
      exact List.append_cancel_right hlast
    rw [hslots] at h hlegible ⊢
    have hfront : ∀ slot ∈ front, slot.token.isOpenComment = false := fun slot hslot =>
      isOpenComment_of_reachesEnd ((List.pairwise_append.mp h.last).2.2 slot hslot _
        (List.mem_singleton_self _))
    have hinit : ∀ next ∈ init, ∃ slot ∈ front, slot.token = next.word.mark.token := by
      intro next hnext
      apply List.mem_map.mp
      rw [htokens]
      refine List.mem_append_left _
        (List.mem_flatMap.mpr ⟨next.word, List.mem_map_of_mem hnext, ?_⟩)
      simp [wordTokens]
    -- A comment that is left open reaches the end, so only the last word can hold one.
    have hwords : init.map (JoinedWord.map (finishWord options)) = init := by
      refine List.map_congr_left (g := id) (fun next hnext => ?_) |>.trans (List.map_id init)
      obtain ⟨slot, hslot, htoken⟩ := hinit next hnext
      exact finishWord_of_not (htoken ▸ hfront slot hslot)
    rw [List.map_append, List.map_append, hwords, map_finish_of_not hfront, List.map_singleton,
      List.map_singleton]
    by_cases hopen : last.word.mark.token.isOpenComment = true
    · obtain ⟨hheads, hheads'⟩ := heads_finish_of_legible h hlegible hopen
      apply hother (last.map (finishWord options)) rfl rfl
      intro left hleft
      obtain ⟨previous, hprevious, rfl⟩ := Option.map_eq_some_iff.mp hleft
      obtain ⟨slot, hslot, htoken⟩ := hinit previous (List.mem_of_getLast? hprevious)
      obtain ⟨before, hbefore⟩ := h.heads slot (List.mem_append_left _ hslot)
      rw [htoken] at hbefore
      have hexcused := (List.isChain_append.mp hexcusing).2.2 previous hprevious last rfl
      have hlast := hproper last (by simp)
      by_cases hempty : last.word.comments.isEmpty = true
      · have hfinished : (last.map (finishWord options)).word.comments.isEmpty = true := hempty
        rw [separatorBefore_of_isEmpty _ hempty, separatorBefore_of_isEmpty _ hfinished]
        exact separatorBetween_finish hbefore hheads hheads' hopen
          (isOpenComment_finish hheads hopen) hexcused _
      · rw [Bool.not_eq_true] at hempty
        have hfinished : (last.map (finishWord options)).word.comments.isEmpty = false := hempty
        have hproper' : Proper (last.map (finishWord options)).word := hlast
        rw [separatorBefore_of_comments _ hempty hlast,
          separatorBefore_of_comments _ hfinished hproper']
        rfl
    · rw [Bool.not_eq_true] at hopen
      rw [finishWord_of_not hopen, hslots, Slot.finish, finish_of_not hopen]

end Ili.Layout
