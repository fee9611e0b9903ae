import Ili.Proofs.Layout.Attachment

/-!
# Layout of what has been laid out

Reading a printed text back changes nothing about its words but the line breaks behind their tokens,
which are then those of the separators printed there. Words whose line breaks are settled in this
way are printed as before: breaks are kept between bounds that printed breaks already respect.
-/

namespace Ili.Layout

def Separator.breaks : Separator → Nat
  | tight | space => 0
  | newline _ => 1
  | blankLine _ => 2

theorem keptBreaks_le (mark : Mark) : keptBreaks mark ≤ 2 := by
  simp only [keptBreaks, maxKeptBreaks]
  split <;> omega

theorem breaksOf_le (insert : Option Insert) : breaksOf insert ≤ 2 := by
  unfold breaksOf
  split <;> omega

theorem breaks_lineBreaks (level : Nat) {count : Nat} (h : count ≤ 2) :
    (lineBreaks level count).breaks = count := by
  match count with
  | 0 | 1 | 2 => rfl

/-- A number of breaks that is kept once is kept again. -/
theorem keptBreaks_of_le {mark : Mark} {count : Nat} (hkept : keptBreaks mark ≤ count)
    (hcount : count ≤ 2) : keptBreaks ⟨mark.token, count⟩ = count := by
  simp only [keptBreaks, maxKeptBreaks] at hkept ⊢
  omega

theorem keptBreaks_keptBreaks (mark : Mark) :
    keptBreaks ⟨mark.token, keptBreaks mark⟩ = keptBreaks mark :=
  keptBreaks_of_le (Nat.le_refl _) (keptBreaks_le mark)

theorem separatorBetween_settled (left : Mark) (right : Token) (insert : Option Insert)
    (level : Nat) :
    separatorBetween ⟨left.token, (separatorBetween left right insert level).breaks⟩ right insert
      level = separatorBetween left right insert level := by
  simp only [separatorBetween]
  split
  · rw [breaks_lineBreaks level (keptBreaks_le left), keptBreaks_keptBreaks]
  · rfl

/-- Comments in front of a token, the breaks behind each settled; `last` are those behind the last
one. -/
def settledComments (last : Nat) : List Mark → List Mark
  | [] => []
  | [comment] => [⟨comment.token, last⟩]
  | comment :: next :: rest =>
    ⟨comment.token, keptBreaks comment⟩ :: settledComments last (next :: rest)

/-- The breaks printed behind `left`; `ending` are those behind the last token. -/
def breaksBehind (ending : Nat) (left : Mark) : List JoinedWord → Nat
  | [] => ending
  | next :: _ =>
    if next.word.comments.isEmpty then (separatorBefore left next).breaks else keptBreaks left

def settledBehind (ending : Nat) (left : Mark) : List JoinedWord → List JoinedWord
  | [] => []
  | next :: rest =>
    ⟨next.insert, next.level,
      settledComments (separatorBefore left next).breaks next.word.comments,
      next.word.mark.token, breaksBehind ending next.word.mark rest⟩ ::
        settledBehind ending next.word.mark rest

def settled (ending : Nat) : List JoinedWord → List JoinedWord
  | [] => []
  | first :: rest =>
    ⟨first.insert, first.level,
      settledComments (keptBreaks (first.word.comments.getLastD first.word.mark))
        first.word.comments,
      first.word.mark.token, breaksBehind ending first.word.mark rest⟩ ::
        settledBehind ending first.word.mark rest

def Proper (word : Word) : Prop :=
  ∀ comment ∈ word.comments, comment.token.kind.isComment = true

theorem isEmpty_settledComments (last : Nat) (comments : List Mark) :
    (settledComments last comments).isEmpty = comments.isEmpty := by
  match comments with
  | [] | [_] | _ :: _ :: _ => rfl

theorem getLastD_settledComments (last : Nat) {comments : List Mark} (h : comments ≠ [])
    (default other : Mark) :
    (settledComments last comments).getLastD default =
      ⟨(comments.getLastD other).token, last⟩ := by
  induction comments generalizing default other with
  | nil => exact absurd rfl h
  | cons comment rest ih =>
    cases rest with
    | nil => rfl
    | cons next rest =>
      have hrest := ih (List.cons_ne_nil _ _) ⟨comment.token, keptBreaks comment⟩ comment
      rw [settledComments, List.getLastD_cons, hrest]
      rfl

theorem commentSlots_settled (level : Nat) {left : Mark} (last : Nat) (comments : List Mark)
    (settled : Mark) (h : keptBreaks settled = keptBreaks left) :
    Part.commentSlots level settled (settledComments last comments) =
      Part.commentSlots level left comments := by
  induction comments generalizing left settled with
  | nil => rfl
  | cons comment rest ih =>
    cases rest with
    | nil => simp [settledComments, Part.commentSlots, h]
    | cons next rest =>
      have hrest := ih ⟨comment.token, keptBreaks comment⟩ (keptBreaks_keptBreaks comment)
      rw [settledComments, Part.commentSlots, Part.commentSlots, hrest, h]

theorem separatorBefore_of_isEmpty (left : Mark) {next : JoinedWord}
    (h : next.word.comments.isEmpty = true) :
    separatorBefore left next =
      separatorBetween left next.word.mark.token next.insert next.level := by
  rw [separatorBefore, if_pos h, List.isEmpty_iff.mp h]
  rfl

theorem separatorBefore_of_comments (left : Mark) {next : JoinedWord}
    (h : next.word.comments.isEmpty = false) (hproper : Proper next.word) :
    separatorBefore left next =
      lineBreaks next.level
        (if keptBreaks left = 0 then
          max (keptBreaks (next.word.comments.getLastD left)) (breaksOf next.insert)
        else keptBreaks (next.word.comments.getLastD left)) := by
  have hcomment : (next.word.comments.getLastD left).token.kind.isComment = true := by
    cases hcomments : next.word.comments with
    | nil => rw [hcomments] at h; cases h
    | cons comment rest =>
      apply hproper
      rw [hcomments, List.getLastD_cons]
      exact List.getLastD_mem_cons ..
  simp only [separatorBefore, h, Bool.false_eq_true, if_false]
  split
  · split
    · next hnone =>
      have hkept : keptBreaks (next.word.comments.getLastD left) = 0 := by omega
      rw [hnone]
      simp only [separatorBetween, hcomment, hkept, Bool.true_or, if_true]
    · rfl
  · rfl

theorem map_token_settledComments (last : Nat) (comments : List Mark) :
    (settledComments last comments).map Mark.token = comments.map Mark.token := by
  induction comments with
  | nil => rfl
  | cons comment rest ih =>
    cases rest with
    | nil => rfl
    | cons next rest =>
      rw [settledComments, List.map_cons, ih]
      rfl

theorem Proper.settled {word : Word} (h : Proper word) (last : Nat) (mark : Mark) :
    Proper ⟨settledComments last word.comments, mark⟩ := by
  intro comment hcomment
  have htoken : comment.token ∈ word.comments.map Mark.token := by
    rw [← map_token_settledComments last]
    exact List.mem_map_of_mem hcomment
  obtain ⟨other, hother, heq⟩ := List.mem_map.mp htoken
  rw [← heq]
  exact h other hother

/-- What is printed between `left` and a word stays when breaks are settled. -/
theorem separatorBefore_settled (left : Mark) {next : JoinedWord} (hproper : Proper next.word)
    (count ending : Nat) (rest : List JoinedWord) :
    separatorBefore ⟨left.token, breaksBehind ending left (next :: rest)⟩
        ⟨next.insert, next.level,
          settledComments (separatorBefore left next).breaks next.word.comments,
          next.word.mark.token, count⟩ =
      separatorBefore left next := by
  rw [breaksBehind]
  by_cases hempty : next.word.comments.isEmpty = true
  · rw [if_pos hempty, separatorBefore_of_isEmpty left hempty, separatorBefore_of_isEmpty,
      separatorBetween_settled]
    rw [isEmpty_settledComments]
    exact hempty
  · rw [Bool.not_eq_true] at hempty
    have hne : next.word.comments ≠ [] := by
      intro hnil
      rw [hnil] at hempty
      cases hempty
    have hkept := keptBreaks_le (next.word.comments.getLastD left)
    have hasked := breaksOf_le next.insert
    have hsep := separatorBefore_of_comments left hempty hproper
    rw [if_neg (by rw [hempty]; exact Bool.false_ne_true), separatorBefore_of_comments _
      ((isEmpty_settledComments _ _).trans hempty) (hproper.settled _ _),
      getLastD_settledComments _ hne _ left, keptBreaks_keptBreaks, hsep]
    congr 1
    split
    · rw [breaks_lineBreaks _ (by omega), keptBreaks_of_le (Nat.le_max_left _ _) (by omega)]
      exact Nat.max_eq_left (Nat.le_max_right _ _)
    · rw [breaks_lineBreaks _ hkept, keptBreaks_keptBreaks]

theorem slotsBehind_settled (ending : Nat) (left : Mark) {words : List JoinedWord}
    (hproper : ∀ next ∈ words, Proper next.word) :
    slotsBehind ⟨left.token, breaksBehind ending left words⟩ (settledBehind ending left words) =
      slotsBehind left words := by
  induction words generalizing left with
  | nil => rfl
  | cons next rest ih =>
    have hnext := hproper next List.mem_cons_self
    have hrest := ih next.word.mark
      fun other hother => hproper other (List.mem_cons_of_mem _ hother)
    have hslots : Part.commentSlots next.level ⟨left.token, breaksBehind ending left (next :: rest)⟩
        (settledComments (separatorBefore left next).breaks next.word.comments) =
          Part.commentSlots next.level left next.word.comments := by
      by_cases hempty : next.word.comments.isEmpty = true
      · rw [List.isEmpty_iff.mp hempty]
        rfl
      · rw [breaksBehind, if_neg hempty]
        exact commentSlots_settled _ _ _ _ (keptBreaks_keptBreaks left)
    rw [settledBehind, slotsBehind, slotsBehind, hslots, hrest, separatorBefore_settled left hnext]

theorem slotsOfWords_settled (ending : Nat) {words : List JoinedWord}
    (hproper : ∀ next ∈ words, Proper next.word) :
    slotsOfWords (settled ending words) = slotsOfWords words := by
  cases words with
  | nil => rfl
  | cons first rest =>
    have hrest := slotsBehind_settled ending first.word.mark fun other hother =>
      hproper other (List.mem_cons_of_mem _ hother)
    rw [settled, slotsOfWords, slotsOfWords, hrest]
    congr 1
    cases hcomments : first.word.comments with
    | nil => rfl
    | cons comment others =>
      cases others with
      | nil => simp [settledComments, Part.commentSlots, keptBreaks_keptBreaks]
      | cons next others =>
        have hlast := getLastD_settledComments (keptBreaks (others.getLastD next))
          (List.cons_ne_nil next others) ⟨comment.token, keptBreaks comment⟩ comment
        have hslots := commentSlots_settled 0 (keptBreaks (others.getLastD next)) (next :: others)
          ⟨comment.token, keptBreaks comment⟩ (keptBreaks_keptBreaks comment)
        rw [List.getLastD_cons] at hlast
        simp only [settledComments, List.getLastD_cons, hlast, hslots]
        rw [keptBreaks_keptBreaks]

end Ili.Layout
