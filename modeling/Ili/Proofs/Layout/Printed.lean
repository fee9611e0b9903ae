import Ili.Proofs.Layout.Settled

/-!
# Words of a printed text

The tokens of a printed text are the printed tokens with blanks between them where a separator
stands. The words gathered from them are the words that were printed, with their breaks settled.
-/

namespace Ili.Layout

variable {options : LayoutOptions}

def Separator.tokens (options : LayoutOptions) : Separator → List Token
  | tight => []
  | separator => [⟨.whitespace, separator.text options⟩]

theorem tokens_tight : Separator.tokens options .tight = [] :=
  rfl

def tokensOfSlots (options : LayoutOptions) (slots : List Slot) : List Token :=
  slots.flatMap fun slot => slot.separator.tokens options ++ [slot.token]

theorem tokensOfSlots_cons (slot : Slot) (rest : List Slot) :
    tokensOfSlots options (slot :: rest) =
      slot.separator.tokens options ++ slot.token :: tokensOfSlots options rest := by
  simp [tokensOfSlots]

theorem tokensOfSlots_append (left right : List Slot) :
    tokensOfSlots options (left ++ right) =
      tokensOfSlots options left ++ tokensOfSlots options right :=
  List.flatMap_append

theorem gather_separator (pending : List Mark) (cuts : List Bool) (separator : Separator)
    (rest : List Token) :
    gather pending cuts (separator.tokens options ++ rest) = gather pending cuts rest := by
  cases separator <;> rfl

theorem count_indent (level : Nat) : (options.indent level).toList.count '\n' = 0 := by
  have hpushn (c : Char) (hc : c ≠ '\n') (count : Nat) :
      ("".pushn c count).toList.count '\n' = 0 := by
    induction count with
    | zero => rfl
    | succ count ih =>
      simp only [String.pushn, Nat.repeat, String.toList_push, List.count_append] at ih ⊢
      rw [ih, List.count_singleton]
      simp [hc]
  rw [LayoutOptions.indent]
  split
  · exact hpushn ' ' (by decide) _
  · exact hpushn '\t' (by decide) _

theorem breaksIn_separator (options : LayoutOptions) (separator : Separator) {rest : List Token}
    (h : breaksIn rest = 0) :
    breaksIn (separator.tokens options ++ rest) = separator.breaks := by
  have hcount (breaks : String) (level : Nat) :
      (breaks ++ options.indent level).toList.count '\n' = breaks.toList.count '\n' := by
    rw [String.toList_append, List.count_append, count_indent, Nat.add_zero]
  cases separator with
  | tight => exact h
  | space =>
    change (" ".toList.count '\n') + breaksIn rest = 0
    rw [h]
    rfl
  | newline level =>
    change ("\n" ++ options.indent level).toList.count '\n' + breaksIn rest = 1
    rw [hcount, h]
    rfl
  | blankLine level =>
    change ("\n\n" ++ options.indent level).toList.count '\n' + breaksIn rest = 2
    rw [hcount, h]
    rfl

theorem breaksIn_cons_of_ne {t : Token} (h : t.kind ≠ .whitespace) (rest : List Token) :
    breaksIn (t :: rest) = 0 :=
  if_neg h

theorem gather_comments (pending : List Mark) (cuts : List Bool) (level : Nat) (comment : Mark)
    {others : List Mark}
    (h : ∀ other ∈ comment :: others, other.token.kind.isComment = true) (rest : List Token) :
    gather pending cuts
        (comment.token :: (tokensOfSlots options
          (Part.commentSlots level comment others) ++ rest)) =
      gather (pending ++ settledComments (breaksIn rest) (comment :: others)) cuts rest := by
  induction others generalizing pending comment with
  | nil =>
    rw [gather, if_pos (h comment List.mem_cons_self)]
    rfl
  | cons next others ih =>
    have hnext : next.token.kind ≠ .whitespace :=
      Leaf.ne_whitespace_of_isComment (h next (by simp))
    rw [gather, if_pos (h comment List.mem_cons_self), Part.commentSlots, tokensOfSlots_cons,
      List.append_assoc, List.cons_append, gather_separator,
      breaksIn_separator options _ (breaksIn_cons_of_ne hnext _),
      breaks_lineBreaks level (keptBreaks_le comment),
      ih _ next fun other hother => h other (List.mem_cons_of_mem _ hother), settledComments,
      List.append_assoc]
    rfl

theorem gather_leading (cuts : List Bool) (level : Nat) (left : Mark) {comments : List Mark}
    (h : ∀ comment ∈ comments, comment.token.kind.isComment = true) (separator : Separator)
    {t : Token} (ht : t.kind ≠ .whitespace) (slots : List Slot) (rest : List Token) :
    gather [] cuts
        (tokensOfSlots options (Part.commentSlots level left comments ++ ⟨separator, t⟩ :: slots) ++
          rest) =
      gather (settledComments separator.breaks comments) cuts
        (t :: (tokensOfSlots options slots ++ rest)) := by
  have hbreaks := breaksIn_separator options separator
    (breaksIn_cons_of_ne ht (tokensOfSlots options slots ++ rest))
  cases comments with
  | nil =>
    rw [Part.commentSlots, List.nil_append, tokensOfSlots_cons, List.append_assoc, gather_separator]
    rfl
  | cons comment others =>
    rw [Part.commentSlots, List.cons_append, tokensOfSlots_cons, tokensOfSlots_append,
      tokensOfSlots_cons, List.append_assoc, List.cons_append, List.append_assoc, List.append_assoc,
      gather_separator, gather_comments [] cuts level comment h, List.cons_append, hbreaks,
      gather_separator]
    rfl

def Visible (next : JoinedWord) : Prop :=
  Proper next.word ∧ next.word.mark.token.kind.isTrivia = false

def Trailing (next : JoinedWord) : Prop :=
  next.word.comments = [] ∧ next.word.mark.token.kind.isComment = true

theorem isTrivia_of_isComment {kind : Kind} (h : kind.isComment = true) : kind.isTrivia = true := by
  simp [Kind.isTrivia, h]

theorem gather_visible (pending : List Mark) (cuts : List Bool) {t : Token}
    (h : t.kind.isTrivia = false) (rest : List Token) :
    gather pending cuts (t :: rest) =
      (⟨if cuts.headD false then [] else pending, ⟨t, breaksIn rest⟩⟩ ::
        (gather [] cuts.tail rest).1, (gather [] cuts.tail rest).2) := by
  have hcomment : ¬t.kind.isComment = true := by
    intro hcomment
    rw [isTrivia_of_isComment hcomment] at h
    cases h
  rw [gather, if_neg hcomment, if_neg (by rw [h]; exact Bool.false_ne_true)]

theorem Trailing.proper {next : JoinedWord} (h : Trailing next) : Proper next.word := by
  intro comment hcomment
  rw [h.1] at hcomment
  cases hcomment

theorem ne_whitespace_of_printed {next : JoinedWord} (h : Visible next ∨ Trailing next) :
    next.word.mark.token.kind ≠ .whitespace := by
  rcases h with h | h
  · intro hkind
    have hvisible := h.2
    rw [hkind] at hvisible
    cases hvisible
  · exact Leaf.ne_whitespace_of_isComment h.2

theorem breaksIn_slotsBehind (options : LayoutOptions) (left : Mark) {words : List JoinedWord}
    (h : ∀ next ∈ words, Visible next ∨ Trailing next) (rest : List Token) :
    breaksIn (tokensOfSlots options (slotsBehind left words) ++ rest) =
      breaksBehind (breaksIn rest) left words := by
  cases words with
  | nil => rfl
  | cons next others =>
    have hnext := h next List.mem_cons_self
    have hproper : Proper next.word := hnext.elim And.left Trailing.proper
    rw [slotsBehind, tokensOfSlots_append, tokensOfSlots_cons, breaksBehind]
    cases hcomments : next.word.comments with
    | nil =>
      simp only [Part.commentSlots, tokensOfSlots, List.flatMap_nil, List.nil_append,
        List.append_assoc, List.cons_append, List.isEmpty_nil, if_true]
      exact breaksIn_separator options _ (breaksIn_cons_of_ne (ne_whitespace_of_printed hnext) _)
    | cons comment comments =>
      have hcomment : comment.token.kind ≠ .whitespace :=
        Leaf.ne_whitespace_of_isComment (hproper comment (by simp [hcomments]))
      rw [if_neg (by simp), Part.commentSlots, tokensOfSlots_cons, List.append_assoc,
        List.append_assoc, List.cons_append,
        breaksIn_separator options _ (breaksIn_cons_of_ne hcomment _),
        breaks_lineBreaks _ (keptBreaks_le left)]

/-- Words cut off from what stands in front of them have no comments. -/
def RespectsCuts : List Bool → List Word → Prop
  | _, [] => True
  | cuts, word :: rest => (cuts.headD false = true → word.comments = []) ∧
      RespectsCuts cuts.tail rest

theorem respectsCuts_gather (pending : List Mark) (cuts : List Bool) (tokens : List Token) :
    RespectsCuts cuts (gather pending cuts tokens).1 := by
  induction tokens generalizing pending cuts with
  | nil => trivial
  | cons t rest ih =>
    rw [gather]
    split
    · exact ih _ _
    · split
      · exact ih _ _
      · exact ⟨fun hcut => by simp only [hcut, if_true], ih _ _⟩

/-- What is gathered: visible tokens with comments in front of them, and comments behind them. -/
theorem proper_gather (pending : List Mark) (cuts : List Bool) (tokens : List Token)
    (h : ∀ comment ∈ pending, comment.token.kind.isComment = true) :
    (∀ word ∈ (gather pending cuts tokens).1,
        Proper word ∧ word.mark.token.kind.isTrivia = false) ∧
      ∀ comment ∈ (gather pending cuts tokens).2, comment.token.kind.isComment = true := by
  induction tokens generalizing pending cuts with
  | nil => exact ⟨List.forall_mem_nil _, h⟩
  | cons t rest ih =>
    rw [gather]
    split
    · next hcomment =>
      apply ih
      intro comment hmem
      rcases List.mem_append.mp hmem with hmem | hmem
      · exact h comment hmem
      · rw [List.mem_singleton.mp hmem]
        exact hcomment
    · split
      · exact ih pending cuts h
      · next htrivia =>
        obtain ⟨hwords, hcomments⟩ := ih [] cuts.tail (List.forall_mem_nil _)
        refine ⟨?_, hcomments⟩
        intro word hword
        rcases List.mem_cons.mp hword with rfl | hword
        · refine ⟨?_, Bool.eq_false_iff.mpr htrivia⟩
          intro comment hmem
          split at hmem
          · cases hmem
          · exact h comment hmem
        · exact hwords word hword

theorem gather_slotsBehind (left : Mark) (cuts : List Bool) {words : List JoinedWord}
    (h : ∀ next ∈ words, Visible next) (hcuts : RespectsCuts cuts (words.map JoinedWord.word))
    (rest : List Token) :
    gather [] cuts (tokensOfSlots options (slotsBehind left words) ++ rest) =
      ((settledBehind (breaksIn rest) left words).map JoinedWord.word ++
        (gather [] (cuts.drop words.length) rest).1,
        (gather [] (cuts.drop words.length) rest).2) := by
  induction words generalizing left cuts with
  | nil => rfl
  | cons next others ih =>
    obtain ⟨hproper, hvisible⟩ := h next List.mem_cons_self
    have hothers : ∀ other ∈ others, Visible other :=
      fun other hother => h other (List.mem_cons_of_mem _ hother)
    have hkept : (if cuts.headD false then [] else
        settledComments (separatorBefore left next).breaks next.word.comments) =
          settledComments (separatorBefore left next).breaks next.word.comments := by
      split
      · next hcut => rw [hcuts.1 hcut, settledComments]
      · rfl
    rw [slotsBehind, gather_leading cuts _ left hproper _
      (ne_whitespace_of_printed (.inl (h next List.mem_cons_self))), gather_visible _ _ hvisible,
      hkept, ih next.word.mark cuts.tail hothers hcuts.2,
      breaksIn_slotsBehind options _ (fun other hother => .inl (hothers other hother)),
      settledBehind, List.drop_tail]
    rfl

theorem gather_trailing (options : LayoutOptions) (left : Mark) (pending : List Mark)
    (cuts : List Bool)
    {words : List JoinedWord} (h : ∀ next ∈ words, Trailing next) {ending : List Token}
    (hending : ∀ token ∈ ending, token.kind = .whitespace) :
    gather pending cuts (tokensOfSlots options (slotsBehind left words) ++ ending) =
      ([], pending ++ (settledBehind (breaksIn ending) left words).map fun next =>
        next.word.mark) := by
  induction words generalizing left pending with
  | nil =>
    change gather pending cuts ending = ([], pending ++ [])
    rw [List.append_nil]
    induction ending with
    | nil => rfl
    | cons t rest ih =>
      have hkind := hending t List.mem_cons_self
      have hcomment : ¬t.kind.isComment = true := by rw [hkind]; exact Bool.false_ne_true
      rw [gather, if_neg hcomment, if_pos (by rw [hkind]; rfl)]
      exact ih fun token htoken => hending token (List.mem_cons_of_mem _ htoken)
  | cons next others ih =>
    obtain ⟨hnil, hcomment⟩ := h next List.mem_cons_self
    have hothers : ∀ other ∈ others, Trailing other :=
      fun other hother => h other (List.mem_cons_of_mem _ hother)
    have hbreaks := breaksIn_slotsBehind options next.word.mark
      (fun other hother => .inr (hothers other hother)) ending
    rw [slotsBehind, hnil, Part.commentSlots, List.nil_append, tokensOfSlots_cons,
      List.append_assoc, gather_separator, List.cons_append, gather, if_pos hcomment, hbreaks,
      ih next.word.mark _ hothers, settledBehind, List.map_cons, List.append_assoc]
    rfl

theorem settledBehind_append (ending : Nat) (left : Mark) (words others : List JoinedWord) :
    settledBehind ending left (words ++ others) =
      settledBehind (breaksBehind ending (lastMark left words) others) left words ++
        settledBehind ending (lastMark left words) others := by
  induction words generalizing left with
  | nil => rfl
  | cons next rest ih =>
    rw [List.cons_append, settledBehind, settledBehind, ih, lastMark, List.cons_append]
    congr 1
    cases rest <;> rfl

theorem length_settledBehind (ending : Nat) (left : Mark) (words : List JoinedWord) :
    (settledBehind ending left words).length = words.length := by
  induction words generalizing left with
  | nil => rfl
  | cons next rest ih => rw [settledBehind, List.length_cons, List.length_cons, ih]

def bareComment (comment : Mark) : Word :=
  ⟨[], comment⟩

theorem map_bareComment (ending : Nat) (left : Mark) {words : List JoinedWord}
    (h : ∀ next ∈ words, Trailing next) :
    (settledBehind ending left words).map (fun next => bareComment next.word.mark) =
      (settledBehind ending left words).map JoinedWord.word := by
  induction words generalizing left with
  | nil => rfl
  | cons next rest ih =>
    rw [settledBehind, List.map_cons, List.map_cons,
      ih next.word.mark fun other hother => h other (List.mem_cons_of_mem _ hother),
      (h next List.mem_cons_self).1]
    rfl

section Whole

variable {words trailing : List JoinedWord} {ending : List Token}

theorem gather_behind (options : LayoutOptions) (left : Mark) (cuts : List Bool)
    (hwords : ∀ next ∈ words, Visible next) (htrailing : ∀ next ∈ trailing, Trailing next)
    (hcuts : RespectsCuts cuts (words.map JoinedWord.word))
    (hending : ∀ token ∈ ending, token.kind = .whitespace) :
    let gathered := gather [] cuts
      (tokensOfSlots options (slotsBehind left (words ++ trailing)) ++ ending)
    gathered.1 ++ gathered.2.map bareComment =
        (settledBehind (breaksIn ending) left (words ++ trailing)).map JoinedWord.word ∧
      gathered.1.length = words.length := by
  have hbreaks := breaksIn_slotsBehind options (lastMark left words)
    (fun next hnext => .inr (htrailing next hnext)) ending
  simp only [slotsBehind_append, tokensOfSlots_append, List.append_assoc]
  rw [gather_slotsBehind left cuts hwords hcuts,
    gather_trailing options _ _ _ htrailing hending, hbreaks,
    settledBehind_append]
  simp only [List.nil_append, List.append_nil, List.map_map, List.map_append]
  refine ⟨?_, by rw [List.length_map, length_settledBehind]⟩
  congr 1
  exact map_bareComment _ _ htrailing

theorem gather_first (options : LayoutOptions) (cuts : List Bool) {first : JoinedWord}
    (hproper : Proper first.word) (hkind : first.word.mark.token.kind ≠ .whitespace)
    (rest : List JoinedWord) (ending : List Token) :
    gather [] cuts (tokensOfSlots options (slotsOfWords (first :: rest)) ++ ending) =
      gather (settledComments (keptBreaks (first.word.comments.getLastD first.word.mark))
        first.word.comments) cuts
        (first.word.mark.token ::
          (tokensOfSlots options (slotsBehind first.word.mark rest) ++ ending)) := by
  rw [slotsOfWords]
  cases hcomments : first.word.comments with
  | nil => simp [tokensOfSlots, Separator.tokens, settledComments]
  | cons comment others =>
    have hbreaks := breaksIn_separator options
      (lineBreaks 0 (keptBreaks (others.getLastD comment))) (breaksIn_cons_of_ne hkind
        (tokensOfSlots options (slotsBehind first.word.mark rest) ++ ending))
    have hall : ∀ other ∈ comment :: others, other.token.kind.isComment = true :=
      fun other hother => hproper other (hcomments ▸ hother)
    simp only [List.cons_append, List.append_assoc, List.nil_append, tokensOfSlots_append,
      tokensOfSlots_cons, tokens_tight]
    rw [gather_comments [] cuts 0 comment hall, hbreaks,
      breaks_lineBreaks 0 (keptBreaks_le _), gather_separator, List.getLastD_cons]
    rfl

/-- What is read back from a printed text are the words that were printed, their breaks settled. -/
theorem gather_slotsOfWords (options : LayoutOptions) (cuts : List Bool)
    (hwords : ∀ next ∈ words, Visible next) (htrailing : ∀ next ∈ trailing, Trailing next)
    (hcuts : RespectsCuts cuts (words.map JoinedWord.word))
    (hending : ∀ token ∈ ending, token.kind = .whitespace) :
    let gathered := gather [] cuts
      (tokensOfSlots options (slotsOfWords (words ++ trailing)) ++ ending)
    gathered.1 ++ gathered.2.map bareComment =
        (settled (breaksIn ending) (words ++ trailing)).map JoinedWord.word ∧
      gathered.1.length = words.length := by
  -- Without a visible word all comments are left over; else the first one takes those before it.
  cases words with
  | nil =>
    cases trailing with
    | nil =>
      have hnil := gather_trailing options ⟨default, 0⟩ [] cuts htrailing hending
      change gather [] cuts ending = ([], []) at hnil
      change (gather [] cuts ending).1 ++ (gather [] cuts ending).2.map bareComment = [] ∧
        (gather [] cuts ending).1.length = 0
      rw [hnil]
      exact ⟨rfl, rfl⟩
    | cons first rest =>
      obtain ⟨hnil, hcomment⟩ := htrailing first List.mem_cons_self
      have hrest : ∀ next ∈ rest, Trailing next :=
        fun next hnext => htrailing next (List.mem_cons_of_mem _ hnext)
      have hbreaks := breaksIn_slotsBehind options first.word.mark
        (fun next hnext => .inr (hrest next hnext)) ending
      rw [List.nil_append]
      have htokens : tokensOfSlots options (slotsOfWords (first :: rest)) ++ ending =
          first.word.mark.token ::
            (tokensOfSlots options (slotsBehind first.word.mark rest) ++ ending) := by
        simp [slotsOfWords, hnil, tokensOfSlots, Separator.tokens]
      rw [htokens, gather, if_pos hcomment, gather_trailing options _ _ _ hrest hending, hbreaks,
        List.nil_append, settled, hnil]
      refine ⟨?_, rfl⟩
      simp only [List.nil_append, List.map_append, List.map_map, List.map_cons, List.map_nil]
      exact congrArg (List.cons _) (map_bareComment _ _ hrest)
  | cons first rest =>
    obtain ⟨hproper, hvisible⟩ := hwords first List.mem_cons_self
    have hrest : ∀ next ∈ rest, Visible next :=
      fun next hnext => hwords next (List.mem_cons_of_mem _ hnext)
    have hall : ∀ next ∈ rest ++ trailing, Visible next ∨ Trailing next :=
      fun next hnext => (List.mem_append.mp hnext).imp (hrest next) (htrailing next)
    have hbreaks := breaksIn_slotsBehind options first.word.mark hall ending
    obtain ⟨hgathered, hlength⟩ := gather_behind options first.word.mark cuts.tail hrest htrailing
      hcuts.2 hending
    have hkept (last : Nat) : (if cuts.headD false then [] else
        settledComments last first.word.comments) = settledComments last first.word.comments := by
      split
      · next hcut => rw [hcuts.1 hcut, settledComments]
      · rfl
    rw [List.cons_append, gather_first options cuts hproper (by
      intro hkind
      rw [hkind] at hvisible
      cases hvisible), gather_visible _ _ hvisible, hkept, hbreaks, settled]
    exact ⟨congrArg (List.cons _) hgathered, congrArg Nat.succ hlength⟩

end Whole

end Ili.Layout
