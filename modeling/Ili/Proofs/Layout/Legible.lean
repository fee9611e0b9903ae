import Ili.Proofs.Layout.Conservation
import Ili.Proofs.Layout.Joints
import Ili.Proofs.Layout.Printed
import Ili.Proofs.Layout.Ending

/-!
# When a layout is read back as it was printed

Two printed tokens that touch have been tried and do not fuse, but nobody tries three: an integer, a
point and a digit are put together although no two of them are. A string that is not closed reads on
to the end of its line, and the ending may close or drop a comment that the text left open. Apart
from that every token is cut off from a layout where it was printed.
-/

namespace Ili.Layout

def isNumber (kind : Kind) : Bool :=
  kind == .integer || kind == .decimal

/-- An integer and a point with a number behind it, put together without space. -/
def splitsNumber (left next : Slot) (rest : List Slot) : Bool :=
  left.token.kind == .integer && next.separator == .tight && next.token.kind == .dot &&
    rest.head?.any fun slot => slot.separator == .tight && isNumber slot.token.kind

def endsWell (options : LayoutOptions) (token : Token) : Bool :=
  !token.closesUp options && !(token.text == "/**/" && options.insertFinalNewline)

/-- The printed tokens are read back as they were printed. -/
def legible (options : LayoutOptions) : List Slot → Bool
  | [] => true
  | [last] => endsWell options last.token
  | left :: next :: rest =>
    !(left.token.isOpenString && next.separator.breaks == 0) && !splitsNumber left next rest &&
      legible options (next :: rest)

def Slot.finish (options : LayoutOptions) (slot : Slot) : Slot :=
  ⟨slot.separator, slot.token.finish options⟩

def endingOf (options : LayoutOptions) (slots : List Slot) : List Token :=
  match slots.getLast? with
  | none => []
  | some last =>
    if last.token.isOpenComment || !options.insertFinalNewline then [] else [⟨.whitespace, "\n"⟩]

def printedTokens (options : LayoutOptions) (slots : List Slot) : List Token :=
  tokensOfSlots options (slots.map (Slot.finish options)) ++ endingOf options slots

/-- A row of slots of tokens cut off from a text, of which only the last may read on over
everything, with sound separators. -/
structure Printable (slots : List Slot) : Prop where
  heads : ∀ slot ∈ slots, ∃ rest, slot.token.restore.Heads rest
  visible : ∀ slot ∈ slots, slot.token.kind ≠ .whitespace
  last : slots.Pairwise fun slot _ => slot.token.reachesEnd = false
  sound : SoundRow slots

variable {options : LayoutOptions}

theorem Printable.tail {slot : Slot} {rest : List Slot} (h : Printable (slot :: rest)) :
    Printable rest :=
  ⟨fun other hother => h.heads other (List.mem_cons_of_mem _ hother),
    fun other hother => h.visible other (List.mem_cons_of_mem _ hother),
    (List.pairwise_cons.mp h.last).2, h.sound.tail⟩

theorem spelling_map_restore (tokens : List Token) :
    spelling (tokens.map Token.restore) = spelling tokens := by
  simp only [spelling, List.flatMap_map, Token.text_restore]

theorem finish_of_not {token : Token} (h : token.isOpenComment = false) :
    token.finish options = token := by
  rw [Token.finish, if_neg (by rw [h]; exact Bool.false_ne_true)]

theorem isOpenComment_of_reachesEnd {token : Token} (h : token.reachesEnd = false) :
    token.isOpenComment = false :=
  (Bool.or_eq_false_iff.mp h).1

theorem kind_finish (token : Token) : (token.finish options).kind = token.kind := by
  rw [Token.finish]
  split <;> rfl

theorem restore_kind_eq_whitespace_iff (token : Token) :
    token.restore.kind = .whitespace ↔ token.kind = .whitespace := by
  rw [Token.restore]
  split
  · next hident => simp [hident, Lexer.ofWord_ne_whitespace]
  · rfl

theorem restore_ne_whitespace {token : Token} (h : token.kind ≠ .whitespace) :
    token.restore.kind ≠ .whitespace :=
  mt (restore_kind_eq_whitespace_iff token).mp h

theorem printedTokens_cons (slot : Slot) {rest : List Slot} (hne : rest ≠ []) :
    printedTokens options (slot :: rest) =
      slot.separator.tokens options ++ slot.token.finish options :: printedTokens options rest := by
  have hending : endingOf options (slot :: rest) = endingOf options rest := by
    cases rest with
    | nil => exact absurd rfl hne
    | cons next rest => simp only [endingOf, List.getLast?_cons_cons]
  rw [printedTokens, List.map_cons, tokensOfSlots_cons, hending, printedTokens, List.append_assoc]
  rfl

theorem spelling_separator (separator : Separator) :
    spelling (separator.tokens options) = (separator.text options).toList := by
  cases separator <;> simp [Separator.tokens, Separator.text, spelling]

theorem head_separator (options : LayoutOptions) {separator : Separator} (h : separator ≠ .tight) :
    ∃ c tail, (separator.text options).toList = c :: tail ∧
      (c = '\n' ∧ separator.breaks ≠ 0 ∨ c = ' ' ∧ separator.breaks = 0) := by
  cases separator with
  | tight => exact absurd rfl h
  | space => exact ⟨' ', [], by simp [Separator.text], .inr ⟨rfl, rfl⟩⟩
  | newline level =>
    exact ⟨'\n', (options.indent level).toList, by simp [Separator.text],
      .inl ⟨rfl, Nat.one_ne_zero⟩⟩
  | blankLine level =>
    exact ⟨'\n', '\n' :: (options.indent level).toList, by simp [Separator.text],
      .inl ⟨rfl, Nat.succ_ne_zero 1⟩⟩

theorem tiled_separator {separator : Separator} {token : Token} {rest : List Token}
    (hkind : token.kind ≠ .whitespace) (h : Tiled (token :: rest)) :
    Tiled (separator.tokens options ++ token :: rest) := by
  have hall := solid_eq_nil_iff.mp (solid_separator options separator)
  have hhead := h.1.head_not_blank hkind (spelling rest)
  by_cases htight : separator = .tight
  · rw [htight]
    exact h
  · have htokens : separator.tokens options = [⟨.whitespace, separator.text options⟩] := by
      cases separator <;> first | rfl | exact absurd rfl htight
    rw [htokens]
    refine ⟨?_, h⟩
    obtain ⟨c, tail, htext, -⟩ := head_separator options htight
    rw [htext] at hall
    refine ⟨c, tail, htext, ?_⟩
    have hcount : Lexer.count Lexer.isBlank (tail ++ spelling (token :: rest)) = tail.length :=
      Lexer.count_of_all (fun d hd => hall d (List.mem_cons_of_mem _ hd)) hhead
    rw [Lexer.munch, if_pos (hall c List.mem_cons_self)]
    exact congrArg _ hcount

theorem kind_of_wouldFuse {left right : Token} (h : wouldFuse left right = false) :
    ∃ a b, tokenize (left.text ++ right.text) = [a, b] ∧ a.kind = left.kind := by
  unfold wouldFuse at h
  split at h
  · next a b heq =>
    simp only [Bool.or_eq_false_iff, bne_eq_false_iff_eq] at h
    exact ⟨a, b, heq, h.1⟩
  · cases h

theorem continuesPunctuation_of_wouldFuse {left right : Token} {c : Char}
    (hleft : left.text.toList = [c]) (hkind : left.kind = (Lexer.punctuation c []).1)
    (hc : c = '-' ∨ c = '.') (h : wouldFuse left right = false) :
    Lexer.continuesPunctuation c right.text.toList = false := by
  obtain ⟨a, b, htokens, ha⟩ := kind_of_wouldFuse h
  rw [← Bool.not_eq_true]
  intro hmore
  rw [tokenize, String.toList_append, hleft, List.singleton_append, Lexer.tokensAfter_zero_cons]
    at htokens
  have hmunch : Lexer.munch c right.text.toList = Lexer.punctuation c right.text.toList := by
    rcases hc with rfl | rfl <;> rfl
  obtain rfl := (List.cons.inj htokens).1
  apply (Lexer.punctuation_more hmore).2
  rw [← hkind, ← ha, hmunch]

theorem continuedBy_restore {token : Token} {rest : List Char} (h : token.restore.Heads rest)
    {c : Char} {next : List Char} (hkind : token.kind ≠ .whitespace)
    (hend : token.reachesEnd = false) (hc : Token.mayStop c = true)
    (hstops : token.Stops c next) : token.restore.continuedBy (c :: next) = false := by
  by_cases hident : token.kind = .ident
  · have hword : (token.restore.kind == .ident || token.restore.kind.isKeyword) = true := by
      rw [Token.restore, if_pos hident]
      exact Token.isWord_ofWord token.text
    simp only [Token.mayStop, Bool.and_eq_true, Bool.not_eq_true'] at hc
    rw [Token.continuedBy_of_word hword]
    exact hc.1.1.1
  · rw [Token.restore_of_ne hident] at h ⊢
    exact h.continuedBy_cons hkind hend hc hstops

theorem head?_finish (options : LayoutOptions) (token : Token) :
    (token.finish options).text.toList.head? = token.text.toList.head? := by
  by_cases hopen : token.isOpenComment = true
  · rw [Token.finish, if_pos hopen]
    simp only [Token.isOpenComment, Token.opensComment, Bool.and_eq_true, beq_iff_eq] at hopen
    obtain ⟨cs, htext⟩ := List.head?_eq_some_iff.mp hopen.2.1
    have hended := ended_append options (show ['/'].getLast? ≠ some '\n' by decide) cs
    change (Layout.finish options token.text).toList.head? = _
    rw [toList_finish, htext]
    exact (congrArg List.head? hended).trans rfl
  · rw [finish_of_not (Bool.eq_false_iff.mpr hopen)]

def behind (options : LayoutOptions) (slot : Slot) (rest : List Slot) : List Token :=
  if rest = [] then endingOf options [slot] else printedTokens options rest

theorem printedTokens_eq (slot : Slot) (rest : List Slot) :
    printedTokens options (slot :: rest) =
      slot.separator.tokens options ++ slot.token.finish options :: behind options slot rest := by
  rw [behind]
  split
  · next hnil =>
    rw [hnil, printedTokens, List.map_cons, tokensOfSlots_cons, List.append_assoc]
    rfl
  · next hne => exact printedTokens_cons slot hne

theorem head_behind {slot : Slot} {rest : List Slot}
    (hheads : ∀ next ∈ rest, ∃ after, next.token.restore.Heads after) {c : Char}
    (h : c ∈ (spelling (behind options slot rest)).head?) :
    (c = '\n' ∨ c = ' ') ∨ ∃ next others, rest = next :: others ∧ next.separator = .tight ∧
      c ∈ next.token.text.toList.head? := by
  cases rest with
  | nil =>
    left
    simp only [behind, if_true, endingOf, List.getLast?_singleton] at h
    split at h
    · cases h
    · exact .inl (Option.some.inj h).symm
  | cons next others =>
    rw [behind, if_neg (List.cons_ne_nil _ _), printedTokens_eq, spelling_append, spelling_cons,
      spelling_separator] at h
    by_cases htight : next.separator = .tight
    · right
      refine ⟨next, others, rfl, htight, ?_⟩
      have hfinish := head?_finish options next.token
      obtain ⟨after, d, ds, htext, -⟩ := hheads next List.mem_cons_self
      rw [Token.text_restore] at htext
      rw [htext, List.head?_cons] at hfinish ⊢
      obtain ⟨ds', htext'⟩ := List.head?_eq_some_iff.mp hfinish
      rw [htight, htext'] at h
      exact h
    · left
      obtain ⟨d, tail, htext, hd⟩ := head_separator options htight
      rw [htext] at h
      obtain rfl : d = c := Option.some.inj h
      exact hd.imp And.left And.left

def followsTight (kind : Kind) : Bool :=
  isClosing kind || kind == .dotDot || kind == .star

def leadsTight (kind : Kind) : Bool :=
  isOpening kind || kind == .star || kind == .dotDot || kind == .minus

theorem mark_of_followsTight {kind : Kind} (h : followsTight kind = true) :
    ∃ c cs, kind.mark? = some (String.ofList (c :: cs)) ∧ Token.mayStop c = true ∧
      c ∉ ['#', '/', '\\', '\n'] ∧ (c = '*' → kind = .star) ∧
        (c = '.' → kind = .dot ∨ cs = ['.']) := by
  revert h
  cases kind <;> intro h
  all_goals first
    | exact absurd h (by decide)
    | exact ⟨_, _, rfl, by decide⟩

theorem notWord_of_leadsTight {kind : Kind} (h : leadsTight kind = true) :
    (kind == .ident || kind.isKeyword) = false := by
  revert h
  cases kind <;> decide

theorem followsTight_or_of_touching {left right : Kind} (h : Touching left right) :
    followsTight right = true ∧ (right = .star → left.isKeyword = true) ∨
      leadsTight left = true := by
  rcases h with hopening | hclosing | rfl | rfl | rfl | hdots | ⟨hstar, hkeyword⟩
  · exact .inr (by simp [leadsTight, hopening])
  · refine .inl ⟨by simp [followsTight, hclosing], ?_⟩
    rintro rfl
    cases hclosing
  · exact .inr rfl
  · exact .inr rfl
  · exact .inr rfl
  · exact .inl ⟨by simp [followsTight, hdots], by rintro rfl; cases hdots⟩
  · exact .inl ⟨by simp [followsTight, hstar], fun _ => hkeyword⟩

theorem text_of_mark {token : Token} {rest : List Char}
    (h : token.restore.Heads rest) {mark : String}
    (hmark : token.kind.mark? = some mark) : token.text = mark := by
  have hident : token.kind ≠ .ident := by
    intro hident
    rw [hident] at hmark
    cases hmark
  rw [Token.restore_of_ne hident] at h
  exact h.text_eq_mark mark hmark

section Adjacent

variable {left next : Slot} {others : List Slot}

theorem stays_of_breaks (h : Printable (left :: next :: others))
    (hlegible : legible options (left :: next :: others) = true)
    (hbreaks : next.separator.breaks = 0) :
    left.token.kind ≠ .lineComment ∧ left.token.kind ≠ .metaComment ∧
      left.token.isOpenString = false := by
  have hends : endsLine left.token.kind = false := by
    rw [← Bool.not_eq_true]
    exact fun hends => (List.isChain_cons_cons.mp h.sound).1.2 hends hbreaks
  have hstring : left.token.isOpenString = false := by
    rw [← Bool.not_eq_true]
    intro hstring
    simp [legible, hstring, hbreaks] at hlegible
  refine ⟨?_, ?_, hstring⟩ <;> intro hkind <;> rw [hkind] at hends <;> cases hends

/-- Behind a less-than sign no token completes an arrow. -/
theorem angle_behind (options : LayoutOptions) (h : Printable (next :: others))
    (hkind : next.token.kind = .lt) :
    ∀ c ∈ (spelling (behind options next others)).head?, c ≠ '>' ∧ c ≠ '#' := by
  intro c hc
  rcases head_behind (fun slot hslot => h.tail.heads slot hslot) hc with
    (rfl | rfl) | ⟨third, rest, rfl, htight, hthird⟩
  · decide
  · decide
  · have hsound := ((List.isChain_cons_cons.mp h.sound).1.1 htight).1
    rw [hkind] at hsound
    rcases followsTight_or_of_touching hsound with ⟨hfollows, -⟩ | hnot
    · obtain ⟨d, ds, hmark, hstop, hother, -⟩ := mark_of_followsTight hfollows
      obtain ⟨after, hheads⟩ := h.tail.heads third List.mem_cons_self
      rw [text_of_mark hheads hmark, String.toList_ofList] at hthird
      obtain rfl : d = c := Option.some.inj hthird
      simp only [Token.mayStop, Bool.and_eq_true, bne_iff_ne] at hstop
      refine ⟨hstop.2, ?_⟩
      rintro rfl
      exact hother (by decide)
    · cases hnot

theorem continuesMinus_tight (options : LayoutOptions) (h : Printable (left :: next :: others))
    (hkind : left.token.kind = .minus) (hfuse : wouldFuse left.token next.token = false) :
    Lexer.continuesMinus ((next.token.finish options).text.toList ++
      spelling (behind options next others)) = false := by
  obtain ⟨before, hleft⟩ := h.heads left List.mem_cons_self
  obtain ⟨after, hright⟩ := h.heads next (by simp)
  have hmark : left.token.text = "-" := text_of_mark hleft (by rw [hkind]; rfl)
  have hnone : Lexer.continuesMinus next.token.text.toList = false :=
    continuesPunctuation_of_wouldFuse (c := '-') (by rw [hmark]; rfl) (by rw [hkind]; rfl)
      (.inl rfl) hfuse
  by_cases hangle : next.token.text.toList.head? = some '<'
  · have hopen : next.token.isOpenComment = false := by
      simp [Token.isOpenComment, Token.opensComment, hangle]
    have hcases := hright.angle_cases (by rwa [Token.text_restore])
    rw [Token.text_restore] at hcases
    rw [finish_of_not hopen]
    rcases hcases with hkind | htext | htext
    · have hless : next.token.kind = .lt := by
        by_cases hident : next.token.kind = .ident
        · rw [Token.restore, if_pos hident] at hkind
          have hword := Token.isWord_ofWord next.token.text
          rw [show Kind.ofWord next.token.text = .lt from hkind] at hword
          cases hword
        · rwa [Token.restore_of_ne hident] at hkind
      have hbehind := angle_behind options h.tail hless
      rw [text_of_mark hright (by rw [hless]; rfl)]
      cases hchars : spelling (behind options next others) with
      | nil => rfl
      | cons d ds =>
        rw [hchars] at hbehind
        obtain ⟨hgreater, hhash⟩ := hbehind d rfl
        change Lexer.continuesMinus ('<' :: d :: ds) = false
        unfold Lexer.continuesMinus
        split <;> simp_all
    · rw [htext] at hnone
      cases hnone
    · rw [htext]
      rfl
  · have hhead := head?_finish options next.token
    obtain ⟨c, cs, htext, -⟩ := hright
    rw [Token.text_restore] at htext
    rw [htext] at hnone hhead hangle
    obtain ⟨cs', htext'⟩ := List.head?_eq_some_iff.mp hhead
    rw [htext']
    rw [Lexer.continuesMinus.eq_def] at hnone ⊢
    split at hnone <;> split <;> simp_all

theorem head_behind_dot (options : LayoutOptions) (h : Printable (left :: next :: others))
    (hkind : left.token.kind = .dot)
    (hfuse : wouldFuse left.token next.token = false) :
    ((next.token.finish options).text.toList ++ spelling (behind options next others)).head? ≠
      some '.' := by
  obtain ⟨before, hleft⟩ := h.heads left List.mem_cons_self
  have hmark : left.token.text = "." := text_of_mark hleft (by rw [hkind]; rfl)
  have hnone : (next.token.text.toList.head? == some '.') = false :=
    continuesPunctuation_of_wouldFuse (c := '.') (by rw [hmark]; rfl) (by rw [hkind]; rfl)
      (.inr rfl) hfuse
  obtain ⟨after, c, cs, htext, -⟩ := h.heads next (by simp)
  rw [Token.text_restore] at htext
  rw [htext] at hnone
  rw [List.head?_append, head?_finish, htext]
  exact beq_eq_false_iff_ne.mp hnone

/-- Behind a point that touches an integer no digit follows. -/
theorem head_behind_integer (h : Printable (left :: next :: others))
    (hlegible : legible options (left :: next :: others) = true) (htight : next.separator = .tight)
    (hleft : left.token.kind = .integer) (hnext : next.token.kind = .dot) :
    (spelling (behind options next others)).head?.any Char.isDigit = false := by
  rw [Option.any_eq_false]
  intro c hc
  rw [← Bool.not_eq_true]
  intro hdigit
  rcases head_behind (fun slot hslot => h.tail.tail.heads slot hslot) hc with
    (rfl | rfl) | ⟨third, rest, rfl, hthird, hhead⟩
  · cases hdigit
  · cases hdigit
  · obtain ⟨after, hheads⟩ := h.heads third (by simp)
    have hnumber := hheads.kind_of_digit (by
      rw [Token.text_restore, Option.mem_def.mp hhead]
      exact hdigit)
    have hident : third.token.kind ≠ .ident := by
      intro hident
      rw [Token.restore, if_pos hident] at hnumber
      have hword := Token.isWord_ofWord third.token.text
      rcases hnumber with hnumber | hnumber <;>
        (rw [show Kind.ofWord third.token.text = _ from hnumber] at hword; cases hword)
    rw [Token.restore_of_ne hident] at hnumber
    have hsplits : splitsNumber left next (third :: rest) = true := by
      rcases hnumber with hnumber | hnumber <;>
        simp [splitsNumber, hleft, hnext, htight, hthird, hnumber, isNumber]
    rw [legible, hsplits] at hlegible
    simp at hlegible

theorem continuedBy_tight (h : Printable (left :: next :: others))
    (hlegible : legible options (left :: next :: others) = true)
    (htight : next.separator = .tight) :
    left.token.restore.continuedBy ((next.token.finish options).text.toList ++
      spelling (behind options next others)) = false := by
  obtain ⟨before, hleft⟩ := h.heads left List.mem_cons_self
  obtain ⟨after, hright⟩ := h.heads next (by simp)
  have hsound := (List.isChain_cons_cons.mp h.sound).1
  obtain ⟨htouch, hfuse⟩ := hsound.1 htight
  have hminus := fun hkind => continuesMinus_tight options h hkind hfuse
  have hdot := fun hkind => head_behind_dot options h hkind hfuse
  rcases followsTight_or_of_touching htouch with ⟨hfollows, hstar⟩ | hleads
  · obtain ⟨c, cs, hmark, hstop, hother, hcstar, hcdot⟩ := mark_of_followsTight hfollows
    have htext := text_of_mark hright hmark
    have hopen : next.token.isOpenComment = false := by
      have hslash : c ≠ '/' := by
        rintro rfl
        exact hother (by decide)
      simp [Token.isOpenComment, Token.opensComment, htext, hslash]
    rw [finish_of_not hopen, htext, String.toList_ofList] at hminus hdot ⊢
    apply continuedBy_restore hleft (h.visible left List.mem_cons_self)
      ((List.pairwise_cons.mp h.last).1 next List.mem_cons_self) hstop
    refine ⟨.inr ?_, hminus, fun hkind hc => hdot hkind (congrArg some hc), ?_, ?_⟩
    · exact stays_of_breaks h hlegible (by rw [htight]; rfl)
    · intro hkind hc
      rcases hcdot hc with hnext | rfl
      · have hcs : cs = [] := by
          rw [hnext] at hmark
          have hchars := String.ofList_inj.mp ((Option.some.inj hmark).symm.trans
            (show "." = String.ofList ['.'] from rfl))
          exact (List.cons.inj hchars).2
        rw [hcs]
        exact head_behind_integer h hlegible htight hkind hnext
      · rfl
    · intro hkind hc
      have hkeyword := hstar (hcstar hc)
      rw [hkind] at hkeyword
      cases hkeyword
  · have hident : left.token.kind ≠ .ident := by
      intro hident
      rw [hident] at hleads
      cases hleads
    rw [Token.restore_of_ne hident]
    unfold Token.continuedBy
    split <;> first
      | next heq => exact hminus heq
      | next heq =>
        exact beq_eq_false_iff_ne.mpr (hdot heq)
      | next heq => rw [heq] at hleads; cases hleads
      | rw [notWord_of_leadsTight hleads, Bool.false_and]

end Adjacent

theorem continuedBy_nil (token : Token) : token.continuedBy [] = false := by
  unfold Token.continuedBy
  split
  case h_4 => exact Bool.and_false _
  case h_7 => split <;> rfl
  case h_8 => split <;> rfl
  case h_15 => exact Bool.and_false _
  all_goals rfl

theorem isOpenComment_restore (token : Token) :
    token.restore.isOpenComment = token.isOpenComment := by
  rw [Token.isOpenComment, Token.isOpenComment, Token.isTrivia_restore, Token.text_restore]

theorem restore_of_isOpenComment {token : Token} {rest : List Char} (h : token.restore.Heads rest)
    (hopen : token.isOpenComment = true) : token.kind ≠ .ident := by
  intro hident
  have hword := Token.Heads.isWordLike h (by
    rw [Token.restore, if_pos hident]
    exact Token.isWord_ofWord token.text)
  simp only [Token.isOpenComment, Token.opensComment, Bool.and_eq_true, beq_iff_eq] at hopen
  rw [Token.isWordLike, Token.text_restore, hopen.2.1] at hword
  cases hword

theorem restore_finish {token : Token} {rest : List Char} (h : token.restore.Heads rest) :
    (token.finish options).restore = token.restore.finish options := by
  by_cases hopen : token.isOpenComment = true
  · have hident := restore_of_isOpenComment h hopen
    rw [Token.restore_of_ne hident, Token.restore_of_ne]
    rw [Token.finish, if_pos hopen]
    exact hident
  · rw [Bool.not_eq_true] at hopen
    rw [finish_of_not hopen, finish_of_not (by rwa [isOpenComment_restore])]

theorem heads_last {slot : Slot} {rest : List Char} (hheads : slot.token.restore.Heads rest)
    (hkind : slot.token.kind ≠ .whitespace) (hends : endsWell options slot.token = true) :
    (slot.token.finish options).restore.Heads (spelling (endingOf options [slot])) := by
  simp only [endsWell, Bool.and_eq_true, Bool.not_eq_true'] at hends
  obtain ⟨hcloses, hblock⟩ := hends
  simp only [endingOf, List.getLast?_singleton]
  by_cases hopen : slot.token.isOpenComment = true
  · have hident := restore_of_isOpenComment hheads hopen
    rw [restore_finish hheads, if_pos (by rw [hopen]; rfl)]
    rw [Token.restore_of_ne hident] at hheads ⊢
    obtain rfl := hheads.rest_eq_nil (by simp [Token.reachesEnd, hopen])
    exact hheads.finish hopen hcloses
  · rw [Bool.not_eq_true] at hopen
    rw [finish_of_not hopen, hopen, Bool.false_or]
    apply hheads.append
    by_cases hinsert : options.insertFinalNewline = true
    · have hend : slot.token.reachesEnd = false := by
        simpa [Token.reachesEnd, hopen, hinsert] using hblock
      rw [if_neg (by rw [hinsert]; decide)]
      exact continuedBy_restore hheads hkind hend rfl (.ofBlank (.inl rfl))
    · rw [if_pos (by rw [Bool.not_eq_true] at hinsert; rw [hinsert]; rfl)]
      exact continuedBy_nil _

theorem heads_of_legible {slot : Slot} {rest : List Slot} (h : Printable (slot :: rest))
    (hlegible : legible options (slot :: rest) = true) :
    (slot.token.finish options).restore.Heads (spelling (behind options slot rest)) := by
  obtain ⟨before, hheads⟩ := h.heads slot List.mem_cons_self
  have hkind := h.visible slot List.mem_cons_self
  cases rest with
  | nil => exact heads_last hheads hkind hlegible
  | cons next others =>
    have hend := (List.pairwise_cons.mp h.last).1 next List.mem_cons_self
    rw [finish_of_not (isOpenComment_of_reachesEnd hend), behind, if_neg (List.cons_ne_nil _ _),
      printedTokens_eq, spelling_append, spelling_cons, spelling_separator]
    apply hheads.append
    by_cases htight : next.separator = .tight
    · rw [htight]
      exact continuedBy_tight h hlegible htight
    · obtain ⟨c, tail, htext, hc⟩ := head_separator options htight
      rw [htext]
      have hstop : Token.mayStop c = true := by
        rcases hc with ⟨rfl, -⟩ | ⟨rfl, -⟩ <;> rfl
      apply continuedBy_restore hheads hkind hend hstop
      exact .ofBlank (hc.imp And.left fun ⟨hspace, hbreaks⟩ =>
        ⟨hspace, stays_of_breaks h hlegible hbreaks⟩)

/-- What is legible is read back as it was printed. -/
theorem tiled_of_legible {slots : List Slot} (h : Printable slots)
    (hlegible : legible options slots = true) :
    Tiled ((printedTokens options slots).map Token.restore) := by
  induction slots with
  | nil => trivial
  | cons slot rest ih =>
    have hheads := heads_of_legible h hlegible
    have hkind : (slot.token.finish options).restore.kind ≠ .whitespace := by
      apply restore_ne_whitespace
      rw [kind_finish]
      exact h.visible slot List.mem_cons_self
    have hbehind : Tiled ((behind options slot rest).map Token.restore) := by
      cases rest with
      | nil =>
        simp only [behind, if_true, endingOf, List.getLast?_singleton]
        split
        · trivial
        · exact ⟨⟨'\n', [], rfl, rfl⟩, trivial⟩
      | cons next others =>
        rw [behind, if_neg (List.cons_ne_nil _ _)]
        refine ih h.tail ?_
        simp only [legible, Bool.and_eq_true] at hlegible
        exact hlegible.2
    have hseparator : (slot.separator.tokens options).map Token.restore =
        slot.separator.tokens options := by
      cases slot.separator <;> rfl
    rw [printedTokens_eq, List.map_append, List.map_cons, hseparator]
    apply tiled_separator hkind
    refine ⟨?_, hbehind⟩
    rw [spelling_map_restore]
    exact hheads

theorem breaks_of_isOpenString {left next : Slot} {others : List Slot}
    (h : Printable (left :: next :: others)) (hopen : left.token.isOpenString = true)
    (hheads : left.token.Heads (spelling (printedTokens options (next :: others)))) :
    next.separator.breaks ≠ 0 := by
  intro hbreaks
  have hhead := hheads.head_of_isOpenString hopen
  rw [printedTokens_eq, spelling_append, spelling_cons, spelling_separator] at hhead
  by_cases htight : next.separator = .tight
  · have hkind : left.token.kind = .error := by
      simp only [Token.isOpenString, Bool.and_eq_true, beq_iff_eq] at hopen
      exact hopen.1
    obtain ⟨htouch, -⟩ := (List.isChain_cons_cons.mp h.sound).1.1 htight
    rw [hkind] at htouch
    rcases followsTight_or_of_touching htouch with ⟨hfollows, -⟩ | hnot
    · obtain ⟨c, cs, hmark, -, hother, -⟩ := mark_of_followsTight hfollows
      obtain ⟨after, hnext⟩ := h.heads next (by simp)
      have hfirst := head?_finish options next.token
      rw [text_of_mark hnext hmark, String.toList_ofList] at hfirst
      obtain ⟨tail, htail⟩ := List.head?_eq_some_iff.mp hfirst
      rw [htight, htail] at hhead
      rcases hhead c rfl with rfl | rfl <;> exact hother (by decide)
    · cases hnot
  · obtain ⟨c, tail, htext, hc⟩ := head_separator options htight
    rw [htext] at hhead
    rcases hc with ⟨-, hline⟩ | ⟨rfl, -⟩
    · exact hline hbreaks
    · rcases hhead ' ' rfl with hnot | hnot <;> cases hnot

theorem not_splitsNumber_of_tiled {left next : Slot} {others : List Slot}
    (h : Printable (left :: next :: others))
    (hheads : left.token.restore.Heads (spelling (printedTokens options (next :: others)))) :
    splitsNumber left next others = false := by
  rw [← Bool.not_eq_true]
  intro hsplits
  cases others with
  | nil => simp [splitsNumber] at hsplits
  | cons third rest =>
    simp only [splitsNumber, List.head?_cons, Option.any_some, isNumber, Bool.and_eq_true,
      Bool.or_eq_true, beq_iff_eq] at hsplits
    obtain ⟨⟨⟨hinteger, htight⟩, hpoint⟩, hthird, hnumber⟩ := hsplits
    obtain ⟨before, hnext⟩ := h.heads next (by simp)
    obtain ⟨after, hlast⟩ := h.heads third (by simp)
    have hident : third.token.kind ≠ .ident := by rcases hnumber with hkind | hkind <;> simp [hkind]
    have htext : next.token.text = "." := text_of_mark hnext (by rw [hpoint]; rfl)
    have hopen : next.token.isOpenComment = false := by
      simp [Token.isOpenComment, Token.opensComment, htext]
    rw [Token.restore_of_ne hident] at hlast
    obtain ⟨c, cs, hchars, hbegin⟩ := hlast.mayBegin
    have hdigit : c.isDigit = true := by rcases hnumber with hkind | hkind <;> rwa [hkind] at hbegin
    have hfirst := head?_finish options third.token
    rw [hchars] at hfirst
    obtain ⟨tail, htail⟩ := List.head?_eq_some_iff.mp hfirst
    have hfraction := hheads.not_startsFraction (by
      rw [Token.restore_of_ne (by rw [hinteger]; decide)]
      exact hinteger)
    rw [printedTokens_eq, spelling_append, spelling_separator, htight, spelling_cons,
      finish_of_not hopen, htext, behind, if_neg (List.cons_ne_nil _ _), printedTokens_eq,
      spelling_append, spelling_separator, hthird, spelling_cons, htail] at hfraction
    have hpoint : Lexer.startsFraction
      ('.' :: c :: (tail ++ spelling (behind options third rest))) =
        c.isDigit := rfl
    exact absurd (hpoint.symm.trans hfraction) (by rw [hdigit]; decide)

theorem endsWell_of_heads {last : Slot} (h : Printable [last])
    (hheads : (last.token.finish options).restore.Heads (spelling (endingOf options [last]))) :
    endsWell options last.token = true := by
  obtain ⟨before, hbefore⟩ := h.heads last List.mem_cons_self
  have hvisible (hopen : last.token.isOpenComment = true) : last.token.kind.isTrivia = false := by
    simp only [Token.isOpenComment, Bool.and_eq_true, Bool.not_eq_true'] at hopen
    exact hopen.1
  have hblock {token : Token} (htext : token.text = "/**/") (hheads : token.restore.Heads []) :
      token.kind.isTrivia = true := by
    rw [← Token.isTrivia_restore, hheads.kind_of_block (by rw [Token.text_restore, htext])]
    rfl
  simp only [endingOf, List.getLast?_singleton] at hheads
  rw [endsWell, Bool.and_eq_true, Bool.not_eq_true', Bool.not_eq_true']
  by_cases hopen : last.token.isOpenComment = true
  · rw [if_pos (by rw [hopen]; rfl)] at hheads
    have hkind : (last.token.finish options).kind.isTrivia = false := by
      rw [kind_finish]
      exact hvisible hopen
    have htext : (last.token.finish options).text = finish options last.token.text := by
      rw [Token.finish, if_pos hopen]
      rfl
    refine ⟨?_, ?_⟩ <;> rw [← Bool.not_eq_true]
    · intro hcloses
      simp only [Token.closesUp, hopen, Bool.true_and, List.contains_iff_mem, List.mem_cons,
        List.not_mem_nil, or_false, ← htext] at hcloses
      rcases hcloses with hstar | hstars | hclosed
      · exact Token.not_heads_of_opening (.inl (by rw [Token.text_restore, hstar])) hheads
      · exact Token.not_heads_of_opening (.inr (by rw [Token.text_restore, hstars])) hheads
      · rw [hblock hclosed hheads] at hkind
        cases hkind
    · intro hclosed
      have hspelled : last.token.text = "/**/" := by
        simp only [Bool.and_eq_true, beq_iff_eq] at hclosed
        exact hclosed.1
      obtain rfl := hbefore.rest_eq_nil (by
        simp [Token.reachesEnd, isOpenComment_restore, hopen])
      have htrivia := hblock hspelled hbefore
      rw [hvisible hopen] at htrivia
      cases htrivia
  · rw [Bool.not_eq_true] at hopen
    rw [finish_of_not hopen, hopen, Bool.false_or] at hheads
    refine ⟨by rw [Token.closesUp, hopen, Bool.false_and], ?_⟩
    rw [← Bool.not_eq_true]
    intro hclosed
    simp only [Bool.and_eq_true, beq_iff_eq] at hclosed
    rw [if_neg (by rw [hclosed.2]; decide)] at hheads
    have hnil := hheads.rest_eq_nil (by simp [Token.reachesEnd, Token.text_restore, hclosed.1])
    cases hnil

theorem legible_of_tiled {slots : List Slot} (h : Printable slots)
    (htiled : Tiled ((printedTokens options slots).map Token.restore)) :
    legible options slots = true := by
  induction slots with
  | nil => rfl
  | cons slot rest ih =>
    rw [printedTokens_eq, List.map_append, List.map_cons] at htiled
    obtain ⟨hheads, hrest⟩ := htiled.append_right
    rw [spelling_map_restore] at hheads
    cases rest with
    | nil => exact endsWell_of_heads h hheads
    | cons next others =>
      rw [behind, if_neg (List.cons_ne_nil _ _)] at hheads hrest
      have hend := (List.pairwise_cons.mp h.last).1 next List.mem_cons_self
      rw [finish_of_not (isOpenComment_of_reachesEnd hend)] at hheads
      have hsplits := not_splitsNumber_of_tiled h hheads
      have hstring : (slot.token.isOpenString && next.separator.breaks == 0) = false := by
        rw [Bool.and_eq_false_imp]
        intro hopen
        have hident : slot.token.kind ≠ .ident := by
          intro hident
          simp [Token.isOpenString, hident] at hopen
        rw [Token.restore_of_ne hident] at hheads
        exact beq_eq_false_iff_ne.mpr (breaks_of_isOpenString h hopen hheads)
      rw [legible, hstring, hsplits, ih h.tail hrest]
      rfl

/-- Being legible is being read back as printed. -/
theorem tiled_iff_legible {slots : List Slot} (h : Printable slots) :
    Tiled ((printedTokens options slots).map Token.restore) ↔ legible options slots = true :=
  ⟨legible_of_tiled h, tiled_of_legible h⟩

end Ili.Layout
