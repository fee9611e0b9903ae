import Ili.Text.LineIndex
import Mathlib.Algebra.GroupWithZero.Nat
import Mathlib.Data.List.DropRight
import Mathlib.Data.List.Infix

/-!
# Places in a text

A position is what reading the text from its start arrives at: a line feed begins a line, any other
character takes one or two columns. So between characters the positions grow with the offsets.
-/

namespace Ili

namespace Position

def advance (position : Position) (c : Char) : Position :=
  if c = '\n' then ⟨position.line + 1, 0⟩ else ⟨position.line, position.column + utf16Width c⟩

def behind (position : Position) (chars : List Char) : Position :=
  chars.foldl advance position

theorem behind_append (position : Position) (left right : List Char) :
    position.behind (left ++ right) = (position.behind left).behind right :=
  List.foldl_append

protected theorem le_refl (position : Position) : position ≤ position :=
  le_def.mpr (.inr ⟨rfl, Nat.le_refl _⟩)

protected theorem le_trans {a b c : Position} (hab : a ≤ b) (hbc : b ≤ c) : a ≤ c := by
  rw [le_def] at hab hbc ⊢
  omega

theorem utf16Width_pos (c : Char) : 0 < utf16Width c := by
  rw [utf16Width]
  split <;> decide

theorem not_advance_le (position : Position) (c : Char) : ¬position.advance c ≤ position := by
  have hwidth := utf16Width_pos c
  rw [le_def, advance]
  split <;> dsimp only <;> omega

theorem le_behind (position : Position) (chars : List Char) : position ≤ position.behind chars := by
  induction chars generalizing position with
  | nil => exact position.le_refl
  | cons c cs ih =>
    have hstep : position ≤ position.advance c := by
      have hnot := position.not_advance_le c
      rw [le_def] at hnot ⊢
      omega
    exact Position.le_trans hstep (ih (position.advance c))

theorem not_behind_le {chars : List Char} (position : Position) (h : chars ≠ []) :
    ¬position.behind chars ≤ position := by
  obtain ⟨c, cs, rfl⟩ := List.exists_cons_of_ne_nil h
  exact fun hle =>
    position.not_advance_le c (Position.le_trans ((position.advance c).le_behind cs) hle)

theorem behind_of_notMem {chars : List Char} (h : '\n' ∉ chars) (position : Position) :
    position.behind chars =
      ⟨position.line, position.column + (chars.map utf16Width).sum⟩ := by
  induction chars generalizing position with
  | nil => rfl
  | cons c cs ih =>
    obtain ⟨hc, hcs⟩ := not_or.mp (mt List.mem_cons.mpr h)
    have hstep : position.advance c = ⟨position.line, position.column + utf16Width c⟩ :=
      if_neg (Ne.symm hc)
    calc position.behind (c :: cs)
        _ = (position.advance c).behind cs := rfl
        _ = ⟨position.line, position.column + utf16Width c + (cs.map utf16Width).sum⟩ := by
          rw [ih hcs, hstep]
        _ = ⟨position.line, position.column + ((c :: cs).map utf16Width).sum⟩ := by
          rw [List.map_cons, List.sum_cons, Nat.add_assoc]

/-- From the start of a text the line feeds count the lines, and what stands behind the last of them
makes the column. -/
theorem behind_start (chars : List Char) :
    behind ⟨0, 0⟩ chars =
      ⟨chars.count '\n', ((chars.rtakeWhile (· ≠ '\n')).map utf16Width).sum⟩ := by
  -- the column looks back from the end, so the last character is taken off
  induction chars using List.reverseRecOn with
  | nil => rfl
  | append_singleton chars c ih =>
    rw [behind_append, ih, List.count_append, List.count_singleton, List.rtakeWhile_concat]
    by_cases hc : c = '\n'
    · simp [behind, advance, hc]
    · simp [behind, advance, hc]

theorem compare_eq_lt_iff (a b : Position) : compare a b = .lt ↔ ¬b ≤ a := by
  have hcompare : compare a b = (compare a.line b.line).then (compare a.column b.column) := rfl
  rw [hcompare, Ordering.then_eq_lt, Nat.compare_eq_lt, Nat.compare_eq_eq, Nat.compare_eq_lt,
    le_def]
  omega

end Position

open Position

theorem utf8Length_pos {chars : List Char} (h : chars ≠ []) : 0 < utf8Length chars := by
  obtain ⟨c, cs, rfl⟩ := List.exists_cons_of_ne_nil h
  exact Nat.lt_of_lt_of_le c.utf8Size_pos (Nat.le_add_right _ _)

theorem eq_of_utf8Length_eq {left right left' right' : List Char}
    (h : left ++ right = left' ++ right') (hlength : utf8Length left = utf8Length left') :
    left = left' := by
  have hnone {chars more : List Char} (hsame : utf8Length (chars ++ more) = utf8Length chars) :
      more = [] := by
    by_contra hne
    have hpos := utf8Length_pos hne
    rw [utf8Length_append] at hsame
    omega
  rcases List.append_eq_append_iff.mp h with ⟨more, rfl, -⟩ | ⟨more, rfl, -⟩
  · rw [hnone hlength.symm, List.append_nil]
  · rw [hnone hlength, List.append_nil]

theorem utf8Length_ofList (chars : List Char) :
    utf8Length chars = (String.ofList chars).utf8ByteSize := by
  induction chars with
  | nil => rfl
  | cons c cs ih =>
    rw [utf8Length, ih, String.ofList_cons, String.utf8ByteSize_append,
      String.utf8ByteSize_singleton]

theorem utf8Length_toList (text : String) : utf8Length text.toList = text.utf8ByteSize := by
  rw [utf8Length_ofList, String.ofList_toList]

theorem columnAt?_utf8Length (left right : List Char) :
    columnAt? (left ++ right) (utf8Length left) = some (left.map utf16Width).sum := by
  induction left with
  | nil => simp [utf8Length, columnAt?]
  | cons c cs ih =>
    obtain ⟨size, hsize⟩ : ∃ size, c.utf8Size + utf8Length cs = size + 1 :=
      Nat.exists_eq_succ_of_ne_zero (Nat.ne_of_gt (utf8Length_pos (List.cons_ne_nil c cs)))
    have hle : c.utf8Size ≤ size + 1 := hsize ▸ Nat.le_add_right _ _
    have hrest : size + 1 - c.utf8Size = utf8Length cs := by omega
    rw [utf8Length, hsize, List.cons_append, columnAt?, if_pos hle, hrest, ih, Option.map_some,
      List.map_cons, List.sum_cons]

theorem columnAt?_of_le {chars : List Char} {offset : Nat} (h : utf8Length chars ≤ offset) :
    columnAt? chars offset = some (chars.map utf16Width).sum := by
  induction chars generalizing offset with
  | nil => cases offset <;> rfl
  | cons c cs ih =>
    rw [utf8Length] at h
    have hsize := c.utf8Size_pos
    obtain ⟨offset, rfl⟩ := Nat.exists_eq_succ_of_ne_zero (by omega : offset ≠ 0)
    rw [columnAt?, if_pos (by omega), ih (by omega), Option.map_some, List.map_cons, List.sum_cons]

theorem splitLines_append {left right line : List Char} {lines : List (List Char)}
    (hleft : '\n' ∉ left) (hright : splitLines right = line :: lines) :
    splitLines (left ++ right) = (left ++ line) :: lines := by
  induction left with
  | nil => exact hright
  | cons c cs ih =>
    obtain ⟨hc, hcs⟩ := not_or.mp (mt List.mem_cons.mpr hleft)
    rw [List.cons_append, splitLines, if_neg (Ne.symm hc), ih hcs]
    rfl

theorem ne_nil_of_splitLines {chars line next : List Char} {lines : List (List Char)}
    (h : splitLines chars = line :: next :: lines) : line ≠ [] := by
  cases chars with
  | nil => simp [splitLines] at h
  | cons c cs =>
    rw [splitLines] at h
    split at h
    · rw [← (List.cons.inj h).1]
      exact List.cons_ne_nil _ _
    · split at h
      · cases h
      · rw [← (List.cons.inj h).1]
        exact List.cons_ne_nil _ _

namespace LineIndex

def measured (lines : List (List Char)) : List (Nat × List Char) :=
  lines.map fun line => (utf8Length line, line)

theorem positionFrom_of_notMem {left : List Char} (h : '\n' ∉ left) (line : Nat)
    (right : List Char) :
    positionFrom line (measured (splitLines (left ++ right))) (utf8Length left) =
      behind ⟨line, 0⟩ left := by
  have hbehind : behind ⟨line, 0⟩ left = ⟨line, (left.map utf16Width).sum⟩ := by
    rw [behind_of_notMem h, Nat.zero_add]
  rw [hbehind]
  cases hright : splitLines right with
  | nil => exact absurd hright (splitLines_ne_nil right)
  | cons first lines =>
    rw [splitLines_append h hright]
    cases lines with
    | nil =>
      rw [measured, List.map_singleton, positionFrom, columnAt?_utf8Length, Option.getD_some]
    | cons next rest =>
      have hpos := utf8Length_pos (ne_nil_of_splitLines hright)
      have hlt : utf8Length left < utf8Length (left ++ first) := by
        rw [utf8Length_append]
        omega
      rw [measured, List.map_cons, List.map_cons, positionFrom, if_pos hlt, columnAt?_utf8Length,
        Option.getD_some]

/-- The position of an offset between characters is what reading up to there arrives at. -/
theorem positionFrom_utf8Length (line : Nat) (left right : List Char) :
    positionFrom line (measured (splitLines (left ++ right))) (utf8Length left) =
      behind ⟨line, 0⟩ left := by
  induction hlength : left.length using Nat.strongRecOn generalizing left line with
  | ind length ih =>
    by_cases hmem : '\n' ∈ left
    · obtain ⟨front, back, rfl, hfront⟩ := List.eq_append_cons_of_mem hmem
      have hlines : splitLines (front ++ '\n' :: back ++ right) =
          (front ++ ['\n']) :: splitLines (back ++ right) := by
        rw [List.append_assoc]
        apply splitLines_append hfront
        rw [List.cons_append, splitLines, if_pos rfl]
      have hsize : utf8Length (front ++ '\n' :: back) =
          utf8Length (front ++ ['\n']) + utf8Length back := by
        rw [← utf8Length_append, List.append_assoc, List.singleton_append]
      have hbehind : behind ⟨line, 0⟩ (front ++ '\n' :: back) = behind ⟨line + 1, 0⟩ back := by
        rw [behind_append, behind_of_notMem hfront]
        rfl
      have hback := ih back.length (by rw [← hlength]; simp; omega) (line + 1) back rfl
      rw [hlines, hsize, hbehind, ← hback]
      cases hrest : splitLines (back ++ right) with
      | nil => exact absurd hrest (splitLines_ne_nil _)
      | cons next rest =>
        rw [measured, List.map_cons, List.map_cons, positionFrom, if_neg (by omega),
          Nat.add_sub_cancel_left]
        rfl
    · exact positionFrom_of_notMem hmem line right

theorem position_utf8Length {text : String} {left : List Char} (h : left <+: text.toList) :
    (ofText text).position (utf8Length left) = behind ⟨0, 0⟩ left := by
  obtain ⟨right, htext⟩ := h
  rw [position, ofText, ← htext]
  exact positionFrom_utf8Length 0 left right

theorem positionFrom_of_le (line : Nat) {lines : List (List Char)} {offset : Nat}
    (h : utf8Length lines.flatten ≤ offset) :
    positionFrom line (measured lines) offset =
      positionFrom line (measured lines) (utf8Length lines.flatten) := by
  induction lines generalizing line offset with
  | nil => rfl
  | cons first lines ih =>
    rw [List.flatten_cons, utf8Length_append] at h ⊢
    cases lines with
    | nil =>
      have hend : utf8Length first ≤ utf8Length first + utf8Length [].flatten := Nat.le_add_right ..
      rw [measured, List.map_singleton, positionFrom, positionFrom,
        columnAt?_of_le (hend.trans h), columnAt?_of_le hend]
    | cons next rest =>
      rw [measured, List.map_cons, List.map_cons, positionFrom, positionFrom, if_neg (by omega),
        if_neg (by omega), Nat.add_sub_cancel_left]
      exact ih (line + 1) (by omega)

theorem position_of_le {text : String} {offset : Nat} (h : text.utf8ByteSize ≤ offset) :
    (ofText text).position offset = (ofText text).position text.utf8ByteSize := by
  have hlines := flatten_splitLines text.toList
  rw [← utf8Length_toList] at h ⊢
  rw [← hlines] at h
  have hbeyond := positionFrom_of_le 0 h
  rwa [hlines] at hbeyond

end LineIndex

/-- The offset stands between two characters of the text, or at one of its ends. -/
def IsBoundary (text : String) (offset : Nat) : Prop :=
  ∃ left, left <+: text.toList ∧ utf8Length left = offset

theorem LineIndex.not_position_le {text : String} {first second : Nat}
    (hfirst : IsBoundary text first) (hsecond : IsBoundary text second) (hlt : first < second) :
    ¬(ofText text).position second ≤ (ofText text).position first := by
  obtain ⟨left, hleft, rfl⟩ := hfirst
  obtain ⟨longer, hlonger, rfl⟩ := hsecond
  have hprefix : left <+: longer := by
    refine (List.prefix_or_prefix_of_prefix hleft hlonger).resolve_right fun ⟨rest, hrest⟩ => ?_
    rw [← hrest, utf8Length_append] at hlt
    omega
  obtain ⟨between, rfl⟩ := hprefix
  have hne : between ≠ [] := by
    rintro rfl
    rw [List.append_nil] at hlt
    exact Nat.lt_irrefl _ hlt
  rw [position_utf8Length hlonger, position_utf8Length hleft, behind_append]
  exact not_behind_le _ hne

/-- Between characters the line is the number of line feeds read so far and the column what has been
read since the last of them, in UTF-16 code units; a later offset has a later position, and every
offset beyond the end the position of the end. -/
theorem LineIndex.position_exact (text : String) :
    (∀ before after : String, text = before ++ after →
      (ofText text).position before.utf8ByteSize =
        ⟨before.toList.count '\n',
          ((before.toList.rtakeWhile (· ≠ '\n')).map utf16Width).sum⟩) ∧
    (∀ first second : Nat, IsBoundary text first → IsBoundary text second → first < second →
      compare ((ofText text).position first) ((ofText text).position second) = .lt) ∧
    ∀ offset : Nat, text.utf8ByteSize ≤ offset →
      (ofText text).position offset = (ofText text).position text.utf8ByteSize := by
  refine ⟨?_, ?_, fun offset => position_of_le⟩
  · rintro before after rfl
    have hprefix : before.toList <+: (before ++ after).toList := by
      rw [String.toList_append]
      exact List.prefix_append _ _
    rw [← utf8Length_toList, position_utf8Length hprefix, behind_start]
  · intro first second hfirst hsecond hlt
    exact (compare_eq_lt_iff _ _).mpr (not_position_le hfirst hsecond hlt)

/-- A carriage return takes a column like any other character, and a clef two. -/
theorem LineIndex.position_exact_clef :
    "a\r\n𝄞" ++ "b" = "a\r\n𝄞b" ∧
    (ofText "a\r\n𝄞b").position 7 = ⟨1, 2⟩ ∧
    compare ((ofText "a\r\n𝄞b").position 2) ((ofText "a\r\n𝄞b").position 3) = .lt ∧
    (ofText "a\r\n𝄞b").position 9 = ⟨1, 3⟩ := by
  have hclef := position_exact "a\r\n𝄞b"
  have hfirst : IsBoundary "a\r\n𝄞b" 2 := ⟨['a', '\r'], by decide, by decide⟩
  have hsecond : IsBoundary "a\r\n𝄞b" 3 := ⟨['a', '\r', '\n'], by decide, by decide⟩
  refine ⟨by decide, hclef.1 "a\r\n𝄞" "b" (by decide), hclef.2.1 2 3 hfirst hsecond (by decide), ?_⟩
  rw [hclef.2.2 9 (by decide)]
  exact hclef.1 "a\r\n𝄞b" "" (by decide)

/-- Ranges that stand apart have spans without a common position, ends included. -/
theorem LineIndex.not_contains_of_lt {text : String} {start stop start' stop' : Nat}
    (hstop : IsBoundary text stop) (hstart' : IsBoundary text start') (hlt : stop < start')
    {position : Position} (h : ((ofText text).span start stop).contains position = true) :
    ((ofText text).span start' stop').contains position = false := by
  have hbefore : position ≤ (ofText text).position stop :=
    of_decide_eq_true ((Bool.and_eq_true _ _).mp h).2
  have hbehind : ¬(ofText text).position start' ≤ position :=
    fun hle => not_position_le hstop hstart' hlt (Position.le_trans hle hbefore)
  rw [Span.contains, span, decide_eq_false hbehind, Bool.false_and]

end Ili
