import Ili.Catalog.MetaAttributes
import Ili.Proofs.Dict
import Ili.Proofs.Text.Pieces
import Ili.Proofs.Text.Places
import Ili.Proofs.Token.Tiling
import Mathlib.Data.Bool.AllAny
import Mathlib.Data.List.Basic

/-!
# Lines of attributes

Attributes are written into a comment as `!!@ key = "value"; key = "value"`. Such a line is cut at
the semicolons outside the quotes only, and every piece at its first equals sign. So what is read is
what was written, with whatever is quoted.
-/

namespace Ili

/-! ### Trimming and cutting -/

theorem trim_append {left right : List Char} (hleft : ∀ c ∈ left, isWhiteSpace c = true)
    (hright : ∀ c ∈ right, isWhiteSpace c = true) (chars : List Char) :
    trim (left ++ chars ++ right) = trim chars := by
  have hnone : right.reverse.dropWhile isWhiteSpace = [] :=
    List.dropWhile_eq_nil_iff.mpr fun c hc => hright c (List.mem_reverse.mp hc)
  rw [trim, trim, List.append_assoc, List.dropWhile_append_of_pos hleft, List.dropWhile_append]
  split
  · next hblank =>
    rw [List.dropWhile_eq_nil_iff.mpr hright, List.isEmpty_iff.mp hblank]
  · rw [List.reverse_append,
      List.dropWhile_append_of_pos fun c hc => hright c (List.mem_reverse.mp hc)]

theorem trim_quoted (chars : List Char) : trim ('"' :: chars ++ ['"']) = '"' :: chars ++ ['"'] := by
  have hquote : ¬isWhiteSpace '"' = true := by decide
  rw [trim, List.cons_append, List.dropWhile_cons_of_neg hquote, ← List.cons_append,
    List.reverse_append, List.reverse_singleton, List.singleton_append,
    List.dropWhile_cons_of_neg hquote, List.reverse_cons, List.reverse_reverse]

theorem unquote_quoted (chars : List Char) : unquote ('"' :: chars ++ ['"']) = chars := by
  simp [unquote]

theorem splitAtFirst?_append {separator : Char} {before : List Char} (h : separator ∉ before)
    (after : List Char) :
    splitAtFirst? separator (before ++ separator :: after) = some (before, after) := by
  induction before with
  | nil => simp [splitAtFirst?]
  | cons c cs ih =>
    obtain ⟨hne, hnotMem⟩ := not_or.mp (mt List.mem_cons.mpr h)
    rw [List.cons_append, splitAtFirst?, if_neg (Ne.symm hne), ih hnotMem, Option.map_some]

section Items

variable {quoted : Bool} {rest item : List Char} {items : List (List Char)}

/-- What holds neither a quote nor a semicolon that counts belongs to the item it begins. -/
theorem splitItems_append {piece : List Char}
    (hpiece : ∀ c ∈ piece, c ≠ '"' ∧ (c = ';' → quoted = true))
    (h : splitItems quoted rest = item :: items) :
    splitItems quoted (piece ++ rest) = (piece ++ item) :: items := by
  induction piece with
  | nil => exact h
  | cons c cs ih =>
    obtain ⟨⟨hquote, hcut⟩, hcs⟩ := List.forall_mem_cons.mp hpiece
    have hgoesOn : ¬(c = ';' ∧ quoted = false) := by
      rintro ⟨rfl, hopen⟩
      rw [hcut rfl] at hopen
      cases hopen
    have hsame : (quoted != (c == '"')) = quoted := by
      rw [beq_eq_false_iff_ne.mpr hquote, Bool.bne_false]
    rw [List.cons_append, splitItems, if_neg hgoesOn, hsame, ih hcs]
    rfl

theorem splitItems_quote (h : splitItems (!quoted) rest = item :: items) :
    splitItems quoted ('"' :: rest) = ('"' :: item) :: items := by
  have hgoesOn : ¬('"' = ';' ∧ quoted = false) := fun h => absurd h.1 (by decide)
  rw [splitItems, if_neg hgoesOn]
  simp [h]

theorem splitItems_semicolon : splitItems false (';' :: rest) = [] :: splitItems false rest := by
  rw [splitItems, if_pos ⟨rfl, rfl⟩]

end Items

/-! ### Attributes as they are written -/

structure WrittenAttribute where
  key : String
  value : String
  nonempty : key ≠ ""
  trimmed : trim key.toList = key.toList
  plain : ∀ c ∈ key.toList, c ∉ ['=', ';', '"', '\n']
  inside : ∀ c ∈ value.toList, c ∉ ['"', '\n']

namespace WrittenAttribute

def pair (entry : WrittenAttribute) : String × String :=
  (entry.key, entry.value)

def text (entry : WrittenAttribute) : String :=
  entry.key ++ " = \"" ++ entry.value ++ "\""

variable (entry : WrittenAttribute)

theorem toList_text :
    entry.text.toList =
      entry.key.toList ++ [' ', '=', ' '] ++ '"' :: entry.value.toList ++ ['"'] := by
  simp [text, String.toList_append]

theorem splitItems_text {rest item : List Char} {items : List (List Char)}
    (h : splitItems false rest = item :: items) :
    splitItems false (entry.text.toList ++ rest) =
      (entry.text.toList ++ item) :: items := by
  have hclosing : splitItems true ('"' :: rest) = ('"' :: item) :: items := splitItems_quote h
  have hvalue : splitItems true (entry.value.toList ++ '"' :: rest) =
      (entry.value.toList ++ '"' :: item) :: items :=
    splitItems_append (fun c hc => ⟨fun heq => entry.inside c hc (by simp [heq]), fun _ => rfl⟩)
      hclosing
  have hopening : splitItems false ('"' :: entry.value.toList ++ '"' :: rest) =
      ('"' :: entry.value.toList ++ '"' :: item) :: items := splitItems_quote hvalue
  have hsigns : ∀ c ∈ [' ', '=', ' '], c ≠ '"' ∧ (c = ';' → false = true) :=
    List.all_iff_forall_prop.mp (by decide)
  have hkey : ∀ c ∈ entry.key.toList ++ [' ', '=', ' '],
      c ≠ '"' ∧ (c = ';' → false = true) := by
    intro c hc
    rcases List.mem_append.mp hc with hc | hc
    · exact ⟨fun heq => entry.plain c hc (by simp [heq]),
        fun heq => absurd (by simp [heq]) (entry.plain c hc)⟩
    · exact hsigns c hc
  have hwhole := splitItems_append hkey hopening
  simpa only [toList_text, List.append_assoc, List.cons_append, List.nil_append] using hwhole

theorem notMem_text : '\n' ∉ entry.text.toList := by
  rw [toList_text]
  intro hmem
  simp only [List.mem_append, List.mem_cons, List.not_mem_nil, or_false] at hmem
  rcases hmem with ((hmem | hmem) | hmem | hmem) | hmem
  · exact entry.plain _ hmem (by simp)
  · revert hmem
    decide
  · revert hmem
    decide
  · exact entry.inside _ hmem (by simp)
  · revert hmem
    decide

/-- An item that holds an attribute between white space is read as this attribute. -/
theorem metaAttribute?_text {left right : List Char} (hleft : ∀ c ∈ left, isWhiteSpace c = true)
    (hright : ∀ c ∈ right, isWhiteSpace c = true) :
    metaAttribute? (left ++ entry.text.toList ++ right) = some entry.pair := by
  have hsplit : left ++ entry.text.toList ++ right =
      (left ++ entry.key.toList ++ [' ']) ++ '=' ::
        ([' '] ++ ('"' :: entry.value.toList ++ ['"']) ++ right) := by
    simp [toList_text]
  have hspace : ∀ c ∈ [' '], isWhiteSpace c = true := List.all_eq_true.mp rfl
  have hequals : '=' ∉ left ++ entry.key.toList ++ [' '] := by
    intro hmem
    simp only [List.mem_append, List.mem_singleton] at hmem
    rcases hmem with (hmem | hmem) | hmem
    · exact absurd (hleft _ hmem) (by decide)
    · exact entry.plain _ hmem (by simp)
    · exact absurd hmem (by decide)
  have hkey : entry.key.toList ≠ [] :=
    fun hnil => entry.nonempty (String.toList_eq_nil_iff.mp hnil)
  rw [hsplit, metaAttribute?, splitAtFirst?_append hequals, Option.bind_some]
  dsimp only
  rw [trim_append hleft hspace, entry.trimmed, trim_append hspace hright, trim_quoted,
    unquote_quoted, String.ofList_toList, String.ofList_toList]
  simp [hkey, pair]

end WrittenAttribute

/-! ### Lines -/

def metaLine (attributes : List WrittenAttribute) : String :=
  "!!@ " ++ "; ".intercalate (attributes.map WrittenAttribute.text)

theorem toList_metaLine (attributes : List WrittenAttribute) :
    (metaLine attributes).toList =
      '!' :: '!' :: '@' :: ' ' ::
        [';', ' '].intercalate (attributes.map fun entry => entry.text.toList) := by
  rw [metaLine, String.toList_append, String.toList_intercalate, List.map_map]
  rfl

theorem filterMap_splitItems {attributes : List WrittenAttribute} (hne : attributes ≠ [])
    {blanks : List Char} (hblanks : ∀ c ∈ blanks, isWhiteSpace c = true) :
    (splitItems false (' ' ::
        [';', ' '].intercalate (attributes.map fun entry => entry.text.toList) ++
          blanks)).filterMap metaAttribute? = attributes.map WrittenAttribute.pair := by
  have hspace : ∀ c ∈ [' '], isWhiteSpace c = true := List.all_eq_true.mp rfl
  have hcounts {chars : List Char} (h : ∀ c ∈ chars, isWhiteSpace c = true) :
      ∀ c ∈ chars, c ≠ '"' ∧ (c = ';' → false = true) := by
    refine fun c hc => ⟨?_, ?_⟩ <;> rintro rfl <;> exact absurd (h _ hc) (by decide)
  induction attributes with
  | nil => exact absurd rfl hne
  | cons entry rest ih =>
    cases rest with
    | nil =>
      have hlast : splitItems false blanks = [blanks] := by
        have hwhole : splitItems false (blanks ++ []) = [blanks ++ []] :=
          splitItems_append (hcounts hblanks) rfl
        rwa [List.append_nil] at hwhole
      have hitem := splitItems_append (hcounts hspace) (entry.splitItems_text hlast)
      rw [List.map_singleton, List.intercalate_singleton, List.cons_append,
        ← List.singleton_append, hitem, List.filterMap_cons, ← List.append_assoc,
        entry.metaAttribute?_text hspace hblanks]
      rfl
    | cons next others =>
      have hitem (behind : List Char) :
          splitItems false ([' '] ++ (entry.text.toList ++ ';' :: behind)) =
            ([' '] ++ (entry.text.toList ++ [])) :: splitItems false behind :=
        splitItems_append (hcounts hspace) (entry.splitItems_text splitItems_semicolon)
      have hchars : ' ' :: [';', ' '].intercalate ((entry :: next :: others).map fun entry =>
            entry.text.toList) ++ blanks =
          [' '] ++ (entry.text.toList ++ ';' :: (' ' :: [';', ' '].intercalate
            ((next :: others).map fun entry => entry.text.toList) ++ blanks)) := by
        simp [List.intercalate_cons_cons]
      rw [hchars, hitem, List.filterMap_cons, ih (List.cons_ne_nil _ _), ← List.append_assoc,
        entry.metaAttribute?_text hspace (List.forall_mem_nil _)]
      rfl

theorem parseMetaComment_metaLine {attributes : List WrittenAttribute} (hne : attributes ≠ [])
    {blanks : List Char} (hblanks : ∀ c ∈ blanks, isWhiteSpace c = true) :
    parseMetaComment (String.ofList ((metaLine attributes).toList ++ blanks)) =
      attributes.map WrittenAttribute.pair := by
  rw [parseMetaComment, String.toList_ofList, toList_metaLine]
  exact filterMap_splitItems hne hblanks

theorem notMem_metaLine (attributes : List WrittenAttribute) :
    '\n' ∉ (metaLine attributes).toList := by
  rw [toList_metaLine]
  intro hmem
  simp only [List.mem_cons, Char.reduceEq, false_or] at hmem
  rcases mem_intercalate hmem with hmem | ⟨piece, hpiece, hmem⟩
  · revert hmem
    decide
  · obtain ⟨entry, -, rfl⟩ := List.mem_map.mp hpiece
    exact entry.notMem_text hmem

/-! ### Lines in a text -/

theorem Token.heads_metaComment {body : List Char} (h : '\n' ∉ body) (rest : List Char) :
    Token.Heads ⟨.metaComment, String.ofList ('!' :: '!' :: '@' :: body)⟩ ('\n' :: rest) := by
  have hbody : ∀ c ∈ body, (c != '\n') = true := by
    rintro c hc
    exact bne_iff_ne.mpr fun heq => h (heq ▸ hc)
  refine ⟨'!', '!' :: '@' :: body, String.toList_ofList, ?_⟩
  change (Kind.metaComment, 2 + Lexer.count (· != '\n') (body ++ '\n' :: rest)) = _
  rw [Lexer.count_of_all hbody rfl, Nat.add_comm]
  rfl

/-- A line of attributes in a text with nothing but blanks behind it. No further comment of this
kind stands directly in front of it. -/
structure MetaLine (text : String) where
  attributes : List WrittenAttribute
  nonempty : attributes ≠ []
  distinct : (attributes.map WrittenAttribute.key).Nodup
  before : List Token
  behind : List Token
  tokens : tokenize text = before ++ behind
  blanks : List Char
  rest : List Char
  written : spelling behind = (metaLine attributes).toList ++ blanks ++ rest
  blank : ∀ c ∈ blanks, Lexer.isBlank c = true
  ended : '\n' ∈ blanks
  single : ∀ t ∈ before.reverse.takeWhile (fun t => t.kind.isTrivia), t.kind ≠ .metaComment

namespace MetaLine

variable {text : String} (line : MetaLine text)

def stop : Nat :=
  utf8Length (spelling line.before ++ (metaLine line.attributes).toList ++ line.blanks)

theorem exists_comment :
    ∃ comment indentation, comment.kind = .metaComment ∧
      parseMetaComment comment.text = line.attributes.map WrittenAttribute.pair ∧
      line.behind = comment :: Lexer.tokensAfter 0 (indentation ++ line.rest) ∧
      indentation ≠ [] ∧ (∀ c ∈ indentation, Lexer.isBlank c = true) ∧
      line.stop = utf8Length (spelling (line.before ++ [comment]) ++ indentation) := by
  obtain ⟨ending, indentation, hblanks, hending⟩ := List.eq_append_cons_of_mem line.ended
  have hblank := line.blank
  rw [hblanks, List.forall_mem_append] at hblank
  have hchars : (metaLine line.attributes).toList ++ ending =
      '!' :: '!' :: '@' :: (' ' :: [';', ' '].intercalate
        (line.attributes.map fun entry => entry.text.toList) ++ ending) := by
    rw [toList_metaLine]
    rfl
  have hbody : '\n' ∉ ' ' :: [';', ' '].intercalate
      (line.attributes.map fun entry => entry.text.toList) ++ ending := by
    have hline := notMem_metaLine line.attributes
    simp only [toList_metaLine, List.mem_cons, List.mem_append, not_or] at hline ⊢
    exact ⟨hline.2.2.2, hending⟩
  have hheads := Token.heads_metaComment hbody (indentation ++ line.rest)
  rw [← hchars] at hheads
  have hread := Lexer.tokensAfter_of_heads hheads
  have htiled : Tiled line.behind := by
    have htiled := tiled_tokenize text
    rw [line.tokens] at htiled
    exact htiled.append_right
  refine ⟨⟨.metaComment, String.ofList ((metaLine line.attributes).toList ++ ending)⟩,
    '\n' :: indentation, rfl, ?_, ?_, List.cons_ne_nil _ _, hblank.2, ?_⟩
  · exact parseMetaComment_metaLine line.nonempty fun c hc =>
      isWhiteSpace_of_isBlank (hblank.1 c hc)
  · rw [List.cons_append, ← hread, String.toList_ofList, ← Lexer.tokensAfter_spelling htiled,
      line.written, hblanks]
    simp only [List.append_assoc, List.cons_append]
  · rw [stop, hblanks, spelling_append, spelling_cons, String.toList_ofList]
    simp only [spelling, List.flatMap_nil, List.append_nil, List.append_assoc]

/-- What stands in front of the end are the tokens in front of the line, a comment that is read as
the attributes, and blanks. -/
theorem exists_row {front back : List Token} (htokens : tokenize text = front ++ back)
    (hstop : utf8Length (spelling front) = line.stop) :
    ∃ comment row, front = line.before ++ comment :: row ∧ comment.kind = .metaComment ∧
      parseMetaComment comment.text = line.attributes.map WrittenAttribute.pair ∧
      ∀ t ∈ row, t.kind = .whitespace := by
  obtain ⟨comment, indentation, hkind, hread, hbehind, hne, hblank, hline⟩ := line.exists_comment
  have hsplit := line.tokens.symm.trans htokens
  rw [hbehind, ← List.singleton_append, ← List.append_assoc] at hsplit
  rw [hline, utf8Length_append] at hstop
  rcases List.append_eq_append_iff.mp hsplit with ⟨row, rfl, hrow⟩ | ⟨row, hrow, -⟩
  · refine ⟨comment, row, by simp, hkind, hread, fun t ht => ?_⟩
    have hspelling : spelling row ++ spelling back = indentation ++ line.rest := by
      rw [← spelling_append, ← hrow, Lexer.spelling_tokensAfter, List.drop_zero]
    rw [spelling_append, utf8Length_append, Nat.add_left_cancel_iff] at hstop
    obtain rfl := eq_of_utf8Length_eq hspelling hstop
    by_contra hother
    have hmem : t ∈ tokenize text := by
      rw [htokens]
      simp only [List.mem_append, ht, or_true, true_or]
    obtain ⟨rest, hheads⟩ := (tiled_tokenize text).heads_of_mem hmem
    obtain ⟨c, hc, hnot⟩ := hheads.exists_not_blank hother
    rw [hblank c (List.mem_flatMap.mpr ⟨t, ht, hc⟩)] at hnot
    cases hnot
  · have hpos := utf8Length_pos hne
    rw [hrow, spelling_append, utf8Length_append] at hstop
    omega

end MetaLine

end Ili
