import Ili.Layout.Options
import Ili.Proofs.Dict
import Ili.Proofs.Text.Pieces
import Mathlib.Data.Bool.AllAny
import Mathlib.Data.List.Nodup
import Mathlib.Data.List.Perm.Subperm

/-!
# The order of a configuration

The options of a layout are asked for by assignments, and of two that ask for the same option the
later one counts, even where the keys differ. So assignments may be permuted as long as any two that
dispute an option, by asking for it with different values, keep their order.
-/

namespace Ili

open scoped List

inductive LayoutOption where
  | tabSize | insertSpaces | trimFinalNewlines | insertFinalNewline
  deriving DecidableEq

inductive Setting where
  | tabSize (size : Nat)
  | insertSpaces (flag : Bool)
  | trimFinalNewlines (flag : Bool)
  | insertFinalNewline (flag : Bool)
  deriving DecidableEq

namespace Setting

def option : Setting → LayoutOption
  | tabSize _ => .tabSize
  | insertSpaces _ => .insertSpaces
  | trimFinalNewlines _ => .trimFinalNewlines
  | insertFinalNewline _ => .insertFinalNewline

def size? (value : String) : Option Setting :=
  match parseNumber? value with
  | some (size + 1) => some (tabSize (size + 1))
  | _ => none

def ofAssignment? (key value : String) : Option Setting :=
  match key with
  | "indent_style" =>
    match EditorConfig.foldCase value with
    | "space" => some (insertSpaces true)
    | "tab" => some (insertSpaces false)
    | _ => none
  | "indent_size" =>
    if EditorConfig.foldCase value = "tab" then some (insertSpaces false) else size? value
  | "tab_width" => size? value
  | "insert_final_newline" => (parseFlag? value).map insertFinalNewline
  | "trim_trailing_newlines" => (parseFlag? value).map trimFinalNewlines
  | _ => none

end Setting

namespace LayoutOptions

def set (options : LayoutOptions) : Setting → LayoutOptions
  | .tabSize size => { options with tabSize := size }
  | .insertSpaces flag => { options with insertSpaces := flag }
  | .trimFinalNewlines flag => { options with trimFinalNewlines := flag }
  | .insertFinalNewline flag => { options with insertFinalNewline := flag }

def get (options : LayoutOptions) : LayoutOption → Setting
  | .tabSize => .tabSize options.tabSize
  | .insertSpaces => .insertSpaces options.insertSpaces
  | .trimFinalNewlines => .trimFinalNewlines options.trimFinalNewlines
  | .insertFinalNewline => .insertFinalNewline options.insertFinalNewline

theorem eq_iff_get {options other : LayoutOptions} :
    options = other ↔ ∀ option, options.get option = other.get option := by
  refine ⟨fun h _ => by rw [h], fun h => ?_⟩
  obtain ⟨size, spaces, trim, final⟩ := options
  obtain ⟨size', spaces', trim', final'⟩ := other
  obtain rfl := Setting.tabSize.inj (h .tabSize)
  obtain rfl := Setting.insertSpaces.inj (h .insertSpaces)
  obtain rfl := Setting.trimFinalNewlines.inj (h .trimFinalNewlines)
  obtain rfl := Setting.insertFinalNewline.inj (h .insertFinalNewline)
  rfl

theorem get_set (options : LayoutOptions) (setting : Setting) (option : LayoutOption) :
    (options.set setting).get option =
      if setting.option = option then setting else options.get option := by
  cases setting <;> cases option <;> rfl

theorem apply_eq (options : LayoutOptions) (key value : String) :
    options.apply key value = ((Setting.ofAssignment? key value).map options.set).getD options := by
  have hresize : options.resize value = ((Setting.size? value).map options.set).getD options := by
    rw [resize, Setting.size?]
    rcases parseNumber? value with - | - | size <;> rfl
  rw [apply.eq_def, Setting.ofAssignment?.eq_def]
  split
  · split <;> simp_all [set]
  · split
    · rfl
    · exact hresize
  · exact hresize
  · cases parseFlag? value <;> rfl
  · cases parseFlag? value <;> rfl
  · simp_all

end LayoutOptions

def LayoutOption.keys : LayoutOption → List String
  | tabSize => ["indent_size", "tab_width"]
  | insertSpaces => ["indent_style", "indent_size"]
  | trimFinalNewlines => ["trim_trailing_newlines"]
  | insertFinalNewline => ["insert_final_newline"]

theorem Setting.key_mem_keys {key value : String} {setting : Setting}
    (h : ofAssignment? key value = some setting) : key ∈ setting.option.keys := by
  have hsize (h : size? value = some setting) : setting.option = .tabSize := by
    rw [size?] at h
    split at h
    · obtain rfl := Option.some.inj h
      rfl
    · cases h
  rw [ofAssignment?.eq_def] at h
  split at h
  · split at h
    · obtain rfl := Option.some.inj h
      decide
    · obtain rfl := Option.some.inj h
      decide
    · cases h
  · split at h
    · obtain rfl := Option.some.inj h
      decide
    · rw [hsize h]
      decide
  · rw [hsize h]
    decide
  · obtain ⟨flag, -, rfl⟩ := Option.map_eq_some_iff.mp h
    exact List.mem_singleton_self _
  · obtain ⟨flag, -, rfl⟩ := Option.map_eq_some_iff.mp h
    exact List.mem_singleton_self _
  · cases h

/-! ### Lines -/

/-- A line of a configuration that assigns a value to a key. -/
structure AssignmentLine where
  text : List Char
  oneLine : ∀ c ∈ text, (c == '\n') = false
  key : String
  value : String
  reads : EditorConfig.assignment? text = some (key, value)

namespace AssignmentLine

def textOf (lines : List AssignmentLine) : String :=
  String.ofList (['\n'].intercalate (lines.map text))

def setting? (line : AssignmentLine) : Option Setting :=
  Setting.ofAssignment? line.key line.value

def asks (option : LayoutOption) (line : AssignmentLine) : Bool :=
  line.setting?.any fun setting => setting.option == option

/-- The lines ask for an option with different values. -/
def Disputes (line other : AssignmentLine) : Prop :=
  ∃ setting ∈ line.setting?, ∃ setting' ∈ other.setting?,
    setting.option = setting'.option ∧ setting ≠ setting'

def options (lines : List AssignmentLine) : LayoutOptions :=
  LayoutOptions.ofConfig (EditorConfig.parse (textOf lines))

variable {lines others : List AssignmentLine} {line other : AssignmentLine}

theorem asks_iff {option : LayoutOption} :
    line.asks option = true ↔ ∃ setting ∈ line.setting?, setting.option = option := by
  simp [asks, Option.any_eq_true]

theorem Disputes.ne (h : line.Disputes other) : line ≠ other := by
  rintro rfl
  obtain ⟨setting, hsetting, setting', hsetting', -, hne⟩ := h
  exact hne (Option.some.inj (hsetting.symm.trans hsetting'))

theorem disputes_of_ne {option : LayoutOption} (hline : line.asks option = true)
    (hother : other.asks option = true) (hne : line.setting? ≠ other.setting?) :
    line.Disputes other := by
  obtain ⟨setting, hsetting, hoption⟩ := asks_iff.mp hline
  obtain ⟨setting', hsetting', hoption'⟩ := asks_iff.mp hother
  refine ⟨setting, hsetting, setting', hsetting', hoption.trans hoption'.symm, ?_⟩
  rintro rfl
  exact hne (hsetting.trans hsetting'.symm)

theorem entries_parse (hkeys : (lines.map key).Nodup) :
    (EditorConfig.parse (textOf lines)).values.entries =
      lines.map fun line => (line.key, line.value) := by
  have hread : (splitWhere (· == '\n') (textOf lines).toList).filterMap EditorConfig.assignment? =
      lines.map fun line => (line.key, line.value) := by
    by_cases hnil : lines = []
    · rw [hnil]
      rfl
    · have hlines : lines.map text ≠ [] := mt List.map_eq_nil_iff.mp hnil
      have hsplit : splitWhere (· == '\n') (['\n'].intercalate (lines.map text)) =
          lines.map text := by
        refine splitWhere_intercalate hlines (fun piece hpiece => ?_) rfl
        obtain ⟨line, -, rfl⟩ := List.mem_map.mp hpiece
        exact line.oneLine
      rw [textOf, String.toList_ofList, hsplit, List.filterMap_map]
      exact List.filterMap_eq_map_iff_forall_eq_some.mpr fun line _ => line.reads
  rw [EditorConfig.parse, hread]
  apply Dict.entries_ofList
  rwa [List.map_map]

theorem options_eq (hkeys : (lines.map key).Nodup) :
    options lines = lines.foldl (fun options line => options.apply line.key line.value)
      LayoutOptions.standard := by
  rw [options, LayoutOptions.ofConfig, entries_parse hkeys, List.foldl_map]

/-- Of the lines that ask for an option the last one counts. -/
theorem get_options (hkeys : (lines.map key).Nodup) (option : LayoutOption) :
    (options lines).get option =
      ((lines.filter (asks option)).getLast?.bind setting?).getD
        (LayoutOptions.standard.get option) := by
  rw [options_eq hkeys]
  clear hkeys
  induction lines using List.reverseRecOn with
  | nil => rfl
  | append_singleton lines last ih =>
    rw [List.foldl_concat, LayoutOptions.apply_eq, ← setting?.eq_def, List.filter_append]
    cases hsetting : last.setting? with
    | none =>
      have hasks : last.asks option = false := by rw [asks, hsetting]; rfl
      simpa [hasks] using ih
    | some setting =>
      have hasks : last.asks option = (setting.option == option) := by rw [asks, hsetting]; rfl
      rw [Option.map_some, Option.getD_some, LayoutOptions.get_set]
      split
      · next heq => simp [hasks, heq, hsetting]
      · next hne => simpa [hasks, hne] using ih

/-! ### Pairs of lines -/

/-- No more than two lines ask for an option. -/
theorem length_asks_le (hkeys : (lines.map key).Nodup) (option : LayoutOption) :
    (lines.filter (asks option)).length ≤ 2 := by
  have hsubset : (lines.filter (asks option)).map key ⊆ option.keys := by
    intro key hkey
    obtain ⟨line, hline, rfl⟩ := List.mem_map.mp hkey
    obtain ⟨setting, hsetting, rfl⟩ := asks_iff.mp (List.mem_filter.mp hline).2
    exact Setting.key_mem_keys hsetting
  have hnodup : ((lines.filter (asks option)).map key).Nodup :=
    hkeys.sublist (List.filter_sublist.map key)
  calc (lines.filter (asks option)).length
      = ((lines.filter (asks option)).map key).length := (List.length_map _).symm
    _ ≤ option.keys.length := (List.subperm_of_subset hnodup hsubset).length_le
    _ ≤ 2 := by cases option <;> decide

theorem pair_sublist_or (hline : line ∈ lines) (hother : other ∈ lines) (hne : line ≠ other) :
    [line, other] <+ lines ∨ [other, line] <+ lines := by
  obtain ⟨before, behind, rfl⟩ := List.append_of_mem hline
  rcases List.mem_append.mp hother with hbefore | hbehind
  · exact .inr ((List.singleton_sublist.mpr hbefore).append
      (List.singleton_sublist.mpr List.mem_cons_self))
  · have hrest := (List.mem_cons.mp hbehind).resolve_left hne.symm
    exact .inl (((List.singleton_sublist.mpr hrest).cons_cons line).trans
      (List.sublist_append_right ..))

theorem not_pair_sublist (hnodup : lines.Nodup) (h : [line, other] <+ lines) :
    ¬[other, line] <+ lines := by
  intro hback
  induction lines with
  | nil => cases h
  | cons first rest ih =>
    obtain ⟨hfirst, hrest⟩ := List.nodup_cons.mp hnodup
    rw [List.cons_sublist_cons'] at h hback
    rcases h with h | ⟨rfl, h⟩
    · rcases hback with hback | ⟨rfl, -⟩
      · exact ih hrest h hback
      · exact hfirst (h.subset (by simp))
    · rcases hback with hback | ⟨rfl, -⟩
      · exact hfirst (hback.subset (by simp))
      · exact hfirst (h.subset (by simp))

theorem pair_sublist_of_getLast? (hlast : lines.getLast? = some line) (hother : other ∈ lines)
    (hne : other ≠ line) : [other, line] <+ lines := by
  obtain ⟨before, rfl⟩ := List.getLast?_eq_some_iff.mp hlast
  have hbefore : other ∈ before :=
    (List.mem_append.mp hother).resolve_right fun hmem => hne (List.mem_singleton.mp hmem)
  exact (List.singleton_sublist.mpr hbefore).append (.refl _)

theorem get_of_pair (hkeys : (lines.map key).Nodup) (hpair : [line, other] <+ lines)
    {setting : Setting} (hline : line.asks setting.option = true)
    (hother : setting ∈ other.setting?) : (options lines).get setting.option = setting := by
  have hasks : other.asks setting.option = true := asks_iff.mpr ⟨setting, hother, rfl⟩
  have hall : [line, other] <+ lines.filter (asks setting.option) := by
    have hfilter := hpair.filter (asks setting.option)
    rwa [List.filter_cons_of_pos hline, List.filter_cons_of_pos hasks] at hfilter
  have hsame : [line, other] = lines.filter (asks setting.option) :=
    hall.eq_of_length_le (length_asks_le hkeys _)
  have hlast : [line, other].getLast? = some other := rfl
  rw [get_options hkeys, ← hsame, hlast, Option.bind_some, hother, Option.getD_some]

section Permuted

variable (hperm : lines.Perm others) (hkeys : (lines.map key).Nodup)

include hperm hkeys

theorem options_eq_of_order
    (horder : ∀ line ∈ lines, ∀ other ∈ lines, line.Disputes other →
      [line, other] <+ lines → [line, other] <+ others) :
    options lines = options others := by
  have hkeys' : (others.map key).Nodup := (hperm.map key).nodup_iff.mp hkeys
  refine LayoutOptions.eq_iff_get.mpr fun option => ?_
  rw [get_options hkeys, get_options hkeys']
  have hasks : (lines.filter (asks option)).Perm (others.filter (asks option)) :=
    hperm.filter _
  cases hline : (lines.filter (asks option)).getLast? with
  | none =>
    rw [List.getLast?_eq_none_iff] at hline
    rw [hline] at hasks
    rw [← hasks.nil_eq, List.getLast?_nil]
  | some line =>
    cases hother : (others.filter (asks option)).getLast? with
    | none =>
      rw [List.getLast?_eq_none_iff] at hother
      rw [hother] at hasks
      rw [hasks.eq_nil] at hline
      cases hline
    | some other =>
      have hmem := List.mem_of_getLast? hline
      have hmem' := List.mem_of_getLast? hother
      have hasksLine := (List.mem_filter.mp hmem).2
      have hasksOther := (List.mem_filter.mp hmem').2
      by_cases heq : line.setting? = other.setting?
      · rw [Option.bind_some, Option.bind_some, heq]
      · -- They dispute the option, but each is the last one to ask for it.
        have hdisputes : other.Disputes line := disputes_of_ne hasksOther hasksLine (Ne.symm heq)
        have hback : [other, line] <+ lines :=
          (pair_sublist_of_getLast? hline (hasks.mem_iff.mpr hmem') hdisputes.ne).trans
            List.filter_sublist
        have hforth : [line, other] <+ others :=
          (pair_sublist_of_getLast? hother (hasks.mem_iff.mp hmem) hdisputes.ne.symm).trans
            List.filter_sublist
        refine absurd (horder other (hback.subset (by simp)) line (hback.subset (by simp)) hdisputes
          hback) (not_pair_sublist (List.Nodup.of_map key hkeys') hforth)

theorem order_of_options_eq (heq : options lines = options others) (hdisputes : line.Disputes other)
    (horder : [line, other] <+ lines) : [line, other] <+ others := by
  have hkeys' : (others.map key).Nodup := (hperm.map key).nodup_iff.mp hkeys
  obtain ⟨setting, hsetting, setting', hsetting', hoption, hne⟩ := id hdisputes
  have hline : line.asks setting.option = true := asks_iff.mpr ⟨setting, hsetting, rfl⟩
  have hother : other.asks setting.option = true := asks_iff.mpr ⟨setting', hsetting', hoption.symm⟩
  refine (pair_sublist_or (hperm.mem_iff.mp (horder.subset (by simp)))
    (hperm.mem_iff.mp (horder.subset (by simp))) hdisputes.ne).resolve_right fun hback => ?_
  have hvalue := get_of_pair hkeys horder (hoption ▸ hline) hsetting'
  rw [heq, ← hoption, get_of_pair hkeys' hback hother hsetting] at hvalue
  exact hne hvalue

end Permuted

/-- **The order of a configuration matters only in disputes.** Lines with different keys may be
permuted without a change of the options just when any two that dispute an option keep their order.
Only a size of the indentation and a width of tabs can dispute one, or a style and a size of the
indentation. Of two that do the later one counts. -/
theorem options_eq_iff (hperm : lines.Perm others) (hkeys : (lines.map key).Nodup) :
    (options lines = options others ↔
      ∀ line ∈ lines, ∀ other ∈ lines, line.Disputes other →
        ([line, other] <+ lines ↔ [line, other] <+ others)) ∧
      (∀ line ∈ lines, ∀ other ∈ lines, line.Disputes other →
        (∀ named ∈ [line, other], named.key ∈ ["indent_size", "tab_width"]) ∨
          ∀ named ∈ [line, other], named.key ∈ ["indent_style", "indent_size"]) ∧
      ∀ line other, line.Disputes other → [line, other] <+ lines →
        ∀ setting ∈ other.setting?, (options lines).get setting.option = setting := by
  have hkeys' : (others.map key).Nodup := (hperm.map key).nodup_iff.mp hkeys
  refine ⟨⟨fun heq line hline other hother hdisputes => ?_, fun horder => ?_⟩,
    fun line hline other hother hdisputes => ?_,
    fun line other hdisputes hpair setting hsetting => ?_⟩
  · exact ⟨order_of_options_eq hperm hkeys heq hdisputes,
      order_of_options_eq hperm.symm hkeys' heq.symm hdisputes⟩
  · exact options_eq_of_order hperm hkeys fun line hline other hother hdisputes =>
      (horder line hline other hother hdisputes).mp
  · obtain ⟨setting, hsetting, setting', hsetting', hoption, -⟩ := id hdisputes
    have hkey : line.key ∈ setting.option.keys := Setting.key_mem_keys hsetting
    have hkey' : other.key ∈ setting.option.keys := hoption ▸ Setting.key_mem_keys hsetting'
    have hne : line.key ≠ other.key := fun heq =>
      hdisputes.ne (List.inj_on_of_nodup_map hkeys hline hother heq)
    have hboth {keys : List String} (h : line.key ∈ keys) (h' : other.key ∈ keys) :
        ∀ named ∈ [line, other], named.key ∈ keys :=
      List.forall_mem_cons.mpr ⟨h, List.forall_mem_singleton.mpr h'⟩
    cases hcase : setting.option <;> rw [hcase] at hkey hkey'
    case tabSize => exact .inl (hboth hkey hkey')
    case insertSpaces => exact .inr (hboth hkey hkey')
    case trimFinalNewlines | insertFinalNewline =>
      exact absurd ((List.mem_singleton.mp hkey).trans (List.mem_singleton.mp hkey').symm) hne
  · obtain ⟨asked, hasked, setting', hsetting', hoption, -⟩ := hdisputes
    obtain rfl := Option.some.inj (hsetting'.symm.trans hsetting)
    exact get_of_pair hkeys hpair (asks_iff.mpr ⟨asked, hasked, hoption⟩) hsetting

def tabWidthEight : AssignmentLine :=
  ⟨"tab_width = 8".toList, List.all_iff_forall_prop.mp (by decide), "tab_width", "8", by decide⟩

def indentSizeFour : AssignmentLine :=
  ⟨"indent_size = 4".toList, List.all_iff_forall_prop.mp (by decide), "indent_size", "4", by decide⟩

def indentStyleTab : AssignmentLine :=
  ⟨"Indent_Style = tab".toList, List.all_iff_forall_prop.mp (by decide), "indent_style", "tab",
    by decide⟩

theorem disputes_tabWidth_indentSize : tabWidthEight.Disputes indentSizeFour :=
  ⟨.tabSize 8, by decide, .tabSize 4, by decide, rfl, by decide⟩

/-- A style may be put in front of a width and a size that dispute the spaces per level, of which
the size counts. -/
theorem options_eq_iff_indentStyle :
    let lines := [tabWidthEight, indentStyleTab, indentSizeFour]
    let others := [indentStyleTab, tabWidthEight, indentSizeFour]
    lines.Perm others ∧ (lines.map key).Nodup ∧ options lines = options others ∧
      ([tabWidthEight, indentSizeFour] <+ lines ↔ [tabWidthEight, indentSizeFour] <+ others) ∧
      (options lines).get .tabSize = .tabSize 4 := by
  intro lines others
  have hperm : lines.Perm others := .swap ..
  have hkeys : (lines.map key).Nodup := by decide
  have hoptions : options lines = options others := by decide +kernel
  obtain ⟨hiff, -, hlater⟩ := options_eq_iff hperm hkeys
  have hpair : [tabWidthEight, indentSizeFour] <+ lines := .cons_cons _ (.cons _ (.refl _))
  exact ⟨hperm, hkeys, hoptions, hiff.mp hoptions tabWidthEight (by simp [lines]) indentSizeFour
    (by simp [lines]) disputes_tabWidth_indentSize,
    hlater tabWidthEight indentSizeFour disputes_tabWidth_indentSize hpair (.tabSize 4) (by decide)⟩

/-- A width and a size that differ may not change places. -/
theorem exists_options_ne_of_perm :
    ¬∀ lines others : List AssignmentLine, lines.Perm others → (lines.map key).Nodup →
      options lines = options others := by
  intro h
  have heq := h [tabWidthEight, indentSizeFour] [indentSizeFour, tabWidthEight] (.swap ..)
    (by decide)
  revert heq
  decide +kernel

end AssignmentLine

end Ili
