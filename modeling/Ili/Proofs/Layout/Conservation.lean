import Ili.Proofs.Layout.Kept
import Ili.Proofs.Grammar.Fullness

/-!
# What layout keeps of a text

Layout writes nothing but blanks between the tokens it prints, and the ending of a text concerns
line feeds only. So a formatted text shows the characters of the tokens found by attachment, in
their order, and it shows all characters of the text except those of comments that attachment does
not find. In a text without errors every node holds a visible token, there are no gaps, and nothing
is lost.
-/

namespace Ili

open scoped List

def solid (chars : List Char) : List Char :=
  chars.filter fun c => !Lexer.isBlank c

theorem solid_append (left right : List Char) : solid (left ++ right) = solid left ++ solid right :=
  List.filter_append ..

theorem solid_eq_nil_iff {chars : List Char} :
    solid chars = [] ↔ ∀ c ∈ chars, Lexer.isBlank c = true := by
  simp [solid, List.filter_eq_nil_iff]

theorem solid_reverse (chars : List Char) : solid chars.reverse = (solid chars).reverse :=
  List.filter_reverse

theorem solid_dropWhile {p : Char → Bool} (hp : ∀ c, p c = true → Lexer.isBlank c = true)
    (chars : List Char) : solid (chars.dropWhile p) = solid chars := by
  have hdropped : solid (chars.takeWhile p) = [] := by
    rw [solid_eq_nil_iff]
    intro c hc
    exact hp c (List.mem_takeWhile_imp hc)
  calc solid (chars.dropWhile p)
      = solid (chars.takeWhile p) ++ solid (chars.dropWhile p) := by rw [hdropped, List.nil_append]
    _ = solid chars := by rw [← solid_append, List.takeWhile_append_dropWhile]

theorem solid_spelling_cons (token : Token) (rest : List Token) :
    solid (spelling (token :: rest)) = solid token.text.toList ++ solid (spelling rest) := by
  rw [spelling_cons, solid_append]

theorem solid_spelling_append (left right : List Token) :
    solid (spelling (left ++ right)) = solid (spelling left) ++ solid (spelling right) := by
  rw [spelling_append, solid_append]

namespace LayoutOptions

theorem isBlank_of_mem_indent (options : LayoutOptions) (level : Nat) :
    ∀ c ∈ (options.indent level).toList, Lexer.isBlank c = true := by
  have hpushn {c d : Char} {count : Nat} (h : d ∈ ("".pushn c count).toList) : d = c := by
    induction count with
    | zero => simp [String.pushn, Nat.repeat] at h
    | succ count ih =>
      simp only [String.pushn, Nat.repeat, String.toList_push, List.mem_append,
        List.mem_singleton] at h ih
      exact h.elim ih id
  intro c hc
  rw [indent] at hc
  split at hc
  · rw [hpushn hc]
    rfl
  · rw [hpushn hc]
    rfl

end LayoutOptions

namespace Layout

theorem solid_separator (options : LayoutOptions) (separator : Separator) :
    solid (separator.text options).toList = [] := by
  have hindent (level : Nat) : solid (options.indent level).toList = [] :=
    solid_eq_nil_iff.mpr (options.isBlank_of_mem_indent level)
  cases separator with
  | tight => simp [Separator.text, solid]
  | space => simp [Separator.text, solid, Lexer.isBlank]
  | newline level =>
    rw [Separator.text, String.toList_append, solid_append, hindent]
    rfl
  | blankLine level =>
    rw [Separator.text, String.toList_append, solid_append, hindent]
    rfl

theorem toList_textOf_cons (options : LayoutOptions) (slot : Slot) (rest : List Slot) :
    (textOf options (slot :: rest)).toList =
      (slot.separator.text options).toList ++ slot.token.text.toList ++
        (textOf options rest).toList := by
  simp [textOf, String.toList_join]

theorem solid_textOf (options : LayoutOptions) (slots : List Slot) :
    solid (textOf options slots).toList = solid (spelling (slots.map Slot.token)) := by
  induction slots with
  | nil => rfl
  | cons slot rest ih =>
    rw [toList_textOf_cons, solid_append, solid_append, solid_separator, ih, List.map_cons,
      solid_spelling_cons]
    rfl

theorem solid_finish (options : LayoutOptions) (text : String) :
    solid (finish options text).toList = solid text.toList := by
  have hline : ∀ c : Char, (c == '\n') = true → Lexer.isBlank c = true := by
    intro c hc
    rw [eq_of_beq hc]
    rfl
  have htrimmed : solid (text.toList.reverse.dropWhile (· == '\n')).reverse =
      solid text.toList := by
    rw [solid_reverse, solid_dropWhile hline, solid_reverse, List.reverse_reverse]
  have hended (ended : String) : solid (ended ++ "\n").toList = solid ended.toList := by
    rw [String.toList_append, solid_append]
    exact List.append_nil _
  simp only [finish]
  split <;> split
  · rw [hended, String.toList_ofList, htrimmed]
  · rw [String.toList_ofList, htrimmed]
  · exact hended text
  · rfl

end Layout

theorem Tree.solid_format (tree : Tree) (options : LayoutOptions) :
    solid (tree.format options).toList = solid (spelling (Leaf.kept [] tree.leaves)) := by
  rw [← Layout.map_token_slotsOf, format]
  split
  · next hslots =>
    rw [hslots]
    rfl
  · rw [Layout.solid_finish, Layout.solid_textOf]

section Parsed

variable {text : String}

theorem Token.StandsFor.kind_eq_whitespace_iff {inTree inText : Token}
    (h : inTree.StandsFor inText) : inTree.kind = .whitespace ↔ inText.kind = .whitespace := by
  rcases h with rfl | ⟨rfl, hvisible⟩
  · rfl
  · constructor
    · intro hkind
      cases hkind
    · intro hkind
      rw [hkind] at hvisible
      cases hvisible

theorem solid_token_parse {token : Token} (h : token ∈ (parse text).tree.tokens) :
    solid token.text.toList = [] ↔ token.kind = .whitespace := by
  obtain ⟨inText, hmem, hstands⟩ := exists_standsFor h
  obtain ⟨rest, hheads⟩ := (tiled_tokenize text).heads_of_mem hmem
  rw [solid_eq_nil_iff, hstands.text_eq, hstands.kind_eq_whitespace_iff]
  constructor
  · intro hblank
    by_contra hkind
    obtain ⟨c, hc, hsolid⟩ := hheads.exists_not_blank hkind
    rw [hblank c hc] at hsolid
    cases hsolid
  · exact fun hkind => hheads.isBlank hkind

theorem mem_tokens_of_mem_printable {tree : Tree} {token : Token}
    (h : token ∈ Leaf.printable tree.leaves) :
    token ∈ tree.tokens ∧ token.kind ≠ .whitespace := by
  rw [Leaf.printable, List.mem_filter, tree.tokensOf_leaves] at h
  exact ⟨h.1, by simpa using h.2⟩

theorem solid_spelling_printable (text : String) :
    solid (spelling (Leaf.printable (parse text).tree.leaves)) = solid text.toList := by
  rw [← spelling_tokens_parse text, Leaf.printable, Tree.tokensOf_leaves]
  have hblank : ∀ token ∈ (parse text).tree.tokens, token.kind = .whitespace →
      solid token.text.toList = [] := fun token htoken hkind => (solid_token_parse htoken).mpr hkind
  revert hblank
  generalize (parse text).tree.tokens = tokens
  intro hblank
  induction tokens with
  | nil => rfl
  | cons token rest ih =>
    have hrest := ih fun other hother => hblank other (List.mem_cons_of_mem _ hother)
    by_cases hkind : token.kind = .whitespace
    · rw [List.filter_cons_of_neg (by simp [hkind]), hrest, solid_spelling_cons,
        hblank token List.mem_cons_self hkind, List.nil_append]
    · rw [List.filter_cons_of_pos (by simp [hkind]), solid_spelling_cons, solid_spelling_cons,
        hrest]

theorem solid_spelling_perm {left right : List Token} (h : left.Perm right) :
    (solid (spelling left)).length = (solid (spelling right)).length := by
  induction h with
  | nil => rfl
  | cons token _ ih => simp only [solid_spelling_cons, List.length_append, ih]
  | swap first second rest =>
    simp only [solid_spelling_cons, List.length_append]
    omega
  | trans _ _ ihLeft ihRight => rw [ihLeft, ihRight]

theorem lost_eq_nil_of_solid
    (h : solid (spelling (Leaf.lost [] (parse text).tree.leaves)) = []) :
    Leaf.lost [] (parse text).tree.leaves = [] := by
  have hperm := Leaf.perm_kept_append_lost [] (parse text).tree.leaves
  rw [List.nil_append] at hperm
  cases hlost : Leaf.lost [] (parse text).tree.leaves with
  | nil => rfl
  | cons token rest =>
    have hmem : token ∈ Leaf.printable (parse text).tree.leaves :=
      hperm.mem_iff.mpr (List.mem_append_right _ (by simp [hlost]))
    obtain ⟨htree, hkind⟩ := mem_tokens_of_mem_printable hmem
    rw [hlost, solid_spelling_cons, List.append_eq_nil_iff] at h
    exact absurd ((solid_token_parse htree).mp h.1) hkind

end Parsed

/-- Layout keeps every character that is not blank just when no comment is lost. -/
theorem solid_formatText_eq_iff (text : String) (options : LayoutOptions) :
    solid (formatText text options).toList = solid text.toList ↔
      Leaf.lost [] (parse text).tree.leaves = [] := by
  have hperm := Leaf.perm_kept_append_lost [] (parse text).tree.leaves
  rw [formatText, Tree.solid_format, ← solid_spelling_printable text]
  constructor
  · intro heq
    apply lost_eq_nil_of_solid
    have hlength := solid_spelling_perm hperm
    rw [List.nil_append, solid_spelling_append, List.length_append, heq] at hlength
    exact List.length_eq_zero_iff.mp (by omega)
  · intro hlost
    rw [Leaf.kept_eq_printable hlost, List.nil_append]

theorem Leaf.lost_eq_nil_of_no_gap {pending : List Token} {leaves : List Leaf}
    (h : Leaf.gap ∉ leaves) : lost pending leaves = [] := by
  induction leaves generalizing pending with
  | nil => rfl
  | cons leaf rest ih =>
    rw [List.mem_cons, not_or] at h
    cases leaf with
    | gap => exact absurd rfl h.1
    | token t =>
      rw [lost]
      split
      · exact ih h.2
      · split <;> exact ih h.2

mutual

theorem Tree.Full.no_gap {tree : Tree} (h : tree.Full) : Leaf.gap ∉ tree.leaves := by
  match tree with
  | .token t => simp [leaves]
  | .node kind [] => exact absurd rfl h.1
  | .node kind (child :: rest) =>
    rw [leaves, List.mem_append, not_or]
    exact ⟨Tree.Full.no_gap h.2.1, Tree.AllFull.no_gap h.2.2⟩

theorem Tree.AllFull.no_gap {row : List Tree} (h : Tree.AllFull row) :
    Leaf.gap ∉ Tree.leavesOf row := by
  match row with
  | [] => simp [leavesOf]
  | tree :: rest =>
    rw [leavesOf, List.mem_append, not_or]
    exact ⟨Tree.Full.no_gap h.1, Tree.AllFull.no_gap h.2⟩

end

theorem lost_eq_nil_of_ok {text : String} (hok : (parse text).errors = []) :
    Leaf.lost [] (parse text).tree.leaves = [] := by
  have hfull := allFull_parse hok
  have hroot : (parse text).tree = .node .sourceFile (parse text).tree.children := rfl
  rw [hroot]
  cases hchildren : (parse text).tree.children with
  | nil => rfl
  | cons child rest =>
    rw [hchildren] at hfull
    exact Leaf.lost_eq_nil_of_no_gap hfull.no_gap

/-- A formatted text shows the tokens found by attachment in their order. Those are all tokens but
blanks and lost comments, so every character that is not blank stays in its place just when no
comment is lost; without errors none is. -/
theorem formatText_conserves (text : String) (options : LayoutOptions) :
    let leaves := (parse text).tree.leaves
    solid (formatText text options).toList = solid (spelling (Leaf.kept [] leaves)) ∧
      (Leaf.kept [] leaves).Sublist (Leaf.printable leaves) ∧
      (Leaf.kept [] leaves ++ Leaf.lost [] leaves).Perm (Leaf.printable leaves) ∧
      (∀ token ∈ Leaf.lost [] leaves, token.kind.isComment = true) ∧
      (solid (formatText text options).toList = solid text.toList ↔ Leaf.lost [] leaves = []) ∧
      ((parse text).errors = [] → Leaf.lost [] leaves = []) :=
  ⟨(parse text).tree.solid_format options, Leaf.kept_sublist [] _,
    (Leaf.perm_kept_append_lost [] _).symm, Leaf.isComment_of_mem_lost (by simp),
    solid_formatText_eq_iff text options, lost_eq_nil_of_ok⟩

end Ili
