import Ili.Tree.Basic
import Mathlib.Computability.Language
import Mathlib.Order.CompletePartialOrder

/-!
# Shapes of rows

Productions describe what a node holds, blanks and comments aside, by regular expressions over the
kinds of trees. Here these are data, each with its language, and a row is matched against one by
derivatives. Whether one shape admits no more than another is decided by comparing them part by
part; this misses some inclusions, but it is enough for shapes that are written alike.

In some places more is taken than is documented, and nobody complains. A shape says so where it
happens: its rows are those documented, and its lapses are the rows that pass all the same.
-/

namespace Ili

open Computability

/-- The text of a token, or the visible tokens of a node with nothing in between. -/
def Tree.spelled : Tree → String
  | .token t => t.text
  | .node _ children =>
    String.join (((Tree.tokensOf children).filter fun t => !t.kind.isTrivia).map Token.text)

/-- A regular expression over the trees of a row. -/
inductive Shape where
  | empty
  /-- A single tree of one of these kinds; if words are given, it is spelled like one of them. -/
  | one (kinds : List Kind) (words : Option (List String))
  | seq (first second : Shape)
  | alt (left right : Shape)
  | many (body : Shape)
  /-- One or more tokens of any kind. -/
  | tokens
  | anything
  /-- Rows of the first shape are documented, but rows of the second are taken. -/
  | lenient (documented taken : Shape)
  deriving DecidableEq, Repr

namespace Shape

def atom (kinds : List Kind) (words : Option (List String)) : Language Tree :=
  {row | ∃ tree : Tree, row = [tree] ∧ tree.kind ∈ kinds ∧ ∀ texts ∈ words, tree.spelled ∈ texts}

theorem atom_mono {kinds others : List Kind} {words texts : Option (List String)}
    (hkinds : kinds ⊆ others) (hwords : texts = none ∨ texts = words) :
    atom kinds words ≤ atom others texts := by
  rintro row ⟨tree, rfl, hkind, htext⟩
  refine ⟨tree, rfl, hkinds hkind, ?_⟩
  rcases hwords with rfl | rfl
  · exact nofun
  · exact htext

/-- The rows that have the shape as it is documented. -/
def language : Shape → Language Tree
  | empty => 1
  | one kinds words => atom kinds words
  | seq first second => first.language * second.language
  | alt left right => left.language + right.language
  | many body => body.language∗
  | tokens => {row | row ≠ [] ∧ ∃ taken : List Token, row = taken.map .token}
  | anything => (Set.univ : Set (List Tree))
  | lenient documented _ => documented.language

/-! ### Composing shapes -/

def andThen : Shape → Shape → Shape
  | empty, last => last
  | seq first second, last => seq first (second.andThen last)
  | shape, empty => shape
  | shape, last => seq shape last

theorem language_andThen (shape last : Shape) :
    (shape.andThen last).language = shape.language * last.language := by
  induction shape with
  | empty => exact (one_mul _).symm
  | seq first second _ ih =>
    rw [andThen, language, ih, language, mul_assoc]
  | one | alt | many | tokens | anything | lenient =>
    cases last with
    | empty => exact (mul_one _).symm
    | _ => rfl

def orElse (left right : Shape) : Shape :=
  match left, right with
  | one kinds none, one others none => one (kinds ++ others) none
  | left, right => if left = right then left else alt left right

theorem language_orElse (left right : Shape) :
    (left.orElse right).language = left.language + right.language := by
  unfold orElse
  split
  · next kinds others =>
    apply le_antisymm
    · rintro row ⟨tree, rfl, hkind, htext⟩
      exact (List.mem_append.mp hkind).imp (⟨tree, rfl, ·, htext⟩) (⟨tree, rfl, ·, htext⟩)
    · exact add_le (atom_mono (List.subset_append_left ..) (.inl rfl))
        (atom_mono (List.subset_append_right ..) (.inl rfl))
  · split
    · next heq => rw [heq, Language.add_self]
    · rfl

def row (shapes : List Shape) : Shape :=
  shapes.foldr andThen empty

def single (kind : Kind) : Shape :=
  one [kind] none

def optional (shape : Shape) : Shape :=
  alt shape empty

/-- A part that cannot be left out, though its absence goes unnoticed. -/
def due (part : Shape) : Shape :=
  lenient part (optional part)

def separated (separator : Kind) (shape : Shape) : Shape :=
  shape.andThen (many ((single separator).andThen shape))

/-! ### Matching rows -/

def nullable : Shape → Bool
  | empty | many _ | anything => true
  | one _ _ | tokens => false
  | seq first second => first.nullable && second.nullable
  | alt left right => left.nullable || right.nullable
  | lenient documented _ => documented.nullable

theorem nil_mem_iff (shape : Shape) : [] ∈ shape.language ↔ shape.nullable = true := by
  induction shape with
  | empty => exact iff_of_true Language.nil_mem_one rfl
  | one kinds words => exact iff_of_false (by rintro ⟨tree, htree, -⟩; cases htree) nofun
  | seq first second ihFirst ihSecond =>
    rw [nullable, Bool.and_eq_true, ← ihFirst, ← ihSecond, language, Language.mem_mul]
    constructor
    · rintro ⟨left, hleft, right, hright, hnil⟩
      obtain ⟨rfl, rfl⟩ := List.append_eq_nil_iff.mp hnil
      exact ⟨hleft, hright⟩
    · exact fun h => ⟨[], h.1, [], h.2, rfl⟩
  | alt left right ihLeft ihRight =>
    rw [nullable, Bool.or_eq_true, ← ihLeft, ← ihRight, language, Language.mem_add]
  | many body => exact iff_of_true (Language.nil_mem_kstar _) rfl
  | tokens => exact iff_of_false (fun h => h.1 rfl) nofun
  | anything => exact iff_of_true trivial rfl
  | lenient documented taken ih => exact ih

def never : Shape :=
  one [] none

theorem notMem_never (row : List Tree) : row ∉ never.language := by
  rintro ⟨tree, -, hkind, -⟩
  cases hkind

def behind (tree : Tree) : Shape → Shape
  | empty => never
  | one kinds words =>
    if tree.kind ∈ kinds ∧ ∀ texts ∈ words, tree.spelled ∈ texts then empty else never
  | seq first second =>
    let later := seq (first.behind tree) second
    if first.nullable then alt later (second.behind tree) else later
  | alt left right => alt (left.behind tree) (right.behind tree)
  | many body => seq (body.behind tree) (many body)
  | tokens =>
    match tree with
    | .token _ => optional tokens
    | .node _ _ => never
  | anything => anything
  | lenient documented _ => documented.behind tree

theorem cons_mem_mul {first second after : Language Tree} {tree : Tree} {row : List Tree}
    (hafter : ∀ rest : List Tree, tree :: rest ∈ first ↔ rest ∈ after) :
    tree :: row ∈ first * second ↔ row ∈ after * second ∨ [] ∈ first ∧ tree :: row ∈ second := by
  rw [Language.mem_mul, Language.mem_mul]
  constructor
  · rintro ⟨left, hleft, right, hright, happend⟩
    cases left with
    | nil => exact .inr ⟨hleft, happend ▸ hright⟩
    | cons other rest =>
      obtain ⟨rfl, rfl⟩ := List.cons.inj happend
      exact .inl ⟨rest, (hafter rest).mp hleft, right, hright, rfl⟩
  · rintro (⟨left, hleft, right, hright, rfl⟩ | ⟨hnil, hrow⟩)
    · exact ⟨tree :: left, (hafter left).mpr hleft, right, hright, rfl⟩
    · exact ⟨[], hnil, tree :: row, hrow, rfl⟩

theorem cons_mem_kstar {body after : Language Tree} {tree : Tree} {row : List Tree}
    (hafter : ∀ rest : List Tree, tree :: rest ∈ body ↔ rest ∈ after) :
    tree :: row ∈ body∗ ↔ row ∈ after * body∗ := by
  rw [Language.mem_mul]
  constructor
  · intro hrow
    obtain ⟨parts, hflatten, hparts⟩ := Language.mem_kstar_iff_exists_nonempty.mp hrow
    cases parts with
    | nil => cases hflatten
    | cons part others =>
      obtain ⟨hpart, hne⟩ := hparts part List.mem_cons_self
      obtain ⟨other, rest, rfl⟩ := List.exists_cons_of_ne_nil hne
      obtain ⟨rfl, rfl⟩ := List.cons.inj hflatten
      exact ⟨rest, (hafter rest).mp hpart, others.flatten, Language.mem_kstar.mpr
        ⟨others, rfl, fun other hother => (hparts other (List.mem_cons_of_mem _ hother)).1⟩, rfl⟩
  · rintro ⟨rest, hrest, others, hothers, rfl⟩
    obtain ⟨parts, rfl, hparts⟩ := Language.mem_kstar.mp hothers
    refine Language.mem_kstar.mpr ⟨(tree :: rest) :: parts, rfl, ?_⟩
    intro part hpart
    rcases List.mem_cons.mp hpart with rfl | hpart
    · exact (hafter rest).mpr hrest
    · exact hparts part hpart

theorem cons_mem_iff (shape : Shape) (tree : Tree) (row : List Tree) :
    tree :: row ∈ shape.language ↔ row ∈ (shape.behind tree).language := by
  induction shape generalizing row with
  | empty => exact iff_of_false (List.cons_ne_nil _ _) (notMem_never row)
  | one kinds words =>
    rw [behind]
    split
    · next hfits =>
      refine Iff.trans ⟨?_, ?_⟩ (Set.mem_singleton_iff (a := row) (b := [])).symm
      · rintro ⟨other, heq, -⟩
        exact (List.cons.inj heq).2
      · rintro rfl
        exact ⟨tree, rfl, hfits⟩
    · next hfits =>
      refine iff_of_false ?_ (notMem_never row)
      rintro ⟨other, heq, hother⟩
      obtain ⟨rfl, -⟩ := List.cons.inj heq
      exact hfits hother
  | seq first second ihFirst ihSecond =>
    rw [language, cons_mem_mul ihFirst, behind, nil_mem_iff, ihSecond]
    by_cases hnil : first.nullable = true
    · simp only [hnil, if_true, true_and]
      exact (Language.mem_add _ _ _).symm
    · simp only [hnil, if_false, Bool.false_eq_true, false_and, or_false, language]
  | alt left right ihLeft ihRight =>
    exact or_congr (ihLeft row) (ihRight row)
  | many body ih => exact cons_mem_kstar ih
  | tokens =>
    cases tree with
    | token t =>
      refine Iff.trans (b := ∃ taken : List Token, row = taken.map .token) ⟨?_, ?_⟩ ?_
      · rintro ⟨-, taken, htaken⟩
        obtain ⟨other, rest, rfl, -, hrest⟩ := List.map_eq_cons_iff.mp htaken.symm
        exact ⟨rest, hrest.symm⟩
      · rintro ⟨taken, rfl⟩
        exact ⟨List.cons_ne_nil _ _, t :: taken, rfl⟩
      · constructor
        · intro htaken
          by_cases hrow : row = []
          · exact .inr hrow
          · exact .inl ⟨hrow, htaken⟩
        · rintro (⟨-, htaken⟩ | hrow)
          · exact htaken
          · exact ⟨[], hrow⟩
    | node kind children =>
      refine iff_of_false ?_ (notMem_never row)
      rintro ⟨-, taken, htaken⟩
      cases taken <;> cases htaken
  | anything => exact iff_of_true trivial trivial
  | lenient documented taken ih => exact ih row

def admits (shape : Shape) (row : List Tree) : Bool :=
  (row.foldl (fun left tree => left.behind tree) shape).nullable

theorem mem_language_iff (shape : Shape) (row : List Tree) :
    row ∈ shape.language ↔ shape.admits row = true := by
  induction row generalizing shape with
  | nil => exact shape.nil_mem_iff
  | cons tree row ih => exact (shape.cons_mem_iff tree row).trans (ih _)

instance (shape : Shape) (row : List Tree) : Decidable (row ∈ shape.language) :=
  decidable_of_iff _ (shape.mem_language_iff row).symm

/-! ### Comparing shapes -/

def alternatives : Shape → List Shape
  | alt left right => left.alternatives ++ right.alternatives
  | shape => [shape]

theorem le_of_mem_alternatives {shape other : Shape} (h : other ∈ shape.alternatives) :
    other.language ≤ shape.language := by
  induction shape with
  | alt left right ihLeft ihRight =>
    rcases List.mem_append.mp h with h | h
    · exact (ihLeft h).trans le_self_add
    · exact (ihRight h).trans le_add_self
  | _ => rw [List.mem_singleton.mp h]

def admitsOne (kinds : List Kind) (words : Option (List String)) : Shape → Bool
  | one others texts => kinds.all others.contains && (texts == none || texts == words)
  | seq first second => first.admitsOne kinds words && second.nullable
  | alt left right => left.admitsOne kinds words || right.admitsOne kinds words
  | anything => true
  | empty | many _ | tokens | lenient _ _ => false

theorem atom_le_of_admitsOne {kinds : List Kind} {words : Option (List String)} {shape : Shape}
    (h : shape.admitsOne kinds words = true) : atom kinds words ≤ shape.language := by
  induction shape with
  | one others texts =>
    simp only [admitsOne, Bool.and_eq_true, Bool.or_eq_true, beq_iff_eq, List.all_eq_true] at h
    exact atom_mono (fun kind hkind => List.contains_iff_mem.mp (h.1 kind hkind)) h.2
  | seq first second ihFirst =>
    obtain ⟨hfirst, hsecond⟩ := (Bool.and_eq_true _ _).mp h
    intro row hrow
    exact ⟨row, ihFirst hfirst hrow, [], second.nil_mem_iff.mpr hsecond, List.append_nil row⟩
  | alt left right ihLeft ihRight =>
    rcases (Bool.or_eq_true _ _).mp h with h | h
    · exact (ihLeft h).trans le_self_add
    · exact (ihRight h).trans le_add_self
  | anything => exact fun _ _ => trivial
  | empty | many | tokens | lenient => cases h

/-- The first shape admits no more than the second, as can be seen part by part. -/
def within : Shape → Shape → Bool
  | empty, other => other.nullable
  | one kinds words, other => other.admitsOne kinds words
  | seq first second, other => other.alternatives.any fun
    | seq left right => first.within left && second.within right
    | anything => true
    | _ => false
  | alt left right, other => left.within other && right.within other
  | many body, other => other.alternatives.any fun
    | many inner => body.within inner
    | anything => true
    | _ => false
  | tokens, other => other.alternatives.any fun choice => choice == tokens || choice == anything
  | anything, other => other.alternatives.contains anything
  | lenient documented _, other => documented.within other

theorem language_le_of_within {shape other : Shape} (h : shape.within other = true) :
    shape.language ≤ other.language := by
  induction shape generalizing other with
  | empty =>
    rintro row rfl
    exact other.nil_mem_iff.mpr h
  | one kinds words => exact atom_le_of_admitsOne h
  | seq first second ihFirst ihSecond =>
    obtain ⟨choice, hmem, hwithin⟩ := List.any_eq_true.mp h
    refine le_trans ?_ (le_of_mem_alternatives hmem)
    cases choice with
    | seq left right =>
      obtain ⟨hfirst, hsecond⟩ := (Bool.and_eq_true _ _).mp hwithin
      exact mul_le_mul' (ihFirst hfirst) (ihSecond hsecond)
    | anything => exact fun _ _ => trivial
    | _ => cases hwithin
  | alt left right ihLeft ihRight =>
    obtain ⟨hleft, hright⟩ := (Bool.and_eq_true _ _).mp h
    exact add_le (ihLeft hleft) (ihRight hright)
  | many body ih =>
    obtain ⟨choice, hmem, hwithin⟩ := List.any_eq_true.mp h
    refine le_trans ?_ (le_of_mem_alternatives hmem)
    cases choice with
    | many inner => exact kstar_mono (ih hwithin)
    | anything => exact fun _ _ => trivial
    | _ => cases hwithin
  | tokens =>
    obtain ⟨choice, hmem, hwithin⟩ := List.any_eq_true.mp h
    refine le_trans ?_ (le_of_mem_alternatives hmem)
    simp only [Bool.or_eq_true, beq_iff_eq] at hwithin
    rcases hwithin with rfl | rfl
    · exact le_rfl
    · exact fun _ _ => trivial
  | anything => exact le_of_mem_alternatives (List.contains_iff_mem.mp h)
  | lenient documented taken ih => exact ih h

/-! ### What is taken beyond the documented shape -/

/-- The shape as it is taken. In repetitions nothing is taken that is not documented. -/
def relaxed : Shape → Shape
  | lenient _ taken => taken
  | seq first second => seq first.relaxed second.relaxed
  | alt left right => alt left.relaxed right.relaxed
  | shape => shape

def isExact : Shape → Bool
  | lenient _ _ => false
  | seq first second => first.isExact && second.isExact
  | alt left right => left.isExact && right.isExact
  | _ => true

theorem relaxed_of_isExact {shape : Shape} (h : shape.isExact = true) : shape.relaxed = shape := by
  induction shape with
  | seq first second ihFirst ihSecond =>
    obtain ⟨hfirst, hsecond⟩ := (Bool.and_eq_true _ _).mp h
    rw [relaxed, ihFirst hfirst, ihSecond hsecond]
  | alt left right ihLeft ihRight =>
    obtain ⟨hleft, hright⟩ := (Bool.and_eq_true _ _).mp h
    rw [relaxed, ihLeft hleft, ihRight hright]
  | lenient => cases h
  | _ => rfl

/-- The rows that are taken though somewhere in them something stands that is not documented. -/
def lapses : Shape → Language Tree
  | lenient documented taken => {row | row ∈ taken.language ∧ row ∉ documented.language}
  | seq first second =>
    first.lapses * second.relaxed.language + first.relaxed.language * second.lapses
  | alt left right => left.lapses + right.lapses
  | _ => 0

theorem language_relaxed_le (shape : Shape) :
    shape.relaxed.language ≤ shape.language + shape.lapses := by
  induction shape with
  | seq first second ihFirst ihSecond =>
    rintro row ⟨left, hleft, right, hright, rfl⟩
    rcases ihFirst hleft with hfirst | hfirst
    · rcases ihSecond hright with hsecond | hsecond
      · exact .inl ⟨left, hfirst, right, hsecond, rfl⟩
      · exact .inr (.inr ⟨left, hleft, right, hsecond, rfl⟩)
    · exact .inr (.inl ⟨left, hfirst, right, hright, rfl⟩)
  | alt left right ihLeft ihRight =>
    rintro row (hrow | hrow)
    · exact (ihLeft hrow).imp .inl .inl
    · exact (ihRight hrow).imp .inr .inr
  | lenient documented taken =>
    intro row hrow
    by_cases hdocumented : row ∈ documented.language
    · exact .inl hdocumented
    · exact .inr ⟨hrow, hdocumented⟩
  | _ => exact le_self_add

end Shape

end Ili
