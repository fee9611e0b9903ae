import Ili.Proofs.Grammar.Bare
import Ili.Proofs.Layout.Words
import Mathlib.Data.List.Chain

/-!
# Where blanks and comments go

What stands in front of a visible token is put into the tree in one piece, and no later than the
first node that starts there. So no node begins with a blank or a comment, and none stands behind a
gap before the next visible token: a gap separates a token from all that stands in front of it. A
tree is thereby determined by its tokens and its bare tree.
-/

namespace Ili

namespace Leaf

def isTrivia (leaf : Leaf) : Bool :=
  leaf.isToken Kind.isTrivia

/-- No blank or comment stands directly behind a gap. -/
def Snug (leaves : List Leaf) : Prop :=
  leaves.IsChain fun leaf next => leaf = .gap → next.isTrivia = false

end Leaf

namespace Tree

def isTrivia : Tree → Bool
  | token t => t.kind.isTrivia
  | node _ _ => false

theorem isDropped_of_visible {keep : Kind → Bool} {tree : Tree} (h : tree.isTrivia = false) :
    tree.isDropped keep = false := by
  cases tree with
  | token t => exact Kind.isDropped_of_visible h
  | node kind children => rfl

mutual

/-- No node begins with a blank or a comment. -/
def Tidy : Tree → Prop
  | token _ => True
  | node _ children => (∀ tree ∈ children.head?, tree.isTrivia = false) ∧ TidyAll children

def TidyAll : List Tree → Prop
  | [] => True
  | tree :: rest => tree.Tidy ∧ TidyAll rest

end

theorem tidyAll_append {left right : List Tree} :
    TidyAll (left ++ right) ↔ TidyAll left ∧ TidyAll right := by
  induction left with
  | nil => simp [TidyAll]
  | cons tree rest ih => simp [TidyAll, ih, and_assoc]

theorem tidyAll_map_token (row : List Token) : TidyAll (row.map token) := by
  induction row with
  | nil => trivial
  | cons t rest ih => exact ⟨trivial, ih⟩

theorem leavesOf_append (left right : List Tree) :
    leavesOf (left ++ right) = leavesOf left ++ leavesOf right := by
  induction left with
  | nil => rfl
  | cons tree rest ih => rw [List.cons_append, leavesOf, leavesOf, ih, List.append_assoc]

theorem leavesOf_map_token (row : List Token) : leavesOf (row.map token) = row.map .token := by
  induction row with
  | nil => rfl
  | cons t rest ih => simp [leavesOf, leaves, ih]

theorem leaves_node (kind : Kind) {children : List Tree} (h : children ≠ []) :
    (node kind children).leaves = leavesOf children := by
  cases children with
  | nil => exact absurd rfl h
  | cons child rest => rfl

mutual

theorem leaves_ne_nil (tree : Tree) : tree.leaves ≠ [] := by
  match tree with
  | token t => exact List.cons_ne_nil _ _
  | node _ [] => exact List.cons_ne_nil _ _
  | node kind (child :: rest) =>
    rw [leaves_node kind (List.cons_ne_nil _ _)]
    exact leavesOf_ne_nil (List.cons_ne_nil child rest)

theorem leavesOf_ne_nil {row : List Tree} (h : row ≠ []) : leavesOf row ≠ [] := by
  match row with
  | [] => exact absurd rfl h
  | tree :: rest =>
    rw [leavesOf]
    exact fun hnil => leaves_ne_nil tree (List.append_eq_nil_iff.mp hnil).1

end

theorem head?_leavesOf (tree : Tree) (rest : List Tree) :
    (leavesOf (tree :: rest)).head? = tree.leaves.head? := by
  rw [leavesOf, List.head?_append_of_ne_nil _ (leaves_ne_nil tree)]

theorem Tidy.head_leaves {tree : Tree} (htidy : tree.Tidy) (h : tree.isTrivia = false) :
    ∀ leaf ∈ tree.leaves.head?, leaf.isTrivia = false := by
  match tree with
  | token t =>
    intro leaf hleaf
    obtain rfl := Option.some.inj hleaf
    exact h
  | node _ [] =>
    intro leaf hleaf
    obtain rfl := Option.some.inj hleaf
    rfl
  | node kind (child :: rest) =>
    rw [leaves_node kind (List.cons_ne_nil _ _), head?_leavesOf]
    exact Tidy.head_leaves htidy.2.1 (htidy.1 child rfl)

theorem TidyAll.head_leavesOf {row : List Tree} (htidy : TidyAll row)
    (h : ∀ tree ∈ row.head?, tree.isTrivia = false) :
    ∀ leaf ∈ (leavesOf row).head?, leaf.isTrivia = false := by
  cases row with
  | nil => simp [leavesOf]
  | cons tree rest =>
    rw [head?_leavesOf]
    exact htidy.1.head_leaves (h tree rfl)

end Tree

/-- Blanks and comments are put where they belong. The last two fields say when what is pending has
been put into the tree: not before the first tree is built, and at the latest with a gap. -/
structure Outcome.Places (outcome : Outcome) (input : Input) : Prop where
  snug : Leaf.Snug (Tree.leavesOf outcome.trees)
  tidy : Tree.TidyAll outcome.trees
  front : input.pending = [] → ∀ tree ∈ outcome.trees.head?, tree.isTrivia = false
  waits : outcome.trees = [] → outcome.rest.pending = input.pending
  settles : (Tree.leavesOf outcome.trees).getLast? = some .gap → outcome.rest.pending = []

namespace Outcome

theorem Places.none (input : Input) : (none input).Places input :=
  ⟨.nil, trivial, fun _ => by simp [Outcome.none], fun _ => rfl, fun h => by cases h⟩

theorem Places.andThen {outcome : Outcome} {input : Input} {step : Input → Outcome}
    (h : outcome.Places input) (hstep : (step outcome.rest).Places outcome.rest) :
    (outcome.andThen step).Places input := by
  have hleaves : Tree.leavesOf (outcome.andThen step).trees =
      Tree.leavesOf outcome.trees ++ Tree.leavesOf (step outcome.rest).trees :=
    Tree.leavesOf_append ..
  have htrees : (outcome.andThen step).trees = outcome.trees ++ (step outcome.rest).trees := rfl
  refine ⟨?_, Tree.tidyAll_append.mpr ⟨h.tidy, hstep.tidy⟩, ?_, ?_, ?_⟩
  · rw [hleaves]
    refine List.IsChain.append h.snug hstep.snug ?_
    rintro leaf hlast next hnext rfl
    exact hstep.tidy.head_leavesOf (hstep.front (h.settles hlast)) next hnext
  · intro hpending
    rw [htrees]
    cases hfirst : outcome.trees with
    | nil => exact hstep.front ((h.waits hfirst).trans hpending)
    | cons tree rest =>
      have hfront := h.front hpending
      rw [hfirst] at hfront
      exact hfront
  · intro hnil
    obtain ⟨hfirst, hsecond⟩ := List.append_eq_nil_iff.mp hnil
    exact (hstep.waits hsecond).trans (h.waits hfirst)
  · intro hlast
    rw [hleaves] at hlast
    by_cases hsecond : (step outcome.rest).trees = []
    · rw [hsecond, Tree.leavesOf, List.append_nil] at hlast
      exact (hstep.waits hsecond).trans (h.settles hlast)
    · rw [List.getLast?_append_of_ne_nil _ (Tree.leavesOf_ne_nil hsecond)] at hlast
      exact hstep.settles hlast

theorem Places.wrap {outcome : Outcome} {input : Input} (h : outcome.Places input)
    (hpending : input.pending = []) (kind : Kind) :
    Places { outcome with trees := [.node kind outcome.trees] } input := by
  have hleaves : Tree.leavesOf [.node kind outcome.trees] =
      (Tree.node kind outcome.trees).leaves := List.append_nil _
  refine ⟨?_, ⟨⟨h.front hpending, h.tidy⟩, trivial⟩, ?_,
    fun hnil => (List.cons_ne_nil _ _ hnil).elim, ?_⟩
  · rw [hleaves]
    cases htrees : outcome.trees with
    | nil => exact .singleton _
    | cons tree rest =>
      rw [Tree.leaves_node kind (List.cons_ne_nil _ _), ← htrees]
      exact h.snug
  · intro _ tree htree
    obtain rfl := Option.some.inj htree
    rfl
  · intro hlast
    rw [hleaves] at hlast
    by_cases htrees : outcome.trees = []
    · exact (h.waits htrees).trans hpending
    · rw [Tree.leaves_node kind htrees] at hlast
      exact h.settles hlast

end Outcome

theorem Leaf.snug_map_token (row : List Token) : Snug (row.map .token) := by
  induction row with
  | nil => exact .nil
  | cons t rest ih =>
    cases rest with
    | nil => exact .singleton _
    | cons other others =>
      refine .cons_cons (fun hgap => ?_) ih
      cases hgap

theorem Leaf.getLast?_map_token (row : List Token) :
    (row.map Leaf.token).getLast? ≠ some .gap := by
  rw [List.getLast?_map]
  cases row.getLast? <;> simp

namespace Rule

theorem places_of_tokens {trees : List Tree} {errors : List SyntaxError} {rest input : Input}
    (row : List Token) (htrees : trees = row.map .token)
    (hfront : input.pending = [] → ∀ token ∈ row.head?, token.kind.isTrivia = false)
    (hwaits : row = [] → rest.pending = input.pending) :
    Outcome.Places ⟨trees, errors, rest⟩ input := by
  subst htrees
  refine ⟨?_, Tree.tidyAll_map_token row, ?_, ?_, ?_⟩
  · rw [Tree.leavesOf_map_token]
    exact Leaf.snug_map_token row
  · intro hpending tree htree
    rw [List.head?_map] at htree
    obtain ⟨token, htoken, rfl⟩ := Option.map_eq_some_iff.mp htree
    exact hfront hpending token htoken
  · exact fun hnil => hwaits (List.map_eq_nil_iff.mp hnil)
  · intro hlast
    rw [Tree.leavesOf_map_token] at hlast
    exact absurd hlast (Leaf.getLast?_map_token row)

theorem pending_flushed (input : Input) : input.flushed.pending = [] := by
  obtain ⟨ahead, trailing, stop⟩ := input
  cases ahead <;> rfl

theorem places_runFlush (input : Input) : (runFlush input).Places input := by
  refine places_of_tokens input.pending rfl (fun hpending => ?_) (fun hnil => ?_)
  · rw [hpending]
    simp
  · rw [pending_flushed, hnil]

theorem places_runBump {rename : Token → Token} {input : Input} (h : input.Sorted)
    (hvisible : ∀ token : Token, token.kind.isTrivia = false →
      (rename token).kind.isTrivia = false) : (runBump rename input).Places input := by
  obtain ⟨ahead, trailing, stop⟩ := input
  cases ahead with
  | nil => exact places_runFlush _
  | cons lexeme rest =>
    refine places_of_tokens (lexeme.trivia ++ [rename lexeme.token]) (by simp) ?_ (by simp)
    intro hpending
    have htrivia : lexeme.trivia = [] := hpending
    rw [htrivia]
    rintro token htoken
    obtain rfl := Option.some.inj htoken
    exact hvisible _ (h.1 lexeme (by simp)).2

theorem treesOf_eq (taken : List Lexeme) :
    treesOf taken = (taken.flatMap Lexeme.tokens).map .token := by
  induction taken with
  | nil => rfl
  | cons lexeme rest ih =>
    rw [treesOf] at ih
    rw [treesOf, List.flatMap_cons, ih, List.flatMap_cons, List.map_append, Lexeme.tokens,
      List.map_append]
    rfl

theorem places_runBalancedTo (stops : List Kind) {input : Input} (h : input.Sorted) :
    (runBalancedTo stops input).Places input := by
  have hsplit := splitBalanced_append stops 0 input.ahead
  refine places_of_tokens _ (treesOf_eq _) ?_ ?_
  · intro hpending token htoken
    cases htaken : (splitBalanced stops 0 input.ahead).1 with
    | nil => simp [htaken] at htoken
    | cons lexeme rest =>
      rw [htaken, List.cons_append] at hsplit
      have htrivia : lexeme.trivia = [] := by
        rw [Input.pending, ← hsplit] at hpending
        exact hpending
      rw [htaken, List.flatMap_cons, Lexeme.tokens, htrivia] at htoken
      obtain rfl := Option.some.inj htoken
      exact (h.1 lexeme (by rw [← hsplit]; exact List.mem_cons_self)).2
  · intro hnil
    have htaken : (splitBalanced stops 0 input.ahead).1 = [] := by
      cases htaken : (splitBalanced stops 0 input.ahead).1 with
      | nil => rfl
      | cons lexeme rest => simp [htaken, Lexeme.tokens] at hnil
    rw [htaken, List.nil_append] at hsplit
    simp only [Input.pending, hsplit]

theorem places_runNode (kind : Kind) {step : Input → Outcome} {input : Input}
    (hstep : (step input.flushed).Places input.flushed) : (runNode kind step input).Places input :=
  (places_runFlush input).andThen (hstep.wrap (pending_flushed input) kind)

theorem places_runExtendAs (kind : Kind) {first second : Input → Outcome} (guard : Guard)
    {input : Input} (hfirst : (first input.flushed).Places input.flushed)
    (hsecond : (second (first input.flushed).rest).Places (first input.flushed).rest) :
    (runExtendAs kind first guard second input).Places input := by
  refine (places_runFlush input).andThen ?_
  dsimp only
  split
  · exact (hfirst.andThen hsecond).wrap (pending_flushed input) kind
  · exact hfirst

theorem places_runMany {guard : Guard} {step : Input → Outcome}
    (htakes : ∀ input : Input, input.Sorted → (step input).Takes input)
    (hstep : ∀ input : Input, input.Sorted → (step input).Places input) (bound : Nat)
    {input : Input} (h : input.Sorted) : (runMany guard step bound input).Places input := by
  induction bound generalizing input with
  | zero => exact Outcome.Places.none input
  | succ bound ih =>
    rw [runMany]
    split
    · exact (hstep input h).andThen (ih (htakes input h).sorted)
    · exact Outcome.Places.none input

/-- Every rule puts blanks and comments where they belong. -/
theorem places_runWith {nested : Input → Outcome}
    (htakes : ∀ input : Input, input.Sorted → (nested input).Takes input)
    (hnested : ∀ input : Input, input.Sorted → (nested input).Places input)
    (rule : Rule) (hrule : rule.renamesToIdent = true) {input : Input} (h : input.Sorted) :
    (rule.runWith nested input).Places input := by
  induction rule generalizing input with
  | skip => exact Outcome.Places.none input
  | bump => exact places_runBump h fun _ hvisible => hvisible
  | bumpAs kind =>
    obtain rfl : kind = .ident := by simpa [renamesToIdent] using hrule
    exact places_runBump h fun _ _ => rfl
  | flush => exact places_runFlush input
  | report problem =>
    exact ⟨.nil, trivial, fun _ => by simp [runWith], fun _ => rfl, fun h => by cases h⟩
  | seq first second ihFirst ihSecond =>
    simp only [renamesToIdent, Bool.and_eq_true] at hrule
    exact (ihFirst hrule.1 h).andThen
      (ihSecond hrule.2 (takes_runWith htakes first hrule.1 h).sorted)
  | choose guard yes no ihYes ihNo =>
    simp only [renamesToIdent, Bool.and_eq_true] at hrule
    simp only [runWith]
    split
    · exact ihYes hrule.1 h
    · exact ihNo hrule.2 h
  | many guard body ih =>
    exact places_runMany (fun _ hother => takes_runWith htakes body hrule hother)
      (fun _ hother => ih hrule hother) _ h
  | balancedTo stops => exact places_runBalancedTo stops h
  | node kind body ih => exact places_runNode kind (ih hrule (Input.sorted_flushed h))
  | extendAs kind first guard second ihFirst ihSecond =>
    simp only [renamesToIdent, Bool.and_eq_true] at hrule
    have hsorted := Input.sorted_flushed h
    exact places_runExtendAs kind guard (ihFirst hrule.1 hsorted)
      (ihSecond hrule.2 (takes_runWith htakes first hrule.1 hsorted).sorted)
  | nested => exact hnested input h

theorem places_runNested {inner : Rule} (hinner : inner.renamesToIdent = true) (depth : Nat)
    {input : Input} (h : input.Sorted) : (runNested inner depth input).Places input := by
  induction depth generalizing input with
  | zero => exact Outcome.Places.none input
  | succ depth ih =>
    exact places_runWith (fun _ hother => takes_runNested hinner depth hother)
      (fun _ hother => ih hother) inner hinner h

end Rule

theorem places_parse (text : String) :
    Leaf.Snug (Tree.leavesOf (parse text).tree.children) ∧
      Tree.TidyAll (parse text).tree.children := by
  have hrun := Rule.places_runWith
    (Grammar.takes_nested (Input.ofText text).ahead.length)
    (fun _ hother => Rule.places_runNested Grammar.renamesToIdent_enumType _ hother)
    Grammar.file Grammar.renamesToIdent_file (Input.sorted_ofText text)
  exact ⟨hrun.snug, hrun.tidy⟩

namespace Leaf

def rewrite (f : String → String) : Leaf → Leaf
  | token t => token (t.rewrite f)
  | gap => gap

def isDropped (keep : Kind → Bool) (leaf : Leaf) : Bool :=
  leaf.isToken (Kind.isDropped keep)

def bare (keep : Kind → Bool) (f : String → String) (leaves : List Leaf) : List Leaf :=
  (leaves.filter fun leaf => !leaf.isDropped keep).map (rewrite f)

theorem bare_append (keep : Kind → Bool) (f : String → String) (left right : List Leaf) :
    bare keep f (left ++ right) = bare keep f left ++ bare keep f right := by
  rw [bare, List.filter_append, List.map_append]
  rfl

end Leaf

namespace Tree

section Bare

variable (keep : Kind → Bool) (f : String → String)

mutual

theorem leaves_bare {tree : Tree} (htidy : tree.Tidy) (h : tree.isDropped keep = false) :
    (tree.bare keep f).leaves = Leaf.bare keep f tree.leaves := by
  match tree with
  | token t =>
    have hkept : (Leaf.token t).isDropped keep = false := h
    simp [bare, leaves, Leaf.bare, hkept, Leaf.rewrite]
  | node _ [] => rfl
  | node kind (child :: rest) =>
    have hne : bareOf keep f (child :: rest) ≠ [] := by
      rw [bareOf, if_neg (by
        rw [isDropped_of_visible (htidy.1 child rfl)]
        exact Bool.false_ne_true)]
      exact List.cons_ne_nil _ _
    rw [bare, leaves_node kind hne, leaves_node kind (List.cons_ne_nil _ _)]
    exact leavesOf_bareOf htidy.2

theorem leavesOf_bareOf {row : List Tree} (htidy : TidyAll row) :
    leavesOf (bareOf keep f row) = Leaf.bare keep f (leavesOf row) := by
  match row with
  | [] => rfl
  | tree :: rest =>
    rw [bareOf, leavesOf, Leaf.bare_append, ← leavesOf_bareOf htidy.2]
    split
    · next hdropped =>
      cases tree with
      | token t =>
        have hdrop : (Leaf.token t).isDropped keep = true := hdropped
        simp [leaves, Leaf.bare, hdrop]
      | node kind children => cases hdropped
    · next hnot => rw [leavesOf, leaves_bare htidy.1 (Bool.eq_false_iff.mpr hnot)]

end

end Bare

end Tree

end Ili
