import Ili.Proofs.Grammar.BlockForm
import Ili.Proofs.Layout.Words

/-!
# Levels of indentation inside blocks

The level is a counter that is shifted from join to join. In the body of a block it comes back
every time: directly behind a member it is one deeper than the block, behind anything else it is
that of the block. What a join shifts there depends only on the kinds of its two sides, so this is a
matter of finitely many pairs of kinds.
-/

namespace Ili.Layout

/-- The depth that shifts lead to; none if they lead above zero on the way. -/
def Shift.follow? (depth : Nat) : List Shift → Option Nat
  | [] => some depth
  | .deeper :: rest => follow? (depth + 1) rest
  | .shallower :: rest =>
    match depth with
    | 0 => none
    | depth + 1 => follow? depth rest

theorem Shift.foldl_apply {shifts : List Shift} {depth reached : Nat}
    (h : follow? depth shifts = some reached) (level : Nat) :
    shifts.foldl Shift.apply (level + depth) = level + reached := by
  induction shifts generalizing depth with
  | nil => rw [List.foldl_nil, Option.some.inj h]
  | cons shift rest ih =>
    cases shift with
    | deeper => exact ih h
    | shallower =>
      cases depth with
      | zero => cases h
      | succ depth => exact ih h

/-! ### Rulings that depend on kinds -/

/-- What is asked for between children of these kinds, where it does not matter how many came
before. -/
def rulingAt (kind : Kind) (previous : Option Kind) (next : Kind) : Ruling :=
  rulingOf (rulesFor kind []) (previous.map fun kind => ⟨kind, 0⟩) ⟨next, 0⟩

theorem matchesJoin_of_ordinal {rule : Rule} (h : rule.ordinal = none) (previous : Option Neighbour)
    (next : Neighbour) :
    rule.matchesJoin previous next =
      rule.matchesJoin ((previous.map Neighbour.kind).map fun kind => ⟨kind, 0⟩)
        ⟨next.kind, 0⟩ := by
  cases previous <;> simp [Rule.matchesJoin, h]

theorem rulingOf_of_ordinal {rules : List Rule} (h : ∀ rule ∈ rules, rule.ordinal = none)
    (previous : Option Neighbour) (next : Neighbour) :
    rulingOf rules previous next =
      rulingOf rules ((previous.map Neighbour.kind).map fun kind => ⟨kind, 0⟩) ⟨next.kind, 0⟩ := by
  have hactive (side : Side) :
      (rules.filter fun rule => rule.side == side && rule.matchesJoin previous next) =
        rules.filter fun rule => rule.side == side &&
          rule.matchesJoin ((previous.map Neighbour.kind).map fun kind => ⟨kind, 0⟩)
            ⟨next.kind, 0⟩ :=
    List.filter_congr fun rule hrule => by rw [matchesJoin_of_ordinal (h rule hrule)]
  simp only [rulingOf, hactive]

/-- Nodes whose rules do not count children: the file and blocks. -/
def containers : List Kind :=
  .sourceFile :: Grammar.blocks

theorem rulesFor_container {kind : Kind} (h : kind ∈ containers) (children : List Skeleton) :
    rulesFor kind children = rulesFor kind [] ∧ ∀ rule ∈ rulesFor kind [], rule.ordinal = none := by
  simp only [containers, Grammar.blocks, List.mem_cons, List.not_mem_nil, or_false] at h
  rcases h with rfl | rfl | rfl | rfl | rfl <;> exact ⟨rfl, by decide⟩

theorem ruling_container {kind : Kind} (h : kind ∈ containers) (children : List Skeleton)
    (progress : Progress) {child : Skeleton} (hchild : child.kind ≠ .error) :
    progress.ruling (rulesFor kind children) child =
      rulingAt kind (progress.previous.map Neighbour.kind) child.kind := by
  obtain ⟨hrules, hordinal⟩ := rulesFor_container h children
  rw [Progress.ruling, if_neg (by simp [hchild]), hrules, rulingOf_of_ordinal hordinal]
  rfl

/-! ### The level behind a child -/

/-- How much deeper than its block the level is behind a child of this kind. -/
def depthBehind (kind : Kind) (previous : Option Kind) : Nat :=
  if previous.any (Grammar.bodyNodes kind).contains then 1 else 0

/-- The shifts at the join lead from the depth behind one child to that behind the next. -/
def balances (kind : Kind) (previous : Option Kind) (next : Kind) : Bool :=
  Shift.follow? (depthBehind kind previous) (rulingAt kind previous next).shifts ==
    some (depthBehind kind (some next))

def Balanced (kind : Kind) (previous : Option Kind) : List Kind → Prop
  | [] => True
  | next :: rest => balances kind previous next = true ∧ Balanced kind (some next) rest

theorem balanced_of_forall {kind : Kind} {left : List (Option Kind)} {right : List Kind}
    (h : ∀ previous ∈ left, ∀ next ∈ right, balances kind previous next = true)
    (hright : ∀ next ∈ right, some next ∈ left) {previous : Option Kind}
    (hprevious : previous ∈ left) {kinds : List Kind} (hkinds : ∀ next ∈ kinds, next ∈ right) :
    Balanced kind previous kinds := by
  induction kinds generalizing previous with
  | nil => trivial
  | cons next rest ih =>
    have hnext := hkinds next List.mem_cons_self
    exact ⟨h previous hprevious next hnext,
      ih (hright next hnext) fun other hother => hkinds other (List.mem_cons_of_mem _ hother)⟩

theorem balanced_append {kind : Kind} {previous : Option Kind} {left right : List Kind} :
    Balanced kind previous (left ++ right) ↔
      Balanced kind previous left ∧ Balanced kind (left.getLast?.or previous) right := by
  induction left generalizing previous with
  | nil => simp [Balanced]
  | cons next rest ih =>
    have hlast : (next :: rest).getLast?.or previous = rest.getLast?.or (some next) := by
      rw [List.getLast?_cons]
      cases rest.getLast? <;> rfl
    rw [List.cons_append, Balanced, Balanced, ih, hlast, and_assoc]

/-! ### Blocks -/

section Blocks

open Grammar

variable {kind : Kind}

def neighbours (kind : Kind) : List (List (Option Kind) × List Kind) :=
  let head := (Shape.row (blockHead kind)).kinds
  let body := bodyWords kind ++ bodyNodes kind
  let tail := (Shape.row (blockTail kind)).kinds
  [(none :: head.map some, head ++ [.eq]), (some .eq :: body.map some, body ++ [.endKw]),
    (some .endKw :: tail.map some, tail)]

theorem balances_of_mem (hkind : kind ∈ blocks) {left : List (Option Kind)} {right : List Kind}
    (h : (left, right) ∈ neighbours kind) :
    ∀ previous ∈ left, ∀ next ∈ right, balances kind previous next = true := by
  have hall : ∀ kind ∈ blocks, ∀ pair ∈ neighbours kind, ∀ previous ∈ pair.1, ∀ next ∈ pair.2,
      balances kind previous next = true := by decide +kernel
  exact hall kind hkind _ h

/-- In a block the level comes back behind every child. -/
theorem balanced_block (hkind : kind ∈ blocks) {head body tail : List Tree} {sign closing : Tree}
    (h : BlockForm kind head sign body closing tail) :
    Balanced kind none ((head ++ sign :: body ++ closing :: tail).map Tree.kind) := by
  set heads := (Shape.row (blockHead kind)).kinds with hheads
  set bodies := bodyWords kind ++ bodyNodes kind with hbodies
  set tails := (Shape.row (blockTail kind)).kinds with htails
  have hhead : ∀ previous ∈ none :: heads.map some, ∀ next ∈ heads ++ [.eq],
      balances kind previous next = true :=
    balances_of_mem hkind List.mem_cons_self
  have hbody : ∀ previous ∈ some .eq :: bodies.map some, ∀ next ∈ bodies ++ [.endKw],
      balances kind previous next = true :=
    balances_of_mem hkind (List.mem_cons_of_mem _ List.mem_cons_self)
  have htail : ∀ previous ∈ some .endKw :: tails.map some, ∀ next ∈ tails,
      balances kind previous next = true :=
    balances_of_mem hkind (List.mem_cons_of_mem _ (List.mem_cons_of_mem _ List.mem_cons_self))
  have hlast {first : Option Kind} {kinds : List Kind} {row : List Tree}
      (hrow : ∀ tree ∈ row, tree.kind ∈ kinds) :
      (row.map Tree.kind).getLast?.or first ∈ first :: kinds.map some := by
    cases hlast : (row.map Tree.kind).getLast? with
    | none => exact List.mem_cons_self
    | some last =>
      obtain ⟨tree, htree, rfl⟩ := List.mem_map.mp (List.mem_of_getLast? hlast)
      exact List.mem_cons_of_mem _ (List.mem_map_of_mem (hrow tree htree))
  have hsegment {first : Option Kind} {kinds : List Kind} {row : List Tree}
      (hkinds : ∀ previous ∈ first :: kinds.map some, ∀ next ∈ kinds,
        balances kind previous next = true) (hrow : ∀ tree ∈ row, tree.kind ∈ kinds) :
      Balanced kind first (row.map Tree.kind) :=
    balanced_of_forall hkinds (fun next hnext => List.mem_cons_of_mem _ (List.mem_map_of_mem hnext))
      List.mem_cons_self (List.forall_mem_map.mpr hrow)
  simp only [List.map_append, List.map_cons, h.sign, h.closing]
  refine balanced_append.mpr ⟨balanced_append.mpr ⟨?_, ?_, ?_⟩, ?_, ?_⟩
  · exact hsegment (fun p hp next hnext => hhead p hp next (List.mem_append_left _ hnext)) h.head
  · exact hhead _ (hlast h.head) _ (List.mem_append_right _ List.mem_cons_self)
  · exact hsegment (fun p hp next hnext => hbody p hp next (List.mem_append_left _ hnext)) h.body
  · have hprevious : ((head.map Tree.kind ++ .eq :: body.map Tree.kind).getLast?).or none =
        (body.map Tree.kind).getLast?.or (some .eq) := by
      rw [List.getLast?_append, List.getLast?_cons]
      cases (body.map Tree.kind).getLast? <;> rfl
    rw [hprevious]
    exact hbody _ (hlast h.body) _ (List.mem_append_right _ List.mem_cons_self)
  · exact hsegment htail h.tail

/-- The `END` of a class or an association stays on the line of the equals sign. -/
def closesInline (kind previous : Kind) : Bool :=
  (kind == .classDef || kind == .association) && previous == .eq

structure AsksFor (kind previous next : Kind) : Prop where
  node : next ∈ bodyNodes kind → breaksOf (rulingAt kind (some previous) next).insert ≠ 0
  word : next ∈ bodyWords kind → breaksOf (rulingAt kind (some previous) next).insert ≠ 0
  closing : next = .endKw → closesInline kind previous = false →
    breaksOf (rulingAt kind (some previous) next).insert ≠ 0
  inline : next = .endKw → closesInline kind previous = true →
    (rulingAt kind (some previous) next).insert = some .space

theorem asksFor_block (hkind : kind ∈ blocks) {previous : Kind}
    (hprevious : previous ∈ (production kind).kinds) (next : Kind) :
    AsksFor kind previous next := by
  have hnode : ∀ kind ∈ blocks, ∀ previous ∈ (production kind).kinds,
      ∀ next ∈ bodyWords kind ++ bodyNodes kind,
        breaksOf (rulingAt kind (some previous) next).insert ≠ 0 := by decide +kernel
  have hclosing : ∀ kind ∈ blocks, ∀ previous ∈ (production kind).kinds,
      if closesInline kind previous then
        (rulingAt kind (some previous) .endKw).insert = some .space
      else breaksOf (rulingAt kind (some previous) .endKw).insert ≠ 0 := by decide +kernel
  have hend := hclosing kind hkind previous hprevious
  refine ⟨fun h => ?_, fun h => ?_, ?_, ?_⟩
  · exact hnode kind hkind previous hprevious next (List.mem_append_right _ h)
  · exact hnode kind hkind previous hprevious next (List.mem_append_left _ h)
  · rintro rfl hinline
    rwa [if_neg (by simp [hinline])] at hend
  · rintro rfl hinline
    rwa [if_pos hinline] at hend

end Blocks

/-! ### Where the words of a skeleton stand -/

def Progress.advance (rules : List Rule) (progress : Progress) (child : Skeleton) : Progress :=
  let ruling := progress.ruling rules child
  progress.step ruling.insert (ruling.shifts.foldl Shift.apply progress.level) child none

theorem joinedAll_append (rules : List Rule) (progress : Progress) (left right : List Skeleton) :
    joinedAll rules progress (left ++ right) =
      joinedAll rules progress left ++
        joinedAll rules (left.foldl (Progress.advance rules) progress) right := by
  induction left generalizing progress with
  | nil => rfl
  | cons child rest ih => rw [List.cons_append, joinedAll, ih, joinedAll, List.append_assoc]; rfl

/-- Behind the children passed the level is that of the block, or one deeper. -/
theorem level_foldl_advance {kind : Kind} (hkind : kind ∈ containers) (whole : List Skeleton)
    {level : Nat} {progress : Progress}
    (hlevel : progress.level =
      level + depthBehind kind (progress.previous.map Neighbour.kind))
    {children : List Skeleton} (hchildren : ∀ child ∈ children, child.kind ≠ .error)
    (hbalanced : Balanced kind (progress.previous.map Neighbour.kind)
      (children.map Skeleton.kind)) :
    let passed := children.foldl (Progress.advance (rulesFor kind whole)) progress
    passed.level = level + depthBehind kind (passed.previous.map Neighbour.kind) ∧
      passed.previous.map Neighbour.kind =
        (children.map Skeleton.kind).getLast?.or (progress.previous.map Neighbour.kind) := by
  -- Of the progress only the level and the kind of the child passed last matter, and at every join
  -- the shifts lead from the one depth to the other.
  induction children generalizing progress with
  | nil => exact ⟨hlevel, rfl⟩
  | cons child rest ih =>
    obtain ⟨hfirst, hrest⟩ := hbalanced
    have hruling := ruling_container hkind whole progress (hchildren child List.mem_cons_self)
    have hnext : (progress.advance (rulesFor kind whole) child).level =
        level + depthBehind kind (some child.kind) := by
      rw [Progress.advance, hruling]
      exact hlevel ▸ Shift.foldl_apply (beq_iff_eq.mp hfirst) level
    obtain ⟨hpassed, hprevious⟩ := ih hnext
      (fun other hother => hchildren other (List.mem_cons_of_mem _ hother)) hrest
    refine ⟨hpassed, hprevious.trans ?_⟩
    rw [List.map_cons, List.getLast?_cons]
    cases (rest.map Skeleton.kind).getLast? <;> rfl

/-- In a row of words those of a skeleton that is printed at `level` stand behind `count` others;
the first of them is `first`. -/
def Stands (words : List JoinedWord) (count : Nat) (first : JoinedWord) (level : Nat)
    (skeleton : Skeleton) : Prop :=
  ∃ before after, words = before ++ first :: (joined level skeleton).tail ++ after ∧
    before.length = count

theorem joined_ne_nil (level : Nat) {skeleton : Skeleton} (h : skeleton.words ≠ []) :
    joined level skeleton ≠ [] := by
  intro hnil
  rw [← map_word_joined level skeleton, hnil] at h
  exact h rfl

theorem length_joinedAll (rules : List Rule) (progress : Progress) (children : List Skeleton) :
    (joinedAll rules progress children).length = (Skeleton.wordsOf children).length := by
  rw [← map_word_joinedAll rules progress children, List.length_map]

theorem joined_split (level : Nat) (kind : Kind) (left : List Skeleton) (child : Skeleton)
    (right : List Skeleton) :
    let rules := rulesFor kind (left ++ child :: right)
    let passed := left.foldl (Progress.advance rules) ⟨level, none, none, []⟩
    let ruling := passed.ruling rules child
    let inner := ruling.shifts.foldl Shift.apply passed.level
    joined level (.node kind (left ++ child :: right)) =
      joinedAll rules ⟨level, none, none, []⟩ left ++
        (reopen ruling.insert inner (joined inner child) ++
          joinedAll rules (passed.advance rules child) right) := by
  intro rules passed ruling inner
  rw [joined, joinedAll_append, joinedAll]
  rfl

theorem Stands.child {words : List JoinedWord} {count : Nat} {first : JoinedWord} {level : Nat}
    {kind : Kind} {left right : List Skeleton} {child : Skeleton} (hkind : kind ∈ containers)
    (h : Stands words count first level (.node kind (left ++ child :: right)))
    (herror : ∀ other ∈ left ++ child :: right, other.kind ≠ .error)
    (hbalanced : Balanced kind none ((left ++ child :: right).map Skeleton.kind))
    (hleft : Skeleton.wordsOf left ≠ []) (hchild : child.words ≠ []) :
    ∃ word, Stands words (count + (Skeleton.wordsOf left).length)
      ⟨(rulingAt kind (left.getLast?.map Skeleton.kind) child.kind).insert,
        level + depthBehind kind (some child.kind), word⟩
      (level + depthBehind kind (some child.kind)) child := by
  obtain ⟨before, after, rfl, rfl⟩ := h
  rw [List.map_append, List.map_cons, balanced_append] at hbalanced
  have hjoined := joined_split level kind left child right
  dsimp only at hjoined
  set rules := rulesFor kind (left ++ child :: right) with hrules
  set start : Progress := ⟨level, none, none, []⟩ with hstart
  have hatStart : start.level = level + depthBehind kind (start.previous.map Neighbour.kind) :=
    (Nat.add_zero level).symm
  obtain ⟨hpassed, hprevious⟩ := level_foldl_advance hkind (left ++ child :: right) hatStart
    (fun other hother => herror other (List.mem_append_left _ hother)) hbalanced.1
  have hruling := ruling_container hkind (left ++ child :: right)
    (left.foldl (Progress.advance rules) start) (herror child (by simp))
  have hlast : (left.map Skeleton.kind).getLast?.or none = left.getLast?.map Skeleton.kind := by
    rw [List.getLast?_map, Option.or_none]
  rw [← hrules, hstart, Option.map_none, hlast, ← hstart] at hprevious
  rw [← hrules, hprevious] at hpassed hruling
  have hshift := hbalanced.2.1
  rw [hlast] at hshift
  rw [hruling, hpassed, Shift.foldl_apply (beq_iff_eq.mp hshift) level] at hjoined
  have hlength := length_joinedAll rules start left
  obtain ⟨front, fronts, hfront⟩ := List.exists_cons_of_ne_nil (l := joinedAll rules start left) <|
    List.ne_nil_of_length_pos (hlength ▸ List.length_pos_iff.mpr hleft)
  obtain ⟨word, others, hword⟩ := List.exists_cons_of_ne_nil
    (joined_ne_nil (level + depthBehind kind (some child.kind)) hchild)
  rw [hfront, hword, reopen] at hjoined
  generalize joinedAll rules _ right = behind at hjoined
  refine ⟨word.word, before ++ first :: fronts, behind ++ after, ?_, ?_⟩
  · rw [hjoined, hword]
    simp only [List.append_assoc, List.cons_append, List.tail_cons]
  · rw [hfront, List.length_cons] at hlength
    rw [List.length_append, List.length_cons, hlength]

end Ili.Layout
