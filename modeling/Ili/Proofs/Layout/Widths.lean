import Ili.Layout.Render
import Ili.Proofs.Grammar.Begun

/-!
# Widths of indentations

A configuration may ask for any number of spaces per level that fits into sixty-four bits, and
enumerations nest as deep as their author likes. Still the width of an indentation never overflows.
Every child of a node is joined to what stands before it behind an indentation that is built for
this join, and no text is longer than `2 ^ 63 - 1` bytes. Levels are entered one by one, so where a
width would overflow, an indentation half as wide was due before and could not be built.
-/

namespace Ili

/-- The most bytes a text can have. A longer one cannot be built, and whoever asks for it stops. How
much less there is room for does not matter here: fewer levels are reached then. -/
def maxTextSize : Nat := Nat.pow 2 63 - 1

namespace LayoutOptions

/-- The product that is computed for the indentation of a level. Tabs are not counted in spaces. -/
def product? (options : LayoutOptions) (level : Nat) : Option Nat :=
  if options.insertSpaces then some (options.tabSize * level) else none

def width (options : LayoutOptions) (level : Nat) : Nat :=
  (options.product? level).getD level

/-- The indentation of a level can be built. -/
def Fits (options : LayoutOptions) (level : Nat) : Prop :=
  options.width level ≤ maxTextSize

instance (options : LayoutOptions) (level : Nat) : Decidable (options.Fits level) :=
  inferInstanceAs (Decidable (_ ≤ _))

variable {options : LayoutOptions} {level other : Nat}

theorem utf8ByteSize_pushn (text : String) (c : Char) (count : Nat) :
    (text.pushn c count).utf8ByteSize = text.utf8ByteSize + count * c.utf8Size := by
  induction count with
  | zero => simp [String.pushn, Nat.repeat]
  | succ count ih =>
    have hpush : text.pushn c (count + 1) = (text.pushn c count).push c := rfl
    rw [hpush, String.utf8ByteSize_push, ih, Nat.succ_mul, Nat.add_assoc]

theorem utf8ByteSize_indent (options : LayoutOptions) (level : Nat) :
    (options.indent level).utf8ByteSize = options.width level := by
  have hspace : ' '.utf8Size = 1 := by decide
  have htab : '\t'.utf8Size = 1 := by decide
  unfold indent width product?
  split
  · rw [utf8ByteSize_pushn, hspace]
    simp
  · rw [utf8ByteSize_pushn, htab]
    simp

theorem Fits.mono (h : options.Fits other) (hle : level ≤ other) : options.Fits level := by
  refine Nat.le_trans ?_ h
  unfold width product?
  split
  · exact Nat.mul_le_mul_left _ hle
  · exact hle

theorem fits_zero (options : LayoutOptions) : options.Fits 0 := by
  unfold Fits width product?
  split <;> simp

/-- Where the level before has been built, the product for a level does not overflow. -/
theorem product_lt (htab : options.tabSize < numberLimit) (h : options.Fits (level - 1)) :
    ∀ product ∈ options.product? level, product < numberLimit := by
  intro product hproduct
  unfold Fits width product? at *
  split at hproduct
  · next hspaces =>
    obtain rfl := Option.some.inj hproduct
    rw [if_pos hspaces, Option.getD_some] at h
    match level with
    | 0 => exact Nat.lt_of_lt_of_le (by decide : 0 < numberLimit) (by simp)
    | 1 => rwa [Nat.mul_one]
    | level + 2 =>
      have hbefore : options.tabSize * (level + 1) ≤ maxTextSize := h
      have hone : options.tabSize ≤ options.tabSize * (level + 1) :=
        Nat.le_mul_of_pos_right _ (Nat.succ_pos level)
      have hdouble : maxTextSize + maxTextSize < numberLimit := by decide
      rw [Nat.mul_succ]
      exact Nat.lt_of_le_of_lt (Nat.add_le_add hbefore (hone.trans hbefore)) hdouble
  · cases hproduct

theorem tabSize_resize_lt (h : options.tabSize < numberLimit) (value : String) :
    (options.resize value).tabSize < numberLimit := by
  unfold resize
  split
  · next hread => exact lt_of_parseNumber? hread
  · exact h

theorem tabSize_apply_lt (h : options.tabSize < numberLimit) (key value : String) :
    (options.apply key value).tabSize < numberLimit := by
  unfold apply
  split
  · split <;> exact h
  · split
    · exact h
    · exact tabSize_resize_lt h value
  · exact tabSize_resize_lt h value
  · split <;> exact h
  · split <;> exact h
  · exact h

theorem tabSize_ofConfig_lt (config : EditorConfig) : (ofConfig config).tabSize < numberLimit :=
  List.foldlRecOn (motive := fun options : LayoutOptions => options.tabSize < numberLimit)
    config.values.entries _ (by decide) fun _ h entry _ => tabSize_apply_lt h entry.1 entry.2

end LayoutOptions

namespace Layout

/-! ### Printing with indentations -/

/-- What is built with indentations: the levels whose indentation is asked for, in order, and the
result, unless the last of them could not be built. -/
structure Built (α : Type) where
  levels : List Nat
  result : Option α

namespace Built

variable {α β : Type}

def done (a : α) : Built α :=
  ⟨[], some a⟩

def andThen (built : Built α) (step : α → Built β) : Built β :=
  match built.result with
  | none => ⟨built.levels, none⟩
  | some a => ⟨built.levels ++ (step a).levels, (step a).result⟩

end Built

def buildIndent (options : LayoutOptions) (level : Nat) : Built Unit :=
  ⟨[level], if options.Fits level then some () else none⟩

def Progress.levelOf (progress : Progress) (rules : List Rule) (child : Skeleton) : Nat :=
  (progress.ruling rules child).shifts.foldl Shift.apply progress.level

mutual

/-- Prints a skeleton as `print` does and builds an indentation for every join, when the child that
is joined has been printed. -/
def build (options : LayoutOptions) (level : Nat) : Skeleton → Built (Option Part)
  | .word word => .done (some (.ofWord word))
  | .node kind children =>
    (buildAll options (rulesFor kind children) ⟨level, none, none, []⟩ children).andThen
      fun progress => .done progress.part

def buildAll (options : LayoutOptions) (rules : List Rule) (progress : Progress) :
    List Skeleton → Built Progress
  | [] => .done progress
  | child :: rest =>
    let level := progress.levelOf rules child
    (build options level child).andThen fun printed =>
      (buildIndent options level).andThen fun _ =>
        buildAll options rules
          (progress.step (progress.ruling rules child).insert level child printed) rest

end

/-- The layout of a text, with the indentations that are built on the way. The comments at the end
are joined without one. -/
def buildText (options : LayoutOptions) (text : String) : Built String :=
  let tree := (parse text).tree
  let body : Built (Option Part) :=
    match tree.skeleton? with
    | none => .done none
    | some skeleton => build options 0 skeleton
  body.andThen fun body =>
    let whole := tree.trailingComments.foldl
      (fun part comment => some (Part.joinTo part (.ofComment comment) none 0)) body
    .done <|
      match whole with
      | none => ""
      | some part => finish options (textOf options part.slots)

/-- The levels of indentation that are reached while a text is laid out. -/
def levelsReached (options : LayoutOptions) (text : String) : List Nat :=
  (buildText options text).levels

/-! ### One level at a time -/

def Rule.deepens (rule : Rule) : Bool :=
  rule.shift == some .deeper

/-- The rules do not both make what follows deeper at one join: they stand behind different kinds of
children. -/
def Rule.apart (rule other : Rule) : Bool :=
  !(rule.deepens && other.deepens) ||
    rule.side == .behind && other.side == .behind && !rule.kinds.any other.kinds.contains

theorem pairwise_apart_rulesFor (kind : Kind) (children : List Skeleton) :
    (rulesFor kind children).Pairwise fun rule other => rule.apart other = true := by
  unfold rulesFor
  split
  all_goals first | decide | (split <;> decide)

/-- Only the rules of a domain make deeper what they stand before. -/
theorem side_of_deepens {kind : Kind} (hkind : kind ≠ .domainDef) {children : List Skeleton} :
    ∀ rule ∈ rulesFor kind children, rule.deepens = true → rule.side = .behind := by
  unfold rulesFor
  split
  case h_8 => exact absurd rfl hkind
  all_goals first | decide | (split <;> decide)

theorem foldl_apply_le (shifts : List Shift) (level : Nat) :
    shifts.foldl Shift.apply level ≤ level + shifts.count .deeper := by
  induction shifts generalizing level with
  | nil => exact Nat.le_refl level
  | cons shift rest ih =>
    cases shift with
    | deeper =>
      have hrest : rest.foldl Shift.apply (level + 1) ≤ level + 1 + rest.count .deeper := ih _
      rw [List.count_cons_self]
      exact hrest.trans (by omega)
    | shallower =>
      have hrest : rest.foldl Shift.apply (level - 1) ≤ level - 1 + rest.count .deeper := ih _
      rw [List.count_cons_of_ne (by decide)]
      exact hrest.trans (by omega)

theorem count_deeper (rules : List Rule) (previous : Option Neighbour) (next : Neighbour) :
    (rulingOf rules previous next).shifts.count .deeper =
      rules.countP fun rule => rule.deepens && rule.matchesJoin previous next := by
  have hcount (rules : List Rule) :
      (rules.filterMap Rule.shift).count .deeper = rules.countP Rule.deepens := by
    rw [List.count, List.countP_filterMap]
    congr 1
    funext rule
    cases hshift : rule.shift <;> simp [Rule.deepens, hshift]
  rw [rulingOf, hcount, List.countP_append, List.countP_filter, List.countP_filter]
  clear hcount
  induction rules with
  | nil => rfl
  | cons rule rest ih =>
    simp only [List.countP_cons] at ih ⊢
    rw [← ih]
    cases hside : rule.side <;> simp <;> omega

theorem length_le_one {α : Type} {R : α → α → Prop} {row : List α} (h : row.Pairwise R)
    (hnot : ∀ a ∈ row, ∀ b ∈ row, ¬R a b) : row.length ≤ 1 := by
  match row with
  | [] | [_] => simp
  | a :: b :: _ =>
    exact absurd (List.rel_of_pairwise_cons h (by simp)) (hnot a (by simp) b (by simp))

theorem exists_mem_kinds {rule : Rule} {previous : Option Neighbour} {next : Neighbour}
    (hside : rule.side = .behind) (h : rule.matchesJoin previous next = true) :
    ∃ passed ∈ previous, passed.kind ∈ rule.kinds := by
  simp only [Rule.matchesJoin, hside, Bool.and_eq_true, Option.any_eq_true] at h
  obtain ⟨-, passed, hpassed, hkind, -⟩ := h
  exact ⟨passed, hpassed, List.contains_iff_mem.mp hkind⟩

/-- No join goes deeper by more than one level. -/
theorem count_deeper_le_one (kind : Kind) (children : List Skeleton) (previous : Option Neighbour)
    (next : Neighbour) :
    (rulingOf (rulesFor kind children) previous next).shifts.count .deeper ≤ 1 := by
  rw [count_deeper, List.countP_eq_length_filter]
  refine length_le_one ((pairwise_apart_rulesFor kind children).filter _) fun rule hrule other
    hother hapart => ?_
  obtain ⟨-, hrule⟩ := List.mem_filter.mp hrule
  obtain ⟨-, hother⟩ := List.mem_filter.mp hother
  rw [Bool.and_eq_true] at hrule hother
  simp only [Rule.apart, hrule.1, hother.1, Bool.and_self, Bool.not_true, Bool.false_or,
    Bool.and_eq_true, beq_iff_eq, Bool.not_eq_true', List.any_eq_false] at hapart
  obtain ⟨⟨hside, hside'⟩, hkinds⟩ := hapart
  obtain ⟨passed, hpassed, hkind⟩ := exists_mem_kinds hside hrule.2
  obtain ⟨passed', hpassed', hkind'⟩ := exists_mem_kinds hside' hother.2
  obtain rfl := Option.some.inj (hpassed.symm.trans hpassed')
  exact hkinds passed.kind hkind (List.contains_iff_mem.mpr hkind')

theorem shifts_ruling (progress : Progress) (rules : List Rule) (child : Skeleton) :
    (progress.ruling rules child).shifts =
      (rulingOf rules progress.previous ⟨child.kind, progress.passed.count child.kind⟩).shifts := by
  unfold Progress.ruling
  dsimp only
  split <;> rfl

theorem levelOf_le_succ (kind : Kind) (children : List Skeleton) (progress : Progress)
    (child : Skeleton) :
    progress.levelOf (rulesFor kind children) child ≤ progress.level + 1 := by
  rw [Progress.levelOf, shifts_ruling]
  exact (foldl_apply_le _ _).trans (Nat.add_le_add_left (count_deeper_le_one ..) _)

theorem levelOf_first_le {kind : Kind} {children : List Skeleton} {progress : Progress}
    {child : Skeleton} (hfirst : progress.previous = none)
    (hname : kind = .domainDef → child.kind = .name) :
    progress.levelOf (rulesFor kind children) child ≤ progress.level := by
  rw [Progress.levelOf, shifts_ruling, hfirst]
  refine (foldl_apply_le _ _).trans (Nat.le_of_eq ?_)
  rw [count_deeper, List.countP_eq_zero.mpr, Nat.add_zero]
  intro rule hrule hmatches
  rw [Bool.and_eq_true] at hmatches
  by_cases hkind : kind = .domainDef
  · subst hkind
    obtain rfl := List.mem_singleton.mp hrule
    rw [hname rfl] at hmatches
    cases hmatches.2
  · obtain ⟨passed, hpassed, -⟩ :=
      exists_mem_kinds (side_of_deepens hkind rule hrule hmatches.1) hmatches.2
    cases hpassed

end Layout

/-! ### The names of domains -/

namespace Skeleton

mutual

def NamesDomains : Skeleton → Prop
  | word _ => True
  | node kind children =>
    (kind = .domainDef → ∀ child ∈ children.head?, child.kind = .name) ∧ AllNameDomains children

def AllNameDomains : List Skeleton → Prop
  | [] => True
  | skeleton :: rest => skeleton.NamesDomains ∧ AllNameDomains rest

end

theorem allNameDomains_append {left right : List Skeleton} (hleft : AllNameDomains left)
    (hright : AllNameDomains right) : AllNameDomains (left ++ right) := by
  induction left with
  | nil => exact hright
  | cons skeleton rest ih => exact ⟨hleft.1, ih hleft.2⟩

end Skeleton

namespace Tree

mutual

theorem dress_nil (tree : Tree) : tree.dress [] = (none, []) := by
  match tree with
  | token t => simp [dress]
  | node kind children => rw [dress, dressAll_nil children]

theorem dressAll_nil (row : List Tree) : dressAll row [] = ([], []) := by
  match row with
  | [] => rfl
  | tree :: rest => simp [dressAll, dress_nil tree, dressAll_nil rest]

end

theorem kind_head_dressAll_name {token : Token} (hvisible : token.kind.isTrivia = false)
    (rest : List Tree) (words : List Word) :
    ∀ skeleton ∈ (dressAll (.node .name [.token token] :: rest) words).1.head?,
      skeleton.kind = .name := by
  intro skeleton hhead
  cases words with
  | nil =>
    rw [dressAll_nil] at hhead
    cases hhead
  | cons word words =>
    simp [dressAll, dress, hvisible] at hhead
    rw [← hhead]
    rfl

mutual

theorem namesDomains_dress (tree : Tree) (words : List Word)
    (h : ∀ node ∈ tree.nodes, node.kind = .domainDef → node.OpensWithName) :
    ∀ skeleton ∈ (tree.dress words).1, skeleton.NamesDomains := by
  match tree with
  | token t =>
    rw [dress.eq_def]
    dsimp only
    split
    · exact fun _ hskeleton => nomatch hskeleton
    · split
      · exact fun _ hskeleton => nomatch hskeleton
      · intro skeleton hskeleton
        obtain rfl := Option.some.inj hskeleton
        trivial
  | node kind children =>
    have hbelow := namesDomains_dressAll children words fun node hnode =>
      h node (List.mem_cons_of_mem _ hnode)
    have hhead : kind = .domainDef →
        ∀ child ∈ (dressAll children words).1.head?, child.kind = .name := fun hkind => by
      obtain ⟨token, rest, rfl, hvisible⟩ := h (.node kind children) List.mem_cons_self hkind
      exact kind_head_dressAll_name hvisible rest words
    rw [dress]
    split
    · exact fun _ hskeleton => nomatch hskeleton
    · next dressed rest hdressed =>
      intro skeleton hskeleton
      obtain rfl := Option.some.inj hskeleton
      rw [hdressed] at hhead hbelow
      exact ⟨hhead, hbelow⟩

theorem namesDomains_dressAll (row : List Tree) (words : List Word)
    (h : ∀ node ∈ nodesOf row, node.kind = .domainDef → node.OpensWithName) :
    Skeleton.AllNameDomains (dressAll row words).1 := by
  match row with
  | [] => trivial
  | tree :: rest =>
    have hfirst := namesDomains_dress tree words fun node hnode =>
      h node (List.mem_append_left _ hnode)
    have hrest := namesDomains_dressAll rest (tree.dress words).2 fun node hnode =>
      h node (List.mem_append_right _ hnode)
    refine Skeleton.allNameDomains_append ?_ hrest
    cases hdress : (tree.dress words).1 with
    | none => trivial
    | some skeleton => exact ⟨hfirst skeleton hdress, trivial⟩

end

end Tree

theorem namesDomains_skeleton? (text : String) :
    ∀ skeleton ∈ (parse text).tree.skeleton?, skeleton.NamesDomains :=
  Tree.namesDomains_dress _ _ fun _ => opensWithName_of_domainDef

namespace Layout

/-! ### What is reached -/

section Reached

variable {α β : Type} {options : LayoutOptions}

/-- The levels reached have been entered one by one. What is built satisfies `P`, and it is built
just if every indentation on the way could be. -/
structure Built.Climbs (options : LayoutOptions) (P : α → Prop) (built : Built α) : Prop where
  near : ∀ level ∈ built.levels, options.Fits (level - 1)
  result : ∀ a ∈ built.result, P a
  stops : built.result = none ↔ ∃ level ∈ built.levels, ¬options.Fits level

namespace Built.Climbs

variable {P : α → Prop} {Q : β → Prop} {built : Built α} {step : α → Built β}

theorem done {a : α} (h : P a) : (Built.done a).Climbs options P where
  near := List.forall_mem_nil _
  result _ ha := Option.some.inj ha ▸ h
  stops := by simp [Built.done]

theorem andThen (h : built.Climbs options P) (hstep : ∀ a, P a → (step a).Climbs options Q) :
    (built.andThen step).Climbs options Q := by
  unfold Built.andThen
  cases hresult : built.result with
  | none => exact ⟨h.near, (fun _ ha => nomatch ha), by simpa [hresult] using h.stops⟩
  | some a =>
    have hnext := hstep a (h.result a hresult)
    have hbuilt : ¬∃ level ∈ built.levels, ¬options.Fits level := fun hex => by
      rw [h.stops.mpr hex] at hresult
      cases hresult
    refine ⟨fun level hlevel => ?_, hnext.result, hnext.stops.trans ?_⟩
    · exact (List.mem_append.mp hlevel).elim (h.near level) (hnext.near level)
    · constructor
      · rintro ⟨level, hlevel, hlong⟩
        exact ⟨level, List.mem_append_right _ hlevel, hlong⟩
      · rintro ⟨level, hlevel, hlong⟩
        refine ⟨level, (List.mem_append.mp hlevel).resolve_left fun hbefore => ?_, hlong⟩
        exact hbuilt ⟨level, hbefore, hlong⟩

end Built.Climbs

theorem climbs_buildIndent {level : Nat} (h : options.Fits (level - 1)) :
    (buildIndent options level).Climbs options fun _ => options.Fits level where
  near _ hlevel := List.mem_singleton.mp hlevel ▸ h
  result _ ha := by
    by_contra hlong
    simp [buildIndent, hlong] at ha
  stops := by simp [buildIndent]

mutual

theorem climbs_build {level : Nat} (h : options.Fits (level - 1)) (skeleton : Skeleton)
    (hnames : skeleton.NamesDomains) :
    (build options level skeleton).Climbs options (· = print level skeleton) := by
  match skeleton with
  | .word word => exact .done rfl
  | .node kind children =>
    have hall := climbs_buildAll kind children ⟨level, none, none, []⟩ children ?_ hnames.2
    · rw [build, print]
      exact hall.andThen fun progress hprogress => .done (by rw [hprogress])
    · intro child hchild
      exact h.mono (Nat.sub_le_sub_right
        (levelOf_first_le rfl fun hkind => hnames.1 hkind child hchild) 1)

theorem climbs_buildAll (kind : Kind) (whole : List Skeleton) (progress : Progress)
    (children : List Skeleton)
    (hfirst : ∀ child ∈ children.head?,
      options.Fits (progress.levelOf (rulesFor kind whole) child - 1))
    (hnames : Skeleton.AllNameDomains children) :
    (buildAll options (rulesFor kind whole) progress children).Climbs options
      (· = printAll (rulesFor kind whole) progress children) := by
  match children with
  | [] => exact .done rfl
  | child :: rest =>
    have hlevel := hfirst child rfl
    rw [buildAll, printAll]
    refine (climbs_build hlevel child hnames.1).andThen fun printed hprinted => ?_
    refine (climbs_buildIndent hlevel).andThen fun _ hfits => ?_
    subst hprinted
    -- The level has been built, and the next child is at most one deeper.
    refine climbs_buildAll kind whole _ rest (fun next _ => hfits.mono ?_) hnames.2
    exact Nat.sub_le_of_le_add (levelOf_le_succ kind whole _ next)

end

theorem climbs_buildText (options : LayoutOptions) (text : String) :
    (buildText options text).Climbs options (· = formatText text options) := by
  have hbody : (match (parse text).tree.skeleton? with
      | none => Built.done none
      | some skeleton => build options 0 skeleton : Built (Option Part)).Climbs options
      (· = (parse text).tree.skeleton?.bind (print 0)) := by
    cases hskeleton : (parse text).tree.skeleton? with
    | none => exact .done rfl
    | some skeleton =>
      exact climbs_build options.fits_zero skeleton (namesDomains_skeleton? text skeleton hskeleton)
  refine hbody.andThen fun body hbody => .done ?_
  subst hbody
  rw [formatText, Tree.format, slotsOf]
  generalize (parse text).tree.trailingComments.foldl _ _ = whole
  cases whole with
  | none => rfl
  | some part =>
    obtain ⟨leading, first, rest, last⟩ := part
    cases leading <;> rfl

end Reached

/-- **The width of an indentation does not overflow.** Whatever the configuration and the text, the
product of the spaces per level and a level is below `2 ^ 64` for every level that is reached while
the text is laid out. -/
theorem product_lt_numberLimit (config source : String) :
    let options := LayoutOptions.ofConfig (EditorConfig.parse config)
    ∀ level ∈ levelsReached options source, ∀ product ∈ options.product? level,
      product < numberLimit := by
  intro options level hlevel
  exact options.product_lt (LayoutOptions.tabSize_ofConfig_lt _)
    ((climbs_buildText options source).near level hlevel)

/-- An enumeration in an enumeration is reached with indentations of up to `2 ^ 63 - 2` spaces. The
next one cannot be built, but its width is still computed without overflow. -/
theorem product_lt_numberLimit_nested :
    let options := LayoutOptions.ofConfig (EditorConfig.parse "indent_size = 4611686018427387903")
    let source :=
      "INTERLIS 2.4; MODEL M = TOPIC T = DOMAIN D = (a, b (c, d, e, f)); END T; END M."
    3 ∈ levelsReached options source ∧ ¬options.Fits 3 ∧
      13835058055282163709 ∈ options.product? 3 ∧ 13835058055282163709 < numberLimit := by
  intro options source
  have hreached : 3 ∈ levelsReached options source := by decide +kernel
  have hproduct : 13835058055282163709 ∈ options.product? 3 := by decide +kernel
  exact ⟨hreached, by decide +kernel, hproduct,
    product_lt_numberLimit "indent_size = 4611686018427387903" source 3 hreached _ hproduct⟩

end Layout

end Ili
