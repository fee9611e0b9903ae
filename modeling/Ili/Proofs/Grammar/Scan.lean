import Ili.Proofs.Grammar.Blocks
import Ili.Proofs.Grammar.Outlook
import Ili.Proofs.Grammar.Shape

/-!
# What a rule puts into a node

Read off a rule is the shape of what it puts into the tree when it has nothing to report, together
with what is then known of the tokens ahead. A branch that always reports counts for nothing. So the
nodes in the tree of a text without errors can be compared with productions by a look at the rules.
-/

namespace Ili

namespace Tree

def shown (row : List Tree) : List Tree :=
  row.filter fun tree => !tree.isTrivia

/-- The children of a node without the blanks and comments among them. -/
def visibleChildren (tree : Tree) : List Tree :=
  shown tree.children

theorem shown_append (left right : List Tree) : shown (left ++ right) = shown left ++ shown right :=
  List.filter_append ..

theorem shown_map_token {row : List Token} (h : ∀ t ∈ row, t.kind.isTrivia = true) :
    shown (row.map token) = [] := by
  refine List.filter_eq_nil_iff.mpr fun tree htree => ?_
  obtain ⟨t, ht, rfl⟩ := List.mem_map.mp htree
  simp [isTrivia, h t ht]

theorem shown_token {t : Token} (h : t.kind.isTrivia = false) : shown [token t] = [token t] := by
  simp [shown, isTrivia, h]

theorem shown_node (kind : Kind) (children : List Tree) :
    shown [node kind children] = [node kind children] :=
  rfl

/-- What every node of a row holds has the shape given for its kind. -/
def Conforms (production : Kind → Shape) (row : List Tree) : Prop :=
  ∀ node ∈ nodesOf row, node.visibleChildren ∈ (production node.kind).language

variable {production : Kind → Shape}

theorem Conforms.append {left right : List Tree} (hleft : Conforms production left)
    (hright : Conforms production right) : Conforms production (left ++ right) := by
  intro node hnode
  rw [nodesOf_append] at hnode
  exact (List.mem_append.mp hnode).elim (hleft node) (hright node)

theorem conforms_map_token (row : List Token) : Conforms production (row.map token) := by
  rw [Conforms, nodesOf_map_token]
  exact nofun

theorem Conforms.node {kind : Kind} {children : List Tree} (h : Conforms production children)
    (hshape : shown children ∈ (production kind).language) :
    Conforms production [.node kind children] := by
  intro node hnode
  rcases List.mem_append.mp hnode with hnode | hnode
  · rcases List.mem_cons.mp hnode with rfl | hnode
    · exact hshape
    · exact h node hnode
  · cases hnode

end Tree

namespace Rule

/-- The shape of what the rule puts into the tree and the outlook behind it, if it reports nothing;
none if it always reports. -/
@[simp]
def scan (outlook : Outlook) : Rule → Option (Shape × Outlook)
  | .skip | .flush => some (.empty, outlook)
  | .bump =>
    match outlook.next with
    | some kinds => some (.one kinds outlook.word, outlook.shift kinds)
    | none => some (.anything, .nothing)
  | .bumpAs kind =>
    match outlook.next, kind.isTrivia with
    | some kinds, false => some (.one [kind] outlook.word, outlook.shift kinds)
    | _, _ => some (.anything, .nothing)
  | .report _ => none
  | .seq first second =>
    match first.scan outlook with
    | none => none
    | some (shape, middle) => (second.scan middle).map fun (last, after) =>
      (shape.andThen last, after)
  | .choose guard yes no =>
    match yes.scan (outlook.assume guard), no.scan (outlook.deny guard) with
    | none, other => other
    | other, none => other
    | some (left, first), some (right, second) => some (left.orElse right, first.join second)
  | .many guard body =>
    match body.scan ((Outlook.ofSentence outlook.sentence).assume guard) with
    | none => some (.empty, .ofSentence outlook.sentence)
    | some (shape, after) =>
      -- What the loop starts with has to hold again where its body ends.
      if after.sentence = outlook.sentence then
        some (.many shape, .ofSentence outlook.sentence)
      else some (.anything, .nothing)
  | .balancedTo _ => some (.optional .tokens, .nothing)
  | .node kind body => (body.scan outlook).map fun (_, after) => (.single kind, after)
  | .extendAs kind first _ _ =>
    (first.scan outlook).map fun (shape, _) => (shape.orElse (.single kind), .nothing)
  | .nested => some (.single .enumType, .nothing)

/-- What the rule puts into nodes conforms to the productions, unless it reports something. -/
@[simp]
def conforms (production : Kind → Shape) (outlook : Outlook) : Rule → Bool
  | .seq first second =>
    first.conforms production outlook &&
      (first.scan outlook).all fun (_, middle) => second.conforms production middle
  | .choose guard yes no =>
    yes.conforms production (outlook.assume guard) && no.conforms production (outlook.deny guard)
  | .many guard body =>
    let start := (Outlook.ofSentence outlook.sentence).assume guard
    body.conforms production start &&
      (body.scan start).all fun (_, after) => after.sentence = outlook.sentence
  | .node kind body =>
    body.conforms production outlook &&
      (body.scan outlook).all fun (shape, _) => shape.within (production kind)
  | .extendAs kind first _ second =>
    first.conforms production outlook && second.conforms production .nothing &&
      production kind = .anything
  | .skip | .bump | .bumpAs _ | .flush | .report _ | .balancedTo _ | .nested => true

theorem Runs.errors_prefix {inner rule : Rule} {parsing last : Parsing}
    (h : Runs inner rule parsing last) : parsing.errors <+: last.errors := by
  induction h with
  | skip | stop => exact List.prefix_rfl
  | bump | bumpAs | flush | report | balancedTo => exact List.prefix_append _ _
  | seq _ _ ihFirst ihSecond => exact ihFirst.trans ihSecond
  | again _ _ _ ihBody ihRest => exact ihBody.trans ihRest
  | yes _ _ ih | no _ _ ih | nested _ ih => exact ih
  | node _ ih | plain _ _ ih => exact (List.prefix_append _ _).trans ih
  | extended _ _ _ ihFirst ihSecond =>
    exact ((List.prefix_append _ _).trans ihFirst).trans ihSecond

end Rule

/-- Between two moments of a parse these trees have been put into the node started last. They have
the shape, and the outlook holds at the later moment. -/
structure Part (parsing last : Parsing) (trees : List Tree) (shape : Shape) (after : Outlook) :
    Prop where
  builder : last.builder = parsing.builder.put trees
  shape : Tree.shown trees ∈ shape.language
  sorted : last.input.Sorted
  outlook : after.Holds last.input.ahead

namespace Part

variable {parsing middle last : Parsing} {trees first second : List Tree} {shape other : Shape}
  {after outlook : Outlook}

theorem none (h : parsing.input.Sorted) (houtlook : outlook.Holds parsing.input.ahead) :
    Part parsing parsing [] .empty outlook :=
  ⟨(Builder.put_nil _).symm, rfl, h, houtlook⟩

theorem andThen (hfirst : Part parsing middle first shape after)
    (hsecond : Part middle last second other outlook) :
    Part parsing last (first ++ second) (shape.andThen other) outlook where
  builder := by rw [hsecond.builder, hfirst.builder, Builder.put_put]
  shape := by
    rw [Tree.shown_append, Shape.language_andThen]
    exact Language.append_mem_mul hfirst.shape hsecond.shape
  sorted := hsecond.sorted
  outlook := hsecond.outlook

theorem mono (h : Part parsing last trees shape after) (hshape : shape.language ≤ other.language)
    (houtlook : after.Holds last.input.ahead → outlook.Holds last.input.ahead) :
    Part parsing last trees other outlook :=
  ⟨h.builder, hshape h.shape, h.sorted, houtlook h.outlook⟩

theorem blur (h : Part parsing last trees shape after) :
    Part parsing last trees .anything .nothing :=
  h.mono (fun _ _ => trivial) fun _ => Outlook.holds_nothing _

theorem flushed (h : parsing.input.Sorted) (houtlook : outlook.Holds parsing.input.ahead) :
    Part parsing parsing.flushed (parsing.input.pending.map .token) .empty outlook where
  builder := rfl
  shape := Tree.shown_map_token (Input.isTrivia_of_mem_pending h)
  sorted := Input.sorted_flushed h
  outlook := houtlook.flushed

theorem bump (rename : Token → Token) {kinds : List Kind} (renamed : List Kind)
    (h : parsing.input.Sorted)
    (houtlook : outlook.Holds parsing.input.ahead) (hnext : outlook.next = some kinds)
    (htext : ∀ token : Token, (rename token).text = token.text)
    (hkind : ∀ token : Token, token.kind ∈ kinds → (rename token).kind ∈ renamed)
    (hvisible : ∀ token : Token, token.kind.isTrivia = false →
      (rename token).kind.isTrivia = false) :
    ∃ row : List Token, Part parsing (parsing.after (Rule.runBump rename parsing.input))
      (row.map .token) (.one renamed outlook.word) (outlook.shift kinds) := by
  have hsees := houtlook.next kinds hnext
  have hword := houtlook.word
  obtain ⟨⟨ahead, trailing, stop⟩, errors, builder⟩ := parsing
  cases ahead with
  | nil => cases hsees
  | cons lexeme rest =>
    have hmem : lexeme.kind ∈ kinds := List.contains_iff_mem.mp hsees
    obtain ⟨htrivia, hshown⟩ := h.1 lexeme List.mem_cons_self
    refine ⟨lexeme.trivia ++ [rename lexeme.token], ?_, ?_, ?_, houtlook.shift hmem⟩
    · rw [List.map_append]
      rfl
    · rw [List.map_append, Tree.shown_append, Tree.shown_map_token htrivia, List.nil_append,
        List.map_singleton, Tree.shown_token (hvisible _ hshown)]
      refine ⟨_, rfl, hkind _ hmem, fun words hwords => ?_⟩
      have hspelled : words.contains lexeme.token.text = true := hword words hwords
      change (rename lexeme.token).text ∈ words
      rw [htext]
      exact List.contains_iff_mem.mp hspelled
    · exact ⟨fun other hother => h.1 other (List.mem_cons_of_mem _ hother), h.2⟩

theorem bumpAny (rename : Token → Token) (h : parsing.input.Sorted) :
    ∃ row : List Token, Part parsing (parsing.after (Rule.runBump rename parsing.input))
      (row.map .token) .anything .nothing := by
  obtain ⟨⟨ahead, trailing, stop⟩, errors, builder⟩ := parsing
  cases ahead with
  | nil => exact ⟨trailing, rfl, trivial, Input.sorted_flushed h, Outlook.holds_nothing _⟩
  | cons lexeme rest =>
    refine ⟨lexeme.trivia ++ [rename lexeme.token], ?_, trivial, ?_, Outlook.holds_nothing _⟩
    · rw [List.map_append]
      rfl
    · exact ⟨fun other hother => h.1 other (List.mem_cons_of_mem _ hother), h.2⟩

theorem shown_treesOf {taken : List Lexeme} (h : ∀ lexeme ∈ taken, lexeme.Sorted) :
    Tree.shown (Rule.treesOf taken) = taken.map fun lexeme => .token lexeme.token := by
  induction taken with
  | nil => rfl
  | cons lexeme rest ih =>
    obtain ⟨htrivia, hshown⟩ := h lexeme List.mem_cons_self
    rw [Rule.treesOf, List.flatMap_cons, Tree.shown_append, Tree.shown_append,
      Tree.shown_map_token htrivia, Tree.shown_token hshown, List.nil_append, List.map_cons]
    exact congrArg _ (ih fun other hother => h other (List.mem_cons_of_mem _ hother))

theorem balancedTo (stops : List Kind) (h : parsing.input.Sorted) :
    Part parsing (parsing.after (Rule.runBalancedTo stops parsing.input))
      (Rule.treesOf (Rule.splitBalanced stops 0 parsing.input.ahead).1) (.optional .tokens)
      .nothing := by
  have hsplit := Rule.splitBalanced_append stops 0 parsing.input.ahead
  refine ⟨rfl, ?_, ⟨fun lexeme hlexeme => ?_, h.2⟩, Outlook.holds_nothing _⟩
  · rw [shown_treesOf fun lexeme hlexeme =>
      h.1 lexeme (hsplit ▸ List.mem_append_left _ hlexeme)]
    by_cases hnil : (Rule.splitBalanced stops 0 parsing.input.ahead).1 = []
    · rw [hnil]
      exact .inr rfl
    · exact .inl ⟨fun heq => hnil (List.map_eq_nil_iff.mp heq),
        (Rule.splitBalanced stops 0 parsing.input.ahead).1.map Lexeme.token, List.map_map.symm⟩
  · exact h.1 lexeme (hsplit ▸ List.mem_append_right _ hlexeme)

theorem node {kind : Kind} (h : parsing.input.Sorted)
    (hbody : Part (parsing.flushed.start kind) last trees shape after) :
    Part parsing last.finish (parsing.input.pending.map .token ++ [.node kind trees])
      (.single kind) after where
  builder := by
    change last.builder.finish = _
    rw [hbody.builder]
    change ((parsing.flushed.builder.start kind).put trees).finish = _
    rw [Builder.finish_start, ← Builder.put_put]
    rfl
  shape := by
    rw [Tree.shown_append, Tree.shown_map_token (Input.isTrivia_of_mem_pending h),
      Tree.shown_node]
    exact ⟨_, rfl, List.mem_singleton_self _, nofun⟩
  sorted := hbody.sorted
  outlook := hbody.outlook

theorem extended {kind : Kind} (h : parsing.input.Sorted)
    (hfirst : Part parsing.flushed middle first shape after)
    (hsecond : Part (middle.startAt parsing.flushed.builder.row.length kind) last second other
      outlook) :
    Part parsing last.finish
      (parsing.input.pending.map .token ++ [.node kind (first ++ second)]) (.single kind)
      outlook where
  builder := by
    change last.builder.finish = _
    rw [hsecond.builder]
    change ((middle.builder.startAt _ kind).put second).finish = _
    rw [hfirst.builder, Builder.finish_startAt, ← Builder.put_put]
    rfl
  shape := by
    rw [Tree.shown_append, Tree.shown_map_token (Input.isTrivia_of_mem_pending h),
      Tree.shown_node]
    exact ⟨_, rfl, List.mem_singleton_self _, nofun⟩
  sorted := hsecond.sorted
  outlook := hsecond.outlook

end Part

namespace Rule

section Foreseen

variable {production : Kind → Shape} {first second body : Rule} {guard : Guard} {kind : Kind}
  {outlook : Outlook} {parsing middle last : Parsing}

def Foreseen (production : Kind → Shape) (rule : Rule) (outlook : Outlook)
    (parsing last : Parsing) : Prop :=
  ∃ trees shape after, rule.scan outlook = some (shape, after) ∧
    (rule.conforms production outlook = true → Tree.Conforms production trees) ∧
    Part parsing last trees shape after

theorem Foreseen.mono {rule wider : Rule} {told : Outlook}
    (h : rule.Foreseen production told parsing last)
    (hscan : ∀ shape after, rule.scan told = some (shape, after) → ∃ other joined,
      wider.scan outlook = some (other, joined) ∧ shape.language ≤ other.language ∧
      ∀ ahead : List Lexeme, after.Holds ahead → joined.Holds ahead)
    (hconforms : wider.conforms production outlook = true → rule.conforms production told = true) :
    wider.Foreseen production outlook parsing last := by
  obtain ⟨trees, shape, after, hscanned, hfits, hpart⟩ := h
  obtain ⟨other, joined, hwider, hshape, hjoined⟩ := hscan shape after hscanned
  exact ⟨trees, other, joined, hwider, fun hrule => hfits (hconforms hrule),
    hpart.mono hshape (hjoined _)⟩

theorem foreseen_bump (h : parsing.input.Sorted) (houtlook : outlook.Holds parsing.input.ahead) :
    bump.Foreseen production outlook parsing (parsing.after (runBump id parsing.input)) := by
  rw [Foreseen, scan]
  split
  · next kinds hnext =>
    obtain ⟨row, hpart⟩ :=
      Part.bump id kinds h houtlook hnext (fun _ => rfl) (fun _ => id) (fun _ => id)
    exact ⟨_, _, _, rfl, fun _ => Tree.conforms_map_token row, hpart⟩
  · obtain ⟨row, hpart⟩ := Part.bumpAny id h
    exact ⟨_, _, _, rfl, fun _ => Tree.conforms_map_token row, hpart⟩

theorem foreseen_bumpAs (h : parsing.input.Sorted) (houtlook : outlook.Holds parsing.input.ahead) :
    (bumpAs kind).Foreseen production outlook parsing
      (parsing.after (runBump (fun token => { token with kind }) parsing.input)) := by
  rw [Foreseen, scan]
  split
  · next kinds hnext hvisible =>
    obtain ⟨row, hpart⟩ := Part.bump (fun token => { token with kind }) [kind] h houtlook hnext
      (fun _ => rfl) (fun _ _ => List.mem_singleton_self kind) (fun _ _ => hvisible)
    exact ⟨_, _, _, rfl, fun _ => Tree.conforms_map_token row, hpart⟩
  · obtain ⟨row, hpart⟩ := Part.bumpAny (fun token => { token with kind }) h
    exact ⟨_, _, _, rfl, fun _ => Tree.conforms_map_token row, hpart⟩

theorem Foreseen.seq (hfirst : first.Foreseen production outlook parsing middle)
    (hsecond : ∀ after : Outlook, middle.input.Sorted → after.Holds middle.input.ahead →
      second.Foreseen production after middle last) :
    (first.seq second).Foreseen production outlook parsing last := by
  obtain ⟨trees, shape, after, hscan, hfits, hpart⟩ := hfirst
  obtain ⟨others, other, behind, hscanSecond, hfitsSecond, hpartSecond⟩ :=
    hsecond after hpart.sorted hpart.outlook
  refine ⟨trees ++ others, shape.andThen other, behind, ?_, fun hconforms => ?_,
    hpart.andThen hpartSecond⟩
  · simp only [scan, hscan, hscanSecond, Option.map_some]
  · simp only [conforms, hscan, Option.all_some, Bool.and_eq_true] at hconforms
    exact (hfits hconforms.1).append (hfitsSecond hconforms.2)

theorem Foreseen.yes (h : first.Foreseen production (outlook.assume guard) parsing last) :
    (choose guard first second).Foreseen production outlook parsing last := by
  refine h.mono (fun shape after hscan => ?_) fun hrule => ((Bool.and_eq_true _ _).mp hrule).1
  rw [scan, hscan]
  cases second.scan (outlook.deny guard) with
  | none => exact ⟨_, _, rfl, le_rfl, fun _ => id⟩
  | some result =>
    refine ⟨_, _, rfl, ?_, fun _ hafter => Outlook.holds_join (.inl hafter)⟩
    rw [Shape.language_orElse]
    exact le_self_add

theorem Foreseen.no (h : second.Foreseen production (outlook.deny guard) parsing last) :
    (choose guard first second).Foreseen production outlook parsing last := by
  refine h.mono (fun shape after hscan => ?_) fun hrule => ((Bool.and_eq_true _ _).mp hrule).2
  rw [scan, hscan]
  cases first.scan (outlook.assume guard) with
  | none => exact ⟨_, _, rfl, le_rfl, fun _ => id⟩
  | some result =>
    refine ⟨_, _, rfl, ?_, fun _ hafter => Outlook.holds_join (.inr hafter)⟩
    rw [Shape.language_orElse]
    exact le_add_self

theorem foreseen_stop (h : parsing.input.Sorted) (houtlook : outlook.Holds parsing.input.ahead) :
    (many guard body).Foreseen production outlook parsing parsing := by
  have hstart : (Outlook.ofSentence outlook.sentence).Holds parsing.input.ahead :=
    Outlook.holds_ofSentence houtlook.sentence
  have hnone := Part.none h houtlook
  rw [Foreseen, scan]
  split
  · exact ⟨[], _, _, rfl, fun _ => nofun, hnone.mono le_rfl fun _ => hstart⟩
  · split
    · refine ⟨[], _, _, rfl, fun _ => nofun, hnone.mono ?_ fun _ => hstart⟩
      exact fun row hrow => hrow ▸ Language.nil_mem_kstar _
    · exact ⟨[], _, _, rfl, fun _ => nofun, hnone.blur⟩

/-- A loop that goes on. The next round starts with the sentence this one started with, or nothing
is foreseen. -/
theorem Foreseen.repeated
    (hbody : body.Foreseen production ((Outlook.ofSentence outlook.sentence).assume guard) parsing
      middle)
    (hrest : ∀ after : Outlook, middle.input.Sorted → after.Holds middle.input.ahead →
      (many guard body).Foreseen production after middle last) :
    (many guard body).Foreseen production outlook parsing last := by
  obtain ⟨trees, shape, after, hscan, hfits, hpart⟩ := hbody
  by_cases hkeeps : after.sentence = outlook.sentence
  · have hmany : (many guard body).scan outlook =
        some (.many shape, .ofSentence outlook.sentence) := by
      simp only [scan, hscan, if_pos hkeeps]
    have hagain : (many guard body).scan (.ofSentence outlook.sentence) =
        some (.many shape, .ofSentence outlook.sentence) := hmany
    obtain ⟨others, other, rest, hscanRest, hfitsRest, hpartRest⟩ :=
      hrest _ hpart.sorted (Outlook.holds_ofSentence (hkeeps ▸ hpart.outlook.sentence))
    obtain ⟨rfl, rfl⟩ := Prod.mk.inj (Option.some.inj (hagain.symm.trans hscanRest))
    refine ⟨trees ++ others, _, _, hmany, fun hconforms => ?_,
      (hpart.andThen hpartRest).mono ?_ id⟩
    · have hloop := hconforms
      rw [conforms, Bool.and_eq_true] at hloop
      exact (hfits hloop.1).append (hfitsRest hconforms)
    · rw [Shape.language_andThen]
      exact mul_kstar_le_kstar
  · have hmany : (many guard body).scan outlook = some (.anything, .nothing) := by
      simp only [scan, hscan, if_neg hkeeps]
    obtain ⟨others, other, rest, -, -, hpartRest⟩ :=
      hrest _ hpart.sorted (Outlook.holds_nothing _)
    refine ⟨trees ++ others, _, _, hmany, fun hconforms => ?_, (hpart.andThen hpartRest).blur⟩
    simp only [conforms, hscan, Option.all_some, Bool.and_eq_true, decide_eq_true_eq] at hconforms
    exact absurd hconforms.2 hkeeps

theorem Foreseen.node (h : parsing.input.Sorted)
    (hbody : body.Foreseen production outlook (parsing.flushed.start kind) last) :
    (node kind body).Foreseen production outlook parsing last.finish := by
  obtain ⟨trees, shape, after, hscan, hfits, hpart⟩ := hbody
  refine ⟨_, .single kind, after, ?_, fun hconforms => ?_, hpart.node h⟩
  · rw [scan, hscan]
    rfl
  · simp only [conforms, hscan, Option.all_some, Bool.and_eq_true] at hconforms
    exact (Tree.conforms_map_token _).append
      ((hfits hconforms.1).node (Shape.language_le_of_within hconforms.2 hpart.shape))

theorem Foreseen.plain (h : parsing.input.Sorted) (houtlook : outlook.Holds parsing.input.ahead)
    (hfirst : first.Foreseen production outlook parsing.flushed last) :
    (extendAs kind first guard second).Foreseen production outlook parsing last := by
  obtain ⟨trees, shape, after, hscan, hfits, hpart⟩ := hfirst
  refine ⟨parsing.input.pending.map .token ++ trees, shape.orElse (.single kind), .nothing, ?_,
    fun hconforms => ?_,
    ((Part.flushed h houtlook).andThen hpart).mono ?_ fun _ => Outlook.holds_nothing _⟩
  · rw [scan, hscan]
    rfl
  · simp only [conforms, Bool.and_eq_true] at hconforms
    exact (Tree.conforms_map_token _).append (hfits hconforms.1.1)
  · rw [Shape.language_orElse]
    exact le_self_add

theorem Foreseen.extended (h : parsing.input.Sorted)
    (hfirst : first.Foreseen production outlook parsing.flushed middle)
    (hsecond : middle.input.Sorted → second.Foreseen production .nothing
      (middle.startAt parsing.flushed.builder.row.length kind) last) :
    (extendAs kind first guard second).Foreseen production outlook parsing last.finish := by
  obtain ⟨trees, shape, after, hscan, hfits, hpart⟩ := hfirst
  obtain ⟨others, other, behind, -, hfitsSecond, hpartSecond⟩ := hsecond hpart.sorted
  refine ⟨_, shape.orElse (.single kind), .nothing, ?_, fun hconforms => ?_,
    (hpart.extended h hpartSecond).mono ?_ fun _ => Outlook.holds_nothing _⟩
  · rw [scan, hscan]
    rfl
  · simp only [conforms, Bool.and_eq_true, decide_eq_true_eq] at hconforms
    refine (Tree.conforms_map_token _).append
      (((hfits hconforms.1.1).append (hfitsSecond hconforms.1.2)).node ?_)
    rw [hconforms.2]
    trivial
  · rw [Shape.language_orElse]
    exact le_add_self

end Foreseen

/-- Every run that reports nothing goes as foreseen, if the rule that contains itself builds an
enumeration. -/
theorem Runs.foreseen {production : Kind → Shape} {inner rule : Rule} {parsing last : Parsing}
    (hscan : (inner.scan .nothing).map Prod.fst = some (.single .enumType))
    (hinner : inner.conforms production .nothing = true) (h : Runs inner rule parsing last)
    (hquiet : last.errors = []) (hsorted : parsing.input.Sorted) {outlook : Outlook}
    (houtlook : outlook.Holds parsing.input.ahead) :
    rule.Foreseen production outlook parsing last := by
  -- What has been reported on the way is still reported in the end.
  have hearlier {rule : Rule} {middle last : Parsing} (hrest : Runs inner rule middle last)
      (hquiet : last.errors = []) : middle.errors = [] :=
    List.prefix_nil.mp (hquiet ▸ hrest.errors_prefix)
  induction h generalizing outlook with
  | skip => exact ⟨[], .empty, outlook, rfl, fun _ => nofun, .none hsorted houtlook⟩
  | bump => exact foreseen_bump hsorted houtlook
  | bumpAs => exact foreseen_bumpAs hsorted houtlook
  | flush =>
    exact ⟨_, .empty, outlook, rfl, fun _ => Tree.conforms_map_token _, .flushed hsorted houtlook⟩
  | report => simp at hquiet
  | balancedTo =>
    refine ⟨_, _, _, rfl, fun _ => ?_, .balancedTo _ hsorted⟩
    rw [treesOf_eq]
    exact Tree.conforms_map_token _
  | seq _ hsecond ihFirst ihSecond =>
    exact (ihFirst (hearlier hsecond hquiet) hsorted houtlook).seq fun _ hmiddle hafter =>
      ihSecond hquiet hmiddle hafter
  | yes hholds _ ih => exact (ih hquiet hsorted (houtlook.assume hholds)).yes
  | no hholds _ ih => exact (ih hquiet hsorted (houtlook.deny hholds)).no
  | stop => exact foreseen_stop hsorted houtlook
  | again hholds _ hrest ihBody ihRest =>
    have hstart := (Outlook.holds_ofSentence houtlook.sentence).assume hholds
    exact (ihBody (hearlier hrest hquiet) hsorted hstart).repeated fun _ hmiddle hafter =>
      ihRest hquiet hmiddle hafter
  | node _ ih =>
    exact (ih hquiet (Input.sorted_flushed hsorted) houtlook.flushed).node hsorted
  | plain _ _ ih =>
    exact (ih hquiet (Input.sorted_flushed hsorted) houtlook.flushed).plain hsorted houtlook
  | extended _ _ hsecond ihFirst ihSecond =>
    have hmiddle := hearlier hsecond
    exact (ihFirst (hmiddle hquiet) (Input.sorted_flushed hsorted) houtlook.flushed).extended
      hsorted fun hmiddle => ihSecond hquiet hmiddle (Outlook.holds_nothing _)
  | nested _ ih =>
    refine (ih hquiet hsorted (Outlook.holds_nothing _)).mono (fun shape after hshape => ?_)
      fun _ => hinner
    rw [hshape] at hscan
    obtain rfl := Option.some.inj hscan
    exact ⟨_, _, rfl, le_rfl, fun ahead _ => Outlook.holds_nothing ahead⟩

end Rule

end Ili
