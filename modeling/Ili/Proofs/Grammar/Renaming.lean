import Ili.Proofs.Grammar.Closing
import Ili.Proofs.Grammar.Regular
import Ili.Proofs.Grammar.Steps

/-!
# Where a token changes its kind

A token stands in the tree under its own kind, except that a reserved word may be taken as a name.
That happens where a name is made a node of its own, and where the name of a model is repeated
behind its `END`. Whether a rule keeps to these places can be read off it, given what is around it,
whether the next token is known to be a reserved word or an `END`, and whether one stands just
behind.
-/

namespace Ili

/-- A token of a tree at its place: with the kind of the node around it, and that of the tree before
it in this node, not counting blanks and comments. -/
structure Spot where
  token : Token
  around : Kind
  behind : Option Kind
  deriving DecidableEq, Repr

/-- The token of the tree is that of the text, or a reserved word that is taken as a name: inside
the node of a name, or behind the `END` of a model. -/
def Spot.Holds (spot : Spot) (inText : Token) : Prop :=
  spot.token = inText ∨
    spot.token = { inText with kind := .ident } ∧ inText.kind.isKeyword = true ∧
      (spot.around = .name ∨ spot.around = .model ∧ spot.behind = some .endKw)

theorem Spot.Holds.text_eq {spot : Spot} {inText : Token} (h : spot.Holds inText) :
    spot.token.text = inText.text := by
  rcases h with heq | ⟨heq, -⟩ <;> rw [heq]

namespace Tree

/-- What stands behind the next tree, if this is the tree before it. -/
def lastKind (behind : Option Kind) : Tree → Option Kind
  | token t => if t.kind.isTrivia then behind else some t.kind
  | node kind _ => some kind

def lastKindOf (behind : Option Kind) (row : List Tree) : Option Kind :=
  row.foldl lastKind behind

mutual

def spots (around : Kind) (behind : Option Kind) : Tree → List Spot
  | token t => [⟨t, around, behind⟩]
  | node kind children => spotsOf kind none children

def spotsOf (around : Kind) (behind : Option Kind) : List Tree → List Spot
  | [] => []
  | tree :: rest => tree.spots around behind ++ spotsOf around (tree.lastKind behind) rest

end

theorem spotsOf_append (around : Kind) (behind : Option Kind) (left right : List Tree) :
    spotsOf around behind (left ++ right) =
      spotsOf around behind left ++ spotsOf around (lastKindOf behind left) right := by
  induction left generalizing behind with
  | nil => rfl
  | cons tree rest ih =>
    rw [List.cons_append, spotsOf, spotsOf, ih, List.append_assoc]
    rfl

mutual

theorem map_token_spots (around : Kind) (behind : Option Kind) (tree : Tree) :
    (tree.spots around behind).map Spot.token = tree.tokens := by
  match tree with
  | token t => rfl
  | node kind children => exact map_token_spotsOf kind none children

theorem map_token_spotsOf (around : Kind) (behind : Option Kind) (row : List Tree) :
    (spotsOf around behind row).map Spot.token = tokensOf row := by
  match row with
  | [] => rfl
  | tree :: rest =>
    rw [spotsOf, tokensOf, List.map_append, map_token_spots around behind tree,
      map_token_spotsOf around _ rest]

end

theorem lastKindOf_trivia {row : List Token} (h : ∀ t ∈ row, t.kind.isTrivia = true)
    (behind : Option Kind) : lastKindOf behind (row.map token) = behind := by
  induction row with
  | nil => rfl
  | cons t rest ih =>
    rw [List.map_cons, lastKindOf, List.foldl_cons, lastKind, if_pos (h t List.mem_cons_self)]
    exact ih fun other hother => h other (List.mem_cons_of_mem _ hother)

theorem holds_map_token (around : Kind) (behind : Option Kind) (row : List Token) :
    List.Forall₂ Spot.Holds (spotsOf around behind (row.map token)) row := by
  induction row generalizing behind with
  | nil => exact .nil
  | cons t rest ih => exact .cons (.inl rfl) (ih _)

end Tree

namespace Rule

def isBump : Rule → Bool
  | .bump => true
  | _ => false

/-- The rule takes a token as a name only where that may be. It is run in a node of the kind
`around`; with `sure` the next token is a reserved word, with `ending` it is an `END`, and with
`ended` an `END` stands just behind. -/
def renamesInPlace (around : Kind) (sure ending ended : Bool) : Rule → Bool
  | .bumpAs kind => kind == .ident && sure && (around == .name || around == .model && ended)
  | .seq first second =>
    first.renamesInPlace around sure ending ended &&
      second.renamesInPlace around false false (first.isBump && ending)
  | .choose guard yes no =>
    yes.renamesInPlace around (sure || guard.seesReserved) (ending || guard.seesOnly [.endKw])
        ended &&
      no.renamesInPlace around sure ending ended
  | .many guard body =>
    body.renamesInPlace around guard.seesReserved (guard.seesOnly [.endKw]) false
  | .node kind body => body.renamesInPlace kind sure ending false
  | .extendAs kind first guard second =>
    first.renamesInPlace around sure ending false && first.renamesInPlace kind sure ending false &&
      second.renamesInPlace kind guard.seesReserved (guard.seesOnly [.endKw]) false
  | .skip | .bump | .flush | .report _ | .balancedTo _ | .nested => true

end Rule

/-- The trees of an outcome hold the tokens taken, each at a place where it may be, if they are put
into a node of the kind `around` behind what stands there. -/
def Outcome.InPlace (around : Kind) (behind : Option Kind) (outcome : Outcome) (input : Input) :
    Prop :=
  ∃ taken, input.tokens = taken ++ outcome.rest.tokens ∧
    List.Forall₂ Spot.Holds (Tree.spotsOf around behind outcome.trees) taken

namespace Outcome

variable {around : Kind} {behind : Option Kind} {outcome : Outcome} {input : Input}

theorem inPlace_none : (none input).InPlace around behind input :=
  ⟨[], rfl, .nil⟩

theorem InPlace.andThen {step : Input → Outcome} (h : outcome.InPlace around behind input)
    (hstep : (step outcome.rest).InPlace around (Tree.lastKindOf behind outcome.trees)
      outcome.rest) :
    (outcome.andThen step).InPlace around behind input := by
  obtain ⟨first, hfirst, hplaces⟩ := h
  obtain ⟨second, hsecond, hstepPlaces⟩ := hstep
  refine ⟨first ++ second, ?_, ?_⟩
  · rw [hfirst, hsecond, List.append_assoc]
    rfl
  · change List.Forall₂ _ (Tree.spotsOf around behind (outcome.trees ++ _)) _
    rw [Tree.spotsOf_append]
    exact List.rel_append hplaces hstepPlaces

theorem InPlace.wrap {kind : Kind} (h : outcome.InPlace kind .none input) :
    InPlace around behind { outcome with trees := [.node kind outcome.trees] } input := by
  obtain ⟨taken, htaken, hplaces⟩ := h
  refine ⟨taken, htaken, ?_⟩
  rw [Tree.spotsOf, Tree.spots, Tree.spotsOf, List.append_nil]
  exact hplaces

end Outcome

/-- What is known where a rule is run: about the next token, and about what stands just behind as
long as a token is left. -/
structure Input.Known (sure ending ended : Bool) (behind : Option Kind) (input : Input) : Prop where
  sure : input.Sure sure
  ending : input.Next [.endKw] ending
  ended : ended = true → input.ahead ≠ [] → behind = some .endKw

theorem Input.known_nothing (input : Input) (behind : Option Kind) :
    input.Known false false false behind :=
  ⟨input.sure_false, nofun, nofun⟩

theorem Input.Known.flushed {sure ending ended : Bool} {behind other : Option Kind} {input : Input}
    (h : input.Known sure ending ended behind) : input.flushed.Known sure ending false other :=
  ⟨h.sure.flushed, h.ending.flushed, nofun⟩

theorem Input.known_of_holds {guard : Guard} {behind : Option Kind} {input : Input}
    (hholds : guard.holds input.ahead = true) :
    input.Known guard.seesReserved (guard.seesOnly [.endKw]) false behind :=
  ⟨fun hreserved => Guard.isKeyword_of_seesReserved hreserved hholds,
    fun honly => Guard.mem_of_seesOnly honly hholds, nofun⟩

namespace Rule

variable {around : Kind} {behind : Option Kind} {sure ending ended : Bool} {input : Input}

theorem inPlace_runFlush (input : Input) : (runFlush input).InPlace around behind input :=
  ⟨input.pending, input.tokens_eq_pending_append, Tree.holds_map_token around behind _⟩

theorem inPlace_runBump {rename : Token → Token} (h : input.Sorted)
    (hrename : ∀ lexeme ∈ input.ahead.head?,
      Spot.Holds ⟨rename lexeme.token, around, behind⟩ lexeme.token) :
    (runBump rename input).InPlace around behind input := by
  obtain ⟨ahead, trailing, stop⟩ := input
  cases ahead with
  | nil => exact inPlace_runFlush _
  | cons lexeme rest =>
    refine ⟨lexeme.tokens, by simp [runBump, Input.tokens], ?_⟩
    change List.Forall₂ _ (Tree.spotsOf around behind (lexeme.trivia.map .token ++ _)) _
    rw [Tree.spotsOf_append, Tree.lastKindOf_trivia (h.1 lexeme (by simp)).1]
    exact List.rel_append (Tree.holds_map_token around behind _) (.cons (hrename lexeme rfl) .nil)

theorem inPlace_runBalancedTo (stops : List Kind) (input : Input) :
    (runBalancedTo stops input).InPlace around behind input := by
  have hsplit := splitBalanced_append stops 0 input.ahead
  refine ⟨(splitBalanced stops 0 input.ahead).1.flatMap Lexeme.tokens, ?_, ?_⟩
  · rw [Input.tokens, ← hsplit, List.flatMap_append, List.append_assoc, hsplit]
    rfl
  · change List.Forall₂ _ (Tree.spotsOf around behind (treesOf _)) _
    rw [treesOf_eq]
    exact Tree.holds_map_token around behind _

theorem known_runBump (h : input.Sorted) (hending : input.Next [.endKw] ending) :
    (runBump id input).rest.Known false false ending
      (Tree.lastKindOf behind (runBump id input).trees) := by
  refine ⟨Input.sure_false _, nofun, fun hknown hne => ?_⟩
  obtain ⟨ahead, trailing, stop⟩ := input
  cases ahead with
  | nil => exact absurd rfl hne
  | cons lexeme rest =>
    have hend : lexeme.token.kind = .endKw := List.mem_singleton.mp (hending hknown lexeme rfl)
    change Tree.lastKindOf behind (lexeme.trivia.map .token ++ [.token lexeme.token]) = _
    rw [Tree.lastKindOf, List.foldl_append]
    simp [Tree.lastKind, hend, show Kind.endKw.isTrivia = false from rfl]

theorem inPlace_runMany {guard : Guard} {step : Input → Outcome}
    (htakes : ∀ input : Input, input.Sorted → (step input).Takes input)
    (hstep : ∀ (input : Input) (behind : Option Kind), input.Sorted →
      guard.holds input.ahead = true → (step input).InPlace around behind input)
    (bound : Nat) (h : input.Sorted) :
    (runMany guard step bound input).InPlace around behind input := by
  induction bound generalizing input behind with
  | zero => exact Outcome.inPlace_none
  | succ bound ih =>
    rw [runMany]
    split
    · next hholds => exact (hstep input behind h hholds).andThen (ih (htakes input h).sorted)
    · exact Outcome.inPlace_none

theorem inPlace_runWith {nested : Input → Outcome}
    (htakes : ∀ input : Input, input.Sorted → (nested input).Takes input)
    (hnested : ∀ (input : Input) (around : Kind) (behind : Option Kind), input.Sorted →
      (nested input).InPlace around behind input)
    (rule : Rule) (hrule : rule.renamesToIdent = true)
    (hplaces : rule.renamesInPlace around sure ending ended = true) (h : input.Sorted)
    (hknown : input.Known sure ending ended behind) :
    (rule.runWith nested input).InPlace around behind input := by
  induction rule generalizing input around behind sure ending ended with
  | skip | report => exact ⟨[], rfl, .nil⟩
  | bump => exact inPlace_runBump h fun _ _ => .inl rfl
  | bumpAs kind =>
    simp only [renamesInPlace, Bool.and_eq_true, Bool.or_eq_true, beq_iff_eq] at hplaces
    obtain ⟨⟨rfl, hsure⟩, hplace⟩ := hplaces
    refine inPlace_runBump h fun lexeme hlexeme => .inr ⟨rfl, hknown.sure hsure lexeme hlexeme, ?_⟩
    refine hplace.imp_right fun ⟨hmodel, hended⟩ => ⟨hmodel, hknown.ended hended ?_⟩
    rintro hnil
    rw [hnil] at hlexeme
    cases hlexeme
  | flush => exact inPlace_runFlush input
  | seq first second ihFirst ihSecond =>
    simp only [renamesToIdent, Bool.and_eq_true] at hrule
    simp only [renamesInPlace, Bool.and_eq_true] at hplaces
    have hfirst := takes_runWith htakes first hrule.1 h
    refine (ihFirst hrule.1 hplaces.1 h hknown).andThen
      (ihSecond hrule.2 hplaces.2 hfirst.sorted ?_)
    cases first with
    | bump => exact known_runBump h hknown.ending
    | _ => exact Input.known_nothing _ _
  | choose guard yes no ihYes ihNo =>
    simp only [renamesToIdent, Bool.and_eq_true] at hrule
    simp only [renamesInPlace, Bool.and_eq_true] at hplaces
    simp only [runWith]
    split
    · next hholds =>
      exact ihYes hrule.1 hplaces.1 h
        ⟨hknown.sure.of_holds hholds, hknown.ending.of_holds hholds, hknown.ended⟩
    · exact ihNo hrule.2 hplaces.2 h hknown
  | many guard body ih =>
    exact inPlace_runMany (fun _ hother => takes_runWith htakes body hrule hother)
      (fun _ _ hother hholds => ih hrule hplaces hother (Input.known_of_holds hholds)) _ h
  | balancedTo stops => exact inPlace_runBalancedTo stops input
  | node kind body ih =>
    exact (inPlace_runFlush input).andThen
      (ih hrule hplaces (Input.sorted_flushed h) hknown.flushed).wrap
  | extendAs kind first guard second ihFirst ihSecond =>
    simp only [renamesToIdent, Bool.and_eq_true] at hrule
    simp only [renamesInPlace, Bool.and_eq_true] at hplaces
    have hsorted := Input.sorted_flushed h
    have hhead := takes_runWith htakes first hrule.1 hsorted
    refine (inPlace_runFlush input).andThen ?_
    dsimp only
    split
    · next hholds =>
      -- What the first rule took is wrapped, so the first rule is looked at inside the node.
      exact ((ihFirst hrule.1 hplaces.1.2 hsorted hknown.flushed).andThen
        (ihSecond hrule.2 hplaces.2 hhead.sorted (Input.known_of_holds hholds))).wrap
    · exact ihFirst hrule.1 hplaces.1.1 hsorted hknown.flushed
  | nested => exact hnested input around behind h

end Rule

namespace Grammar

theorem renamesInPlace_enumType (around : Kind) :
    enumType.renamesInPlace around false false false = true := by
  rw [enumType, Rule.renamesInPlace]
  decide

theorem renamesInPlace_file : file.renamesInPlace .sourceFile false false false = true := by
  decide

theorem inPlace_runNested (depth : Nat) (input : Input) (around : Kind) (behind : Option Kind)
    (h : input.Sorted) : (Rule.runNested enumType depth input).InPlace around behind input := by
  induction depth generalizing input around behind with
  | zero => exact Outcome.inPlace_none
  | succ depth ih =>
    exact Rule.inPlace_runWith (takes_nested depth) ih enumType renamesToIdent_enumType
      (renamesInPlace_enumType around) h (Input.known_nothing input behind)

end Grammar

/-- The tokens of a tree are those of its text; the reserved words among them that have become
identifiers stand where names stand. -/
theorem holds_parse (text : String) :
    List.Forall₂ Spot.Holds ((parse text).tree.spots .sourceFile none) (tokenize text) := by
  have hsorted := Input.sorted_ofText text
  obtain ⟨taken, htaken, hplaces⟩ := Rule.inPlace_runWith
    (Grammar.takes_nested (Input.ofText text).ahead.length)
    (Grammar.inPlace_runNested (Input.ofText text).ahead.length) Grammar.file
    Grammar.renamesToIdent_file Grammar.renamesInPlace_file hsorted
    (Input.known_nothing (Input.ofText text) none)
  have hnil := Grammar.rest_run_file hsorted
  rw [Rule.run] at hnil
  rw [hnil, List.append_nil, Input.tokens_ofText] at htaken
  rw [htaken]
  exact hplaces

/-- Parsing a text ends, with every node that was started finished, and nothing is lost: the leaves
of the tree are the tokens of the text in order, with the same texts, and under their own kinds but
for reserved words where names stand. -/
theorem parse_isLossless (text : String) :
    (∃ last : Parsing,
      (∀ other, Rule.Runs Grammar.enumType Grammar.file (.ofText text) other ↔ other = last) ∧
        last.input.tokens = [] ∧ last.errors = (parse text).errors ∧ last.builder.outer = [] ∧
        (parse text).tree = .node last.builder.kind last.builder.row) ∧
      ((parse text).tree.spots .sourceFile none).map Spot.token = (parse text).tree.tokens ∧
      List.Forall₂ Spot.Holds ((parse text).tree.spots .sourceFile none) (tokenize text) ∧
      (parse text).tree.tokens.map Token.text = (tokenize text).map Token.text ∧
      (parse text).tree.text = text := by
  obtain ⟨last, hruns, hrest, herrors, houter, htree⟩ := runs_parse text
  have hspots := Tree.map_token_spots .sourceFile none (parse text).tree
  have hholds := holds_parse text
  have htexts : (parse text).tree.tokens.map Token.text = (tokenize text).map Token.text := by
    rw [← hspots, List.map_map, ← List.forall₂_eq_eq_eq, List.forall₂_map_left_iff,
      List.forall₂_map_right_iff]
    exact hholds.imp fun _ _ hhere => hhere.text_eq
  refine ⟨⟨last, fun other => ⟨hruns.unique, ?_⟩, hrest, herrors, houter, htree⟩, hspots, hholds,
    htexts, ?_⟩
  · rintro rfl
    exact hruns
  · have hjoin : (parse text).tree.text = String.join ((parse text).tree.tokens.map Token.text) :=
      rfl
    rw [hjoin, htexts, ← String.toList_inj, String.toList_join, List.flatMap_map]
    exact spelling_tokenize text

end Ili
