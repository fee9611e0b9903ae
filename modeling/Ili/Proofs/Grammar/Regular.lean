import Ili.Proofs.Grammar.Blocks
import Ili.Proofs.Token.Reading

/-!
# What nodes and identifiers look like

Three facts about trees that layout relies on, read off the rules in one induction: nodes are of
composite kinds; what is called an identifier is a word; and the node of a text type holds a
reserved word, then at most a star and an integer. A token is renamed, and a text type begun, only
where a guard has seen a reserved word.
-/

namespace Ili

def Token.isWordLike (token : Token) : Bool :=
  token.text.toList.head?.any Char.isAlpha

namespace Tree

def allTokens (row : List Tree) : Bool :=
  row.all fun tree =>
    match tree with
    | token _ => true
    | node _ _ => false

/-- A reserved word, and perhaps a star and an integer behind it. -/
def isTextRow : List Kind → Bool
  | [] => true
  | [word] => word.isKeyword
  | [word, .star] => word.isKeyword
  | [word, .star, .integer] => word.isKeyword
  | _ => false

def visibleKinds (row : List Tree) : List Kind :=
  (visible (tokensOf row)).map Token.kind

mutual

/-- Nodes are of composite kinds, identifiers are words, text types are rows of tokens of their
kind. -/
def Regular : Tree → Prop
  | token t => t.kind = .ident → t.isWordLike = true
  | node kind children =>
    kind.isNode = true ∧
      (kind = .textType → allTokens children = true ∧ isTextRow (visibleKinds children) = true) ∧
      RegularAll children

def RegularAll : List Tree → Prop
  | [] => True
  | tree :: rest => tree.Regular ∧ RegularAll rest

end

theorem regularAll_append {left right : List Tree} :
    RegularAll (left ++ right) ↔ RegularAll left ∧ RegularAll right := by
  induction left with
  | nil => simp [RegularAll]
  | cons tree rest ih => simp [RegularAll, ih, and_assoc]

theorem regularAll_map_token {row : List Token}
    (h : ∀ t ∈ row, t.kind = .ident → t.isWordLike = true) : RegularAll (row.map token) := by
  induction row with
  | nil => trivial
  | cons t rest ih =>
    exact ⟨h t List.mem_cons_self, ih fun other hother => h other (List.mem_cons_of_mem _ hother)⟩

theorem allTokens_map_token (row : List Token) : allTokens (row.map token) = true := by
  simp [allTokens]

theorem visibleKinds_map_token (row : List Token) :
    visibleKinds (row.map token) = (visible row).map Token.kind := by
  rw [visibleKinds, tokensOf_map_token]

end Tree

namespace Guard

def seesReserved : Guard → Bool
  | sees kinds => kinds.all Kind.isKeyword
  | seesKeyword => true
  | both left right => left.seesReserved || right.seesReserved
  | either left right => left.seesReserved && right.seesReserved
  | more | seesWord _ | thenSees _ | thenSeesKeyword | sentenceOf _ | negate _ => false

theorem isKeyword_of_seesReserved {guard : Guard} {ahead : List Lexeme}
    (h : guard.seesReserved = true) (hholds : guard.holds ahead = true) :
    ∀ lexeme ∈ ahead.head?, lexeme.kind.isKeyword = true := by
  induction guard with
  | sees kinds =>
    intro lexeme hlexeme
    rw [holds, Option.mem_def.mp hlexeme, Option.any_some, List.contains_iff_mem] at hholds
    exact List.all_eq_true.mp h _ hholds
  | seesKeyword =>
    intro lexeme hlexeme
    rwa [holds, Option.mem_def.mp hlexeme, Option.any_some] at hholds
  | both left right ihLeft ihRight =>
    simp only [seesReserved, Bool.or_eq_true] at h
    simp only [holds, Bool.and_eq_true] at hholds
    exact h.elim (fun h => ihLeft h hholds.1) (fun h => ihRight h hholds.2)
  | either left right ihLeft ihRight =>
    simp only [seesReserved, Bool.and_eq_true] at h
    simp only [holds, Bool.or_eq_true] at hholds
    exact hholds.elim (ihLeft h.1) (ihRight h.2)
  | more | seesWord | thenSees | thenSeesKeyword | sentenceOf | negate => cases h

end Guard

namespace Rule

def isTextBody : Rule → Bool
  | .bump => true
  | .seq .bump (.choose (.sees [.star])
      (.seq .bump (.choose (.sees [.integer]) .bump (.report _))) .skip) => true
  | _ => false

/-- Trees built by the rule are regular. With `sure` the next token is a reserved word. -/
def buildsRegular (sure : Bool) : Rule → Bool
  | .bumpAs kind => kind == .ident && sure
  | .seq first second => first.buildsRegular sure && second.buildsRegular false
  | .choose guard yes no =>
    yes.buildsRegular (sure || guard.seesReserved) && no.buildsRegular sure
  | .many guard body => body.buildsRegular guard.seesReserved
  | .node kind body =>
    kind.isNode && (kind != .textType || sure && body.isTextBody) && body.buildsRegular sure
  | .extendAs kind first guard second =>
    kind.isNode && kind != .textType && first.buildsRegular sure &&
      second.buildsRegular guard.seesReserved
  | .skip | .bump | .flush | .report _ | .balancedTo _ | .nested => true

end Rule

namespace Input

def Sure (sure : Bool) (input : Input) : Prop :=
  sure = true → ∀ lexeme ∈ input.ahead.head?, lexeme.kind.isKeyword = true

/-- Identifiers and reserved words ahead start with a letter. -/
def Worded (input : Input) : Prop :=
  ∀ lexeme ∈ input.ahead,
    (lexeme.kind == .ident || lexeme.kind.isKeyword) = true → lexeme.token.isWordLike = true

theorem Sure.flushed {sure : Bool} {input : Input} (h : input.Sure sure) :
    input.flushed.Sure sure := by
  intro hsure lexeme hlexeme
  obtain ⟨ahead, trailing, stop⟩ := input
  cases ahead with
  | nil => cases hlexeme
  | cons first rest =>
    obtain rfl := Option.some.inj hlexeme
    exact h hsure first rfl

theorem Sure.of_holds {sure : Bool} {input : Input} {guard : Guard} (h : input.Sure sure)
    (hholds : guard.holds input.ahead = true) : input.Sure (sure || guard.seesReserved) := by
  intro hor
  rcases (Bool.or_eq_true _ _).mp hor with hsure | hreserved
  · exact h hsure
  · exact Guard.isKeyword_of_seesReserved hreserved hholds

theorem sure_false (input : Input) : input.Sure false :=
  fun h => absurd h Bool.false_ne_true

theorem Worded.of_tokens {input other : Input} (h : input.Worded)
    (hsub : ∀ token ∈ other.ahead.map Lexeme.token, token ∈ input.ahead.map Lexeme.token) :
    other.Worded := by
  intro lexeme hlexeme hkind
  obtain ⟨first, hfirst, htoken⟩ := List.mem_map.mp
    (hsub lexeme.token (List.mem_map_of_mem hlexeme))
  have hsame : first.kind = lexeme.kind := congrArg Token.kind htoken
  rw [← htoken]
  exact h first hfirst (by rw [hsame]; exact hkind)

theorem Worded.flushed {input : Input} (h : input.Worded) : input.flushed.Worded := by
  apply h.of_tokens
  obtain ⟨ahead, trailing, stop⟩ := input
  cases ahead <;> simp [Input.flushed]

end Input

theorem Outcome.Takes.worded {outcome : Outcome} {input : Input} (h : outcome.Takes input)
    (hworded : input.Worded) : outcome.rest.Worded := by
  obtain ⟨taken, htaken, -⟩ := h.ahead
  apply hworded.of_tokens
  intro token htoken
  rw [htaken]
  exact List.mem_append_right _ htoken

namespace Rule

theorem regular_trivia {row : List Token} (h : ∀ t ∈ row, t.kind.isTrivia = true) :
    Tree.RegularAll (row.map .token) := by
  apply Tree.regularAll_map_token
  intro t ht hkind
  have htrivia := h t ht
  rw [hkind] at htrivia
  cases htrivia

theorem regular_runFlush {input : Input} (h : input.Sorted) :
    Tree.RegularAll (runFlush input).trees :=
  regular_trivia (Input.isTrivia_of_mem_pending h)

theorem regular_runBump {rename : Token → Token} {input : Input} (h : input.Sorted)
    (hrename : ∀ lexeme ∈ input.ahead.head?, (rename lexeme.token).kind = .ident →
      (rename lexeme.token).isWordLike = true) :
    Tree.RegularAll (runBump rename input).trees := by
  obtain ⟨ahead, trailing, stop⟩ := input
  cases ahead with
  | nil => exact regular_runFlush h
  | cons lexeme rest =>
    exact Tree.regularAll_append.mpr
      ⟨regular_trivia (h.1 lexeme (by simp)).1, hrename lexeme rfl, trivial⟩

theorem isWordLike_of_head {input : Input} (hworded : input.Worded) :
    ∀ lexeme ∈ input.ahead.head?, (lexeme.kind == .ident || lexeme.kind.isKeyword) = true →
      lexeme.token.isWordLike = true := by
  intro lexeme hlexeme
  exact hworded lexeme (List.mem_of_mem_head? hlexeme)

theorem regular_runBalancedTo (stops : List Kind) {input : Input} (h : input.Sorted)
    (hworded : input.Worded) : Tree.RegularAll (runBalancedTo stops input).trees := by
  have hsplit := splitBalanced_append stops 0 input.ahead
  change Tree.RegularAll (treesOf _)
  rw [treesOf_eq]
  apply Tree.regularAll_map_token
  intro token htoken hkind
  obtain ⟨lexeme, hlexeme, htoken⟩ := List.mem_flatMap.mp htoken
  have hmem : lexeme ∈ input.ahead := by
    rw [← hsplit]
    exact List.mem_append_left _ hlexeme
  rcases List.mem_append.mp htoken with htrivia | hword
  · have hkind' := (h.1 lexeme hmem).1 token htrivia
    rw [hkind] at hkind'
    cases hkind'
  · obtain rfl := List.mem_singleton.mp hword
    have hident : lexeme.kind = .ident := hkind
    exact hworded lexeme hmem (by rw [hident]; rfl)

theorem trees_runBump (input : Input) :
    ∃ row, (runBump id input).trees = row.map .token ∧
      (input.Sorted → (visible row).map Token.kind =
        (input.ahead.head?.map Lexeme.kind).toList) := by
  obtain ⟨ahead, trailing, stop⟩ := input
  cases ahead with
  | nil =>
    refine ⟨trailing, rfl, fun h => ?_⟩
    rw [visible_eq_nil_iff.mpr h.2]
    rfl
  | cons lexeme rest =>
    refine ⟨lexeme.trivia ++ [lexeme.token], by simp [runBump], fun h => ?_⟩
    obtain ⟨htrivia, hvisible⟩ := h.1 lexeme (by simp)
    have hword : visible [lexeme.token] = [lexeme.token] := by simp [visible, hvisible]
    rw [visible_append, visible_eq_nil_iff.mpr htrivia, hword]
    rfl

theorem visibleKinds_append (left right : List Tree) :
    Tree.visibleKinds (left ++ right) = Tree.visibleKinds left ++ Tree.visibleKinds right := by
  rw [Tree.visibleKinds, Tree.tokensOf_append, visible_append, List.map_append]
  rfl

theorem allTokens_append (left right : List Tree) :
    Tree.allTokens (left ++ right) = (Tree.allTokens left && Tree.allTokens right) :=
  List.all_append

theorem textRow_runBump {input : Input} (h : input.Sorted) :
    Tree.allTokens (runBump id input).trees = true ∧
      Tree.visibleKinds (runBump id input).trees =
        (input.ahead.head?.map Lexeme.kind).toList := by
  obtain ⟨row, htrees, hkinds⟩ := trees_runBump input
  rw [htrees, Tree.visibleKinds_map_token]
  exact ⟨Tree.allTokens_map_token row, hkinds h⟩

theorem textRow_append {first second : List Tree}
    (hfirst : Tree.allTokens first = true) (hsecond : Tree.allTokens second = true) :
    Tree.allTokens (first ++ second) = true := by
  rw [allTokens_append, hfirst, hsecond]
  rfl

section TextType

variable {nested : Input → Outcome} {guard : Guard} {yes no : Rule} {input : Input}

theorem runWith_choose_of_holds (h : guard.holds input.ahead = true) :
    (Rule.choose guard yes no).runWith nested input = yes.runWith nested input :=
  if_pos h

theorem runWith_choose_of_not_holds (h : guard.holds input.ahead = false) :
    (Rule.choose guard yes no).runWith nested input = no.runWith nested input :=
  if_neg (by rw [h]; exact Bool.false_ne_true)

theorem visibleKinds_of_sees (h : input.Sorted) {kind : Kind}
    (hholds : (Guard.sees [kind]).holds input.ahead = true) :
    Tree.visibleKinds (runBump id input).trees = [kind] := by
  rw [(textRow_runBump h).2]
  cases hhead : input.ahead.head? with
  | none =>
    rw [Guard.holds, hhead] at hholds
    cases hholds
  | some lexeme =>
    rw [Guard.holds, hhead] at hholds
    have hkind : lexeme.kind = kind := by simpa using hholds
    rw [Option.map_some, hkind]
    rfl

theorem sorted_runBump (h : input.Sorted) : (runBump id input).rest.Sorted :=
  (takes_runBump h fun _ _ => .inl rfl : (runBump id input).Takes input).sorted

theorem textRow_length (nested : Input → Outcome) (problem : Problem) (h : input.Sorted) :
    let trees := (runWith nested (.choose (.sees [.integer]) .bump (.report problem)) input).trees
    Tree.allTokens trees = true ∧
      (Tree.visibleKinds trees = [] ∨ Tree.visibleKinds trees = [.integer]) := by
  cases hholds : (Guard.sees [.integer]).holds input.ahead with
  | true =>
    rw [runWith_choose_of_holds hholds]
    exact ⟨(textRow_runBump h).1, .inr (visibleKinds_of_sees h hholds)⟩
  | false =>
    rw [runWith_choose_of_not_holds hholds]
    exact ⟨rfl, .inl rfl⟩

theorem textRow_star (nested : Input → Outcome) (problem : Problem) (h : input.Sorted) :
    let trees := (runWith nested (.choose (.sees [.star])
      (.seq .bump (.choose (.sees [.integer]) .bump (.report problem))) .skip) input).trees
    Tree.allTokens trees = true ∧
      (Tree.visibleKinds trees = [] ∨ input.ahead ≠ [] ∧
        (Tree.visibleKinds trees = [.star] ∨ Tree.visibleKinds trees = [.star, .integer])) := by
  cases hholds : (Guard.sees [.star]).holds input.ahead with
  | true =>
    rw [runWith_choose_of_holds hholds]
    have hlength := textRow_length nested problem (sorted_runBump h)
    have hkinds := visibleKinds_of_sees h hholds
    refine ⟨textRow_append (textRow_runBump h).1 hlength.1, .inr ⟨?_, ?_⟩⟩
    · intro hnil
      rw [hnil] at hholds
      cases hholds
    · change Tree.visibleKinds ((runBump id input).trees ++ _) = _ ∨
        Tree.visibleKinds ((runBump id input).trees ++ _) = _
      rw [visibleKinds_append, hkinds]
      rcases hlength.2 with hnone | hsome
      · exact .inl (congrArg (List.cons Kind.star) hnone)
      · exact .inr (congrArg (List.cons Kind.star) hsome)
  | false =>
    rw [runWith_choose_of_not_holds hholds]
    exact ⟨rfl, .inl rfl⟩

theorem textRow_of_isTextBody {body : Rule} (hbody : body.isTextBody = true) (h : input.Sorted)
    (hsure : input.Sure true) :
    Tree.allTokens (body.runWith nested input).trees = true ∧
      Tree.isTextRow (Tree.visibleKinds (body.runWith nested input).trees) = true := by
  have hbump := textRow_runBump h
  unfold isTextBody at hbody
  split at hbody
  · refine ⟨hbump.1, ?_⟩
    change Tree.isTextRow (Tree.visibleKinds (runBump id input).trees) = true
    rw [hbump.2]
    cases hhead : input.ahead.head? with
    | none => rfl
    | some lexeme => exact hsure rfl lexeme hhead
  · next problem =>
    have hstar := textRow_star nested problem (sorted_runBump h)
    refine ⟨textRow_append hbump.1 hstar.1, ?_⟩
    change Tree.isTextRow (Tree.visibleKinds ((runBump id input).trees ++ _)) = true
    rw [visibleKinds_append, hbump.2]
    cases hhead : input.ahead.head? with
    | none =>
      have hrest : (runBump id input).rest.ahead = [] := by
        have hnil := List.head?_eq_none_iff.mp hhead
        simp [runBump, runFlush, Input.flushed, hnil]
      rcases hstar.2 with hnone | ⟨hne, -⟩
      · exact congrArg Tree.isTextRow hnone
      · exact absurd hrest hne
    | some lexeme =>
      have hkeyword := hsure rfl lexeme hhead
      have hrow (kinds : List Kind) (hkinds : kinds = [] ∨ kinds = [.star] ∨
          kinds = [.star, .integer]) : Tree.isTextRow (lexeme.kind :: kinds) = true := by
        rcases hkinds with rfl | rfl | rfl <;> exact hkeyword
      exact hrow _ (hstar.2.imp id And.right)
  · cases hbody

end TextType

theorem regular_runMany {guard : Guard} {step : Input → Outcome}
    (htakes : ∀ input : Input, input.Sorted → (step input).Takes input)
    (hstep : ∀ input : Input, input.Sorted → input.Worded → input.Sure guard.seesReserved →
      Tree.RegularAll (step input).trees)
    (bound : Nat) {input : Input} (h : input.Sorted) (hworded : input.Worded) :
    Tree.RegularAll (runMany guard step bound input).trees := by
  induction bound generalizing input with
  | zero => trivial
  | succ bound ih =>
    rw [runMany]
    split
    · next hholds =>
      have hfirst := htakes input h
      have hsure : input.Sure guard.seesReserved :=
        fun hreserved => Guard.isKeyword_of_seesReserved hreserved hholds
      exact Tree.regularAll_append.mpr
        ⟨hstep input h hworded hsure, ih hfirst.sorted (hfirst.worded hworded)⟩
    · trivial

theorem regular_runWith {nested : Input → Outcome}
    (htakes : ∀ input : Input, input.Sorted → (nested input).Takes input)
    (hnested : ∀ input : Input, input.Sorted → input.Worded → Tree.RegularAll (nested input).trees)
    (rule : Rule) (hrule : rule.renamesToIdent = true) {sure : Bool}
    (hbuilds : rule.buildsRegular sure = true) {input : Input} (h : input.Sorted)
    (hworded : input.Worded) (hsure : input.Sure sure) :
    Tree.RegularAll (rule.runWith nested input).trees := by
  induction rule generalizing input sure with
  | skip | report => trivial
  | bump =>
    apply regular_runBump h
    intro lexeme hlexeme hkind
    have hident : lexeme.kind = .ident := hkind
    exact isWordLike_of_head hworded lexeme hlexeme (by rw [hident]; rfl)
  | bumpAs kind =>
    simp only [buildsRegular, Bool.and_eq_true] at hbuilds
    apply regular_runBump h
    intro lexeme hlexeme _
    exact isWordLike_of_head hworded lexeme hlexeme
      (by rw [hsure hbuilds.2 lexeme hlexeme, Bool.or_true])
  | flush => exact regular_runFlush h
  | seq first second ihFirst ihSecond =>
    simp only [renamesToIdent, Bool.and_eq_true] at hrule
    simp only [buildsRegular, Bool.and_eq_true] at hbuilds
    have hfirst := takes_runWith htakes first hrule.1 h
    exact Tree.regularAll_append.mpr ⟨ihFirst hrule.1 hbuilds.1 h hworded hsure,
      ihSecond hrule.2 hbuilds.2 hfirst.sorted (hfirst.worded hworded)
        (Input.sure_false _)⟩
  | choose guard yes no ihYes ihNo =>
    simp only [renamesToIdent, Bool.and_eq_true] at hrule
    simp only [buildsRegular, Bool.and_eq_true] at hbuilds
    cases hholds : guard.holds input.ahead with
    | true =>
      rw [runWith_choose_of_holds hholds]
      exact ihYes hrule.1 hbuilds.1 h hworded (hsure.of_holds hholds)
    | false =>
      rw [runWith_choose_of_not_holds hholds]
      exact ihNo hrule.2 hbuilds.2 h hworded hsure
  | many guard body ih =>
    exact regular_runMany (fun _ hother => takes_runWith htakes body hrule hother)
      (fun _ hother hwords hreserved => ih hrule hbuilds hother hwords hreserved) _ h hworded
  | balancedTo stops => exact regular_runBalancedTo stops h hworded
  | node kind body ih =>
    simp only [buildsRegular, Bool.and_eq_true, Bool.or_eq_true, bne_iff_ne] at hbuilds
    obtain ⟨⟨hnode, htext⟩, hbody⟩ := hbuilds
    have hsorted := Input.sorted_flushed h
    refine Tree.regularAll_append.mpr ⟨regular_runFlush h, ⟨hnode, ?_, ?_⟩, trivial⟩
    · intro hkind
      obtain ⟨rfl, hshape⟩ := htext.resolve_left (fun hne => hne hkind)
      exact textRow_of_isTextBody hshape hsorted hsure.flushed
    · exact ih hrule hbody hsorted hworded.flushed hsure.flushed
  | extendAs kind first guard second ihFirst ihSecond =>
    simp only [renamesToIdent, Bool.and_eq_true] at hrule
    simp only [buildsRegular, Bool.and_eq_true, bne_iff_ne] at hbuilds
    obtain ⟨⟨⟨hnode, htext⟩, hfirst⟩, hsecond⟩ := hbuilds
    have hsorted := Input.sorted_flushed h
    have hhead := takes_runWith htakes first hrule.1 hsorted
    have hregular := ihFirst hrule.1 hfirst hsorted hworded.flushed hsure.flushed
    refine Tree.regularAll_append.mpr ⟨regular_runFlush h, ?_⟩
    dsimp only
    split
    · next hholds =>
      have hreserved : (first.runWith nested input.flushed).rest.Sure guard.seesReserved :=
        fun hreserved => Guard.isKeyword_of_seesReserved hreserved hholds
      exact ⟨⟨hnode, fun hkind => absurd hkind htext, Tree.regularAll_append.mpr ⟨hregular,
        ihSecond hrule.2 hsecond hhead.sorted (hhead.worded hworded.flushed) hreserved⟩⟩, trivial⟩
    · exact hregular
  | nested => exact hnested input h hworded

theorem regular_runNested {inner : Rule} (hrename : inner.renamesToIdent = true)
    (hbuilds : inner.buildsRegular false = true) (depth : Nat) {input : Input} (h : input.Sorted)
    (hworded : input.Worded) : Tree.RegularAll (runNested inner depth input).trees := by
  induction depth generalizing input with
  | zero => trivial
  | succ depth ih =>
    exact regular_runWith (fun _ hother => takes_runNested hrename depth hother)
      (fun _ hother hwords => ih hother hwords) inner hrename hbuilds h hworded
        (Input.sure_false _)

end Rule

theorem Token.Heads.isWordLike {token : Token} {rest : List Char} (h : token.Heads rest)
    (hkind : (token.kind == .ident || token.kind.isKeyword) = true) : token.isWordLike = true := by
  obtain ⟨c, cs, htext, hmunch⟩ := h
  have halpha : c.isAlpha = true := by
    apply Lexer.isAlpha_of_munch (cs ++ rest)
    rw [hmunch]
    exact hkind
  rw [Token.isWordLike, htext, List.head?_cons, Option.any_some, halpha]

theorem worded_ofText (text : String) : (Input.ofText text).Worded := by
  intro lexeme hlexeme hkind
  have hmem : lexeme.token ∈ tokenize text := by
    rw [← Input.tokens_ofText, Input.tokens]
    exact List.mem_append_left _ (List.mem_flatMap.mpr ⟨lexeme, hlexeme, by simp [Lexeme.tokens]⟩)
  obtain ⟨rest, hheads⟩ := (tiled_tokenize text).heads_of_mem hmem
  exact hheads.isWordLike hkind

theorem regular_parse (text : String) : (parse text).tree.Regular := by
  refine ⟨rfl, nofun, ?_⟩
  exact Rule.regular_runWith (Grammar.takes_nested _)
    (fun _ hother hwords => Rule.regular_runNested Grammar.renamesToIdent_enumType (by decide) _
      hother hwords)
    Grammar.file Grammar.renamesToIdent_file (by decide) (Input.sorted_ofText text)
    (worded_ofText text) (Input.sure_false _)

mutual

theorem Tree.Regular.isWordLike {tree : Tree} (h : tree.Regular) :
    ∀ t ∈ tree.tokens, t.kind = .ident → t.isWordLike = true := by
  match tree with
  | .token t =>
    intro other hother
    rw [List.mem_singleton.mp hother]
    exact h
  | .node kind children => exact Tree.RegularAll.isWordLike h.2.2

theorem Tree.RegularAll.isWordLike {row : List Tree} (h : Tree.RegularAll row) :
    ∀ t ∈ Tree.tokensOf row, t.kind = .ident → t.isWordLike = true := by
  match row with
  | [] => simp [Tree.tokensOf]
  | tree :: rest =>
    intro t ht
    rw [Tree.tokensOf, List.mem_append] at ht
    exact ht.elim (Tree.Regular.isWordLike h.1 t) (Tree.RegularAll.isWordLike h.2 t)

end

namespace Token

/-- The token as it was cut: a reserved word taken as an identifier is a reserved word again. -/
def restore (token : Token) : Token :=
  if token.kind = .ident then { token with kind := Kind.ofWord token.text } else token

theorem text_restore (token : Token) : token.restore.text = token.text := by
  unfold restore
  split <;> rfl

theorem restore_of_ne {token : Token} (h : token.kind ≠ .ident) : token.restore = token :=
  if_neg h

theorem isTrivia_of_word {kind : Kind} (h : (kind == .ident || kind.isKeyword) = true) :
    kind.isTrivia = false := by
  revert h
  cases kind <;> decide

theorem isTrivia_restore (token : Token) : token.restore.kind.isTrivia = token.kind.isTrivia := by
  unfold restore
  split
  · next hident =>
    rw [hident]
    exact isTrivia_of_word (isWord_ofWord token.text)
  · rfl

theorem Heads.munch_of_isWordLike {token : Token} {rest : List Char} (h : token.Heads rest)
    (hword : token.isWordLike = true) :
    ∃ c cs, token.text.toList = c :: cs ∧ c.isAlpha = true ∧
      Kind.ofWord (String.ofList (c :: (cs ++ rest).takeWhile Lexer.isWordChar)) = token.kind ∧
      Lexer.count Lexer.isWordChar (cs ++ rest) = cs.length := by
  obtain ⟨c, cs, htext, hmunch⟩ := h
  have halpha : c.isAlpha = true := by
    rw [Token.isWordLike, htext] at hword
    exact hword
  have hblank : ¬Lexer.isBlank c = true := by
    simp only [Lexer.isBlank, Bool.or_eq_true, beq_iff_eq]
    rintro ((((rfl | rfl) | rfl) | rfl) | rfl) <;> cases halpha
  rw [Lexer.munch, if_neg hblank, if_pos halpha] at hmunch
  obtain ⟨hkind, hlength⟩ := Prod.mk.inj hmunch
  exact ⟨c, cs, htext, halpha, hkind, hlength⟩

theorem Heads.read_of_isWordLike {token : Token} {rest : List Char} (h : token.Heads rest)
    (hword : token.isWordLike = true) :
    token.kind = Kind.ofWord token.text ∧ rest.head?.any Lexer.isWordChar = false := by
  obtain ⟨c, cs, htext, -, hkind, hlength⟩ := h.munch_of_isWordLike hword
  refine ⟨?_, (Lexer.count_eq_length_iff.mp hlength).2⟩
  rw [← hkind, Lexer.takeWhile_of_count hlength, ← htext, String.ofList_toList]

theorem Heads.forall_isWordChar {token : Token} {rest : List Char} (h : token.Heads rest)
    (hword : token.isWordLike = true) : ∀ c ∈ token.text.toList, Lexer.isWordChar c = true := by
  obtain ⟨c, cs, htext, halpha, -, hlength⟩ := h.munch_of_isWordLike hword
  rw [htext]
  intro other hother
  rcases List.mem_cons.mp hother with rfl | hother
  · rw [Lexer.isWordChar, Char.isAlphanum, halpha]
    rfl
  · exact (Lexer.count_eq_length_iff.mp hlength).1 other hother

theorem StandsFor.restore_eq {inTree inText : Token} {rest : List Char}
    (h : inTree.StandsFor inText) (hheads : inText.Heads rest)
    (hword : inTree.kind = .ident → inTree.isWordLike = true) : inTree.restore = inText := by
  obtain ⟨kind, text⟩ := inText
  rcases h with rfl | ⟨rfl, -⟩
  · unfold restore
    split
    · next hident =>
      rw [← (hheads.read_of_isWordLike (hword hident)).1]
    · rfl
  · rw [restore, if_pos rfl, ← (hheads.read_of_isWordLike (hword rfl)).1]

end Token

/-- The tokens of a parsed text, restored, are those of the text. -/
theorem map_restore_tokens_parse (text : String) :
    (parse text).tree.tokens.map Token.restore = tokenize text := by
  have hword := (regular_parse text).isWordLike
  have hheads (token : Token) (hmem : token ∈ tokenize text) : ∃ rest, token.Heads rest :=
    (tiled_tokenize text).heads_of_mem hmem
  have hstands := tokens_parse text
  revert hword hheads hstands
  generalize (parse text).tree.tokens = inTree
  generalize tokenize text = inText
  intro hword hheads hstands
  induction hstands with
  | nil => rfl
  | cons hfirst hrest ih =>
    obtain ⟨rest, hhead⟩ := hheads _ List.mem_cons_self
    rw [List.map_cons, hfirst.restore_eq hhead (hword _ List.mem_cons_self),
      ih (fun t ht => hword t (List.mem_cons_of_mem _ ht))
        fun t ht => hheads t (List.mem_cons_of_mem _ ht)]

theorem eq_of_map_restore {tokens others : List Token}
    (h : tokens.map Token.restore = others.map Token.restore)
    (hvisible : visible tokens = visible others) : tokens = others := by
  induction tokens generalizing others with
  | nil => exact (List.map_eq_nil_iff.mp h.symm).symm
  | cons t rest ih =>
    cases others with
    | nil => cases h
    | cons other others =>
      obtain ⟨hfirst, hrest⟩ := List.cons.inj h
      have htrivia : t.kind.isTrivia = other.kind.isTrivia := by
        rw [← Token.isTrivia_restore t, hfirst, Token.isTrivia_restore]
      by_cases ht : t.kind.isTrivia = true
      · have hother : other.kind.isTrivia = true := htrivia ▸ ht
        have hident {token : Token} (htoken : token.kind.isTrivia = true) :
            token.kind ≠ .ident := by
          intro hident
          rw [hident] at htoken
          cases htoken
        rw [Token.restore_of_ne (hident ht), Token.restore_of_ne (hident hother)] at hfirst
        simp only [visible, List.filter_cons, ht, hother, Bool.not_true, Bool.false_eq_true,
          if_false] at hvisible
        rw [hfirst, ih hrest hvisible]
      · rw [Bool.not_eq_true] at ht
        simp only [visible, List.filter_cons, ← htrivia, ht, Bool.not_false, if_true] at hvisible
        obtain ⟨hsame, hvisible⟩ := List.cons.inj hvisible
        rw [hsame, ih hrest hvisible]

end Ili
