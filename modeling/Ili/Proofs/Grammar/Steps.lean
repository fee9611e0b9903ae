import Ili.Proofs.Grammar.Fullness

/-!
# Parsing step by step

Rules are run with bounds: a loop repeats no more often than there are tokens, and an enumeration is
read no deeper. Here the rules go without bounds, and they build the tree piece by piece: a node is
started, takes what is put into it, and is finished. Such a run need not come to an end, but for the
grammar it does. A loop only goes on where its body takes a token, and every level of an enumeration
takes a parenthesis. So the bounds are never met, and every node that is started is finished.
-/

namespace Ili

/-- A tree under construction: the node started last, what it holds so far, and the nodes around it
that have been started and not finished, innermost first. -/
structure Builder where
  kind : Kind
  row : List Tree
  outer : List (Kind × List Tree)

namespace Builder

def put (builder : Builder) (trees : List Tree) : Builder :=
  { builder with row := builder.row ++ trees }

def start (builder : Builder) (kind : Kind) : Builder :=
  ⟨kind, [], (builder.kind, builder.row) :: builder.outer⟩

/-- Starts a node around all that was put behind the first `checkpoint` trees. -/
def startAt (builder : Builder) (checkpoint : Nat) (kind : Kind) : Builder :=
  ⟨kind, builder.row.drop checkpoint,
    (builder.kind, builder.row.take checkpoint) :: builder.outer⟩

def finish (builder : Builder) : Builder :=
  match builder.outer with
  | [] => builder
  | (kind, row) :: outer => ⟨kind, row ++ [.node builder.kind builder.row], outer⟩

theorem put_put (builder : Builder) (first second : List Tree) :
    (builder.put first).put second = builder.put (first ++ second) := by
  simp [put]

@[simp]
theorem put_nil (builder : Builder) : builder.put [] = builder := by
  simp [put]

theorem finish_start (builder : Builder) (kind : Kind) (trees : List Tree) :
    ((builder.start kind).put trees).finish = builder.put [.node kind trees] := by
  simp [start, put, finish]

theorem finish_startAt (builder : Builder) (kind : Kind) (first second : List Tree) :
    (((builder.put first).startAt builder.row.length kind).put second).finish =
      builder.put [.node kind (first ++ second)] := by
  simp [startAt, put, finish]

end Builder

structure Parsing where
  input : Input
  errors : List SyntaxError
  builder : Builder

namespace Parsing

def ofText (text : String) : Parsing :=
  ⟨.ofText text, [], ⟨.sourceFile, [], []⟩⟩

def after (parsing : Parsing) (outcome : Outcome) : Parsing :=
  ⟨outcome.rest, parsing.errors ++ outcome.errors, parsing.builder.put outcome.trees⟩

def flushed (parsing : Parsing) : Parsing :=
  parsing.after (Rule.runFlush parsing.input)

def start (parsing : Parsing) (kind : Kind) : Parsing :=
  { parsing with builder := parsing.builder.start kind }

def startAt (parsing : Parsing) (checkpoint : Nat) (kind : Kind) : Parsing :=
  { parsing with builder := parsing.builder.startAt checkpoint kind }

def finish (parsing : Parsing) : Parsing :=
  { parsing with builder := parsing.builder.finish }

theorem after_none (parsing : Parsing) : parsing.after (.none parsing.input) = parsing := by
  simp [after, Outcome.none]

theorem after_andThen (parsing : Parsing) (outcome : Outcome) (step : Input → Outcome) :
    parsing.after (outcome.andThen step) = (parsing.after outcome).after (step outcome.rest) := by
  simp [after, Outcome.andThen, Builder.put_put]

end Parsing

namespace Rule

/-- A run of a rule without bounds, in which `nested` stands for `inner`. -/
inductive Runs (inner : Rule) : Rule → Parsing → Parsing → Prop
  | skip {parsing : Parsing} : Runs inner .skip parsing parsing
  | bump {parsing : Parsing} :
      Runs inner .bump parsing (parsing.after (runBump id parsing.input))
  | bumpAs {parsing : Parsing} {kind : Kind} :
      Runs inner (.bumpAs kind) parsing
        (parsing.after (runBump (fun token => { token with kind }) parsing.input))
  | flush {parsing : Parsing} : Runs inner .flush parsing parsing.flushed
  | report {parsing : Parsing} {problem : Problem} :
      Runs inner (.report problem) parsing
        { parsing with errors := parsing.errors ++ [parsing.input.locate problem] }
  | balancedTo {parsing : Parsing} {stops : List Kind} :
      Runs inner (.balancedTo stops) parsing (parsing.after (runBalancedTo stops parsing.input))
  | seq {first second : Rule} {parsing middle last : Parsing}
      (hfirst : Runs inner first parsing middle) (hsecond : Runs inner second middle last) :
      Runs inner (.seq first second) parsing last
  | yes {guard : Guard} {yes no : Rule} {parsing last : Parsing}
      (hholds : guard.holds parsing.input.ahead = true) (hyes : Runs inner yes parsing last) :
      Runs inner (.choose guard yes no) parsing last
  | no {guard : Guard} {yes no : Rule} {parsing last : Parsing}
      (hholds : guard.holds parsing.input.ahead = false) (hno : Runs inner no parsing last) :
      Runs inner (.choose guard yes no) parsing last
  | stop {guard : Guard} {body : Rule} {parsing : Parsing}
      (hholds : guard.holds parsing.input.ahead = false) :
      Runs inner (.many guard body) parsing parsing
  | again {guard : Guard} {body : Rule} {parsing middle last : Parsing}
      (hholds : guard.holds parsing.input.ahead = true) (hbody : Runs inner body parsing middle)
      (hrest : Runs inner (.many guard body) middle last) :
      Runs inner (.many guard body) parsing last
  | node {kind : Kind} {body : Rule} {parsing last : Parsing}
      (hbody : Runs inner body (parsing.flushed.start kind) last) :
      Runs inner (.node kind body) parsing last.finish
  | plain {kind : Kind} {first second : Rule} {guard : Guard} {parsing last : Parsing}
      (hfirst : Runs inner first parsing.flushed last)
      (hholds : guard.holds last.input.ahead = false) :
      Runs inner (.extendAs kind first guard second) parsing last
  | extended {kind : Kind} {first second : Rule} {guard : Guard} {parsing middle last : Parsing}
      (hfirst : Runs inner first parsing.flushed middle)
      (hholds : guard.holds middle.input.ahead = true)
      (hsecond : Runs inner second
        (middle.startAt parsing.flushed.builder.row.length kind) last) :
      Runs inner (.extendAs kind first guard second) parsing last.finish
  | nested {parsing last : Parsing} (hinner : Runs inner inner parsing last) :
      Runs inner .nested parsing last

theorem Runs.unique {inner rule : Rule} {parsing last other : Parsing}
    (h : Runs inner rule parsing last) (h' : Runs inner rule parsing other) : other = last := by
  induction h generalizing other with
  | skip | bump | bumpAs | flush | report | balancedTo => cases h'; rfl
  | seq _ _ ihFirst ihSecond =>
    cases h' with
    | seq hfirst hsecond =>
      obtain rfl := ihFirst hfirst
      exact ihSecond hsecond
  | yes hholds _ ih =>
    cases h' with
    | yes _ hyes => exact ih hyes
    | no hnot _ => rw [hholds] at hnot; cases hnot
  | no hnot _ ih =>
    cases h' with
    | yes hholds _ => rw [hholds] at hnot; cases hnot
    | no _ hno => exact ih hno
  | stop hnot =>
    cases h' with
    | stop => rfl
    | again hholds _ _ => rw [hholds] at hnot; cases hnot
  | again hholds _ _ ihBody ihRest =>
    cases h' with
    | stop hnot => rw [hholds] at hnot; cases hnot
    | again _ hbody hrest =>
      obtain rfl := ihBody hbody
      exact ihRest hrest
  | node _ ih =>
    cases h' with
    | node hbody => rw [ih hbody]
  | plain _ hnot ih =>
    cases h' with
    | plain hfirst _ => exact ih hfirst
    | extended hfirst hholds _ =>
      obtain rfl := ih hfirst
      rw [hholds] at hnot
      cases hnot
  | extended _ hholds _ ihFirst ihSecond =>
    cases h' with
    | plain hfirst hnot =>
      obtain rfl := ihFirst hfirst
      rw [hholds] at hnot
      cases hnot
    | extended hfirst _ hsecond =>
      obtain rfl := ihFirst hfirst
      rw [ihSecond hsecond]
  | nested _ ih =>
    cases h' with
    | nested hinner => exact ih hinner

end Rule

/-! ### Loops go on only where they take a token -/

deriving instance DecidableEq for Guard
deriving instance DecidableEq for Rule

namespace Guard

def alternatives : Guard → List Guard
  | either left right => left.alternatives ++ right.alternatives
  | guard => [guard]

theorem exists_alternative {guard : Guard} {ahead : List Lexeme} (h : guard.holds ahead = true) :
    ∃ alternative ∈ guard.alternatives, alternative.holds ahead = true := by
  induction guard with
  | either left right ihLeft ihRight =>
    rcases (Bool.or_eq_true _ _).mp h with h | h
    · obtain ⟨alternative, hmem, hholds⟩ := ihLeft h
      exact ⟨alternative, List.mem_append_left _ hmem, hholds⟩
    · obtain ⟨alternative, hmem, hholds⟩ := ihRight h
      exact ⟨alternative, List.mem_append_right _ hmem, hholds⟩
  | _ => exact ⟨_, List.mem_singleton.mpr rfl, h⟩

theorem holds_flushed (guard : Guard) (input : Input) :
    guard.holds input.flushed.ahead = guard.holds input.ahead := by
  obtain ⟨ahead, trailing, stop⟩ := input
  cases ahead with
  | nil => rfl
  | cons lexeme rest =>
    induction guard with
    | negate guard ih => rw [holds, holds, ih]
    | both left right ihLeft ihRight => rw [holds, holds, ihLeft, ihRight]
    | either left right ihLeft ihRight => rw [holds, holds, ihLeft, ihRight]
    | _ => rfl

end Guard

namespace Rule

/-- The rule takes a token where the guard holds, as it asks for the guard itself. -/
def advancesUnder (guard : Guard) : Rule → Bool
  | .bump | .bumpAs _ => guard.needsMore
  | .seq first _ => first.advancesUnder guard
  | .choose other yes no => yes.advancesUnder guard && (other = guard || no.advancesUnder guard)
  | .node _ body => body.advancesUnder guard
  | .skip | .flush | .report _ | .many _ _ | .balancedTo _ | .extendAs _ _ _ _ | .nested => false

/-- A body that takes a token wherever the guard holds, as can be seen from the next token or from
the guard itself. -/
def loopAdvances (guard : Guard) (body : Rule) : Bool :=
  (guard.needsMore && Kind.all.all fun next =>
    guard.decidedBy next == some false || body.advancesOn next) ||
  guard.alternatives.all body.advancesUnder

def loopsAdvance : Rule → Bool
  | .seq first second => first.loopsAdvance && second.loopsAdvance
  | .choose _ yes no => yes.loopsAdvance && no.loopsAdvance
  | .many guard body => loopAdvances guard body && body.loopsAdvance
  | .node _ body => body.loopsAdvance
  | .extendAs _ first _ second => first.loopsAdvance && second.loopsAdvance
  | .skip | .bump | .bumpAs _ | .flush | .report _ | .balancedTo _ | .nested => true

variable {nested : Input → Outcome}
  (htakes : ∀ input : Input, input.Sorted → (nested input).Takes input)

include htakes

theorem advances_of_advancesUnder (rule : Rule) (hrule : rule.renamesToIdent = true) {guard : Guard}
    {input : Input} (h : input.Sorted) (hholds : guard.holds input.ahead = true)
    (hadvances : rule.advancesUnder guard = true) : (rule.runWith nested input).Advances input := by
  induction rule generalizing input with
  | bump | bumpAs =>
    obtain ⟨lexeme, rest, hahead⟩ :=
      List.exists_cons_of_ne_nil (Guard.ne_nil_of_needsMore hadvances hholds)
    exact advances_runBump _
      (show input.kinds = lexeme.kind :: rest.map Lexeme.kind by rw [Input.kinds, hahead]; rfl)
  | seq first second ihFirst _ =>
    simp only [renamesToIdent, Bool.and_eq_true] at hrule
    have hfirst := takes_runWith htakes first hrule.1 h
    exact hfirst.advances_andThen (takes_runWith htakes second hrule.2 hfirst.sorted) fun hnot =>
      absurd (ihFirst hrule.1 h hholds hadvances) hnot
  | choose other yes no ihYes ihNo =>
    simp only [renamesToIdent, Bool.and_eq_true] at hrule
    simp only [advancesUnder, Bool.and_eq_true, Bool.or_eq_true, decide_eq_true_eq] at hadvances
    simp only [runWith]
    split
    · exact ihYes hrule.1 h hholds hadvances.1
    · next hnot =>
      refine ihNo hrule.2 h hholds (hadvances.2.resolve_left ?_)
      rintro rfl
      exact hnot hholds
  | node kind body ih =>
    have hflush := takes_runFlush h
    refine hflush.advances_andThen ((takes_runWith htakes body hrule hflush.sorted).wrap kind)
      fun _ => ?_
    exact ih hrule hflush.sorted ((guard.holds_flushed input).trans hholds) hadvances
  | skip | flush | report | many | balancedTo | extendAs | nested => cases hadvances

theorem advances_of_loopAdvances {guard : Guard} {body : Rule} (hrule : body.renamesToIdent = true)
    (hloop : loopAdvances guard body = true) {input : Input} (h : input.Sorted)
    (hholds : guard.holds input.ahead = true) : (body.runWith nested input).Advances input := by
  rcases (Bool.or_eq_true _ _).mp hloop with hloop | hloop
  · obtain ⟨hmore, hkinds⟩ := (Bool.and_eq_true _ _).mp hloop
    obtain ⟨lexeme, rest, hahead⟩ :=
      List.exists_cons_of_ne_nil (Guard.ne_nil_of_needsMore hmore hholds)
    rcases (Bool.or_eq_true _ _).mp
      (List.all_eq_true.mp hkinds lexeme.kind (Kind.mem_all _)) with hstop | hadvances
    · rw [hahead, Guard.holds_of_decidedBy (beq_iff_eq.mp hstop)] at hholds
      cases hholds
    · exact advances_runWith htakes body hrule h
        (show input.kinds = lexeme.kind :: rest.map Lexeme.kind by rw [Input.kinds, hahead]; rfl)
        hadvances
  · obtain ⟨alternative, hmem, hcase⟩ := Guard.exists_alternative hholds
    exact advances_of_advancesUnder htakes body hrule h hcase
      (List.all_eq_true.mp hloop alternative hmem)

omit htakes

/-! ### Bounds are never met -/

def isNested : Rule → Bool
  | .nested => true
  | _ => false

/-- The rule that contains itself is run only where a parenthesis opens. -/
def nestsInParens : Rule → Bool
  | .seq first second => first.nestsInParens && second.nestsInParens
  | .choose guard yes no =>
    (guard = .sees [.lParen] && yes.isNested || yes.nestsInParens) && no.nestsInParens
  | .many _ body | .node _ body => body.nestsInParens
  | .extendAs _ first _ second => first.nestsInParens && second.nestsInParens
  | .nested => false
  | .skip | .bump | .bumpAs _ | .flush | .report _ | .balancedTo _ => true

end Rule

namespace Parsing

theorem after_runNode (parsing : Parsing) (kind : Kind) (step : Input → Outcome) :
    parsing.after (Rule.runNode kind step parsing.input) =
      ((parsing.flushed.start kind).after (step parsing.flushed.input)).finish := by
  rw [Rule.runNode, after_andThen]
  simp only [flushed, start, finish, after, Builder.finish_start]

theorem after_runExtendAs (parsing : Parsing) (kind : Kind) (first : Input → Outcome)
    (guard : Guard) (second : Input → Outcome) :
    let middle := parsing.flushed.after (first parsing.flushed.input)
    parsing.after (Rule.runExtendAs kind first guard second parsing.input) =
      if guard.holds middle.input.ahead then
        ((middle.startAt parsing.flushed.builder.row.length kind).after
          (second middle.input)).finish
      else middle := by
  intro middle
  rw [Rule.runExtendAs, after_andThen]
  change (parsing.flushed.after (if guard.holds middle.input.ahead then _ else _)) = _
  split
  · simp only [middle, flushed, startAt, finish, after, Outcome.andThen, Builder.finish_startAt,
      List.append_assoc]
  · rfl

end Parsing

namespace Rule

section Bounds

variable {inner : Rule} {nested : Input → Outcome}

theorem runs_runMany {guard : Guard} {body : Rule} {step : Input → Outcome} {limit : Nat}
    (htakes : ∀ input : Input, input.Sorted → (step input).Takes input)
    (hadvances : ∀ input : Input, input.Sorted → guard.holds input.ahead = true →
      (step input).Advances input)
    (hbody : ∀ parsing : Parsing, parsing.input.Sorted → parsing.input.ahead.length ≤ limit →
      Runs inner body parsing (parsing.after (step parsing.input)))
    (bound : Nat) {parsing : Parsing} (h : parsing.input.Sorted)
    (hbound : parsing.input.ahead.length ≤ bound) (hlimit : parsing.input.ahead.length ≤ limit) :
    Runs inner (.many guard body) parsing
      (parsing.after (runMany guard step bound parsing.input)) := by
  induction bound generalizing parsing with
  | zero =>
    -- No token is left, so a body that takes one cannot be due.
    have hstop : guard.holds parsing.input.ahead = false := by
      rw [← Bool.not_eq_true]
      intro hholds
      have hlt := hadvances parsing.input h hholds
      rw [Outcome.Advances] at hlt
      omega
    rw [runMany, Parsing.after_none]
    exact .stop hstop
  | succ bound ih =>
    rw [runMany]
    split
    · next hholds =>
      have hlt := hadvances parsing.input h hholds
      rw [Outcome.Advances] at hlt
      rw [Parsing.after_andThen]
      exact .again hholds (hbody parsing h hlimit)
        (ih (htakes parsing.input h).sorted (Nat.le_of_lt_succ (hlt.trans_le hbound))
          (hlt.le.trans hlimit))
    · next hholds =>
      rw [Parsing.after_none]
      exact .stop (Bool.eq_false_iff.mpr hholds)

/-- A bounded run is one without bounds, as long as enumerations inside are. -/
theorem runs_runWith (htakes : ∀ input : Input, input.Sorted → (nested input).Takes input)
    {limit : Nat}
    (hnested : ∀ parsing : Parsing, parsing.input.Sorted → parsing.input.ahead.length ≤ limit →
      (Guard.sees [.lParen]).holds parsing.input.ahead = true →
      Runs inner inner parsing (parsing.after (nested parsing.input)))
    (rule : Rule) (hrule : rule.renamesToIdent = true) (hloops : rule.loopsAdvance = true)
    (hparens : rule.nestsInParens = true) {parsing : Parsing} (h : parsing.input.Sorted)
    (hlimit : parsing.input.ahead.length ≤ limit) :
    Runs inner rule parsing (parsing.after (rule.runWith nested parsing.input)) := by
  induction rule generalizing parsing with
  | skip =>
    rw [runWith, Parsing.after_none]
    exact .skip
  | bump => exact .bump
  | bumpAs kind => exact .bumpAs
  | flush => exact .flush
  | report problem =>
    simp only [runWith, Parsing.after, Builder.put_nil]
    exact .report
  | balancedTo stops => exact .balancedTo
  | seq first second ihFirst ihSecond =>
    simp only [renamesToIdent, Bool.and_eq_true] at hrule
    simp only [loopsAdvance, Bool.and_eq_true] at hloops
    simp only [nestsInParens, Bool.and_eq_true] at hparens
    have hfirst := takes_runWith htakes first hrule.1 h
    rw [runWith, Parsing.after_andThen]
    exact .seq (ihFirst hrule.1 hloops.1 hparens.1 h hlimit)
      (ihSecond hrule.2 hloops.2 hparens.2 hfirst.sorted (hfirst.length_le.trans hlimit))
  | choose guard yes no ihYes ihNo =>
    simp only [renamesToIdent, Bool.and_eq_true] at hrule
    simp only [loopsAdvance, Bool.and_eq_true] at hloops
    simp only [nestsInParens, Bool.and_eq_true, Bool.or_eq_true, decide_eq_true_eq] at hparens
    simp only [runWith]
    split
    · next hholds =>
      refine .yes hholds ?_
      rcases hparens.1 with ⟨rfl, hisNested⟩ | hparens
      · cases yes with
        | nested => exact .nested (hnested parsing h hlimit hholds)
        | _ => cases hisNested
      · exact ihYes hrule.1 hloops.1 hparens h hlimit
    · next hholds =>
      exact .no (Bool.eq_false_iff.mpr hholds) (ihNo hrule.2 hloops.2 hparens.2 h hlimit)
  | many guard body ih =>
    have hbody : body.renamesToIdent = true := hrule
    simp only [loopsAdvance, Bool.and_eq_true] at hloops
    exact runs_runMany (fun _ hother => takes_runWith htakes body hbody hother)
      (fun _ hother hholds => advances_of_loopAdvances htakes hbody hloops.1 hother hholds)
      (fun _ hother hsmall => ih hbody hloops.2 hparens hother hsmall) _ h (Nat.le_refl _) hlimit
  | node kind body ih =>
    have hflush := takes_runFlush h
    rw [runWith, Parsing.after_runNode]
    exact .node (ih hrule hloops hparens hflush.sorted (hflush.length_le.trans hlimit))
  | extendAs kind first guard second ihFirst ihSecond =>
    simp only [renamesToIdent, Bool.and_eq_true] at hrule
    simp only [loopsAdvance, Bool.and_eq_true] at hloops
    simp only [nestsInParens, Bool.and_eq_true] at hparens
    have hflush := takes_runFlush h
    have hhead := takes_runWith htakes first hrule.1 hflush.sorted
    have hfirst : Runs inner first parsing.flushed
        (parsing.flushed.after (first.runWith nested parsing.flushed.input)) :=
      ihFirst hrule.1 hloops.1 hparens.1 hflush.sorted (hflush.length_le.trans hlimit)
    rw [runWith, Parsing.after_runExtendAs]
    split
    · next hholds =>
      exact .extended hfirst hholds (ihSecond hrule.2 hloops.2 hparens.2 hhead.sorted
        (hhead.length_le.trans (hflush.length_le.trans hlimit)))
    · next hholds => exact .plain hfirst (Bool.eq_false_iff.mpr hholds)
  | nested => cases hparens

end Bounds

end Rule

namespace Grammar

theorem loopsAdvance_file : file.loopsAdvance = true := by decide +kernel

def enumRest : Rule :=
  Rule.row
    [.choose (.sees [.finalKw]) .bump
        (.seq (Rule.separatedBy .comma enumElement) (Rule.eatThen .colon (Rule.expect .finalKw))),
      Rule.expect .rParen,
      Rule.when (.both (.sees [.ident]) (.seesWord ["ORDERED", "CIRCULAR"])) .bump]

/-- Every level of an enumeration takes a parenthesis, so there are no more levels than tokens. -/
theorem runs_runNested (depth : Nat) {parsing : Parsing} (h : parsing.input.Sorted)
    (hdepth : parsing.input.ahead.length ≤ depth)
    (hparen : (Guard.sees [.lParen]).holds parsing.input.ahead = true) :
    Rule.Runs enumType enumType parsing
      (parsing.after (Rule.runNested enumType depth parsing.input)) := by
  induction depth generalizing parsing with
  | zero =>
    rw [List.length_eq_zero_iff.mp (Nat.le_zero.mp hdepth)] at hparen
    cases hparen
  | succ depth ih =>
    set nested := Rule.runNested enumType depth
    -- Behind the parenthesis fewer tokens are left, so one level less is enough there.
    have hopen : (Guard.sees [.lParen]).holds parsing.flushed.input.ahead = true :=
      (Guard.holds_flushed _ parsing.input).trans hparen
    have hflush := Rule.takes_runFlush h
    have hbump : (Rule.expect .lParen).runWith nested parsing.flushed.input =
        Rule.runBump id parsing.flushed.input := if_pos hopen
    have htakes : (Rule.runBump id parsing.flushed.input).Takes parsing.flushed.input :=
      Rule.takes_runBump hflush.sorted fun _ _ => .inl rfl
    have hless : (Rule.runBump id parsing.flushed.input).rest.ahead.length <
        parsing.flushed.input.ahead.length := by
      obtain ⟨lexeme, rest, hahead⟩ :=
        List.exists_cons_of_ne_nil (Guard.ne_nil_of_needsMore rfl hopen)
      exact Rule.advances_runBump id
        (show _ = lexeme.kind :: rest.map Lexeme.kind by rw [Input.kinds, hahead]; rfl)
    set opened := (parsing.flushed.start .enumType).after (Rule.runBump id parsing.flushed.input)
    have hrest : Rule.Runs enumType enumRest opened
        (opened.after (enumRest.runWith nested opened.input)) :=
      Rule.runs_runWith (takes_nested depth)
        (fun _ hother hsmall hholds => ih hother hsmall hholds) enumRest (by decide)
        (by decide +kernel) (by decide) htakes.sorted
        (Nat.le_of_lt_succ (hless.trans_le (hflush.length_le.trans hdepth)))
    change Rule.Runs enumType (.node .enumType (.seq (Rule.expect .lParen) enumRest)) parsing
      (parsing.after (Rule.runNode .enumType
        ((Rule.seq (Rule.expect .lParen) enumRest).runWith nested) parsing.input))
    rw [Parsing.after_runNode, Rule.runWith]
    dsimp only
    rw [hbump, Parsing.after_andThen]
    exact .node (.seq (.yes hopen .bump) hrest)

theorem runs_run {rule : Rule} (hrule : rule.renamesToIdent = true)
    (hloops : rule.loopsAdvance = true) (hparens : rule.nestsInParens = true) {parsing : Parsing}
    (h : parsing.input.Sorted) :
    Rule.Runs enumType rule parsing (parsing.after (Rule.run enumType rule parsing.input)) :=
  Rule.runs_runWith (takes_nested _)
    (fun _ hother hsmall hparen => runs_runNested _ hother hsmall hparen) rule hrule hloops hparens
    h (Nat.le_refl _)

end Grammar

/-- Parsing comes to an end without any bounds. It has read all of the text by then, and of the
nodes that were started all but the root are finished; what the root holds is the tree. -/
theorem runs_parse (text : String) :
    ∃ last : Parsing, Rule.Runs Grammar.enumType Grammar.file (.ofText text) last ∧
      last.input.tokens = [] ∧ last.errors = (parse text).errors ∧ last.builder.outer = [] ∧
      (parse text).tree = .node last.builder.kind last.builder.row := by
  have hsorted : (Parsing.ofText text).input.Sorted := Input.sorted_ofText text
  have hruns := Grammar.runs_run Grammar.renamesToIdent_file Grammar.loopsAdvance_file (by decide)
    hsorted
  exact ⟨_, hruns, Grammar.rest_run_file hsorted, rfl, rfl, rfl⟩

end Ili
