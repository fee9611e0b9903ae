import Ili.Proofs.Grammar.Bodies

/-!
# Models next to what is set aside

A model ends in the dot behind its name, and nothing in it looks past the name. So a model that is
read without errors behind a header is read so wherever it stands. What stands between two models is
set aside as a whole, with one report. A file that is made of both is therefore read stretch by
stretch, and no stretch reaches into its neighbours.
-/

namespace Ili

namespace Grammar

open Rule

variable {tokens rest gap : List Token} {row children : List Tree} {parsing middle last : Parsing}

/-! ### Headers and models -/

def headerKinds : List Kind := [.interlisKw, .decimal, .semicolon]

theorem reads_header {words : List Token} (hwords : words.map Token.kind = headerKinds) :
    Reads enumType header (words ++ tokens) row rest ↔
      row = [.node .header (words.map .token)] ∧ rest = tokens := by
  obtain ⟨i, d, s, rfl, hi, hd, hs⟩ : ∃ i d s : Token, words = [i, d, s] ∧
      i.kind = .interlisKw ∧ d.kind = .decimal ∧ s.kind = .semicolon := by
    simpa [headerKinds, List.map_eq_cons_iff] using hwords
  simp only [header, Rule.row, reads_node, reads_seq, reads_expect]
  constructor
  · rintro ⟨_, ⟨_, _, _, ⟨_, -, hfirst, rfl⟩, ⟨_, _, _, ⟨_, -, hsecond, rfl⟩, ⟨_, -, hthird, rfl⟩,
      rfl⟩, rfl⟩, rfl⟩
    obtain ⟨rfl, rfl⟩ := List.cons.inj hfirst
    obtain ⟨rfl, rfl⟩ := List.cons.inj hsecond
    obtain ⟨rfl, rfl⟩ := List.cons.inj hthird
    exact ⟨rfl, rfl⟩
  · rintro ⟨rfl, rfl⟩
    exact ⟨_, ⟨_, _, _, ⟨i, hi, rfl, rfl⟩, ⟨_, _, _, ⟨d, hd, rfl, rfl⟩, ⟨s, hs, rfl, rfl⟩, rfl⟩,
      rfl⟩, rfl⟩

def endName : Rule :=
  .choose (.sees [.interlisKw]) (.bumpAs .ident) (expect .ident)

theorem reads_endName (h : Reads enumType endName tokens row rest) :
    ∃ n, tokens = n :: rest ∧ ∀ other, Reads enumType endName (n :: other) row other := by
  cases h with
  | yes hmeets hword =>
    cases hword
    cases tokens with
    | nil => cases hmeets
    | cons n others => exact ⟨n, rfl, fun _ => .yes hmeets .bumpAs⟩
  | no hmeets hident =>
    obtain ⟨n, hn, rfl, rfl⟩ := reads_expect.mp hident
    exact ⟨n, rfl, fun _ => .no hmeets (reads_expect.mpr ⟨n, hn, rfl, rfl⟩)⟩

theorem reads_modelEnd (h : Reads enumType modelEnd tokens row rest) :
    ∃ e n d : Token, e.kind = .endKw ∧ tokens = e :: n :: d :: rest ∧
      ∀ other, Reads enumType modelEnd (e :: n :: d :: other) row other := by
  obtain ⟨e, _, _, he, rfl, hbehind, rfl⟩ := reads_expectThen.mp h
  obtain ⟨_, _, _, hname, hdot, rfl⟩ := reads_seq.mp hbehind
  obtain ⟨d, hd, rfl, rfl⟩ := reads_expect.mp hdot
  obtain ⟨n, rfl, hnames⟩ := reads_endName hname
  refine ⟨e, n, d, he, rfl, fun other => reads_expectThen.mpr ⟨e, _, _, he, rfl, ?_, rfl⟩⟩
  exact .seq (hnames (d :: other)) (reads_expect.mpr ⟨d, hd, rfl, rfl⟩)

theorem reads_model_before (h : Reads enumType model tokens row rest) :
    ∃ taken, tokens = taken ++ rest ∧ ∀ other, Reads enumType model (taken ++ other) row other := by
  obtain ⟨opening, members, ending, start, stop, hopening, hmembers, hstop, hending, rfl⟩ :=
    reads_model.mp h
  obtain ⟨words, sign, -, rfl, hopenings⟩ := hopening.withCloser
    (show (Rule.row modelFront).closes .eq = true by decide +kernel) isLocal_enumType.2
  obtain ⟨e, n, d, he, rfl, hendings⟩ := reads_modelEnd hending
  obtain ⟨taken, rfl, -⟩ := hmembers.exists_taken
  refine ⟨words ++ sign :: taken ++ [e, n, d], by simp, fun other => ?_⟩
  have hclosing (behind : List Token) :
      (Guard.sees [.eq]).meets (e :: n :: d :: behind) = false :=
    Guard.meets_of_decidedBy (by rw [he]; rfl) _
  -- Whether a section goes on is a matter of the end word and the name.
  have hsame (kind : Kind) : (goesOn kind).meets (e :: n :: d :: rest) =
      (goesOn kind).meets (e :: n :: d :: other) := Guard.meets_congr (looksNear_goesOn kind) rfl
  obtain ⟨taken', htaken, -, hlaps⟩ := laps_before isMember_modelMember hmembers (hclosing rest)
    (hclosing other) fun tree _ hends => (hsame tree.kind).symm.trans hends
  obtain rfl := List.append_cancel_right htaken
  have htokens : words ++ sign :: taken ++ [e, n, d] ++ other =
      words ++ sign :: (taken ++ e :: n :: d :: other) := by simp
  rw [htokens]
  exact reads_model.mpr ⟨opening, members, ending, _, _, hopenings _, hlaps,
    (seesMember_cons _).trans ((seesMember_cons _).symm.trans hstop), hendings other, rfl⟩

/-! ### What is set aside -/

/-- None of the tokens is a word a model can start with. -/
def StartsNone (tokens : List Token) : Prop :=
  ∀ t ∈ tokens, t.kind ∉ modelStarts

instance (tokens : List Token) : Decidable (StartsNone tokens) :=
  inferInstanceAs (Decidable (∀ t ∈ tokens, t.kind ∉ modelStarts))

/-- What becomes of the tokens between two models. -/
def setAside (tokens : List Token) : List Tree :=
  if tokens = [] then [] else [.node .error (tokens.map .token)]

/-- What is reported of them: that the first one starts no model. -/
def complaints (tokens : List Token) : List (Problem × Kind) :=
  tokens.head?.toList.map fun t => (.notAModel, t.kind)

def seesNoStart : Guard :=
  .both .more (.negate (.sees modelStarts))

def strayTokens : Rule :=
  .node .error (.choose (.sees modelStarts) .bump (.many seesNoStart .bump))

theorem sees_modelStarts_of_startsNone {t : Token} (h : StartsNone (t :: gap)) :
    (Guard.sees modelStarts).meets (t :: gap ++ rest) = false :=
  Guard.meets_of_decidedBy (by simpa [Guard.decidedBy] using h t List.mem_cons_self) _

theorem reads_strayTokens (hgap : StartsNone gap) (hne : gap ≠ [])
    (hrest : seesNoStart.meets rest = false) :
    Reads enumType strayTokens (gap ++ rest) [.node .error (gap.map .token)] rest := by
  have hloop : Reads enumType (.many seesNoStart .bump) (gap ++ rest) (gap.map .token) rest := by
    clear hne
    induction gap with
    | nil => exact .stop hrest
    | cons t gap ih =>
      have hgoes : seesNoStart.meets (t :: gap ++ rest) = true :=
        congrArg not (sees_modelStarts_of_startsNone hgap)
      exact .again hgoes .bump (ih fun other hother => hgap other (List.mem_cons_of_mem t hother))
  obtain ⟨t, gap, rfl⟩ := List.exists_cons_of_ne_nil hne
  exact .node (.no (sees_modelStarts_of_startsNone hgap) hloop)

/-! ### Stretch by stretch -/

/-- The loop over the models of a file gets from one moment of the parse to a later one. In between
these trees have been built and these problems reported. -/
structure Passes (parsing last : Parsing) (row : List Tree) (problems : List (Problem × Kind)) :
    Prop where
  runs : ∀ stop, Runs enumType (.many .more fileItem) last stop →
    Runs enumType (.many .more fileItem) parsing stop
  took : parsing.Took last row
  errors : last.errors.map SyntaxError.what = parsing.errors.map SyntaxError.what ++ problems

variable {back : List Tree} {problems others : List (Problem × Kind)}

theorem Passes.none (h : parsing.input.Sorted) : Passes parsing parsing [] [] :=
  ⟨fun _ => id, .none h, (List.append_nil _).symm⟩

theorem Passes.andThen (hfirst : Passes parsing middle row problems)
    (hsecond : Passes middle last back others) :
    Passes parsing last (row ++ back) (problems ++ others) where
  runs stop h := hfirst.runs stop (hsecond.runs stop h)
  took := hfirst.took.andThen hsecond.took
  errors := by rw [hsecond.errors, hfirst.errors, List.append_assoc]

theorem holds_more (hne : parsing.ahead ≠ []) :
    Guard.more.holds parsing.input.ahead = true := by
  cases hahead : parsing.input.ahead with
  | nil => exact absurd (congrArg (List.map Lexeme.token) hahead) hne
  | cons => rfl

theorem what_locate {t : Token} {problem : Problem} (h : parsing.ahead = t :: rest) :
    (parsing.input.locate problem).what = (problem, t.kind) := by
  obtain ⟨lexeme, others, hahead, rfl, -⟩ := List.map_eq_cons_iff.mp h
  rw [Input.locate, hahead]
  rfl

theorem passes_model (hsorted : parsing.input.Sorted)
    (hstarts : (Guard.sees modelStarts).meets parsing.ahead = true)
    (hmodel : Reads enumType model parsing.ahead row rest) :
    ∃ last, Passes parsing last row [] ∧ last.ahead = rest := by
  obtain ⟨last, hruns, herrors, htook, hlast⟩ := hmodel.runs (by decide) renamesToIdent_enumType
    parsing hsorted rfl
  have hne : parsing.ahead ≠ [] := fun hnil => by rw [hnil] at hstarts; cases hstarts
  have hitem : Runs enumType fileItem parsing last :=
    .yes ((Parsing.meets_ahead hsorted _).symm.trans hstarts) hruns
  exact ⟨last, ⟨fun _ => .again (holds_more hne) hitem, htook, by rw [herrors, List.append_nil]⟩,
    hlast⟩

theorem passes_gap (hsorted : parsing.input.Sorted) (hahead : parsing.ahead = gap ++ rest)
    (hgap : StartsNone gap) (hrest : seesNoStart.meets rest = false) :
    ∃ last, Passes parsing last (setAside gap) (complaints gap) ∧ last.ahead = rest := by
  cases gap with
  | nil => exact ⟨parsing, .none hsorted, hahead⟩
  | cons t gap =>
    set noted : Parsing :=
      { parsing with errors := parsing.errors ++ [parsing.input.locate .notAModel] }
    have hstray := reads_strayTokens hgap (List.cons_ne_nil t gap) hrest
    obtain ⟨last, hruns, herrors, ⟨trees, hpart, htrees⟩, hlast⟩ := hstray.runs (by decide)
      renamesToIdent_enumType noted hsorted hahead
    have hnone : (Guard.sees modelStarts).holds parsing.input.ahead = false := by
      rw [← Parsing.meets_ahead hsorted, hahead]
      exact sees_modelStarts_of_startsNone hgap
    have hitem : Runs enumType fileItem parsing last := .no hnone (.seq .report hruns)
    have hne : parsing.ahead ≠ [] := by rw [hahead]; exact List.cons_ne_nil _ _
    refine ⟨last, ⟨fun _ => .again (holds_more hne) hitem, ?_, ?_⟩, hlast⟩
    · exact ⟨trees, ⟨hpart.builder, hpart.shape, hpart.sorted, hpart.outlook⟩, htrees⟩
    · rw [herrors, List.map_append, List.map_singleton, what_locate hahead]
      rfl

/-- Behind a header and with nothing else behind it, these tokens are a text without errors, and
this is what its one model holds. -/
def IsModel (tokens : List Token) (children : List Tree) : Prop :=
  ∃ text header start, header.map Token.kind = headerKinds ∧
    visible (tokenize text) = header ++ tokens ∧ (parse text).errors = [] ∧
    (parse text).tree.bare Kind.isNothing id = .node .sourceFile [start, .node .model children]

theorem IsModel.reads (h : IsModel tokens children) (rest : List Token) :
    (Guard.sees modelStarts).meets (tokens ++ rest) = true ∧
      Reads enumType model (tokens ++ rest) [.node .model children] rest := by
  obtain ⟨text, words, start, hwords, htokens, hok, htree⟩ := h
  have hfile := parse_eq_iff_reads.mp ⟨hok, htree⟩
  rw [htokens] at hfile
  obtain ⟨middle, hheader, hstarts, hmodel⟩ := reads_file.mp hfile
  obtain ⟨-, rfl⟩ := (reads_header hwords).mp hheader
  obtain ⟨taken, htaken, hothers⟩ := reads_model_before hmodel
  obtain rfl : middle = taken := htaken.trans (List.append_nil taken)
  refine ⟨?_, hothers rest⟩
  cases middle with
  | nil => cases hstarts
  | cons t others => exact hstarts

end Grammar

/-- A stretch of a file: the tokens of a model, what the model holds, and the tokens up to the next
one. -/
structure Stretch where
  model : List Token
  children : List Tree
  gap : List Token

namespace Stretch

open Grammar

def tokens (stretch : Stretch) : List Token :=
  stretch.model ++ stretch.gap

def trees (stretch : Stretch) : List Tree :=
  .node .model stretch.children :: setAside stretch.gap

/-- The model is one by itself, and none begins up to the next stretch. -/
structure Stands (stretch : Stretch) : Prop where
  model : IsModel stretch.model stretch.children
  gap : StartsNone stretch.gap

theorem seesNoStart_flatMap {stretches : List Stretch}
    (h : ∀ stretch ∈ stretches, stretch.Stands) :
    seesNoStart.meets (stretches.flatMap tokens) = false := by
  cases stretches with
  | nil => rfl
  | cons stretch stretches =>
    obtain ⟨hstarts, -⟩ := (h stretch List.mem_cons_self).model.reads
      (stretch.gap ++ stretches.flatMap tokens)
    rw [← List.append_assoc] at hstarts
    exact Bool.and_eq_false_imp.mpr fun _ => congrArg not hstarts

theorem passes_stretches {stretches : List Stretch} (h : ∀ stretch ∈ stretches, stretch.Stands)
    {parsing : Parsing} (hsorted : parsing.input.Sorted)
    (hahead : parsing.ahead = stretches.flatMap tokens) :
    ∃ last, Passes parsing last (stretches.flatMap trees)
      (stretches.flatMap fun stretch => complaints stretch.gap) ∧ last.ahead = [] := by
  induction stretches generalizing parsing with
  | nil => exact ⟨parsing, .none hsorted, hahead⟩
  | cons stretch stretches ih =>
    obtain ⟨⟨hmodel, hgap⟩, hothers⟩ := List.forall_mem_cons.mp h
    set rest := stretches.flatMap tokens
    have htokens : parsing.ahead = stretch.model ++ (stretch.gap ++ rest) :=
      hahead.trans (List.append_assoc ..)
    obtain ⟨hstarts, hreads⟩ := hmodel.reads (stretch.gap ++ rest)
    rw [← htokens] at hstarts hreads
    obtain ⟨middle, hfirst, hmiddle⟩ := passes_model hsorted hstarts hreads
    obtain ⟨next, hsecond, hnext⟩ := passes_gap hfirst.took.sorted hmiddle hgap
      (seesNoStart_flatMap hothers)
    obtain ⟨last, hothers, hlast⟩ := ih hothers hsecond.took.sorted hnext
    exact ⟨last, hfirst.andThen (hsecond.andThen hothers), hlast⟩

/-- A text that is a header, then some tokens that begin no model, and then models with such tokens
behind each. Its tree holds every model as that is read by itself, and what stands between two of
them in one piece, with one report. Nothing else is reported. -/
theorem parse_stretches {text : String} {header gap : List Token} {stretches : List Stretch}
    (hheader : header.map Token.kind = headerKinds)
    (hgap : StartsNone gap) (hstretches : ∀ stretch ∈ stretches, stretch.Stands)
    (htokens : visible (tokenize text) = header ++ (gap ++ stretches.flatMap tokens)) :
    (parse text).tree.bare Kind.isNothing id = .node .sourceFile
        (.node .header (header.map .token) :: (setAside gap ++ stretches.flatMap trees)) ∧
      (parse text).errors.map SyntaxError.what =
        complaints gap ++ stretches.flatMap fun stretch => complaints stretch.gap := by
  have hsorted := Input.sorted_ofText text
  have hahead := (Parsing.ahead_ofText text).trans htokens
  have hheaders : Rule.Reads enumType Grammar.header (header ++ (gap ++ stretches.flatMap tokens))
      _ _ := (reads_header hheader).mpr ⟨rfl, rfl⟩
  have hword := (Parsing.meets_ahead hsorted _).symm.trans
    (hahead ▸ sees_interlisKw_of_reads hheaders)
  obtain ⟨start, hruns, hnone, htook, hstart⟩ := hheaders.runs (by decide)
    renamesToIdent_enumType (.ofText text) hsorted hahead
  obtain ⟨middle, hfirst, hmiddle⟩ := passes_gap htook.sorted hstart hgap
    (seesNoStart_flatMap hstretches)
  obtain ⟨last, hothers, hlast⟩ := passes_stretches hstretches hfirst.took.sorted hmiddle
  have hpasses := hfirst.andThen hothers
  have hstop : Guard.more.holds last.input.ahead = false := by
    rw [← Parsing.meets_ahead hpasses.took.sorted, hlast]
    rfl
  obtain ⟨herrors, htree⟩ := parse_of_runs
    (.seq (.yes hword hruns) (.seq (hpasses.runs last (.stop hstop)) .flush))
    (htook.andThen (hpasses.took.andThen (.flushed hpasses.took.sorted)))
  have hflushed : last.flushed.errors = last.errors := List.append_nil _
  rw [List.append_nil] at htree
  rw [herrors, hflushed, hpasses.errors, hnone]
  exact ⟨htree, rfl⟩

def memberless (name : String) (gap : List Token) : Stretch where
  model := [⟨.modelKw, "MODEL"⟩, ⟨.ident, name⟩, ⟨.eq, "="⟩, ⟨.endKw, "END"⟩, ⟨.ident, name⟩,
    ⟨.dot, "."⟩]
  children := [.token ⟨.modelKw, "MODEL"⟩, .node .name [.token ⟨.ident, name⟩], .token ⟨.eq, "="⟩,
    .token ⟨.endKw, "END"⟩, .token ⟨.ident, name⟩, .token ⟨.dot, "."⟩]
  gap := gap

theorem parse_stretches_braces :
    let header : List Token := [⟨.interlisKw, "INTERLIS"⟩, ⟨.decimal, "2.4"⟩, ⟨.semicolon, ";"⟩]
    let semicolons : List Token := [⟨.semicolon, ";"⟩, ⟨.semicolon, ";"⟩]
    let braces : List Token := [⟨.rBrace, "\x7d"⟩, ⟨.lBrace, "\x7b"⟩, ⟨.endKw, "END"⟩]
    let first := memberless "A" braces
    let second := memberless "B" []
    let text := "INTERLIS 2.4;;; MODEL A = END A. \x7d\x7b END MODEL B = END B."
    first.Stands ∧ second.Stands ∧
      visible (tokenize text) = header ++ (semicolons ++ [first, second].flatMap tokens) ∧
      (parse text).tree.bare Kind.isNothing id = .node .sourceFile
        [.node .header (header.map .token), .node .error (semicolons.map .token),
          .node .model first.children, .node .error (braces.map .token),
          .node .model second.children] ∧
      (parse text).errors.map SyntaxError.what =
        [(.notAModel, .semicolon), (.notAModel, .rBrace)] := by
  intro header semicolons braces first second text
  have hheader : header.map Token.kind = headerKinds := rfl
  have hfirst : first.Stands :=
    ⟨⟨"INTERLIS 2.4; MODEL A = END A.", header, .node .header (header.map .token),
      by decide +kernel⟩, by decide⟩
  have hsecond : second.Stands :=
    ⟨⟨"INTERLIS 2.4; MODEL B = END B.", header, .node .header (header.map .token),
      by decide +kernel⟩, by decide⟩
  have hstands : ∀ stretch ∈ [first, second], stretch.Stands := by
    simpa using ⟨hfirst, hsecond⟩
  have hgap : StartsNone semicolons := by decide
  have htokens : visible (tokenize text) =
      header ++ (semicolons ++ [first, second].flatMap tokens) := by decide +kernel
  exact ⟨hfirst, hsecond, htokens, parse_stretches hheader hgap hstands htokens⟩

end Stretch

end Ili
