import Ili.Proofs.Grammar.Lossless

/-!
# Progress

What a rule does with the next token can be read off the rule as far as its guards look at that
token only. A rule that surely takes the next token, whatever its kind, makes a loop that ends with
nothing left. The rule for files is such a loop, so a tree holds all tokens of its text.
-/

namespace Ili

namespace Guard

def decidedBy (next : Kind) : Guard → Option Bool
  | more => some true
  | sees kinds => some (kinds.contains next)
  | seesKeyword => some next.isKeyword
  | seesWord _ | thenSees _ | thenSeesKeyword | sentenceOf _ => none
  | negate guard => (guard.decidedBy next).map not
  | both left right =>
    match left.decidedBy next, right.decidedBy next with
    | some false, _ | _, some false => some false
    | some true, some true => some true
    | _, _ => none
  | either left right =>
    match left.decidedBy next, right.decidedBy next with
    | some true, _ | _, some true => some true
    | some false, some false => some false
    | _, _ => none

theorem holds_of_decidedBy {guard : Guard} {lexeme : Lexeme} {answer : Bool}
    (h : guard.decidedBy lexeme.kind = some answer) (rest : List Lexeme) :
    guard.holds (lexeme :: rest) = answer := by
  induction guard generalizing answer with
  | more => exact Option.some.inj h
  | sees kinds => exact Option.some.inj h
  | seesKeyword => exact Option.some.inj h
  | seesWord | thenSees | thenSeesKeyword | sentenceOf => cases h
  | negate guard ih =>
    obtain ⟨inner, hinner, rfl⟩ := Option.map_eq_some_iff.mp h
    rw [holds, ih hinner]
  | both left right ihLeft ihRight =>
    simp only [decidedBy] at h
    split at h <;> simp_all [holds]
  | either left right ihLeft ihRight =>
    simp only [decidedBy] at h
    split at h <;> simp_all [holds]

end Guard

namespace Rule

def advancesOn (next : Kind) : Rule → Bool
  | .bump | .bumpAs _ => true
  | .seq first second => first.advancesOn next || second.advancesOn next
  | .choose guard yes no =>
    match guard.decidedBy next with
    | some true => yes.advancesOn next
    | some false => no.advancesOn next
    | none => yes.advancesOn next && no.advancesOn next
  | .many guard body => guard.decidedBy next == some true && body.advancesOn next
  | .balancedTo stops => !stops.contains next
  | .node _ body => body.advancesOn next
  | .extendAs _ first guard second =>
    first.advancesOn next || (guard.decidedBy next == some true && second.advancesOn next)
  | .skip | .flush | .report _ | .nested => false

end Rule

def Outcome.Advances (outcome : Outcome) (input : Input) : Prop :=
  outcome.rest.ahead.length < input.ahead.length

namespace Outcome

theorem Takes.ahead_eq {outcome : Outcome} {input : Input} (h : outcome.Takes input)
    (hnot : ¬outcome.Advances input) :
    outcome.rest.ahead.map Lexeme.token = input.ahead.map Lexeme.token := by
  obtain ⟨taken, htaken, -⟩ := h.ahead
  have hlength := congrArg List.length htaken
  simp only [List.length_map, List.length_append] at hlength
  have hnil : taken = [] := by
    apply List.length_eq_zero_iff.mp
    simp only [Advances] at hnot
    omega
  rw [htaken, hnil, List.nil_append]

/-- A step behind another one advances the whole if either does. The second step sees the same token
as the first if that took none. -/
theorem Takes.advances_andThen {outcome : Outcome} {input : Input} {step : Input → Outcome}
    (h : outcome.Takes input) (hstep : (step outcome.rest).Takes outcome.rest)
    (hadvances : ¬outcome.Advances input → (step outcome.rest).Advances outcome.rest) :
    (outcome.andThen step).Advances input := by
  have hfirst := h.length_le
  have hsecond := hstep.length_le
  by_cases hdone : outcome.Advances input
  · exact Nat.lt_of_le_of_lt hsecond hdone
  · exact Nat.lt_of_lt_of_le (hadvances hdone) hfirst

end Outcome

def Input.kinds (input : Input) : List Kind :=
  input.ahead.map Lexeme.kind

theorem Input.kinds_eq_of_tokens_eq {input other : Input}
    (h : input.ahead.map Lexeme.token = other.ahead.map Lexeme.token) :
    input.kinds = other.kinds := by
  have hkinds := congrArg (List.map Token.kind) h
  rw [List.map_map, List.map_map] at hkinds
  exact hkinds

theorem Input.exists_of_kinds_eq_cons {input : Input} {next : Kind} {others : List Kind}
    (h : input.kinds = next :: others) :
    ∃ lexeme rest, input.ahead = lexeme :: rest ∧ lexeme.kind = next := by
  obtain ⟨lexeme, rest, hahead, hnext, -⟩ := List.map_eq_cons_iff.mp h
  exact ⟨lexeme, rest, hahead, hnext⟩

namespace Rule

theorem kinds_flushed (input : Input) : input.flushed.kinds = input.kinds := by
  obtain ⟨ahead, trailing, stop⟩ := input
  cases ahead <;> rfl

theorem advances_runBump (rename : Token → Token) {input : Input} {next : Kind}
    {others : List Kind} (h : input.kinds = next :: others) :
    (runBump rename input).Advances input := by
  obtain ⟨lexeme, rest, hahead, -⟩ := Input.exists_of_kinds_eq_cons h
  simp [Outcome.Advances, runBump, hahead]

theorem advances_runBalancedTo {stops : List Kind} {input : Input} {next : Kind}
    {others : List Kind} (h : input.kinds = next :: others) (hstops : stops.contains next = false) :
    (runBalancedTo stops input).Advances input := by
  obtain ⟨lexeme, rest, hahead, rfl⟩ := Input.exists_of_kinds_eq_cons h
  have hsplit := splitBalanced_append stops (depthAfter 0 lexeme.kind) rest
  have hlength := congrArg List.length hsplit
  rw [List.length_append] at hlength
  have hmem : lexeme.kind ∉ stops := by simpa using hstops
  simp only [Outcome.Advances, runBalancedTo, hahead, splitBalanced, List.contains_eq_mem, hmem,
    decide_false, Bool.false_eq_true, and_false, if_false, List.length_cons]
  omega

variable {nested : Input → Outcome}

theorem advances_runWith (hnested : ∀ input : Input, input.Sorted → (nested input).Takes input)
    (rule : Rule) (hrule : rule.renamesToIdent = true) {input : Input} (h : input.Sorted)
    {next : Kind} {others : List Kind} (hnext : input.kinds = next :: others)
    (hadvances : rule.advancesOn next = true) : (rule.runWith nested input).Advances input := by
  induction rule generalizing input with
  | bump | bumpAs => exact advances_runBump _ hnext
  | seq first second ihFirst ihSecond =>
    simp only [renamesToIdent, Bool.and_eq_true] at hrule
    simp only [advancesOn, Bool.or_eq_true] at hadvances
    have hfirst := takes_runWith hnested first hrule.1 h
    have hsecond := takes_runWith hnested second hrule.2 hfirst.sorted
    refine hfirst.advances_andThen hsecond fun hnot => ?_
    have hkinds := (Input.kinds_eq_of_tokens_eq (hfirst.ahead_eq hnot)).trans hnext
    rcases hadvances with hadvances | hadvances
    · exact absurd (ihFirst hrule.1 h hnext hadvances) hnot
    · exact ihSecond hrule.2 hfirst.sorted hkinds hadvances
  | choose guard yes no ihYes ihNo =>
    simp only [renamesToIdent, Bool.and_eq_true] at hrule
    obtain ⟨lexeme, rest, hahead, rfl⟩ := Input.exists_of_kinds_eq_cons hnext
    simp only [advancesOn] at hadvances
    simp only [runWith, hahead]
    cases hdecided : guard.decidedBy lexeme.kind with
    | none =>
      simp only [hdecided, Bool.and_eq_true] at hadvances
      split
      · exact ihYes hrule.1 h hnext hadvances.1
      · exact ihNo hrule.2 h hnext hadvances.2
    | some answer =>
      rw [Guard.holds_of_decidedBy hdecided]
      cases answer with
      | true => exact ihYes hrule.1 h hnext (by simpa [hdecided] using hadvances)
      | false => exact ihNo hrule.2 h hnext (by simpa [hdecided] using hadvances)
  | many guard body ih =>
    obtain ⟨lexeme, rest, hahead, rfl⟩ := Input.exists_of_kinds_eq_cons hnext
    simp only [advancesOn, Bool.and_eq_true, beq_iff_eq] at hadvances
    have hfirst := takes_runWith hnested body hrule h
    -- The guard holds at this token, so the body is run once at least.
    simp only [runWith, hahead, List.length_cons, runMany]
    rw [Guard.holds_of_decidedBy hadvances.1, if_pos rfl]
    refine hfirst.advances_andThen ?_ fun hnot => absurd (ih hrule h hnext hadvances.2) hnot
    exact takes_runMany (fun _ hother => takes_runWith hnested body hrule hother) _ hfirst.sorted
  | balancedTo stops =>
    exact advances_runBalancedTo hnext (by simpa [advancesOn] using hadvances)
  | node kind body ih =>
    have hflush := takes_runFlush h
    refine hflush.advances_andThen ((takes_runWith hnested body hrule hflush.sorted).wrap kind)
      fun _ => ?_
    exact ih hrule hflush.sorted ((kinds_flushed input).trans hnext) hadvances
  | extendAs kind first guard second ihFirst ihSecond =>
    simp only [renamesToIdent, Bool.and_eq_true] at hrule
    simp only [advancesOn, Bool.or_eq_true, Bool.and_eq_true, beq_iff_eq] at hadvances
    have hflush := takes_runFlush h
    have hhead := takes_runWith hnested first hrule.1 hflush.sorted
    have hkinds := (kinds_flushed input).trans hnext
    have hwhole := hhead.andThen (takes_runWith hnested second hrule.2 hhead.sorted)
    refine hflush.advances_andThen ?_ fun _ => ?_
    · dsimp only
      split
      · exact hwhole.wrap kind
      · exact hhead
    · dsimp only
      by_cases hdone : (first.runWith nested (runFlush input).rest).Advances (runFlush input).rest
      · split
        · exact Nat.lt_of_le_of_lt
            (takes_runWith hnested second hrule.2 hhead.sorted).length_le hdone
        · exact hdone
      · -- The first rule took nothing, so the guard looks at the same token.
        have hsame := (Input.kinds_eq_of_tokens_eq (hhead.ahead_eq hdone)).trans hkinds
        rcases hadvances with hadvances | hadvances
        · exact absurd (ihFirst hrule.1 hflush.sorted hkinds hadvances) hdone
        · obtain ⟨lexeme, rest, hahead, rfl⟩ := Input.exists_of_kinds_eq_cons hsame
          rw [hahead, Guard.holds_of_decidedBy hadvances.1, if_pos rfl]
          exact Nat.lt_of_lt_of_le (ihSecond hrule.2 hhead.sorted hsame hadvances.2)
            hhead.length_le
  | skip | flush | report | nested => cases hadvances

theorem ahead_runMany_more {step : Input → Outcome}
    (hstep : ∀ input : Input, input.Sorted → (step input).Takes input)
    (hadvances : ∀ input : Input, input.Sorted → input.ahead ≠ [] → (step input).Advances input)
    (bound : Nat) {input : Input} (h : input.Sorted) (hbound : input.ahead.length ≤ bound) :
    (runMany .more step bound input).rest.ahead = [] := by
  induction bound generalizing input with
  | zero => exact List.length_eq_zero_iff.mp (Nat.le_zero.mp hbound)
  | succ bound ih =>
    rw [runMany]
    split
    · next hmore =>
      have hne : input.ahead ≠ [] := by simpa [Guard.holds] using hmore
      have hlt : (step input).rest.ahead.length < input.ahead.length := hadvances input h hne
      exact ih (hstep input h).sorted (by omega)
    · next hmore =>
      change input.ahead = []
      simpa [Guard.holds] using hmore

end Rule

namespace Grammar

theorem renamesToIdent_enumType : enumType.renamesToIdent = true := by decide

theorem renamesToIdent_file : file.renamesToIdent = true := by decide

def fileItem : Rule :=
  .choose (.sees modelStarts) model (Rule.recover .notAModel modelStarts)

theorem advancesOn_fileItem (next : Kind) : fileItem.advancesOn next = true := by
  cases next <;> rfl

theorem takes_nested (depth : Nat) (input : Input) (h : input.Sorted) :
    (Rule.runNested enumType depth input).Takes input :=
  Rule.takes_runNested renamesToIdent_enumType depth h

theorem rest_run_file {input : Input} (h : input.Sorted) :
    (Rule.run enumType file input).rest.tokens = [] := by
  set nested := Rule.runNested enumType input.ahead.length
  have hnested := takes_nested input.ahead.length
  have hitem : ∀ other : Input, other.Sorted → (fileItem.runWith nested other).Takes other :=
    fun _ hother => Rule.takes_runWith hnested fileItem (by decide) hother
  have hhead := Rule.takes_runWith hnested
    (.choose (.sees [.interlisKw]) header (.report .missingHeader)) (by decide) h
  set head := Rule.runWith nested
    (.choose (.sees [.interlisKw]) header (.report .missingHeader)) input
  have hloop := Rule.ahead_runMany_more hitem (fun other hother hne => by
    obtain ⟨lexeme, rest, hahead⟩ := List.exists_cons_of_ne_nil hne
    exact Rule.advances_runWith hnested fileItem (by decide) hother
      (show other.kinds = lexeme.kind :: rest.map Lexeme.kind by rw [Input.kinds, hahead]; rfl)
      (advancesOn_fileItem _)) head.rest.ahead.length hhead.sorted (Nat.le_refl _)
  set loop := Rule.runMany .more (fileItem.runWith nested) head.rest.ahead.length head.rest
  have hrest : (Rule.run enumType file input).rest = loop.rest.flushed := rfl
  rw [hrest, Input.flushed, hloop]
  simp [Input.tokens]

end Grammar

/-- The tokens of a tree are those of its text; some visible ones have become identifiers. -/
theorem tokens_parse (text : String) :
    List.Forall₂ Token.StandsFor (parse text).tree.tokens (tokenize text) := by
  have hsorted := Input.sorted_ofText text
  obtain ⟨taken, htaken, htrees⟩ := (Rule.takes_runWith
    (Grammar.takes_nested (Input.ofText text).ahead.length) Grammar.file
    Grammar.renamesToIdent_file hsorted).tokens
  have hnil := Grammar.rest_run_file hsorted
  rw [Rule.run] at hnil
  rw [hnil, List.append_nil, Input.tokens_ofText] at htaken
  rw [htaken]
  exact htrees

theorem exists_standsFor {text : String} {token : Token} (h : token ∈ (parse text).tree.tokens) :
    ∃ inText ∈ tokenize text, token.StandsFor inText := by
  obtain ⟨i, hi, rfl⟩ := List.getElem_of_mem h
  have htokens := List.forall₂_iff_get.mp (tokens_parse text)
  exact ⟨(tokenize text).get ⟨i, htokens.1 ▸ hi⟩, List.get_mem _ _,
    htokens.2 i hi (htokens.1 ▸ hi)⟩

theorem spelling_tokens_parse (text : String) :
    spelling (parse text).tree.tokens = text.toList := by
  rw [spelling_congr (tokens_parse text), spelling_tokenize]

end Ili
