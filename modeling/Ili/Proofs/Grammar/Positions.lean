import Ili.Proofs.Grammar.Steps
import Ili.Proofs.Token.Tiling

/-!
# Where a parse stands

What is left for a rule is what stands behind some position in the row of tokens, and running a rule
moves the position forward only. Problems are reported at the first visible token behind the
position, so they are met in the order in which they stand in the text.
-/

namespace Ili

namespace Input

def behind (tokens : List Token) (position : Nat) : Input :=
  ofTokens ((tokens.take position).map Token.size).sum [] (tokens.drop position)

theorem behind_zero (text : String) : behind (tokenize text) 0 = ofText text :=
  rfl

variable {tokens : List Token} {position : Nat}

theorem sorted_behind : (behind tokens position).Sorted :=
  sorted_ofTokens _ [] _ (by simp)

theorem behind_of_length_le (h : tokens.length ≤ position) :
    behind tokens position = ⟨[], [], (tokens.map Token.size).sum⟩ := by
  rw [behind, List.take_of_length_le h, List.drop_of_length_le h]
  rfl

theorem flushed_ofTokens (start : Nat) (pending tokens : List Token) :
    (ofTokens start pending tokens).flushed = (ofTokens start [] tokens).flushed := by
  induction tokens generalizing start pending with
  | nil => rfl
  | cons token rest ih =>
    rw [ofTokens, ofTokens]
    split
    · rw [ih, ih _ [token]]
    · rfl

theorem behind_eq_cons {token : Token} (h : tokens[position]? = some token) :
    behind tokens position = ofTokens ((tokens.take position).map Token.size).sum []
        (token :: tokens.drop (position + 1)) ∧
      ((tokens.take (position + 1)).map Token.size).sum =
        ((tokens.take position).map Token.size).sum + token.size := by
  obtain ⟨hlt, rfl⟩ := List.getElem?_eq_some_iff.mp h
  constructor
  · rw [behind, List.drop_eq_getElem_cons hlt]
  · rw [List.take_succ_eq_append_getElem hlt, List.map_append, List.sum_append, List.map_singleton,
      List.sum_singleton]

theorem flushed_behind_of_trivia {token : Token} (h : tokens[position]? = some token)
    (htrivia : token.kind.isTrivia = true) :
    (behind tokens position).flushed = (behind tokens (position + 1)).flushed := by
  obtain ⟨hbehind, hsize⟩ := behind_eq_cons h
  rw [hbehind, ofTokens, if_pos htrivia, flushed_ofTokens, behind, hsize]

theorem behind_of_visible {token : Token} (h : tokens[position]? = some token)
    (hvisible : token.kind.isTrivia = false) :
    behind tokens position =
      { behind tokens (position + 1) with
        ahead := ⟨[], token, ((tokens.take position).map Token.size).sum⟩ ::
          (behind tokens (position + 1)).ahead } := by
  obtain ⟨hbehind, hsize⟩ := behind_eq_cons h
  rw [hbehind, ofTokens, if_neg (Bool.eq_false_iff.mp hvisible), behind, hsize]
  rfl

theorem exists_flushed_behind (tokens : List Token) (position : Nat) :
    ∃ next, position ≤ next ∧ next ≤ max position tokens.length ∧
      (behind tokens position).flushed = behind tokens next ∧
      (tokens.length ≤ next ∨
        ∃ token, tokens[next]? = some token ∧ token.kind.isTrivia = false) := by
  by_cases hend : tokens.length ≤ position
  · refine ⟨position, Nat.le_refl _, Nat.le_max_left .., ?_, .inl hend⟩
    rw [behind_of_length_le hend]
    rfl
  · obtain ⟨token, htoken⟩ : ∃ token, tokens[position]? = some token :=
      ⟨_, List.getElem?_eq_getElem (Nat.lt_of_not_le hend)⟩
    cases hkind : token.kind.isTrivia with
    | false =>
      refine ⟨position, Nat.le_refl _, Nat.le_max_left .., ?_, .inr ⟨token, htoken, hkind⟩⟩
      rw [behind_of_visible htoken hkind]
      rfl
    | true =>
      obtain ⟨next, hle, hbound, hflushed, hnext⟩ := exists_flushed_behind tokens (position + 1)
      exact ⟨next, by omega, by omega,
        (flushed_behind_of_trivia htoken hkind).trans hflushed, hnext⟩
termination_by tokens.length - position

theorem exists_behind_rest {lexeme : Lexeme} {rest : List Lexeme}
    (h : (behind tokens position).ahead = lexeme :: rest) :
    ∃ next, position < next ∧ next ≤ tokens.length ∧
      { behind tokens position with ahead := rest } = behind tokens next := by
  obtain ⟨visible, hle, hbound, hflushed, hvisible⟩ := exists_flushed_behind tokens position
  have hahead : (behind tokens visible).ahead = { lexeme with trivia := [] } :: rest := by
    rw [← hflushed, flushed, h]
  have hrest : { behind tokens position with ahead := rest } =
      { behind tokens visible with ahead := rest } := by
    rw [← hflushed, flushed, h]
  rcases hvisible with hend | ⟨token, htoken, hkind⟩
  · rw [behind_of_length_le hend] at hahead
    cases hahead
  · obtain ⟨hlt, -⟩ := List.getElem?_eq_some_iff.mp htoken
    refine ⟨visible + 1, Nat.lt_succ_of_le hle, hlt, ?_⟩
    rw [hrest]
    rw [behind_of_visible htoken hkind] at hahead ⊢
    rw [← (List.cons.inj hahead).2]

/-! ### Problems are located at the next visible token -/

theorem start_locate (input : Input) (problem other : Problem) :
    (input.locate problem).start = (input.locate other).start := by
  rw [locate, locate]
  split <;> rfl

theorem locate_flushed (input : Input) (problem : Problem) :
    input.flushed.locate problem = input.locate problem := by
  obtain ⟨ahead, trailing, stop⟩ := input
  cases ahead <;> rfl

theorem locate_ofTokens (start : Nat) (pending tokens : List Token) (problem : Problem) :
    (∃ placed ∈ withOffsets start tokens, placed.2.kind.isTrivia = false ∧
      ((ofTokens start pending tokens).locate problem).start = placed.1 ∧
      ((ofTokens start pending tokens).locate problem).stop = placed.1 + placed.2.size) ∨
    (((ofTokens start pending tokens).locate problem).start =
        start + (tokens.map Token.size).sum ∧
      ((ofTokens start pending tokens).locate problem).stop =
        start + (tokens.map Token.size).sum) := by
  induction tokens generalizing start pending with
  | nil => exact .inr ⟨rfl, rfl⟩
  | cons token rest ih =>
    rw [ofTokens, withOffsets, List.map_cons, List.sum_cons, ← Nat.add_assoc]
    split
    · rcases ih (start + token.size) (token :: pending) with ⟨placed, hmem, hplaced⟩ | hend
      · exact .inl ⟨placed, List.mem_cons_of_mem _ hmem, hplaced⟩
      · exact .inr hend
    · next hvisible =>
      exact .inl ⟨(start, token), List.mem_cons_self, Bool.eq_false_iff.mpr hvisible, rfl, rfl⟩

theorem le_start_locate (start : Nat) (pending tokens : List Token) (problem : Problem) :
    start ≤ ((ofTokens start pending tokens).locate problem).start := by
  induction tokens generalizing start pending with
  | nil => exact Nat.le_refl _
  | cons token rest ih =>
    rw [ofTokens]
    split
    · exact (Nat.le_add_right start token.size).trans (ih _ _)
    · exact Nat.le_refl _

theorem start_locate_succ_le (tokens : List Token) (position : Nat) (problem : Problem) :
    ((behind tokens position).locate problem).start ≤
      ((behind tokens (position + 1)).locate problem).start := by
  by_cases hend : tokens.length ≤ position
  · rw [behind_of_length_le hend, behind_of_length_le (Nat.le_succ_of_le hend)]
  · obtain ⟨token, htoken⟩ : ∃ token, tokens[position]? = some token :=
      ⟨_, List.getElem?_eq_getElem (Nat.lt_of_not_le hend)⟩
    cases hkind : token.kind.isTrivia with
    | true =>
      rw [← locate_flushed, flushed_behind_of_trivia htoken hkind, locate_flushed]
    | false =>
      have hsize := (behind_eq_cons htoken).2
      have hle := le_start_locate ((tokens.take (position + 1)).map Token.size).sum []
        (tokens.drop (position + 1)) problem
      rw [behind_of_visible htoken hkind]
      change ((tokens.take position).map Token.size).sum ≤ _
      exact (Nat.le_add_right _ token.size).trans (hsize.ge.trans hle)

theorem start_locate_le {first second : Nat} (h : first ≤ second) (problem other : Problem) :
    ((behind tokens first).locate problem).start ≤ ((behind tokens second).locate other).start := by
  rw [start_locate (behind tokens second) other problem]
  induction second, h using Nat.le_induction with
  | base => exact Nat.le_refl _
  | succ second _ ih => exact ih.trans (start_locate_succ_le tokens second problem)

theorem withOffsets_drop (start : Nat) (tokens : List Token) (position : Nat) :
    withOffsets (start + ((tokens.take position).map Token.size).sum) (tokens.drop position) =
      (withOffsets start tokens).drop position := by
  induction tokens generalizing start position with
  | nil => simp [withOffsets]
  | cons token rest ih =>
    cases position with
    | zero => rfl
    | succ position => simpa [withOffsets, Nat.add_assoc] using ih (start + token.size) position

theorem locate_behind (tokens : List Token) (position : Nat) (problem : Problem) :
    (∃ placed ∈ withOffsets 0 tokens, placed.2.kind.isTrivia = false ∧
      ((behind tokens position).locate problem).start = placed.1 ∧
      ((behind tokens position).locate problem).stop = placed.1 + placed.2.size) ∨
    (((behind tokens position).locate problem).start = (tokens.map Token.size).sum ∧
      ((behind tokens position).locate problem).stop = (tokens.map Token.size).sum) := by
  have hdrop := withOffsets_drop 0 tokens position
  rw [Nat.zero_add] at hdrop
  have hsum : ((tokens.take position).map Token.size).sum +
      ((tokens.drop position).map Token.size).sum = (tokens.map Token.size).sum := by
    rw [← List.sum_append, ← List.map_append, List.take_append_drop]
  rcases locate_ofTokens ((tokens.take position).map Token.size).sum [] (tokens.drop position)
    problem with ⟨placed, hmem, hplaced⟩ | hend
  · rw [hdrop] at hmem
    exact .inl ⟨placed, List.mem_of_mem_drop hmem, hplaced⟩
  · rw [hsum] at hend
    exact .inr hend

end Input

/-! ### Running a rule moves the position forward -/

/-- Problems met one after the other between two positions, each located where it was met. -/
inductive Reported (tokens : List Token) : Nat → List SyntaxError → Nat → Prop
  | none {first last : Nat} (h : first ≤ last) : Reported tokens first [] last
  | problem {first place last : Nat} {problem : Problem} {errors : List SyntaxError}
      (h : first ≤ place) (hrest : Reported tokens place errors last) :
      Reported tokens first ((Input.behind tokens place).locate problem :: errors) last

namespace Reported

variable {tokens : List Token} {first middle last : Nat} {errors others : List SyntaxError}

theorem le (h : Reported tokens first errors last) : first ≤ last := by
  induction h with
  | none h => exact h
  | problem h _ ih => exact h.trans ih

theorem of_le (hle : first ≤ middle) (h : Reported tokens middle errors last) :
    Reported tokens first errors last := by
  cases h with
  | none h => exact .none (hle.trans h)
  | problem h hrest => exact .problem (hle.trans h) hrest

theorem append (h : Reported tokens first errors middle)
    (hnext : Reported tokens middle others last) :
    Reported tokens first (errors ++ others) last := by
  induction h with
  | none hle => exact hnext.of_le hle
  | problem hle _ ih => exact .problem hle (ih hnext)

theorem exists_place (h : Reported tokens first errors last) {error : SyntaxError}
    (hmem : error ∈ errors) : ∃ place problem, first ≤ place ∧
      error = (Input.behind tokens place).locate problem := by
  induction h with
  | none => cases hmem
  | problem hle _ ih =>
    rcases List.mem_cons.mp hmem with rfl | hmem
    · exact ⟨_, _, hle, rfl⟩
    · obtain ⟨place, problem, hplace, herror⟩ := ih hmem
      exact ⟨place, problem, hle.trans hplace, herror⟩

theorem pairwise (h : Reported tokens first errors last) :
    errors.Pairwise fun error other => error.start ≤ other.start := by
  induction h with
  | none => exact .nil
  | problem _ hrest ih =>
    refine .cons (fun error hmem => ?_) ih
    obtain ⟨place, problem, hplace, rfl⟩ := hrest.exists_place hmem
    exact Input.start_locate_le hplace _ _

end Reported

/-- From one position in a row of tokens a parse has come to another one, and what it reported on
the way was met between the two. -/
structure Parsing.Reaches (tokens : List Token) (parsing : Parsing) (position : Nat)
    (last : Parsing) (next : Nat) : Prop where
  input : last.input = .behind tokens next
  le_max : next ≤ max position tokens.length
  reported : ∃ errors, last.errors = parsing.errors ++ errors ∧
    Reported tokens position errors next

namespace Parsing.Reaches

variable {tokens : List Token} {parsing middle last : Parsing} {position between next : Nat}

theorem le (h : Reaches tokens parsing position last next) : position ≤ next := by
  obtain ⟨errors, -, hreported⟩ := h.reported
  exact hreported.le

theorem trans (h : Reaches tokens parsing position middle between)
    (h' : Reaches tokens middle between last next) : Reaches tokens parsing position last next := by
  obtain ⟨errors, herrors, hreported⟩ := h.reported
  obtain ⟨others, hothers, hreported'⟩ := h'.reported
  have hle := h.le_max
  have hle' := h'.le_max
  refine ⟨h'.input, by omega, errors ++ others, ?_, hreported.append hreported'⟩
  rw [hothers, herrors, List.append_assoc]

theorem of_silent {outcome : Outcome} (hrest : outcome.rest = .behind tokens next)
    (hle : position ≤ next) (hbound : next ≤ max position tokens.length)
    (herrors : outcome.errors = []) :
    Reaches tokens parsing position (parsing.after outcome) next :=
  ⟨hrest, hbound, [], congrArg (parsing.errors ++ ·) herrors, .none hle⟩

theorem refl (h : parsing.input = .behind tokens position) :
    Reaches tokens parsing position parsing position :=
  ⟨h, Nat.le_max_left .., [], (List.append_nil _).symm, .none (Nat.le_refl _)⟩

end Parsing.Reaches

namespace Rule

variable {tokens : List Token} {parsing last : Parsing} {position : Nat}

theorem reaches_flushed (h : parsing.input = .behind tokens position) :
    ∃ next, parsing.Reaches tokens position parsing.flushed next := by
  obtain ⟨next, hle, hbound, hflushed, -⟩ := Input.exists_flushed_behind tokens position
  rw [← h] at hflushed
  exact ⟨next, .of_silent hflushed hle hbound rfl⟩

theorem reaches_runBump (rename : Token → Token) (h : parsing.input = .behind tokens position) :
    ∃ next,
      parsing.Reaches tokens position (parsing.after (runBump rename parsing.input)) next := by
  cases hahead : parsing.input.ahead with
  | nil =>
    rw [runBump, hahead]
    exact reaches_flushed h
  | cons lexeme rest =>
    rw [h] at hahead
    obtain ⟨next, hlt, hbound, hrest⟩ := Input.exists_behind_rest hahead
    refine ⟨next, .of_silent ?_ hlt.le (hbound.trans (Nat.le_max_right ..)) ?_⟩ <;>
      rw [runBump, h, hahead]
    exact hrest

theorem exists_behind_splitBalanced (stops : List Kind) (depth : Nat) {ahead : List Lexeme}
    (h : (Input.behind tokens position).ahead = ahead) :
    ∃ next, position ≤ next ∧ next ≤ max position tokens.length ∧
      { Input.behind tokens position with ahead := (splitBalanced stops depth ahead).2 } =
        Input.behind tokens next := by
  have hstay : { Input.behind tokens position with ahead } = Input.behind tokens position := by
    rw [← h]
  induction ahead generalizing position depth with
  | nil => exact ⟨position, Nat.le_refl _, Nat.le_max_left .., hstay⟩
  | cons lexeme rest ih =>
    rw [splitBalanced]
    split
    · exact ⟨position, Nat.le_refl _, Nat.le_max_left .., hstay⟩
    · obtain ⟨next, hlt, hbound, hrest⟩ := Input.exists_behind_rest h
      have hahead : (Input.behind tokens next).ahead = rest := by rw [← hrest]
      obtain ⟨last, hle, hlast, hsplit⟩ :=
        ih (depthAfter depth lexeme.kind) hahead (by rw [← hahead])
      refine ⟨last, hlt.le.trans hle, by omega, ?_⟩
      rw [← hsplit, ← hrest]

theorem reaches_runBalancedTo (stops : List Kind) (h : parsing.input = .behind tokens position) :
    ∃ next, parsing.Reaches tokens position (parsing.after (runBalancedTo stops parsing.input))
      next := by
  obtain ⟨next, hle, hbound, hsplit⟩ :=
    exists_behind_splitBalanced stops 0 (congrArg Input.ahead h.symm)
  rw [← h] at hsplit
  exact ⟨next, .of_silent hsplit hle hbound rfl⟩

/-- A run goes from a position to one that is not before it. -/
theorem Runs.reaches {inner rule : Rule} (hruns : Runs inner rule parsing last)
    (h : parsing.input = .behind tokens position) :
    ∃ next, parsing.Reaches tokens position last next := by
  induction hruns generalizing position with
  | skip => exact ⟨position, .refl h⟩
  | bump => exact reaches_runBump id h
  | bumpAs => exact reaches_runBump _ h
  | flush => exact reaches_flushed h
  | @report parsing problem =>
    refine ⟨position, h, Nat.le_max_left .., [parsing.input.locate problem], rfl, ?_⟩
    rw [h]
    exact .problem (Nat.le_refl _) (.none (Nat.le_refl _))
  | balancedTo => exact reaches_runBalancedTo _ h
  | seq _ _ ihFirst ihSecond =>
    obtain ⟨between, hfirst⟩ := ihFirst h
    obtain ⟨next, hsecond⟩ := ihSecond hfirst.input
    exact ⟨next, hfirst.trans hsecond⟩
  | yes _ _ ih => exact ih h
  | no _ _ ih => exact ih h
  | stop => exact ⟨position, .refl h⟩
  | again _ _ _ ihBody ihRest =>
    obtain ⟨between, hbody⟩ := ihBody h
    obtain ⟨next, hrest⟩ := ihRest hbody.input
    exact ⟨next, hbody.trans hrest⟩
  | node _ ih =>
    obtain ⟨between, hflush⟩ := reaches_flushed h
    obtain ⟨next, hbody⟩ := ih hflush.input
    obtain ⟨hinput, hle, hreported⟩ := hflush.trans ⟨hbody.input, hbody.le_max, hbody.reported⟩
    exact ⟨next, hinput, hle, hreported⟩
  | plain _ _ ih =>
    obtain ⟨between, hflush⟩ := reaches_flushed h
    obtain ⟨next, hfirst⟩ := ih hflush.input
    exact ⟨next, hflush.trans hfirst⟩
  | extended _ _ _ ihFirst ihSecond =>
    obtain ⟨start, hflush⟩ := reaches_flushed h
    obtain ⟨between, hfirst⟩ := ihFirst hflush.input
    obtain ⟨next, hsecond⟩ := ihSecond hfirst.input
    obtain ⟨hinput, hle, hreported⟩ :=
      (hflush.trans hfirst).trans ⟨hsecond.input, hsecond.le_max, hsecond.reported⟩
    exact ⟨next, hinput, hle, hreported⟩
  | nested _ ih => exact ih h

end Rule

/-- An error covers just one visible token, or it stands at the end of the text and covers nothing;
and errors are reported in the order in which they start. -/
theorem errors_parse_located (text : String) :
    (∀ error ∈ (parse text).errors,
      (∃ placed ∈ withOffsets 0 (tokenize text), placed.2.kind.isTrivia = false ∧
        error.start = placed.1 ∧ error.stop = placed.1 + placed.2.size) ∨
      (error.start = utf8Length text.toList ∧ error.stop = utf8Length text.toList)) ∧
    (parse text).errors.Pairwise fun error other => error.start ≤ other.start := by
  obtain ⟨last, hruns, -, herrors, -, -⟩ := runs_parse text
  obtain ⟨next, hreaches⟩ := hruns.reaches (Input.behind_zero text).symm
  obtain ⟨errors, hlast, hreported⟩ := hreaches.reported
  have hparse : (parse text).errors = errors := herrors.symm.trans hlast
  have hsize : ((tokenize text).map Token.size).sum = utf8Length text.toList := by
    rw [← utf8Length_spelling, spelling_tokenize]
  rw [hparse]
  refine ⟨fun error hmem => ?_, hreported.pairwise⟩
  obtain ⟨place, problem, -, rfl⟩ := hreported.exists_place hmem
  have hlocated := Input.locate_behind (tokenize text) place problem
  rwa [hsize] at hlocated

end Ili
