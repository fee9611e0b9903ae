import Ili.Proofs.Environment.Turns

/-!
# Runs that are called off

Where the token is cancelled before the run binds, the run is given up: it binds nothing. By then it
may have added files, since the answer to the last query is taken in before the token is looked at
again. These files stay, with all their references unbound, and so does all that was there before.
-/

namespace Ili

namespace Environment

/-- A run that reports no reference and leaves all of them alone: those that were there are as they
were, and those that have come with a file are unbound. No model has moved. -/
structure LeftUnbound (env : Environment) (run : Resolution) : Prop where
  before : ∀ id : ReferenceId, id.file < env.files.size →
    run.env.reference? id = env.reference? id
  appended : ∀ (id : ReferenceId) (reference : Reference), env.files.size ≤ id.file →
    run.env.reference? id = some reference → reference.state = .unbound
  model? : ∀ (name : String) (id : DefinitionId),
    env.model? name = some id → run.env.model? name = some id
  codes : ∀ diagnostic ∈ run.diagnostics,
    diagnostic.finding.code ≠ some "E0001" ∧ diagnostic.finding.code ≠ some "E0002"

theorem reference?_of_extends {env larger : Environment} (h : env.Extends larger)
    {id : ReferenceId} (hfile : id.file < env.files.size) :
    larger.reference? id = env.reference? id := by
  have hold := Array.getElem?_eq_getElem hfile
  rw [reference?, reference?, h.file? hold]
  exact congrArg (Option.bind · _) hold.symm

theorem reference?_eq_none {env : Environment} {id : ReferenceId}
    (hfile : env.files.size ≤ id.file) : env.reference? id = none := by
  rw [reference?, file?, Array.getElem?_eq_none hfile]
  rfl

end Environment

namespace Closure

/-- What holds while the turns of a run go on: the environment only grows, by files in which nothing
is bound, the reports are about what is offered for models, and if the run has been given up then
the token is cancelled. -/
structure Closing (provider : Provider) (token : CancellationToken) (filter : Option String)
    (origin : Environment) (closure : Closure) : Prop where
  extends_env : origin.Extends closure.env
  unbound : ∀ (id : ReferenceId) (reference : Reference),
    closure.env.reference? id = some reference →
      origin.reference? id = some reference ∨ reference.state = .unbound
  faults : ∀ diagnostic ∈ closure.diagnostics, ∃ name,
    Fault origin.version name ((provider name filter).toOption.getD []) diagnostic.finding
  isCancelled : closure.isAborted = true →
    token.isCancelled closure.handled.length closure.queries.length = true

variable {provider : Provider} {token : CancellationToken} {filter : Option String}
variable {origin : Environment} {closure last : Closure}

theorem closing_start (env : Environment) : Closing provider token filter env (.start env) where
  extends_env := .refl env
  unbound _ _ h := .inl h
  faults _ h := by cases h
  isCancelled h := by cases h

theorem Closing.choose (h : Closing provider token filter origin closure)
    (hopen : closure.isAborted = false) (name : String) (site : ImportSite) :
    Closing provider token filter origin
      (closure.choose name site ((provider name filter).toOption.getD [])) := by
  set candidates := (provider name filter).toOption.getD []
  refine ⟨?_, fun id reference hfound => ?_, fun diagnostic hmem => ?_, fun haborted => ?_⟩
  · rcases env_choose closure name site candidates with heq | ⟨text, uri, heq⟩
    · rw [heq]
      exact h.extends_env
    · rw [heq]
      exact h.extends_env.trans (Environment.extends_merge _ _)
  · rcases env_choose closure name site candidates with heq | ⟨text, uri, heq⟩
    · rw [heq] at hfound
      exact h.unbound id reference hfound
    · rw [heq] at hfound
      exact (Environment.reference?_merge hfound).elim (h.unbound id reference) .inr
  · rcases fault_of_mem_choose hmem with hold | hfault
    · exact h.faults diagnostic hold
    · exact ⟨name, h.extends_env.version ▸ hfault⟩
  · obtain ⟨_, -, heq⟩ := exists_choose closure name site candidates
    rw [heq] at haborted
    rw [hopen] at haborted
    cases haborted

theorem Closing.turn (h : Closing provider token filter origin closure)
    (entry : String × ImportSite) :
    Closing provider token filter origin (turn provider token filter closure entry) := by
  cases hopen : closure.isAborted with
  | true => rwa [turn_of_isAborted hopen]
  | false =>
    rcases turn_cases provider token filter hopen entry.1 entry.2 with
      ⟨hcancelled, hturn⟩ | ⟨-, ⟨-, hturn⟩ | ⟨-, hturn⟩⟩
    · rw [hturn]
      refine ⟨h.extends_env, h.unbound, h.faults, fun _ => ?_⟩
      exact token.lasting (List.length_append ▸ Nat.le_add_right ..) le_rfl hcancelled
    · rw [hturn]
      exact ⟨h.extends_env, h.unbound, h.faults, fun haborted => absurd haborted (by simp [hopen])⟩
    · have hasked : Closing provider token filter origin { closure with
          handled := closure.handled ++ [entry.1]
          queries := closure.queries ++ [(entry.1, filter)] } :=
        ⟨h.extends_env, h.unbound, h.faults, fun haborted => absurd haborted (by simp [hopen])⟩
      rw [hturn]
      exact hasked.choose hopen _ _

theorem ClosesBy.closing {env : Environment}
    (h : ClosesBy (turn provider token filter) (.start env) last) :
    Closing provider token filter env last :=
  h.preserves (fun _ entry hclosing => hclosing.turn entry) (closing_start env)

/-! ### A token that gets cancelled ends the run -/

theorem length_turn_le (provider : Provider) (token : CancellationToken) (filter : Option String)
    (closure : Closure) (entry : String × ImportSite) :
    closure.handled.length ≤ (turn provider token filter closure entry).handled.length ∧
      closure.queries.length ≤ (turn provider token filter closure entry).queries.length := by
  cases hopen : closure.isAborted with
  | true => rw [turn_of_isAborted hopen]; exact ⟨le_rfl, le_rfl⟩
  | false =>
    rcases turn_cases provider token filter hopen entry.1 entry.2 with
      ⟨-, hturn⟩ | ⟨-, ⟨-, hturn⟩ | ⟨-, hturn⟩⟩
    · rw [hturn]
      exact ⟨by simp, le_rfl⟩
    · rw [hturn]
      exact ⟨by simp, le_rfl⟩
    · obtain ⟨_, -, heq⟩ := exists_choose { closure with
        handled := closure.handled ++ [entry.1], queries := closure.queries ++ [(entry.1, filter)] }
        entry.1 entry.2 ((provider entry.1 filter).toOption.getD [])
      rw [hturn, heq]
      simp

theorem length_foldl_turn_le (provider : Provider) (token : CancellationToken)
    (filter : Option String) (closure : Closure) (missing : List (String × ImportSite)) :
    closure.handled.length ≤ (missing.foldl (turn provider token filter) closure).handled.length ∧
      closure.queries.length ≤
        (missing.foldl (turn provider token filter) closure).queries.length := by
  induction missing generalizing closure with
  | nil => exact ⟨le_rfl, le_rfl⟩
  | cons entry rest ih =>
    obtain ⟨hlooks, hqueries⟩ := length_turn_le provider token filter closure entry
    exact ⟨hlooks.trans (ih _).1, hqueries.trans (ih _).2⟩

theorem round_looks (provider : Provider) (token : CancellationToken) (filter : Option String)
    (hgoes : (closure.isAborted || closure.pending.isEmpty) = false) :
    let next := closure.pending.foldl (turn provider token filter) closure
    next.isAborted = true ∨
      token.isCancelled closure.handled.length closure.queries.length = false ∧
        closure.handled.length < next.handled.length ∧
        closure.queries.length < next.queries.length := by
  intro next
  obtain ⟨hopen, hpending⟩ := Bool.or_eq_false_iff.mp hgoes
  obtain ⟨⟨name, site⟩, rest, hrow⟩ : ∃ entry rest, closure.pending = entry :: rest :=
    List.exists_cons_of_ne_nil (by simpa using hpending)
  have hnext : next = rest.foldl (turn provider token filter)
      (turn provider token filter closure (name, site)) := by
    change closure.pending.foldl _ closure = _
    rw [hrow, List.foldl_cons]
  have hunknown : closure.env.knowsModel name = false := by
    obtain ⟨hmissing, -⟩ := mem_pending.mp (hrow ▸ List.mem_cons_self (a := (name, site)))
    exact (Environment.mem_missingImports.mp ⟨site, hmissing⟩).2
  rcases turn_cases provider token filter hopen name site with
    ⟨-, hturn⟩ | ⟨hgoesOn, ⟨hknown, -⟩ | ⟨-, hturn⟩⟩
  · left
    rw [hnext, hturn, foldl_turn_of_isAborted rfl]
  · rw [hunknown] at hknown
    cases hknown
  · right
    obtain ⟨hlooks, hqueries⟩ := length_foldl_turn_le provider token filter
      (turn provider token filter closure (name, site)) rest
    obtain ⟨_, -, heq⟩ := exists_choose { closure with
      handled := closure.handled ++ [name], queries := closure.queries ++ [(name, filter)] }
      name site ((provider name filter).toOption.getD [])
    rw [← hnext, hturn, heq] at hlooks hqueries
    simp only [List.length_append, List.length_singleton] at hlooks hqueries
    exact ⟨hgoesOn, hlooks, hqueries⟩

/-- A run whose token gets cancelled comes to an end, also where the provider always has a text that
imports more. -/
theorem exists_closesBy (provider : Provider) (filter : Option String) {looks queries : Nat}
    (hcancelled : token.isCancelled looks queries = true) (closure : Closure) :
    ∃ last, ClosesBy (turn provider token filter) closure last := by
  -- The token is ahead of the run by so many looks and queries; a round catches up.
  induction hahead : looks - closure.handled.length + (queries - closure.queries.length)
    using Nat.strong_induction_on generalizing closure with
  | _ ahead ih =>
    cases hgoes : closure.isAborted || closure.pending.isEmpty with
    | true => exact ⟨closure, .done hgoes⟩
    | false =>
      rcases round_looks provider token filter hgoes with haborted | ⟨hgoesOn, hlooks, hqueries⟩
      · exact ⟨_, .round hgoes (.done (by rw [haborted, Bool.true_or]))⟩
      · have hearly : ¬(looks ≤ closure.handled.length ∧ queries ≤ closure.queries.length) := by
          rintro ⟨hpast, hpast'⟩
          rw [token.lasting hpast hpast' hcancelled] at hgoesOn
          cases hgoesOn
        obtain ⟨last, hlast⟩ :=
          ih _ (by omega) (closure.pending.foldl (turn provider token filter) closure) rfl
        exact ⟨last, .round hgoes hlast⟩

/-! ### What is given up -/

theorem Closing.isComplete_settle (h : Closing provider token filter origin closure) :
    (closure.settle token).isComplete = false ↔
      token.isCancelled closure.handled.length closure.queries.length = true := by
  rw [settle]
  cases haborted : closure.isAborted with
  | true => simpa using h.isCancelled haborted
  | false =>
    cases hcancelled : token.isCancelled closure.handled.length closure.queries.length <;> simp

theorem settle_of_not_isComplete (h : (closure.settle token).isComplete = false) :
    closure.settle token =
      ⟨closure.env, false, Diagnostic.sort closure.diagnostics, closure.queries⟩ := by
  rw [settle] at h ⊢
  split
  · rfl
  · next hgoesOn =>
    rw [if_neg hgoesOn] at h
    cases h

theorem Fault.code_ne {version : Option String} {name : String}
    {candidates : List RepositoryModel} {finding : Finding}
    (h : Fault version name candidates finding) :
    finding.code ≠ some "E0001" ∧ finding.code ≠ some "E0002" := by
  cases h <;> exact ⟨by simp [Finding.code], by simp [Finding.code]⟩

theorem Closing.leftUnbound (h : Closing provider token filter origin closure)
    (hgivenUp : (closure.settle token).isComplete = false) :
    origin.LeftUnbound (closure.settle token) := by
  rw [settle_of_not_isComplete hgivenUp]
  refine ⟨fun id hfile => Environment.reference?_of_extends h.extends_env hfile,
    fun id reference hfile hfound => ?_, fun _ _ => h.extends_env.model?,
    fun diagnostic hmem => ?_⟩
  · refine (h.unbound id reference hfound).resolve_left fun hold => ?_
    rw [Environment.reference?_eq_none hfile] at hold
    cases hold
  · obtain ⟨_, hfault⟩ := h.faults diagnostic ((Diagnostic.sort_perm _).mem_iff.mp hmem)
    exact hfault.code_ne

end Closure

namespace Environment

/-- The turns of a run over an environment come to their end with this closure. -/
def ClosesUnder (env : Environment) (provider : Provider) (token : CancellationToken)
    (filter : Option String) (last : Closure) : Prop :=
  Closure.ClosesBy (Closure.turn provider token (env.queryFilter filter)) (.start env) last

theorem closesUnder_run (env : Environment) (access : RepositoryAccess) (filter : Option String) :
    let last := Closure.run access (env.queryFilter filter) env
    env.ClosesUnder access.search (.duringQuery access.calledOff) filter last ∧
      env.resolve access filter = last.settle (.duringQuery access.calledOff) := by
  refine ⟨?_, (Closure.settle_duringQuery access.calledOff _).symm⟩
  rw [ClosesUnder, Closure.turn_duringQuery, Closure.closesBy_stepWith_iff,
    Closure.closesWith_search_iff]
  exact Closure.closes_run ..

/-- A run whose token gets cancelled ends, whatever the provider has to offer. A run that ends is
given up just if the token was cancelled at some time before it would bind, and then it binds
nothing. -/
theorem cancelled_leftUnbound (env : Environment) (provider : Provider) (token : CancellationToken)
    (filter : Option String) :
    ((∃ looks queries, token.isCancelled looks queries = true) →
      ∃ last, env.ClosesUnder provider token filter last) ∧
    ∀ last, env.ClosesUnder provider token filter last →
      ((last.settle token).isComplete = false ↔
        ∃ looks ≤ last.handled.length, ∃ queries ≤ last.queries.length,
          token.isCancelled looks queries = true) ∧
      ((last.settle token).isComplete = false → env.LeftUnbound (last.settle token)) := by
  refine ⟨?_, fun last hlast => ⟨?_, hlast.closing.leftUnbound⟩⟩
  · rintro ⟨looks, queries, hcancelled⟩
    exact Closure.exists_closesBy provider _ hcancelled _
  · rw [hlast.closing.isComplete_settle]
    constructor
    · exact fun hcancelled => ⟨_, le_rfl, _, le_rfl, hcancelled⟩
    · rintro ⟨looks, hlooks, queries, hqueries, hcancelled⟩
      exact token.lasting hlooks hqueries hcancelled

/-- A run that is called off during its only query has taken in the answer and binds nothing. -/
theorem cancelled_leftUnbound_importing :
    let run := (importing initial).resolve ⟨importedAccess.repository, [], some 1⟩ none
    run.isComplete = false ∧ run.env.files.size = 3 ∧ (importing initial).LeftUnbound run := by
  -- For any base, so that nothing in the proof computes the predefined catalog.
  suffices hbase : ∀ base : Environment, base.Fetches →
      let run := (importing base).resolve ⟨importedAccess.repository, [], some 1⟩ none
      run.isComplete = false ∧ run.env.files.size = 3 ∧ (importing base).LeftUnbound run from
    hbase initial fetches_initial
  rintro base ⟨hfilter, hmissing, hnothing, hfew, hsize⟩ run
  set access : RepositoryAccess := ⟨importedAccess.repository, [], some 1⟩
  obtain ⟨hcloses, hrun⟩ := closesUnder_run (importing base) access none
  set last := Closure.run access ((importing base).queryFilter none) (importing base)
  have hlast : last = Closure.step importedAccess (some "ili2_4") (.start (importing base))
      ("A", importedSite) :=
    hfilter ▸ run_importing (show some 1 ≠ some 0 by decide) hmissing hnothing
  have hasked : last.queries = [("A", some "ili2_4")] := by
    rw [hlast]
    exact queries_step_importing hmissing
  obtain ⟨hgivenUp, hleft⟩ := (cancelled_leftUnbound (importing base) access.search
    (.duringQuery (some 1)) none).2 last hcloses
  have hincomplete := hgivenUp.mpr ⟨0, Nat.zero_le _, 1, by rw [hasked]; rfl, rfl⟩
  rw [show run = _ from hrun]
  refine ⟨hincomplete, ?_, hleft hincomplete⟩
  rw [Closure.settle_of_not_isComplete hincomplete, hlast]
  exact hsize

end Environment

end Ili
