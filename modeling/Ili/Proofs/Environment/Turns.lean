import Ili.Proofs.Environment.Registry

/-!
# The turns of a run

A run looks at its token whenever the turn of a name has come, and once more before it binds. The
token can have been cancelled at any time in between: before the first look, during a query or
behind the last one. Called off or not, a run is a row of turns, so what a turn keeps is kept by the
run.
-/

namespace Ili

/-- When a run is called off: whether it has been by the time that so many looks have been taken at
the token and so many queries been made. -/
structure CancellationToken where
  isCancelled (looks queries : Nat) : Bool
  /-- There is no way back. -/
  lasting : ∀ {looks queries looks' queries' : Nat}, looks ≤ looks' → queries ≤ queries' →
    isCancelled looks queries = true → isCancelled looks' queries' = true

def CancellationToken.duringQuery (number : Option Nat) : CancellationToken where
  isCancelled _ queries := number.any fun number => number ≤ queries
  lasting _ hqueries h := by
    cases number with
    | none => cases h
    | some number => simpa using (of_decide_eq_true h).trans hqueries

namespace Closure

def turn (provider : Provider) (token : CancellationToken) (filter : Option String)
    (closure : Closure) (missing : String × ImportSite) : Closure :=
  if closure.isAborted then closure
  else
    let (name, site) := missing
    let isCancelled := token.isCancelled closure.handled.length closure.queries.length
    let closure := { closure with handled := closure.handled ++ [name] }
    if isCancelled then { closure with isAborted := true }
    else if closure.env.knowsModel name then closure
    else
      { closure with queries := closure.queries ++ [(name, filter)] }.choose name site
        ((provider name filter).toOption.getD [])

inductive ClosesBy (turn : Closure → String × ImportSite → Closure) : Closure → Closure → Prop
  | done {closure : Closure} (h : (closure.isAborted || closure.pending.isEmpty) = true) :
      ClosesBy turn closure closure
  | round {closure last : Closure} (h : (closure.isAborted || closure.pending.isEmpty) = false)
      (hrest : ClosesBy turn (closure.pending.foldl turn closure) last) :
      ClosesBy turn closure last

/-- What becomes of a run that comes to its end with this closure. The token is looked at once more.
-/
def settle (token : CancellationToken) (closure : Closure) : Resolution :=
  if closure.isAborted || token.isCancelled closure.handled.length closure.queries.length then
    ⟨closure.env, false, Diagnostic.sort closure.diagnostics, closure.queries⟩
  else
    let findings := closure.env.referenceFindings closure.reported
    ⟨closure.env.bind, true, Diagnostic.sort (closure.diagnostics ++ findings), closure.queries⟩

variable {provider : Provider} {token : CancellationToken} {filter : Option String}
variable {closure last : Closure}

/-! ### Calling off by the number of a query -/

theorem turn_duringQuery (provider : Provider) (calledOff : Option Nat) (filter : Option String) :
    turn provider (.duringQuery calledOff) filter = stepWith provider calledOff filter :=
  rfl

theorem settle_duringQuery (calledOff : Option Nat) (closure : Closure) :
    closure.settle (.duringQuery calledOff) = closure.conclude calledOff :=
  rfl

theorem closesBy_stepWith_iff {calledOff : Option Nat} :
    ClosesBy (stepWith provider calledOff filter) closure last ↔
      ClosesWith provider calledOff filter closure last := by
  constructor
  · intro h
    induction h with
    | done h => exact .done h
    | round h _ ih => exact .round h ih
  · intro h
    induction h with
    | done h => exact .done h
    | round h _ ih => exact .round h ih

/-! ### What a turn does -/

/-- What a query for a name can bring to light, by the candidates that are offered. -/
inductive Fault (version : Option String) (name : String) : List RepositoryModel → Finding → Prop
  | notFound : Fault version name [] (.modelNotFound name)
  | ambiguous {chosen : RepositoryModel} {others : List RepositoryModel} (h : others ≠ []) :
      Fault version name (chosen :: others)
        (.ambiguousModel name ((chosen :: others).map RepositoryModel.uri))
  | mismatch {chosen : RepositoryModel} {others : List RepositoryModel} {catalog : Catalog}
      (hcatalog : catalog = .ofText chosen.content (some chosen.uri))
      (h : catalog.schemaVersion ≠ version) :
      Fault version name (chosen :: others)
        (.versionMismatch name catalog.schemaVersion version)

theorem mem_report {site : ImportSite} {finding : Finding} {diagnostic : Diagnostic}
    (h : diagnostic ∈ (closure.report site finding).diagnostics) :
    diagnostic ∈ closure.diagnostics ∨ diagnostic.finding = finding := by
  refine (List.mem_append.mp h).imp_right fun hnew => ?_
  rw [List.mem_singleton.mp hnew]

theorem fault_of_mem_take {name : String} {site : ImportSite} {chosen : RepositoryModel}
    (others : List RepositoryModel) {diagnostic : Diagnostic}
    (h : diagnostic ∈
      (closure.take name site (.ofText chosen.content (some chosen.uri))).diagnostics) :
    diagnostic ∈ closure.diagnostics ∨
      Fault closure.env.version name (chosen :: others) diagnostic.finding := by
  rw [take] at h
  split at h
  · exact .inl h
  · next hother =>
    refine (mem_report h).imp_right fun hfinding => ?_
    rw [hfinding]
    exact .mismatch rfl hother

theorem fault_of_mem_choose {name : String} {site : ImportSite}
    {candidates : List RepositoryModel} {diagnostic : Diagnostic}
    (h : diagnostic ∈ (closure.choose name site candidates).diagnostics) :
    diagnostic ∈ closure.diagnostics ∨
      Fault closure.env.version name candidates diagnostic.finding := by
  cases candidates with
  | nil =>
    refine (mem_report h).imp_right fun hfinding => ?_
    rw [hfinding]
    exact .notFound
  | cons chosen others =>
    rw [choose] at h
    by_cases hothers : others = []
    · subst hothers
      exact fault_of_mem_take [] h
    · rw [if_neg (by simpa using hothers)] at h
      refine (fault_of_mem_take others h).elim (fun h => ?_) .inr
      refine (mem_report h).imp_right fun hfinding => ?_
      rw [hfinding]
      exact .ambiguous hothers

theorem env_choose (closure : Closure) (name : String) (site : ImportSite)
    (candidates : List RepositoryModel) :
    (closure.choose name site candidates).env = closure.env ∨
      ∃ text uri, (closure.choose name site candidates).env =
        (closure.env.merge (.ofText text uri)).1 := by
  obtain ⟨found, -, heq⟩ := exists_choose closure name site candidates
  rw [heq]
  cases hfitting : RepositoryAccess.fitting? closure.env.version candidates with
  | none => exact .inl rfl
  | some catalog =>
    obtain ⟨chosen, -, rfl⟩ :=
      Option.map_eq_some_iff.mp (Option.filter_eq_some_iff.mp hfitting).1
    exact .inr ⟨_, _, rfl⟩

theorem turn_of_isAborted (h : closure.isAborted = true) (entry : String × ImportSite) :
    turn provider token filter closure entry = closure := by
  rw [turn, if_pos h]

theorem foldl_turn_of_isAborted (h : closure.isAborted = true)
    (missing : List (String × ImportSite)) :
    missing.foldl (turn provider token filter) closure = closure := by
  induction missing with
  | nil => rfl
  | cons entry rest ih => rw [List.foldl_cons, turn_of_isAborted h, ih]

/-- The turn of a name: the run is found to be called off, or the name has arrived by now, or it is
asked for. -/
theorem turn_cases (provider : Provider) (token : CancellationToken) (filter : Option String)
    (hopen : closure.isAborted = false) (name : String) (site : ImportSite) :
    (token.isCancelled closure.handled.length closure.queries.length = true ∧
      turn provider token filter closure (name, site) =
        { closure with handled := closure.handled ++ [name], isAborted := true }) ∨
    token.isCancelled closure.handled.length closure.queries.length = false ∧
      ((closure.env.knowsModel name = true ∧
        turn provider token filter closure (name, site) =
          { closure with handled := closure.handled ++ [name] }) ∨
      (closure.env.knowsModel name = false ∧
        turn provider token filter closure (name, site) =
          { closure with
            handled := closure.handled ++ [name]
            queries := closure.queries ++ [(name, filter)] }.choose name site
              ((provider name filter).toOption.getD []))) := by
  rw [turn, if_neg (by rw [hopen]; exact Bool.false_ne_true)]
  dsimp only
  cases hoff : token.isCancelled closure.handled.length closure.queries.length with
  | true => exact .inl ⟨rfl, rfl⟩
  | false =>
    refine .inr ⟨rfl, ?_⟩
    cases hknown : closure.env.knowsModel name with
    | true => exact .inl ⟨rfl, rfl⟩
    | false => exact .inr ⟨rfl, rfl⟩

/-- What every turn keeps, a run keeps. -/
theorem ClosesBy.preserves {turn : Closure → String × ImportSite → Closure}
    {Keeps : Closure → Prop} (h : ClosesBy turn closure last)
    (hturn : ∀ closure entry, Keeps closure → Keeps (turn closure entry))
    (hclosure : Keeps closure) : Keeps last := by
  have hfold (missing : List (String × ImportSite)) (closure : Closure) (h : Keeps closure) :
      Keeps (missing.foldl turn closure) := by
    induction missing generalizing closure with
    | nil => exact h
    | cons entry rest ih => exact ih _ (hturn closure entry h)
  induction h with
  | done => exact hclosure
  | round _ _ ih => exact ih (hfold _ _ hclosure)

end Closure

end Ili
