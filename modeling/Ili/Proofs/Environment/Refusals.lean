import Ili.Proofs.Environment.Closure

/-!
# Which imports are reported

A run that completes reports the names whose queries brought nothing. Such a name was not known when
it was asked for, and the answers to later queries are all that can make it known after that: a file
fetched for another model may declare it. So a report says nothing wrong just when no file that is
taken in later declares the model.
-/

namespace Ili

namespace Environment

variable {access : RepositoryAccess} {filter : Option String}

def queryFilter (env : Environment) (filter : Option String) : Option String :=
  filter.or (env.version.map schemaLanguage)

theorem refused?_of_mem_referenceFindings {env : Environment} {reported : List String}
    {diagnostic : Diagnostic} (h : diagnostic ∈ env.referenceFindings reported) :
    diagnostic.finding.refused? = none := by
  obtain ⟨⟨id, reference⟩, -, hmap⟩ := List.mem_filterMap.mp h
  obtain ⟨finding, hfinding, rfl⟩ := Option.map_eq_some_iff.mp hmap
  rw [referenceFinding?] at hfinding
  split at hfinding
  · cases hfinding
  · obtain rfl := Option.some.inj hfinding
    rfl
  · split at hfinding
    · cases hfinding
    · obtain rfl := Option.some.inj hfinding
      rfl

theorem resolve_of_isComplete {env : Environment}
    (h : (env.resolve access filter).isComplete = true) :
    let closure := Closure.run access (env.queryFilter filter) env
    closure.isAborted = false ∧
      env.resolve access filter =
        ⟨closure.env.bind, true,
          Diagnostic.sort (closure.diagnostics ++ closure.env.referenceFindings closure.reported),
          closure.queries⟩ := by
  intro closure
  have hresolve : env.resolve access filter =
      if closure.isAborted || access.isCalledOff closure.queries.length then
        ⟨closure.env, false, Diagnostic.sort closure.diagnostics, closure.queries⟩
      else
        ⟨closure.env.bind, true,
          Diagnostic.sort (closure.diagnostics ++ closure.env.referenceFindings closure.reported),
          closure.queries⟩ := rfl
  rw [hresolve] at h ⊢
  cases hoff : closure.isAborted || access.isCalledOff closure.queries.length with
  | true => simp [hoff] at h
  | false => exact ⟨(Bool.or_eq_false_iff.mp hoff).1, rfl⟩

theorem isComplete_resolve (hoff : access.calledOff = none) (env : Environment)
    (filter : Option String) : (env.resolve access filter).isComplete = true := by
  have hopen : (Closure.run access (env.queryFilter filter) env).isAborted = false :=
    (Closure.closes_run access (env.queryFilter filter) env).isAborted hoff rfl
  have hcalled (count : Nat) : access.isCalledOff count = false := by
    rw [RepositoryAccess.isCalledOff, hoff]
    rfl
  change (if (Closure.run access (env.queryFilter filter) env).isAborted || access.isCalledOff _
    then _ else _ : Resolution).isComplete = true
  rw [hopen, hcalled]
  rfl

theorem knowsModel_bind (env : Environment) (name : String) :
    env.bind.knowsModel name = env.knowsModel name :=
  rfl

theorem mem_refusals_resolve {env : Environment} {name : String}
    (h : (env.resolve access filter).isComplete = true) :
    name ∈ Closure.refusals (env.resolve access filter).diagnostics ↔
      name ∈ (Closure.run access (env.queryFilter filter) env).reported := by
  have hclosure := Closure.consistent_run access (env.queryFilter filter) env
  rw [(resolve_of_isComplete h).2, ← hclosure.refusals_eq]
  simp only [Closure.refusals, List.mem_filterMap, (Diagnostic.sort_perm _).mem_iff,
    List.mem_append]
  constructor
  · rintro ⟨diagnostic, hmem | hmem, hname⟩
    · exact ⟨diagnostic, hmem, hname⟩
    · rw [refused?_of_mem_referenceFindings hmem] at hname
      cases hname
  · rintro ⟨diagnostic, hmem, hname⟩
    exact ⟨diagnostic, .inl hmem, hname⟩

/-- A model that a run says is not to be had was not known when it was asked for. It is known in the
end just when a file taken in for a later query declares it. -/
theorem known_of_refused_iff (env : Environment) (access : RepositoryAccess)
    (filter : Option String) (hcomplete : (env.resolve access filter).isComplete = true)
    {name : String} (hrefused : name ∈ Closure.refusals (env.resolve access filter).diagnostics) :
    let run := env.resolve access filter
    ∃ before after, run.queries = before ++ (name, env.queryFilter filter) :: after ∧
      ((before.map Prod.fst).foldl (answered access (env.queryFilter filter)) env).knowsModel name =
        false ∧
      (run.env.knowsModel name = true ↔
        ∃ other ∈ after, ∃ catalog,
          access.taken? (env.queryFilter filter) env.version other.1 = some catalog ∧
            name ∈ catalog.modelNames) := by
  intro run
  have hclosure := Closure.consistent_run access (env.queryFilter filter) env
  have hrun := (resolve_of_isComplete hcomplete).2
  set closure := Closure.run access (env.queryFilter filter) env
  have hreported : name ∈ closure.reported := (mem_refusals_resolve hcomplete).mp hrefused
  rw [hclosure.reported_eq, List.mem_filter, Option.isNone_iff_eq_none] at hreported
  obtain ⟨hasked, htaken⟩ := hreported
  obtain ⟨before, after, hsplit⟩ := List.append_of_mem hasked
  have hunknown := (hclosure.moment before name after hsplit).1
  have hqueries : run.queries = before.map (·, env.queryFilter filter) ++
      (name, env.queryFilter filter) :: after.map (·, env.queryFilter filter) := by
    rw [show run.queries = closure.queries by rw [show run = _ from hrun], hclosure.queries_eq,
      hsplit, List.map_append, List.map_cons]
  have henv : run.env.knowsModel name = closure.env.knowsModel name := by
    rw [show run = _ from hrun]
    exact knowsModel_bind closure.env name
  refine ⟨_, _, hqueries, ?_, ?_⟩
  · have hnames : (before.map (·, env.queryFilter filter)).map Prod.fst = before := by
      rw [List.map_map]
      exact List.map_id before
    rw [hnames]
    exact hunknown
  · -- The query for the name itself changed nothing, so only the later ones count.
    have hversion := (extends_foldl_answered access (env.queryFilter filter) env before).version
    have hsame : answered access (env.queryFilter filter)
        (before.foldl (answered access (env.queryFilter filter)) env) name =
          before.foldl (answered access (env.queryFilter filter)) env := by
      rw [answered, hversion, htaken]
    rw [henv, hclosure.env_eq, hsplit, List.foldl_append, List.foldl_cons, hsame,
      knowsModel_foldl_answered, hversion, hunknown]
    simp

def importingPair : Environment :=
  append ⟨some "2.4", #[], .empty⟩
    (.ofText "INTERLIS 2.4; MODEL U = IMPORTS A, B; END U." none)

/-- A repository that has both models in one file, entered under the second name. -/
def pairAccess : RepositoryAccess :=
  ⟨⟨[⟨"B", "ili2_4", "b.ili", "INTERLIS 2.4; MODEL A = END A. MODEL B = END B."⟩]⟩, [], none⟩

def pairMissing : List (String × ImportSite) :=
  [("A", ⟨none, ⟨⟨0, 32⟩, ⟨0, 33⟩⟩⟩), ("B", ⟨none, ⟨⟨0, 35⟩, ⟨0, 36⟩⟩⟩)]

theorem run_importingPair :
    Closure.run pairAccess (some "ili2_4") importingPair =
      pairMissing.foldl (Closure.step pairAccess (some "ili2_4")) (.start importingPair) := by
  have hfirst : (Closure.start importingPair).pending = pairMissing := by
    have hmissing : ((Closure.start importingPair).env.missingImports.entries.filter fun entry =>
        !(Closure.start importingPair).handled.contains entry.1) = pairMissing := by
      decide +kernel
    rw [Closure.pending, hmissing]
    exact List.mergeSort_of_pairwise (by decide)
  have hlast : (pairMissing.foldl (Closure.step pairAccess (some "ili2_4"))
      (.start importingPair)).pending = [] := by
    have hmissing : ((pairMissing.foldl (Closure.step pairAccess (some "ili2_4"))
        (.start importingPair)).env.missingImports.entries.filter fun entry =>
          !(pairMissing.foldl (Closure.step pairAccess (some "ili2_4"))
            (.start importingPair)).handled.contains entry.1) = [] := by
      decide +kernel
    rw [Closure.pending, hmissing, List.mergeSort_nil]
  exact Closure.run_of_round hfirst hlast

/-- The first model is reported, and the file fetched for the second one brings it. -/
theorem known_of_refused_iff_pair :
    (importingPair.resolve pairAccess none).isComplete = true ∧
      "A" ∈ Closure.refusals (importingPair.resolve pairAccess none).diagnostics ∧
      (importingPair.resolve pairAccess none).env.knowsModel "A" = true := by
  have hfilter : importingPair.queryFilter none = some "ili2_4" := by decide +kernel
  have hcomplete := isComplete_resolve
    (show pairAccess.calledOff = none from rfl) importingPair none
  have hrefused :
      "A" ∈ Closure.refusals (importingPair.resolve pairAccess none).diagnostics := by
    rw [mem_refusals_resolve hcomplete, hfilter, run_importingPair]
    decide +kernel
  obtain ⟨before, after, hqueries, -, hknown⟩ :=
    known_of_refused_iff importingPair pairAccess none hcomplete hrefused
  have hasked : (importingPair.resolve pairAccess none).queries =
      [("A", some "ili2_4"), ("B", some "ili2_4")] := by
    rw [(resolve_of_isComplete hcomplete).2, hfilter, run_importingPair]
    decide +kernel
  rw [hasked, hfilter] at hqueries
  have hlater : ("B", some "ili2_4") ∈ after := by
    cases before with
    | nil => exact (List.cons.inj hqueries).2 ▸ List.mem_singleton.mpr rfl
    | cons first front => cases front <;> simp at hqueries
  refine ⟨hcomplete, hrefused, hknown.mpr ⟨_, hlater, ?_⟩⟩
  have htaken : (pairAccess.taken? (importingPair.queryFilter none) importingPair.version
      "B").any (fun catalog => catalog.modelNames.contains "A") = true := by
    decide +kernel
  obtain ⟨catalog, hcatalog, hnames⟩ := (Option.any_eq_true _ _).mp htaken
  exact ⟨catalog, hcatalog, List.contains_iff_mem.mp hnames⟩

end Environment

end Ili
