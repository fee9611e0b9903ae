import Ili.Environment.Resolve
import Ili.Proofs.Environment.Extension
import Mathlib.Data.Finset.Card

/-!
# What a closure asks for

A closure is the story of its queries: its environment is the first one with the answers taken in
one after another, and what it reports are the queries that brought nothing. A name is asked for
only while it is imported and not known, and only once. The rounds come to an end, because every
round that changes the environment uses up a name of the repository; and when they end, nothing is
missing that was not asked for.
-/

namespace Ili

namespace RepositoryAccess

def fitting? (version : Option String) (candidates : List RepositoryModel) : Option Catalog :=
  (candidates.head?.map fun chosen => Catalog.ofText chosen.content (some chosen.uri)).filter
    fun catalog => catalog.schemaVersion = version

theorem fitting?_cons (version : Option String) (chosen : RepositoryModel)
    (others : List RepositoryModel) :
    fitting? version (chosen :: others) =
      if (Catalog.ofText chosen.content (some chosen.uri)).schemaVersion = version then
        some (.ofText chosen.content (some chosen.uri))
      else none := by
  simp [fitting?, Option.filter]

/-- The file that a query for a name brings into an environment of this version. -/
def taken? (access : RepositoryAccess) (filter version : Option String) (name : String) :
    Option Catalog :=
  fitting? version ((access.search name filter).toOption.getD [])

theorem mem_of_taken? {access : RepositoryAccess} {filter version : Option String} {name : String}
    {catalog : Catalog} (h : access.taken? filter version name = some catalog) :
    name ∈ access.repository.models.map RepositoryModel.name := by
  have hne : (access.search name filter).toOption.getD [] ≠ [] := by
    intro hnil
    rw [taken?, hnil] at h
    cases h
  rw [search] at hne
  split at hne
  · exact absurd rfl hne
  · obtain ⟨model, hmodel⟩ := List.exists_mem_of_ne_nil _ hne
    obtain ⟨hmem, hmatches⟩ := List.mem_filter.mp hmodel
    rw [Bool.and_eq_true, beq_iff_eq] at hmatches
    exact List.mem_map.mpr ⟨model, hmem, hmatches.1⟩

end RepositoryAccess

namespace Environment

def answered (access : RepositoryAccess) (filter : Option String) (env : Environment)
    (name : String) : Environment :=
  match access.taken? filter env.version name with
  | none => env
  | some catalog => (env.merge catalog).1

variable {access : RepositoryAccess} {filter : Option String}

theorem extends_answered (access : RepositoryAccess) (filter : Option String) (env : Environment)
    (name : String) :
    env.Extends (env.answered access filter name) := by
  rw [answered]
  split
  · exact .refl env
  · exact extends_merge env _

theorem extends_foldl_answered (access : RepositoryAccess) (filter : Option String)
    (env : Environment) (names : List String) :
    env.Extends (names.foldl (answered access filter) env) := by
  induction names generalizing env with
  | nil => exact .refl env
  | cons name rest ih => exact (extends_answered access filter env name).trans (ih _)

theorem knowsModel_answered (env : Environment) (name other : String) :
    (env.answered access filter name).knowsModel other = true ↔
      env.knowsModel other = true ∨
        ∃ catalog, access.taken? filter env.version name = some catalog ∧
          other ∈ catalog.modelNames := by
  rw [answered]
  split
  · next hnone => simp [hnone]
  · next catalog hsome => simp [hsome, knowsModel_merge]

/-- What is known after some answers was known before or is declared by a file taken in. -/
theorem knowsModel_foldl_answered (env : Environment) (names : List String) (other : String) :
    (names.foldl (answered access filter) env).knowsModel other = true ↔
      env.knowsModel other = true ∨
        ∃ name ∈ names, ∃ catalog, access.taken? filter env.version name = some catalog ∧
          other ∈ catalog.modelNames := by
  induction names generalizing env with
  | nil => simp
  | cons name rest ih =>
    rw [List.foldl_cons, ih, knowsModel_answered, (extends_answered access filter env name).version]
    simp only [List.mem_cons, exists_eq_or_imp, or_assoc]

end Environment

def Finding.refused? : Finding → Option String
  | modelNotFound model | versionMismatch model _ _ => some model
  | _ => none

namespace Closure

def asked (closure : Closure) : List String :=
  closure.queries.map Prod.fst

def refusals (diagnostics : List Diagnostic) : List String :=
  diagnostics.filterMap fun diagnostic => diagnostic.finding.refused?

variable {access : RepositoryAccess} {filter : Option String} {closure : Closure}

/-- All that a choice can do: it merges the file of the first candidate, or it reports the name. -/
theorem exists_choose (closure : Closure) (name : String) (site : ImportSite)
    (candidates : List RepositoryModel) :
    let fitting := RepositoryAccess.fitting? closure.env.version candidates
    ∃ found, refusals found = (if fitting.isNone then [name] else []) ∧
      closure.choose name site candidates =
        { closure with
          env := match fitting with
            | none => closure.env
            | some catalog => (closure.env.merge catalog).1
          diagnostics := closure.diagnostics ++ found
          reported := closure.reported ++ if fitting.isNone then [name] else [] } := by
  cases candidates with
  | nil => exact ⟨[⟨site.uri, site.span, .modelNotFound name⟩], rfl, rfl⟩
  | cons chosen others =>
    simp only [choose, take, RepositoryAccess.fitting?_cons]
    generalize Catalog.ofText chosen.content (some chosen.uri) = catalog
    set ambiguous : Diagnostic := ⟨site.uri, site.span,
      .ambiguousModel name ((chosen :: others).map RepositoryModel.uri)⟩
    set mismatch : Diagnostic := ⟨site.uri, site.span,
      .versionMismatch name catalog.schemaVersion closure.env.version⟩
    by_cases hversion : catalog.schemaVersion = closure.env.version
    · cases others with
      | nil => exact ⟨[], by simp [refusals, hversion], by simp [hversion]⟩
      | cons =>
        exact ⟨[ambiguous], by simp [refusals, Finding.refused?, hversion, ambiguous],
          by simp [report, hversion, ambiguous]⟩
    · cases others with
      | nil =>
        exact ⟨[mismatch], by simp [refusals, Finding.refused?, hversion, mismatch],
          by simp [refuse, report, hversion, mismatch]⟩
      | cons =>
        exact ⟨[ambiguous, mismatch],
          by simp [refusals, Finding.refused?, hversion, ambiguous, mismatch],
          by simp [refuse, report, hversion, ambiguous, mismatch]⟩

/-- The turn of a name: the run is called off, or the name has arrived by now, or it is asked for.
-/
theorem step_cases (access : RepositoryAccess) (filter : Option String)
    (hopen : closure.isAborted = false) (name : String) (site : ImportSite) :
    (access.isCalledOff closure.queries.length = true ∧
      step access filter closure (name, site) =
        { closure with handled := closure.handled ++ [name], isAborted := true }) ∨
    (closure.env.knowsModel name = true ∧
      step access filter closure (name, site) =
        { closure with handled := closure.handled ++ [name] }) ∨
    (closure.env.knowsModel name = false ∧
      let taken := access.taken? filter closure.env.version name
      ∃ found, refusals found = (if taken.isNone then [name] else []) ∧
        step access filter closure (name, site) =
          { env := closure.env.answered access filter name
            handled := closure.handled ++ [name]
            queries := closure.queries ++ [(name, filter)]
            diagnostics := closure.diagnostics ++ found
            reported := closure.reported ++ if taken.isNone then [name] else []
            isAborted := closure.isAborted }) := by
  rw [step, if_neg (by rw [hopen]; exact Bool.false_ne_true)]
  dsimp only
  cases hoff : access.isCalledOff closure.queries.length with
  | true => exact .inl ⟨rfl, rfl⟩
  | false =>
    cases hknown : closure.env.knowsModel name with
    | true => exact .inr (.inl ⟨rfl, rfl⟩)
    | false =>
      obtain ⟨found, hfound, hchoose⟩ := exists_choose
        { closure with
          handled := closure.handled ++ [name], queries := closure.queries ++ [(name, filter)] }
        name site ((access.search name filter).toOption.getD [])
      exact .inr (.inr ⟨rfl, found, hfound, hchoose⟩)

theorem queries_step_of_unknown (hopen : closure.isAborted = false)
    (hon : access.isCalledOff closure.queries.length = false) {name : String}
    (hunknown : closure.env.knowsModel name = false) (site : ImportSite) :
    (step access filter closure (name, site)).queries = closure.queries ++ [(name, filter)] := by
  rcases step_cases access filter hopen name site with ⟨hoff, -⟩ | ⟨hknown, -⟩ | ⟨-, _, -, hstep⟩
  · cases hon.symm.trans hoff
  · cases hunknown.symm.trans hknown
  · rw [hstep]

theorem step_of_isAborted (h : closure.isAborted = true) (missing : String × ImportSite) :
    step access filter closure missing = closure := by
  rw [step, if_pos h]

theorem foldl_step_of_isAborted (h : closure.isAborted = true)
    (missing : List (String × ImportSite)) :
    missing.foldl (step access filter) closure = closure := by
  induction missing with
  | nil => rfl
  | cons entry rest ih => rw [List.foldl_cons, step_of_isAborted h, ih]

theorem handled_step (hopen : closure.isAborted = false) (entry : String × ImportSite) :
    (step access filter closure entry).handled = closure.handled ++ [entry.1] := by
  rcases step_cases access filter hopen entry.1 entry.2 with
    ⟨-, hstep⟩ | ⟨-, hstep⟩ | ⟨-, _, -, hstep⟩ <;> rw [hstep]

theorem env_step (closure : Closure) (entry : String × ImportSite) :
    (step access filter closure entry).env = closure.env ∨
      (step access filter closure entry).env = closure.env.answered access filter entry.1 := by
  cases hopen : closure.isAborted with
  | true => exact .inl (by rw [step_of_isAborted hopen])
  | false =>
    rcases step_cases access filter hopen entry.1 entry.2 with
      ⟨-, hstep⟩ | ⟨-, hstep⟩ | ⟨-, _, -, hstep⟩
    · exact .inl (by rw [hstep])
    · exact .inl (by rw [hstep])
    · exact .inr (by rw [hstep])

/-- Queries so far tell the environment and the reports, and each was made in its time. -/
structure Consistent (access : RepositoryAccess) (filter : Option String) (origin : Environment)
    (closure : Closure) : Prop where
  nodup_handled : closure.handled.Nodup
  asked_sublist : closure.asked.Sublist closure.handled
  queries_eq : closure.queries = closure.asked.map (·, filter)
  env_eq : closure.env = closure.asked.foldl (Environment.answered access filter) origin
  moment : ∀ before name after, closure.asked = before ++ name :: after →
    (before.foldl (Environment.answered access filter) origin).knowsModel name = false ∧
      (before.foldl (Environment.answered access filter) origin).Imports name
  settled : closure.isAborted = false → ∀ name ∈ closure.handled,
    closure.env.knowsModel name = true ∨ name ∈ closure.asked
  reported_eq : closure.reported =
    closure.asked.filter fun name => (access.taken? filter origin.version name).isNone
  refusals_eq : refusals closure.diagnostics = closure.reported

variable {origin : Environment}

theorem consistent_start (env : Environment) :
    Consistent access filter env (Closure.start env) where
  nodup_handled := .nil
  asked_sublist := .slnil
  queries_eq := rfl
  env_eq := rfl
  moment before name after h := by simp [asked, Closure.start] at h
  settled _ _ h := by cases h
  reported_eq := rfl
  refusals_eq := rfl

theorem Consistent.version_eq (h : Consistent access filter origin closure) :
    closure.env.version = origin.version := by
  rw [h.env_eq]
  exact (Environment.extends_foldl_answered access filter origin closure.asked).version

theorem eq_concat_cons {α : Type} {row before after : List α} {last a : α}
    (h : row ++ [last] = before ++ a :: after) :
    (row = before ∧ last = a) ∨ ∃ front, row = before ++ a :: front := by
  rcases List.eq_nil_or_concat after with rfl | ⟨front, other, rfl⟩
  · obtain ⟨hrow, hlast⟩ := List.append_inj' h rfl
    exact .inl ⟨hrow, List.cons.inj hlast |>.1⟩
  · refine .inr ⟨front, ?_⟩
    rw [List.concat_eq_append, ← List.cons_append, ← List.append_assoc] at h
    exact (List.append_inj' h rfl).1

theorem Consistent.step (h : Consistent access filter origin closure) {name : String}
    (site : ImportSite) (hnew : name ∉ closure.handled) (himports : closure.env.Imports name) :
    Consistent access filter origin (step access filter closure (name, site)) := by
  cases hopen : closure.isAborted with
  | true => rwa [step_of_isAborted hopen]
  | false =>
    have hhandled : (closure.handled ++ [name]).Nodup :=
      List.nodup_append.mpr ⟨h.nodup_handled, List.nodup_singleton name, by
        rintro a ha b hb rfl
        exact hnew (List.mem_singleton.mp hb ▸ ha)⟩
    rcases step_cases access filter hopen name site with
      ⟨-, hstep⟩ | ⟨hknown, hstep⟩ | ⟨hunknown, found, hfound, hstep⟩
    · rw [hstep]
      exact ⟨hhandled, h.asked_sublist.trans (List.sublist_append_left ..), h.queries_eq, h.env_eq,
        h.moment, (fun hfalse => nomatch hfalse), h.reported_eq, h.refusals_eq⟩
    · rw [hstep]
      refine ⟨hhandled, h.asked_sublist.trans (List.sublist_append_left ..), h.queries_eq, h.env_eq,
        h.moment, fun _ other hother => ?_, h.reported_eq, h.refusals_eq⟩
      rcases List.mem_append.mp hother with hother | hother
      · exact h.settled hopen other hother
      · exact .inl (List.mem_singleton.mp hother ▸ hknown)
    · -- The name is the last one asked for, so what follows the queries gets one more.
      have hasked : (closure.queries ++ [(name, filter)]).map Prod.fst = closure.asked ++ [name] :=
        List.map_append
      rw [h.version_eq] at hfound hstep
      rw [hstep]
      refine ⟨hhandled, ?_, ?_, ?_, ?_, ?_, ?_, ?_⟩
      · rw [asked, hasked]
        exact h.asked_sublist.append (.refl [name])
      · rw [asked, hasked, List.map_append, ← h.queries_eq]
        rfl
      · rw [asked, hasked, List.foldl_append, ← h.env_eq]
        rfl
      · intro before other after hsplit
        rw [asked, hasked] at hsplit
        rcases eq_concat_cons hsplit with ⟨rfl, rfl⟩ | ⟨front, hfront⟩
        · rw [← h.env_eq]
          exact ⟨hunknown, himports⟩
        · exact h.moment before other front hfront
      · intro _ other hother
        rw [asked, hasked]
        rcases List.mem_append.mp hother with hother | hother
        · exact (h.settled hopen other hother).imp
            (Environment.extends_answered access filter _ _).knowsModel (List.mem_append_left _)
        · exact .inr (List.mem_append_right _ hother)
      · rw [asked, hasked, List.filter_append, ← h.reported_eq, List.filter_singleton]
        cases htaken : (access.taken? filter origin.version name).isNone <;> simp
      · rw [refusals, List.filterMap_append]
        exact congrArg₂ (· ++ ·) h.refusals_eq hfound

/-- A turn only adds: names to those handled, and files to the environment. -/
theorem step_grows (access : RepositoryAccess) (filter : Option String) (closure : Closure)
    (entry : String × ImportSite) :
    closure.handled ⊆ (step access filter closure entry).handled ∧
      (step access filter closure entry).handled ⊆ closure.handled ++ [entry.1] ∧
      closure.env.Extends (step access filter closure entry).env := by
  refine ⟨?_, ?_, ?_⟩
  · cases hopen : closure.isAborted with
    | true => rw [step_of_isAborted hopen]; exact List.Subset.refl _
    | false => rw [handled_step hopen]; exact List.subset_append_left ..
  · cases hopen : closure.isAborted with
    | true => rw [step_of_isAborted hopen]; exact List.subset_append_left ..
    | false => rw [handled_step hopen]; exact List.Subset.refl _
  · rcases env_step closure entry with heq | heq
    · exact heq ▸ .refl _
    · exact heq ▸ Environment.extends_answered ..

theorem Consistent.foldl (h : Consistent access filter origin closure)
    {missing : List (String × ImportSite)} (hnodup : (missing.map Prod.fst).Nodup)
    (hmissing : ∀ entry ∈ missing, entry.1 ∉ closure.handled ∧ closure.env.Imports entry.1) :
    Consistent access filter origin (missing.foldl (Closure.step access filter) closure) := by
  induction missing generalizing closure with
  | nil => exact h
  | cons entry rest ih =>
    obtain ⟨hnotMem, hrest⟩ := List.nodup_cons.mp hnodup
    obtain ⟨hnew, himports⟩ := hmissing entry List.mem_cons_self
    obtain ⟨-, hhandled, hgrows⟩ := step_grows access filter closure entry
    refine ih (h.step entry.2 hnew himports) hrest fun other hother => ?_
    obtain ⟨hotherNew, hotherImports⟩ := hmissing other (List.mem_cons_of_mem _ hother)
    refine ⟨fun hmem => ?_, hotherImports.of_extends hgrows⟩
    rcases List.mem_append.mp (hhandled hmem) with hmem | hmem
    · exact hotherNew hmem
    · exact hnotMem (List.mem_map.mpr ⟨other, hother, List.mem_singleton.mp hmem⟩)

theorem mem_pending {entry : String × ImportSite} :
    entry ∈ closure.pending ↔
      entry ∈ closure.env.missingImports.entries ∧ entry.1 ∉ closure.handled := by
  rw [pending, List.mem_mergeSort, List.mem_filter]
  simp

theorem nodup_pending (closure : Closure) : (closure.pending.map Prod.fst).Nodup := by
  have hperm := (List.mergeSort_perm (closure.env.missingImports.entries.filter fun entry =>
    !closure.handled.contains entry.1) fun a b => decide (a.1 ≤ b.1)).map Prod.fst
  exact hperm.nodup_iff.mpr
    (closure.env.missingImports.nodup_keys.sublist (List.filter_sublist.map Prod.fst))

theorem map_fst_pending (closure : Closure) :
    closure.pending.map Prod.fst =
      ((closure.env.missingImports.entries.map Prod.fst).filter fun name =>
        !closure.handled.contains name).mergeSort fun a b => a ≤ b := by
  rw [pending, List.filter_map]
  exact List.map_mergeSort fun _ _ _ _ => rfl

theorem Consistent.round (h : Consistent access filter origin closure) :
    Consistent access filter origin
      (closure.pending.foldl (Closure.step access filter) closure) := by
  refine h.foldl (nodup_pending closure) fun entry hentry => ?_
  obtain ⟨hmissing, hnew⟩ := mem_pending.mp hentry
  exact ⟨hnew, (Environment.mem_missingImports.mp ⟨entry.2, hmissing⟩).1⟩

theorem Consistent.rounds (h : Consistent access filter origin closure) (count : Nat) :
    Consistent access filter origin (rounds access filter count closure) := by
  induction count generalizing closure with
  | zero => exact h
  | succ count ih =>
    rw [Closure.rounds]
    split
    · exact h
    · exact ih h.round

theorem consistent_run (access : RepositoryAccess) (filter : Option String) (env : Environment) :
    Consistent access filter env (run access filter env) :=
  (consistent_start env).rounds _

/-! ### The rounds end -/

/-- Rounds without a bound on their number. -/
inductive Closes (access : RepositoryAccess) (filter : Option String) : Closure → Closure → Prop
  | done {closure : Closure} (h : (closure.isAborted || closure.pending.isEmpty) = true) :
      Closes access filter closure closure
  | round {closure last : Closure} (h : (closure.isAborted || closure.pending.isEmpty) = false)
      (hrest : Closes access filter (closure.pending.foldl (step access filter) closure) last) :
      Closes access filter closure last

/-- The names of the repository whose turn has not come. -/
def unused (access : RepositoryAccess) (closure : Closure) : Finset String :=
  (access.repository.models.map RepositoryModel.name).toFinset \ closure.handled.toFinset

theorem foldl_step_grows (access : RepositoryAccess) (filter : Option String) (closure : Closure)
    (missing : List (String × ImportSite)) :
    closure.handled ⊆ (missing.foldl (step access filter) closure).handled := by
  induction missing generalizing closure with
  | nil => exact List.Subset.refl _
  | cons entry rest ih => exact List.Subset.trans (step_grows access filter closure entry).1 (ih _)

theorem step_changes {entry : String × ImportSite}
    (h : (step access filter closure entry).env ≠ closure.env) :
    entry.1 ∈ access.repository.models.map RepositoryModel.name ∧
      entry.1 ∈ (step access filter closure entry).handled := by
  have hopen : closure.isAborted = false :=
    Bool.eq_false_iff.mpr fun haborted => h (by rw [step_of_isAborted haborted])
  rw [handled_step hopen]
  refine ⟨?_, List.mem_append_right _ (List.mem_singleton.mpr rfl)⟩
  rw [(env_step closure entry).resolve_left h, Environment.answered] at h
  split at h
  · exact absurd rfl h
  · next catalog htaken => exact RepositoryAccess.mem_of_taken? htaken

theorem foldl_step_changes {missing : List (String × ImportSite)}
    (h : (missing.foldl (step access filter) closure).env ≠ closure.env) :
    ∃ entry ∈ missing, entry.1 ∈ access.repository.models.map RepositoryModel.name ∧
      entry.1 ∈ (missing.foldl (step access filter) closure).handled := by
  induction missing generalizing closure with
  | nil => exact absurd rfl h
  | cons entry rest ih =>
    by_cases hfirst : (step access filter closure entry).env = closure.env
    · rw [List.foldl_cons, ← hfirst] at h
      obtain ⟨other, hother, hrest⟩ := ih h
      exact ⟨other, List.mem_cons_of_mem _ hother, hrest⟩
    · obtain ⟨hname, hhandled⟩ := step_changes hfirst
      exact ⟨entry, List.mem_cons_self, hname, foldl_step_grows access filter _ rest hhandled⟩

/-- A round that changes the environment uses up a name of the repository. -/
theorem card_unused_lt
    (h : (closure.pending.foldl (step access filter) closure).env ≠ closure.env) :
    (unused access (closure.pending.foldl (step access filter) closure)).card <
      (unused access closure).card := by
  obtain ⟨entry, hpending, hname, hhandled⟩ := foldl_step_changes h
  have hgrows := foldl_step_grows access filter closure closure.pending
  apply Finset.card_lt_card
  rw [unused, unused, Finset.ssubset_iff_of_subset
    (Finset.sdiff_subset_sdiff (Finset.Subset.refl _) fun name => by simpa using @hgrows name)]
  refine ⟨entry.1, ?_, ?_⟩
  · simpa using ⟨by simpa using hname, (mem_pending.mp hpending).2⟩
  · simp [hhandled]

theorem subset_handled_foldl_step {missing : List (String × ImportSite)}
    (h : (missing.foldl (step access filter) closure).isAborted = false) :
    missing.map Prod.fst ⊆ (missing.foldl (step access filter) closure).handled := by
  induction missing generalizing closure with
  | nil => simp
  | cons entry rest ih =>
    rw [List.foldl_cons] at h ⊢
    rw [List.map_cons, List.cons_subset]
    refine ⟨foldl_step_grows access filter _ rest ?_, ih h⟩
    cases hopen : closure.isAborted with
    | true =>
      rw [step_of_isAborted hopen, foldl_step_of_isAborted hopen, hopen] at h
      cases h
    | false => exact handled_step hopen entry ▸ List.mem_append_right _ (List.mem_singleton.mpr rfl)

theorem pending_eq_nil_of_env_eq
    (henv : (closure.pending.foldl (step access filter) closure).env = closure.env)
    (hopen : (closure.pending.foldl (step access filter) closure).isAborted = false) :
    (closure.pending.foldl (step access filter) closure).pending = [] := by
  rw [List.eq_nil_iff_forall_not_mem]
  intro entry hentry
  obtain ⟨hmissing, hnew⟩ := mem_pending.mp hentry
  rw [henv] at hmissing
  have hold : entry.1 ∉ closure.handled := fun hmem =>
    hnew (foldl_step_grows access filter closure closure.pending hmem)
  exact hnew (subset_handled_foldl_step hopen
    (List.mem_map.mpr ⟨entry, mem_pending.mpr ⟨hmissing, hold⟩, rfl⟩))

theorem rounds_of_done (h : (closure.isAborted || closure.pending.isEmpty) = true) (count : Nat) :
    rounds access filter count closure = closure := by
  cases count with
  | zero => rfl
  | succ count => rw [rounds, if_pos h]

/-- Where one round leaves nothing to ask for, a run is that round. -/
theorem run_of_round {env : Environment} {missing : List (String × ImportSite)}
    (hfirst : (start env).pending = missing)
    (hlast : (missing.foldl (step access filter) (start env)).pending = []) :
    run access filter env = missing.foldl (step access filter) (start env) := by
  subst hfirst
  rw [run, rounds]
  split
  · next hdone =>
    have hnothing : (start env).pending = [] := List.isEmpty_iff.mp hdone
    rw [hnothing, List.foldl_nil]
  · exact rounds_of_done (by rw [hlast, List.isEmpty_nil, Bool.or_true]) _

theorem run_of_single {env : Environment} {entry : String × ImportSite}
    (hmissing : env.missingImports.entries = [entry])
    (hnothing : (step access filter (start env) entry).env.missingImports.entries = []) :
    run access filter env = step access filter (start env) entry := by
  have hfirst : (start env).pending = [entry] := by
    rw [pending, show (start env).env.missingImports.entries = [entry] from hmissing]
    exact List.mergeSort_singleton _
  refine run_of_round hfirst ?_
  rw [List.foldl_cons, List.foldl_nil, pending, hnothing, List.filter_nil, List.mergeSort_nil]

/-- More rounds than there are names to use up are enough. -/
theorem closes_rounds {count : Nat} (h : (unused access closure).card < count) :
    Closes access filter closure (rounds access filter count closure) := by
  induction count generalizing closure with
  | zero => cases h
  | succ count ih =>
    cases hdone : closure.isAborted || closure.pending.isEmpty with
    | true =>
      rw [rounds_of_done hdone]
      exact .done hdone
    | false =>
      rw [rounds, if_neg (by rw [hdone]; exact Bool.false_ne_true)]
      refine .round hdone ?_
      -- A round that leaves the environment alone is the last one; any other uses up a name.
      by_cases henv : (closure.pending.foldl (step access filter) closure).env = closure.env
      · have hlast : ((closure.pending.foldl (step access filter) closure).isAborted ||
            (closure.pending.foldl (step access filter) closure).pending.isEmpty) = true := by
          rw [Bool.or_eq_true, List.isEmpty_iff, ← Bool.not_eq_false, ← imp_iff_not_or]
          exact fun hopen => pending_eq_nil_of_env_eq henv hopen
        rw [rounds_of_done hlast]
        exact .done hlast
      · exact ih (by have := card_unused_lt henv; omega)

theorem closes_run (access : RepositoryAccess) (filter : Option String) (env : Environment) :
    Closes access filter (start env) (run access filter env) := by
  apply closes_rounds
  have hcard : (unused access (start env)).card ≤ access.repository.models.length :=
    (Finset.card_le_card Finset.sdiff_subset).trans
      ((List.toFinset_card_le _).trans (List.length_map _).le)
  omega

theorem Closes.ended {closure last : Closure} (h : Closes access filter closure last) :
    last.isAborted = true ∨ last.pending = [] := by
  induction h with
  | done h => simpa using h
  | round _ _ ih => exact ih

theorem isAborted_foldl_step (hoff : access.calledOff = none) (hopen : closure.isAborted = false)
    (missing : List (String × ImportSite)) :
    (missing.foldl (step access filter) closure).isAborted = false := by
  induction missing generalizing closure with
  | nil => exact hopen
  | cons entry rest ih =>
    refine ih ?_
    rcases step_cases access filter hopen entry.1 entry.2 with
      ⟨hcalled, -⟩ | ⟨-, hstep⟩ | ⟨-, _, -, hstep⟩
    · rw [RepositoryAccess.isCalledOff, hoff] at hcalled
      cases hcalled
    · rw [hstep]
      exact hopen
    · rw [hstep]
      exact hopen

theorem Closes.isAborted {closure last : Closure} (h : Closes access filter closure last)
    (hoff : access.calledOff = none) (hopen : closure.isAborted = false) :
    last.isAborted = false := by
  induction h with
  | done => exact hopen
  | round _ _ ih => exact ih (isAborted_foldl_step hoff hopen _)

/-- A run that nobody calls off ends. It has asked for every name at most once, and for each while
it was imported and not known; and of the names imported in the end, every one is known or was asked
for. -/
theorem run_asks_what_is_missing (repository : Repository) (failures : List (String × QueryError))
    (filter : Option String) (env : Environment) :
    let access : RepositoryAccess := ⟨repository, failures, none⟩
    let last := run access filter env
    Closes access filter (start env) last ∧ last.isAborted = false ∧
      last.queries = last.asked.map (·, filter) ∧
      last.env = last.asked.foldl (Environment.answered access filter) env ∧
      last.asked.Nodup ∧
      (∀ before name after, last.asked = before ++ name :: after →
        let moment := before.foldl (Environment.answered access filter) env
        moment.knowsModel name = false ∧ moment.Imports name) ∧
      ∀ name, last.env.Imports name → last.env.knowsModel name = true ∨ name ∈ last.asked := by
  intro access last
  have hcloses : Closes access filter (start env) last := closes_run access filter env
  have hopen : last.isAborted = false := hcloses.isAborted rfl rfl
  have h : Consistent access filter env last := consistent_run access filter env
  refine ⟨hcloses, hopen, h.queries_eq, h.env_eq, h.nodup_handled.sublist h.asked_sublist,
    h.moment, ?_⟩
  intro name himports
  cases hknown : last.env.knowsModel name with
  | true => exact .inl rfl
  | false =>
    obtain ⟨site, hsite⟩ := Environment.mem_missingImports.mpr ⟨himports, hknown⟩
    have hpending : last.pending = [] := hcloses.ended.resolve_left (by simp [hopen])
    have hhandled : name ∈ last.handled := by
      by_contra hnew
      have hmem : (name, site) ∈ last.pending := mem_pending.mpr ⟨hsite, hnew⟩
      rw [hpending] at hmem
      cases hmem
    exact (h.settled hopen name hhandled).imp_left fun h => by rw [hknown] at h; cases h

end Closure

end Ili
