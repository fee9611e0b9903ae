import Ili.Proofs.Environment.Registry

/-!
# Resolving again

A run that completes has asked for every name that it leaves missing, and taken in what the answers
brought. To ask the same provider for the same names again brings files of which all models are
known; they are dropped. Binding reads no binding, so it too changes nothing the second time.
-/

namespace Ili

namespace Environment

/-! ### Binding again -/

section Bind

variable (env : Environment)

theorem boundReference_bind (id : ReferenceId) (reference : Reference) :
    env.bind.boundReference id (env.boundReference id reference) =
      env.boundReference id reference := by
  by_cases hbinds : id.file ≠ 0 ∧ env.isReachable ⟨id.file, reference.source⟩ = true
  · have hbound : env.boundReference id reference =
        { reference with state := (env.lookupReference id reference).binding } := if_pos hbinds
    rw [hbound, boundReference, isReachable_bind, if_pos hbinds, lookupReference_bind]
    rfl
  · have hkept : env.boundReference id reference = reference := if_neg hbinds
    rw [hkept, boundReference, isReachable_bind, if_neg hbinds]

theorem bind_bind : env.bind.bind = env.bind := by
  have hfiles : env.bind.bind.files = env.bind.files := by
    apply Array.ext_getElem?
    intro index
    change env.bind.bind.file? index = env.bind.file? index
    rw [file?_bind env.bind, file?_bind]
    cases env.file? index with
    | none => rfl
    | some catalog =>
      simp only [Option.map_some, Array.mapIdx_mapIdx, Function.comp_def, boundReference_bind]
  exact congrArg (fun files => { env with files }) hfiles

theorem imports_bind_iff {name : String} : env.bind.Imports name ↔ env.Imports name := by
  simp only [Imports, importsOf_bind, List.mem_map, Prod.mk.injEq, Prod.exists]
  constructor
  · rintro ⟨importer, model, item, reference, hmodel, ⟨_, before, hmem, rfl, rfl⟩, hhead⟩
    rw [boundReference_eq] at hhead
    exact ⟨importer, model, _, before, hmodel, hmem, hhead⟩
  · rintro ⟨importer, model, item, reference, hmodel, hmem, hhead⟩
    refine ⟨importer, model, item, _, hmodel, ⟨item, reference, hmem, rfl, rfl⟩, ?_⟩
    rw [boundReference_eq]
    exact hhead

end Bind

/-! ### Asking again -/

variable {access : RepositoryAccess} {filter : Option String} {env : Environment}

/-- A run that has come to its end has asked for all names that it leaves missing. -/
theorem mem_asked_of_missing (hopen : (Closure.run access filter env).isAborted = false)
    {name : String} (himports : (Closure.run access filter env).env.Imports name)
    (hunknown : (Closure.run access filter env).env.knowsModel name = false) :
    name ∈ (Closure.run access filter env).asked := by
  have hpending := (Closure.closes_run access filter env).ended.resolve_left (by simp [hopen])
  obtain ⟨site, hsite⟩ := mem_missingImports.mpr ⟨himports, hunknown⟩
  have hhandled : name ∈ (Closure.run access filter env).handled := by
    by_contra hnew
    have hmem := Closure.mem_pending.mpr (show _ ∧ (name, site).1 ∉ _ from ⟨hsite, hnew⟩)
    rw [hpending] at hmem
    cases hmem
  refine ((Closure.consistent_run access filter env).settled hopen name hhandled).resolve_left ?_
  rw [hunknown]
  exact Bool.false_ne_true

/-- What a query has brought is known, so it brings nothing again. -/
theorem answered_of_mem_asked {name : String}
    (hasked : name ∈ (Closure.run access filter env).asked) {later : Environment}
    (hversion : later.version = env.version)
    (hknows : ∀ other, (Closure.run access filter env).env.knowsModel other = true →
      later.knowsModel other = true) : later.answered access filter name = later := by
  rw [answered, hversion]
  cases htaken : access.taken? filter env.version name with
  | none => rfl
  | some catalog =>
    have hall : catalog.modelNames.all later.knowsModel = true := by
      rw [List.all_eq_true]
      intro other hother
      apply hknows
      rw [(Closure.consistent_run access filter env).env_eq, knowsModel_foldl_answered]
      exact .inr ⟨name, hasked, catalog, htaken, hother⟩
    exact congrArg Prod.fst (if_pos hall)

/-- A closure that starts from a closed environment, bound or not, asks for names that have been
asked for, and leaves the environment as it is. -/
theorem closed_again (hopen : (Closure.run access filter env).isAborted = false)
    {again : RepositoryAccess} (hsame : again.search = access.search) :
    let closed := (Closure.run access filter env).env.bind
    let last := Closure.run again filter closed
    last.env = closed ∧ last.asked ⊆ (Closure.run access filter env).asked := by
  intro closed last
  have hlast : Closure.Consistent again filter closed last := Closure.consistent_run again filter _
  have hanswered {name : String} (hasked : name ∈ (Closure.run access filter env).asked) :
      closed.answered again filter name = closed := by
    have hsearch : closed.answered again filter name = closed.answered access filter name := by
      rw [answered, answered, RepositoryAccess.taken?, RepositoryAccess.taken?, hsame]
    rw [hsearch]
    exact answered_of_mem_asked hasked (extends_run access filter env).version fun _ => id
  -- As long as nothing has changed, the next query is for a name that was missing at the end.
  have hprefix (names : List String) : ∀ rest, last.asked = names ++ rest →
      names.foldl (answered again filter) closed = closed ∧
        names ⊆ (Closure.run access filter env).asked := by
    induction names using List.reverseRecOn with
    | nil => exact fun _ _ => ⟨rfl, List.nil_subset _⟩
    | append_singleton before name ih =>
      intro rest hsplit
      rw [List.append_assoc, List.singleton_append] at hsplit
      obtain ⟨hsteady, hbefore⟩ := ih _ hsplit
      obtain ⟨hunknown, himports⟩ := hlast.moment before name rest hsplit
      rw [hsteady] at hunknown himports
      have hasked := mem_asked_of_missing hopen ((imports_bind_iff _).mp himports) hunknown
      rw [List.foldl_append, hsteady]
      exact ⟨hanswered hasked, List.append_subset.mpr ⟨hbefore, by simpa using hasked⟩⟩
  obtain ⟨hsteady, hasked⟩ := hprefix last.asked [] (List.append_nil _).symm
  exact ⟨hlast.env_eq.trans hsteady, hasked⟩

/-- After a run that completes, a second run with the same provider that is not called off comes to
its end. It completes and leaves the environment exactly as it is, with all files, models and
bindings. -/
theorem Resolves.again {provider : Provider} {calledOff : Option Nat} {first : Resolution}
    (hfirst : env.Resolves provider calledOff filter first) (hcomplete : first.isComplete = true) :
    (∃ second, first.env.Resolves provider none filter second) ∧
      ∀ second, first.env.Resolves provider none filter second →
        second.isComplete = true ∧ second.env = first.env := by
  obtain ⟨access, -, hoffers, rfl⟩ := hfirst.exists_access
  obtain ⟨hopen, hrun⟩ := resolve_of_isComplete hcomplete
  set closure := Closure.run access (env.queryFilter filter) env with hclosure
  have henv : (env.resolve access filter).env = closure.env.bind := congrArg Resolution.env hrun
  have hqueries : (env.resolve access filter).queries = closure.queries :=
    congrArg Resolution.queries hrun
  rw [hqueries] at hoffers
  rw [henv]
  have hfilter : closure.env.bind.queryFilter filter = env.queryFilter filter := by
    rw [queryFilter, queryFilter]
    exact congrArg (fun version => filter.or (Option.map schemaLanguage version))
      (extends_run access (env.queryFilter filter) env).version
  let again : RepositoryAccess := ⟨access.repository, access.failures, none⟩
  have hsame : again.search = access.search := rfl
  obtain ⟨hsteady, hasked⟩ := closed_again hopen hsame
  have hsecond : (closure.env.bind.resolve again filter).isComplete = true :=
    isComplete_resolve rfl _ filter
  have hagain := (resolve_of_isComplete hsecond).2
  rw [hfilter] at hagain
  have hresolves : closure.env.bind.Resolves provider none filter
      (closure.env.bind.resolve again filter) := by
    refine (resolves_resolve closure.env.bind again filter).congr fun name hname => ?_
    rw [hagain] at hname
    rw [hfilter]
    exact hoffers name (hasked hname)
  refine ⟨⟨_, hresolves⟩, fun second h => ?_⟩
  obtain rfl := h.unique hresolves
  refine ⟨hsecond, ?_⟩
  rw [hagain, hsteady]
  exact bind_bind _

/-- The imported model is fetched, and resolving again leaves it there. -/
theorem Resolves.again_importing :
    let first := (importing initial).resolve importedAccess none
    first.env.files.size = 3 ∧ (first.env.resolve importedAccess none).isComplete = true ∧
      (first.env.resolve importedAccess none).env = first.env := by
  suffices hbase : ∀ base : Environment, base.Fetches →
      ((importing base).resolve importedAccess none).env.files.size = 3 ∧
        (((importing base).resolve importedAccess none).env.resolve importedAccess
          none).isComplete = true ∧
        (((importing base).resolve importedAccess none).env.resolve importedAccess none).env =
          ((importing base).resolve importedAccess none).env from
    hbase initial fetches_initial
  intro base hfetches
  have hoff : importedAccess.calledOff = none := rfl
  obtain ⟨-, hsecond⟩ := Resolves.again (resolves_resolve (importing base) importedAccess none)
    (isComplete_resolve hoff (importing base) none)
  obtain ⟨hcomplete, henv⟩ := hsecond _ (resolves_resolve _ importedAccess none)
  exact ⟨size_resolve_importing hfetches, hcomplete, henv⟩

end Environment

end Ili
