import Ili.Proofs.Environment.Session

/-!
# Runs with any provider

A repository is one kind of provider; what a provider answers can be any function of the name and
the filter. A run reads the texts and the addresses in the answers and nothing else of them, and a
run that ends has asked for finitely many names. So it is the run with a repository that holds the
answers to these.
-/

namespace Ili

abbrev Provider := String → Option String → Except QueryError (List RepositoryModel)

/-- The texts that are offered for a name, each behind its address. A query that fails offers none.
-/
def Provider.offers (provider : Provider) (filter : Option String) (name : String) :
    List (String × String) :=
  ((provider name filter).toOption.getD []).map fun model => (model.uri, model.content)

namespace Closure

def stepWith (provider : Provider) (calledOff : Option Nat) (filter : Option String)
    (closure : Closure) (missing : String × ImportSite) : Closure :=
  if closure.isAborted then closure
  else
    let (name, site) := missing
    let closure := { closure with handled := closure.handled ++ [name] }
    if calledOff.any fun number => number ≤ closure.queries.length then
      { closure with isAborted := true }
    else if closure.env.knowsModel name then closure
    else
      { closure with queries := closure.queries ++ [(name, filter)] }.choose name site
        ((provider name filter).toOption.getD [])

theorem stepWith_search (access : RepositoryAccess) (filter : Option String) :
    stepWith access.search access.calledOff filter = step access filter :=
  rfl

/-- Rounds with any provider. Where it always has a text that imports more, they do not end. -/
inductive ClosesWith (provider : Provider) (calledOff : Option Nat) (filter : Option String) :
    Closure → Closure → Prop
  | done {closure : Closure} (h : (closure.isAborted || closure.pending.isEmpty) = true) :
      ClosesWith provider calledOff filter closure closure
  | round {closure last : Closure} (h : (closure.isAborted || closure.pending.isEmpty) = false)
      (hrest : ClosesWith provider calledOff filter
        (closure.pending.foldl (stepWith provider calledOff filter) closure) last) :
      ClosesWith provider calledOff filter closure last

def conclude (calledOff : Option Nat) (closure : Closure) : Resolution :=
  if closure.isAborted || calledOff.any fun number => number ≤ closure.queries.length then
    ⟨closure.env, false, Diagnostic.sort closure.diagnostics, closure.queries⟩
  else
    let findings := closure.env.referenceFindings closure.reported
    ⟨closure.env.bind, true, Diagnostic.sort (closure.diagnostics ++ findings), closure.queries⟩

variable {provider other : Provider} {calledOff : Option Nat} {filter : Option String}
variable {closure last : Closure}

theorem closesWith_search_iff {access : RepositoryAccess} :
    ClosesWith access.search access.calledOff filter closure last ↔
      Closes access filter closure last := by
  constructor
  · intro h
    induction h with
    | done h => exact .done h
    | round h _ ih => exact .round h ih
  · intro h
    induction h with
    | done h => exact .done h
    | round h _ ih => exact .round h ih

theorem ClosesWith.unique {end₁ end₂ : Closure}
    (h₁ : ClosesWith provider calledOff filter closure end₁)
    (h₂ : ClosesWith provider calledOff filter closure end₂) : end₁ = end₂ := by
  induction h₁ with
  | done h =>
    cases h₂ with
    | done => rfl
    | round h' => rw [h] at h'; cases h'
  | round h _ ih =>
    cases h₂ with
    | done h' => rw [h] at h'; cases h'
    | round _ hrest => exact ih hrest

theorem queries_conclude (calledOff : Option Nat) (closure : Closure) :
    (closure.conclude calledOff).queries = closure.queries := by
  rw [conclude]
  split <;> rfl

theorem queries_choose (closure : Closure) (name : String) (site : ImportSite)
    (candidates : List RepositoryModel) :
    (closure.choose name site candidates).queries = closure.queries := by
  obtain ⟨_, -, heq⟩ := exists_choose closure name site candidates
  rw [heq]

/-! ### What a run reads of the answers -/

theorem choose_congr (closure : Closure) (name : String) (site : ImportSite)
    {candidates candidates' : List RepositoryModel}
    (h : (candidates.map fun model => (model.uri, model.content)) =
      candidates'.map fun model => (model.uri, model.content)) :
    closure.choose name site candidates = closure.choose name site candidates' := by
  have huris (row : List RepositoryModel) : row.map RepositoryModel.uri =
      (row.map fun model => (model.uri, model.content)).map Prod.fst := by
    rw [List.map_map]
    rfl
  cases candidates with
  | nil => rw [List.map_eq_nil_iff.mp h.symm]
  | cons chosen others =>
    cases candidates' with
    | nil => cases h
    | cons chosen' others' =>
      have hall : (chosen :: others).map RepositoryModel.uri =
          (chosen' :: others').map RepositoryModel.uri := by
        rw [huris, huris, h]
      rw [List.map_cons, List.map_cons] at h
      obtain ⟨hchosen, hothers⟩ := List.cons.inj h
      obtain ⟨huri, hcontent⟩ := Prod.mk.inj hchosen
      have hempty : others.isEmpty = others'.isEmpty := by
        rw [Bool.eq_iff_iff, List.isEmpty_iff_length_eq_zero, List.isEmpty_iff_length_eq_zero]
        simpa using congrArg (List.length · = 0) hothers
      rw [choose, choose, hempty, hall, huri, hcontent]

theorem asked_stepWith (provider : Provider) (calledOff : Option Nat) (filter : Option String)
    (closure : Closure) (entry : String × ImportSite) :
    closure.asked ⊆ (stepWith provider calledOff filter closure entry).asked := by
  rw [stepWith]
  split
  · exact List.Subset.refl _
  · dsimp only
    split
    · exact List.Subset.refl _
    · split
      · exact List.Subset.refl _
      · rw [asked, asked, queries_choose]
        exact List.map_subset _ (List.subset_append_left _ _)

theorem asked_foldl_stepWith (provider : Provider) (calledOff : Option Nat)
    (filter : Option String) (closure : Closure) (missing : List (String × ImportSite)) :
    closure.asked ⊆ (missing.foldl (stepWith provider calledOff filter) closure).asked := by
  induction missing generalizing closure with
  | nil => exact List.Subset.refl _
  | cons entry rest ih => exact List.Subset.trans (asked_stepWith _ _ _ _ entry) (ih _)

theorem ClosesWith.asked (h : ClosesWith provider calledOff filter closure last) :
    closure.asked ⊆ last.asked := by
  induction h with
  | done => exact List.Subset.refl _
  | round _ _ ih => exact List.Subset.trans (asked_foldl_stepWith ..) ih

theorem stepWith_congr {entry : String × ImportSite}
    (h : ∀ name ∈ (stepWith provider calledOff filter closure entry).asked,
      provider.offers filter name = other.offers filter name) :
    stepWith provider calledOff filter closure entry =
      stepWith other calledOff filter closure entry := by
  rw [stepWith] at h ⊢
  rw [stepWith]
  split
  · rfl
  · next hopen =>
    rw [if_neg hopen] at h
    dsimp only at h ⊢
    split
    · rfl
    · next hon =>
      rw [if_neg hon] at h
      split
      · rfl
      · next hunknown =>
        rw [if_neg hunknown] at h
        refine choose_congr _ _ _ (h entry.1 ?_)
        rw [Closure.asked, queries_choose]
        simp

theorem foldl_stepWith_congr {missing : List (String × ImportSite)}
    (h : ∀ name ∈ (missing.foldl (stepWith provider calledOff filter) closure).asked,
      provider.offers filter name = other.offers filter name) :
    missing.foldl (stepWith provider calledOff filter) closure =
      missing.foldl (stepWith other calledOff filter) closure := by
  induction missing generalizing closure with
  | nil => rfl
  | cons entry rest ih =>
    rw [List.foldl_cons] at h
    rw [List.foldl_cons, List.foldl_cons, ih h, stepWith_congr fun name hname =>
      h name (asked_foldl_stepWith _ _ _ _ rest hname)]

/-- A provider that offers the same for all names asked for leads to the same end. -/
theorem ClosesWith.congr (h : ClosesWith provider calledOff filter closure last)
    (hsame : ∀ name ∈ last.asked, provider.offers filter name = other.offers filter name) :
    ClosesWith other calledOff filter closure last := by
  induction h with
  | done h => exact .done h
  | @round closure last hgoes hrest ih =>
    refine .round hgoes ?_
    rw [← foldl_stepWith_congr fun name hname => hsame name (hrest.asked hname)]
    exact ih hsame

end Closure

/-! ### A repository in place of a provider -/

namespace Provider

def entriesFor (provider : Provider) (filter : Option String) (name : String) :
    List RepositoryModel :=
  (provider.offers filter name).map fun (uri, content) => ⟨name, filter.getD "", uri, content⟩

def recorded (provider : Provider) (filter : Option String) (names : List String) : Repository :=
  ⟨names.dedup.flatMap (provider.entriesFor filter)⟩

theorem search_recorded (provider : Provider) (filter : Option String) {names : List String}
    {name : String} (h : name ∈ names) :
    (provider.recorded filter names).search name filter = provider.entriesFor filter name := by
  have hmatches : ∀ other : String, ∀ entry ∈ provider.entriesFor filter other,
      (entry.name == name && filter.all fun language => entry.schemaLanguage == language) =
        (other == name) := by
    intro other entry hentry
    obtain ⟨offer, -, rfl⟩ := List.mem_map.mp hentry
    cases filter <;> simp
  have hfilter : ∀ others : List String, others.Nodup →
      (others.flatMap (provider.entriesFor filter)).filter (fun entry =>
        entry.name == name && filter.all fun language => entry.schemaLanguage == language) =
      if name ∈ others then provider.entriesFor filter name else [] := by
    intro others hnodup
    induction others with
    | nil => rfl
    | cons other rest ih =>
      obtain ⟨hnotMem, hrest⟩ := List.nodup_cons.mp hnodup
      rw [List.flatMap_cons, List.filter_append, ih hrest,
        List.filter_congr (hmatches other)]
      by_cases heq : other = name
      · subst heq
        simp [hnotMem]
      · simp [heq, Ne.symm heq]
  rw [Repository.search, recorded, hfilter _ (List.nodup_dedup names),
    if_pos (List.mem_dedup.mpr h)]

theorem offers_recorded (provider : Provider) (filter : Option String) (calledOff : Option Nat)
    {names : List String} {name : String} (h : name ∈ names) :
    Provider.offers
      (RepositoryAccess.search ⟨provider.recorded filter names, [], calledOff⟩) filter name =
        provider.offers filter name := by
  change ((provider.recorded filter names).search name filter).map _ = _
  rw [search_recorded provider filter h, entriesFor, List.map_map]
  exact List.map_id _

end Provider

namespace Environment

/-- The environment can be resolved with this provider, and the run is this one. -/
def Resolves (env : Environment) (provider : Provider) (calledOff : Option Nat)
    (filter : Option String) (run : Resolution) : Prop :=
  ∃ last, Closure.ClosesWith provider calledOff (env.queryFilter filter) (.start env) last ∧
    run = last.conclude calledOff

variable {env : Environment} {provider : Provider} {calledOff : Option Nat}
variable {filter : Option String} {run : Resolution}

theorem resolves_resolve (env : Environment) (access : RepositoryAccess)
    (filter : Option String) :
    env.Resolves access.search access.calledOff filter (env.resolve access filter) :=
  ⟨Closure.run access (env.queryFilter filter) env,
    Closure.closesWith_search_iff.mpr (Closure.closes_run ..), rfl⟩

theorem Resolves.unique {run' : Resolution} (h : env.Resolves provider calledOff filter run)
    (h' : env.Resolves provider calledOff filter run') : run = run' := by
  obtain ⟨last, hlast, rfl⟩ := h
  obtain ⟨last', hlast', rfl⟩ := h'
  rw [hlast.unique hlast']

theorem Resolves.congr {other : Provider} (h : env.Resolves provider calledOff filter run)
    (hsame : ∀ name ∈ run.queries.map Prod.fst,
      provider.offers (env.queryFilter filter) name = other.offers (env.queryFilter filter) name) :
    env.Resolves other calledOff filter run := by
  obtain ⟨last, hlast, rfl⟩ := h
  rw [Closure.queries_conclude] at hsame
  exact ⟨last, hlast.congr hsame, rfl⟩

/-- Whatever the provider, a run is the one with a repository that never fails. -/
theorem Resolves.exists_access (h : env.Resolves provider calledOff filter run) :
    ∃ access : RepositoryAccess, access.calledOff = calledOff ∧
      (∀ name ∈ run.queries.map Prod.fst,
        Provider.offers access.search (env.queryFilter filter) name =
          provider.offers (env.queryFilter filter) name) ∧
      env.resolve access filter = run := by
  have hoffers {name : String} (hname : name ∈ run.queries.map Prod.fst) :=
    provider.offers_recorded (env.queryFilter filter) calledOff hname
  refine ⟨_, rfl, fun name => hoffers, ?_⟩
  exact (resolves_resolve env _ filter).unique (h.congr fun name hname => (hoffers hname).symm)

end Environment

end Ili
