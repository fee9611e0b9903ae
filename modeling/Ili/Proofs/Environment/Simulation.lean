import Ili.Proofs.Catalog.Readings
import Ili.Proofs.Environment.Providers

/-!
# Runs in step

Two environments may be alike in such a way that the same names are missing in both, and that they
stay alike when the same file is merged into both. Then a run from the one and a run from the other
go in step, whatever the provider: since a round takes names in alphabetical order they ask for the
same names in the same order, and where the one comes to an end the other does.
-/

namespace Ili

/-- A way in which environments are alike, with a way in which the places of imports are. -/
structure Likeness where
  env : Environment → Environment → Prop
  site : ImportSite → ImportSite → Prop
  version : ∀ {first second : Environment}, env first second → second.version = first.version
  knowsModel : ∀ {first second : Environment}, env first second →
    second.knowsModel = first.knowsModel
  missing : ∀ {first second : Environment}, env first second → ∀ name,
    Option.Rel site (first.missingImports.get? name) (second.missingImports.get? name)
  merge : ∀ {first second : Environment}, env first second → ∀ (text : String)
    (uri : Option String),
    env (first.merge (.ofText text uri)).1 (second.merge (.ofText text uri)).1

namespace Closure

variable {like : Likeness} {provider : Provider} {calledOff : Option Nat} {filter : Option String}
variable {closure other : Closure}

def AlikeReports (like : Likeness) (diagnostic other : Diagnostic) : Prop :=
  like.site ⟨diagnostic.uri, diagnostic.span⟩ ⟨other.uri, other.span⟩ ∧
    other.finding = diagnostic.finding

structure Alike (like : Likeness) (closure other : Closure) : Prop where
  env : like.env closure.env other.env
  handled : other.handled = closure.handled
  queries : other.queries = closure.queries
  diagnostics : List.Forall₂ (AlikeReports like) closure.diagnostics other.diagnostics
  reported : other.reported = closure.reported
  isAborted : other.isAborted = closure.isAborted

def AlikeMissing (like : Likeness) (missing other : String × ImportSite) : Prop :=
  other.1 = missing.1 ∧ like.site missing.2 other.2

theorem alike_start {first second : Environment} (h : like.env first second) :
    (start first).Alike like (start second) :=
  ⟨h, rfl, rfl, .nil, rfl, rfl⟩

namespace Alike

variable {site site' : ImportSite}

theorem map_fst_pending_eq (h : closure.Alike like other) :
    other.pending.map Prod.fst = closure.pending.map Prod.fst := by
  have hkeys : (other.env.missingImports.entries.map Prod.fst).Perm
      (closure.env.missingImports.entries.map Prod.fst) := by
    refine (List.perm_ext_iff_of_nodup (Dict.nodup_keys _) (Dict.nodup_keys _)).mpr fun name => ?_
    have hkey (missing : Dict ImportSite) : name ∈ missing.entries.map Prod.fst ↔
        (missing.get? name).isSome = true := by
      rw [Option.isSome_iff_exists]
      simp only [List.mem_map, Prod.exists, exists_and_right, exists_eq_right,
        Dict.mem_entries_iff]
    rw [hkey, hkey, isSome_eq_of_rel (like.missing h.env name)]
  have hsorted (names : List String) :
      (names.mergeSort fun a b => a ≤ b).Pairwise fun a b => decide (a ≤ b) = true :=
    List.pairwise_mergeSort
      (fun a b c => by simpa only [decide_eq_true_eq] using String.le_trans)
      (fun a b => by simpa using String.le_total a b) names
  rw [map_fst_pending, map_fst_pending, h.handled]
  refine List.Perm.eq_of_pairwise (fun a b _ _ hle hge => ?_) (hsorted _) (hsorted _) ?_
  · exact String.le_antisymm (of_decide_eq_true hle) (of_decide_eq_true hge)
  · exact (List.mergeSort_perm _ _).trans
      ((hkeys.filter _).trans (List.mergeSort_perm _ _).symm)

theorem pending (h : closure.Alike like other) :
    List.Forall₂ (AlikeMissing like) closure.pending other.pending := by
  have hnames := h.map_fst_pending_eq.symm
  have hsite {closure : Closure} {entry : String × ImportSite} (hmem : entry ∈ closure.pending) :
      closure.env.missingImports.get? entry.1 = some entry.2 :=
    Dict.mem_entries_iff.mp (mem_pending.mp hmem).1
  rw [← List.forall₂_eq_eq_eq, List.forall₂_map_left_iff, List.forall₂_map_right_iff] at hnames
  refine (forall₂_and hnames (fun _ hmem => hsite hmem) fun _ hmem => hsite hmem).imp
    fun entry entry' hentries => ?_
  obtain ⟨hleft, hright, hname⟩ := hentries
  have hrel := like.missing h.env entry.1
  rw [hleft, hname, hright, Option.rel_some_some] at hrel
  exact ⟨hname.symm, hrel⟩

theorem report (h : closure.Alike like other) (hsite : like.site site site') (finding : Finding) :
    (closure.report site finding).Alike like (other.report site' finding) :=
  ⟨h.env, h.handled, h.queries, List.rel_append h.diagnostics (.cons ⟨hsite, rfl⟩ .nil),
    h.reported, h.isAborted⟩

theorem refuse (h : closure.Alike like other) (name : String) (hsite : like.site site site')
    (finding : Finding) :
    (closure.refuse name site finding).Alike like (other.refuse name site' finding) :=
  have hreport := h.report hsite finding
  ⟨hreport.env, hreport.handled, hreport.queries, hreport.diagnostics,
    congrArg (· ++ [name]) h.reported, hreport.isAborted⟩

theorem take (h : closure.Alike like other) (name : String) (hsite : like.site site site')
    (text : String) (uri : Option String) :
    (closure.take name site (.ofText text uri)).Alike like
      (other.take name site' (.ofText text uri)) := by
  rw [Closure.take, Closure.take, like.version h.env]
  split
  · exact ⟨like.merge h.env text uri, h.handled, h.queries, h.diagnostics, h.reported, h.isAborted⟩
  · exact h.refuse name hsite _

theorem choose (h : closure.Alike like other) (name : String) (hsite : like.site site site')
    (candidates : List RepositoryModel) :
    (closure.choose name site candidates).Alike like (other.choose name site' candidates) := by
  cases candidates with
  | nil => exact h.refuse name hsite _
  | cons chosen others =>
    rw [Closure.choose, Closure.choose]
    split
    · exact h.take name hsite _ _
    · exact (h.report hsite _).take name hsite _ _

theorem stepWith (h : closure.Alike like other) {missing missing' : String × ImportSite}
    (hmissing : AlikeMissing like missing missing') :
    (stepWith provider calledOff filter closure missing).Alike like
      (stepWith provider calledOff filter other missing') := by
  obtain ⟨name, site⟩ := missing
  obtain ⟨name', site'⟩ := missing'
  obtain ⟨rfl, hsite⟩ : name' = name ∧ like.site site site' := hmissing
  have hhandled : other.handled ++ [name'] = closure.handled ++ [name'] :=
    congrArg (· ++ [name']) h.handled
  rw [Closure.stepWith, Closure.stepWith, h.isAborted]
  split
  · exact h
  · dsimp only
    rw [h.queries, like.knowsModel h.env]
    split
    · exact ⟨h.env, hhandled, rfl, h.diagnostics, h.reported, rfl⟩
    · split
      · exact ⟨h.env, hhandled, rfl, h.diagnostics, h.reported, rfl⟩
      · refine choose ?_ name' hsite _
        exact ⟨h.env, hhandled, rfl, h.diagnostics, h.reported, rfl⟩

theorem foldl_stepWith (h : closure.Alike like other) {row row' : List (String × ImportSite)}
    (hrow : List.Forall₂ (AlikeMissing like) row row') :
    (row.foldl (Closure.stepWith provider calledOff filter) closure).Alike like
      (row'.foldl (Closure.stepWith provider calledOff filter) other) := by
  induction hrow generalizing closure other with
  | nil => exact h
  | cons hfirst _ ih => exact ih (h.stepWith hfirst)

theorem isDone_eq (h : closure.Alike like other) :
    (other.isAborted || other.pending.isEmpty) =
      (closure.isAborted || closure.pending.isEmpty) := by
  have hempty : other.pending.isEmpty = closure.pending.isEmpty := by
    rw [Bool.eq_iff_iff, List.isEmpty_iff_length_eq_zero, List.isEmpty_iff_length_eq_zero,
      h.pending.length_eq]
  rw [h.isAborted, hempty]

end Alike

theorem ClosesWith.alike {last : Closure}
    (hcloses : ClosesWith provider calledOff filter closure last) (h : closure.Alike like other) :
    ∃ last', ClosesWith provider calledOff filter other last' ∧ last.Alike like last' := by
  induction hcloses generalizing other with
  | done hdone => exact ⟨other, .done (h.isDone_eq.trans hdone), h⟩
  | round hgoes _ ih =>
    obtain ⟨last', hlast', halike⟩ := ih (h.foldl_stepWith h.pending)
    exact ⟨last', .round (h.isDone_eq.trans hgoes) hlast', halike⟩

theorem run_alike {env other : Environment} (h : like.env env other) (access : RepositoryAccess)
    (filter : Option String) : (run access filter env).Alike like (run access filter other) := by
  have hcloses (env : Environment) : ClosesWith access.search access.calledOff filter (start env)
      (run access filter env) := closesWith_search_iff.mpr (closes_run access filter env)
  obtain ⟨last, hlast, halike⟩ := (hcloses env).alike (alike_start h)
  rwa [(hcloses other).unique hlast]

end Closure

namespace Environment

/-- Alike environments can both be resolved, or neither. The runs make the same queries; when they
are complete they have bound the references of environments that are alike. -/
theorem Resolves.alike {like : Likeness} {env other : Environment} {provider : Provider}
    {calledOff : Option Nat} {filter : Option String} {run : Resolution}
    (hrun : env.Resolves provider calledOff filter run) (h : like.env env other) :
    ∃ run', other.Resolves provider calledOff filter run' ∧
      run'.isComplete = run.isComplete ∧ run'.queries = run.queries ∧
      (run.isComplete = true → ∃ closed closed', like.env closed closed' ∧
        run.env = closed.bind ∧ run'.env = closed'.bind) := by
  obtain ⟨last, hlast, rfl⟩ := hrun
  obtain ⟨last', hlast', halike⟩ := hlast.alike (Closure.alike_start h)
  have hfilter : other.queryFilter filter = env.queryFilter filter := by
    rw [queryFilter, queryFilter, like.version h]
  refine ⟨last'.conclude calledOff, ⟨last', hfilter ▸ hlast', rfl⟩, ?_, ?_, ?_⟩
  · rw [Closure.conclude, Closure.conclude, halike.isAborted, halike.queries]
    split <;> rfl
  · rw [Closure.queries_conclude, Closure.queries_conclude, halike.queries]
  · rw [Closure.conclude, Closure.conclude, halike.isAborted, halike.queries]
    split
    · exact fun hcomplete => absurd hcomplete Bool.false_ne_true
    · exact fun _ => ⟨last.env, last'.env, halike.env, rfl, rfl⟩

end Environment

end Ili
