import Ili.Proofs.Catalog.ImportOrder
import Ili.Proofs.Environment.Persistence
import Ili.Proofs.Environment.Reordering
import Ili.Proofs.Environment.Simulation

/-!
# Runs in spite of the order of imports

Two runs that start from environments that differ in the order of imports only go on in step: they
ask for the same names in the same order, since a round takes names in alphabetical order, and take
in the same files. They report the same and bind the same, except for references that are disputed.
-/

namespace Ili

def Diagnostic.unplaced (diagnostic : Diagnostic) : Option String × Finding :=
  (diagnostic.uri, diagnostic.finding)

namespace Environment

variable {env other : Environment}

namespace Reordered

/-! ### Files are added alike -/

theorem append (h : env.Reordered other) {catalog catalog' : Catalog}
    (hcatalog : catalog.Reordered catalog') :
    (env.append catalog).Reordered (other.append catalog') where
  version := h.version
  size := by
    change (env.files.push catalog).size = (other.files.push catalog').size
    rw [Array.size_push, Array.size_push, h.size]
  file? index := by
    rw [file?_append, file?_append, h.size]
    split
    · exact .some hcatalog
    · exact h.file? index
  models := by
    change enterModels env.models env.files.size catalog =
      enterModels other.models other.files.size catalog'
    rw [enterModels, enterModels, h.models, h.size, hcatalog.models, funext hcatalog.nameOf_eq]

theorem merge (h : env.Reordered other) {catalog catalog' : Catalog}
    (hcatalog : catalog.Reordered catalog') :
    (env.merge catalog).1.Reordered (other.merge catalog').1 := by
  rw [Environment.merge, Environment.merge, hcatalog.modelNames_eq, h.knowsModel_eq]
  split
  · exact h
  · exact h.append hcatalog

theorem add (h : env.Reordered other) {catalog catalog' : Catalog}
    (hcatalog : catalog.Reordered catalog') :
    (env.add catalog).1.Reordered (other.add catalog').1 := by
  rw [Environment.add, Environment.add, h.size]
  split
  · have hversion : Environment.Reordered { env with version := catalog.schemaVersion }
        { other with version := catalog'.schemaVersion } :=
      ⟨hcatalog.schemaVersion, h.size, h.file?, h.models⟩
    exact hversion.merge hcatalog
  · exact h.merge hcatalog

/-! ### The same names are missing -/

end Reordered

def importers (env : Environment) (name : String) : List (Option String) :=
  (env.importedNames.filter fun entry => entry.1 == name).map fun entry => entry.2.uri

theorem get?_missingImports (env : Environment) (name : String) :
    (env.missingImports.get? name).map ImportSite.uri =
      if env.knowsModel name then none else (env.importers name).head? := by
  have hfold (row : List (String × ImportSite)) (missing : Dict ImportSite) :
      ((row.foldl (fun missing (entry : String × ImportSite) =>
          if env.knowsModel entry.1 then missing else missing.insertNew entry.1 entry.2)
        missing).get? name).map ImportSite.uri =
      ((missing.get? name).map ImportSite.uri).or
        (if env.knowsModel name then none
          else ((row.filter fun entry => entry.1 == name).map fun entry => entry.2.uri).head?) := by
    induction row generalizing missing with
    | nil => simp
    | cons entry rest ih =>
      obtain ⟨key, site⟩ := entry
      rw [List.foldl_cons, ih]
      by_cases hkey : key = name
      · subst hkey
        cases hknown : env.knowsModel key <;> cases hmissing : missing.get? key <;>
          simp [Dict.get?_insertNew, hmissing]
      · cases hknown : env.knowsModel key <;> simp [Dict.get?_insertNew, hkey, Ne.symm hkey]
  exact hfold env.importedNames .empty

theorem importers_eq_flatMap (env : Environment) (name : String) :
    env.importers name = env.models.entries.flatMap fun entry =>
      ((env.importsOf entry.2).map Import.written).filterMap fun written =>
        if written.1.head? = some name then some (env.uri? entry.2) else none := by
  rw [importers, importedNames, List.filter_flatMap, List.map_flatMap]
  apply List.flatMap_congr
  rintro ⟨-, model⟩ -
  dsimp only
  rw [← List.filterMap_eq_map, List.filterMap_filter, List.filterMap_filterMap, List.filterMap_map]
  apply List.filterMap_congr
  rintro ⟨item, reference⟩ -
  cases hhead : reference.path.head? <;> simp [Import.written, hhead]

namespace Reordered

/-- All imports of a model stand in its file, so their order does not matter. -/
theorem importers_eq (h : env.Reordered other) : env.importers = other.importers := by
  funext name
  rw [importers_eq_flatMap, importers_eq_flatMap, h.models]
  apply List.flatMap_congr
  rintro ⟨-, model⟩ -
  have huri : env.uri? model = other.uri? model := h.uri?_eq model.file
  dsimp only
  rw [huri]
  set pick : List String × Bool → Option (Option String) := fun written =>
    if written.1.head? = some name then some (other.uri? model) else none
  have hperm := (h.importsOf_perm model).filterMap pick
  have hconstant (row : List (List String × Bool)) :
      ∀ found ∈ row.filterMap pick, found = other.uri? model := by
    intro found hfound
    obtain ⟨written, -, hwritten⟩ := List.mem_filterMap.mp hfound
    by_cases hhead : written.1.head? = some name
    · exact (Option.some.inj ((if_pos hhead).symm.trans hwritten)).symm
    · exact absurd ((if_neg hhead).symm.trans hwritten) nofun
  rw [List.eq_replicate_of_mem (hconstant _), hperm.length_eq,
    ← List.eq_replicate_of_mem (hconstant _)]

theorem missing_eq (h : env.Reordered other) (name : String) :
    (env.missingImports.get? name).map ImportSite.uri =
      (other.missingImports.get? name).map ImportSite.uri := by
  rw [get?_missingImports, get?_missingImports, h.knowsModel_eq, h.importers_eq]

end Reordered

/-- An import may stand elsewhere in its file. -/
def reorderedLikeness : Likeness where
  env := Reordered
  site site other := site.uri = other.uri
  version h := h.version.symm
  knowsModel h := h.knowsModel_eq.symm
  missing h name := rel_of_map_eq (h.missing_eq name).symm fun _ _ hsame => hsame.symm
  merge h text uri := h.merge (.refl (.ofText text uri))

end Environment

namespace Closure

variable {closure other : Closure}

structure Reordered (closure other : Closure) : Prop where
  env : closure.env.Reordered other.env
  handled : closure.handled = other.handled
  queries : closure.queries = other.queries
  diagnostics : closure.diagnostics.map Diagnostic.unplaced =
    other.diagnostics.map Diagnostic.unplaced
  reported : closure.reported = other.reported
  isAborted : closure.isAborted = other.isAborted

theorem Alike.reordered (h : closure.Alike Environment.reorderedLikeness other) :
    closure.Reordered other where
  env := h.env
  handled := h.handled.symm
  queries := h.queries.symm
  diagnostics := map_eq_of_forall₂ h.diagnostics fun _ _ hsame =>
    Prod.ext hsame.1 hsame.2.symm
  reported := h.reported.symm
  isAborted := h.isAborted.symm

theorem run_reordered {env other : Environment} (h : env.Reordered other)
    (access : RepositoryAccess) (filter : Option String) :
    (run access filter env).Reordered (run access filter other) :=
  have hlike : Environment.reorderedLikeness.env env other := h
  (run_alike hlike access filter).reordered

end Closure

namespace Environment

variable {env other : Environment}

/-! ### The same is found of references -/

def remark (env : Environment) (reported : List String) (file : Nat) (reference : Reference) :
    Option (Option String × Finding) :=
  if env.isReachable ⟨file, reference.source⟩ then
    (env.referenceFinding? reported ⟨file, 0⟩ reference).map fun finding =>
      ((env.file? file).bind Catalog.uri, finding)
  else none

theorem map_unplaced_referenceFindings (env : Environment) (reported : List String) :
    (env.referenceFindings reported).map Diagnostic.unplaced =
      ((List.range env.files.size).drop 1).flatMap fun file =>
        match env.file? file with
        | none => []
        | some catalog =>
          (catalog.references.toList.map Reference.stripped).filterMap
            (env.remark reported file) := by
  rw [referenceFindings, references, List.filterMap_flatMap, List.map_flatMap]
  apply List.flatMap_congr
  intro file _
  rw [referencesOf]
  cases env.file? file with
  | none => rfl
  | some catalog =>
    dsimp only
    rw [List.filterMap_map, List.filterMap_filterMap, List.map_filterMap]
    conv_rhs => rw [← List.zipIdx_map_fst 0 catalog.references.toList, List.filterMap_map]
    apply List.filterMap_congr
    rintro ⟨reference, index⟩ -
    -- Neither the number of a reference nor its place has a part in what is found.
    have hfinding : env.referenceFinding? reported ⟨file, 0⟩ reference.stripped =
        env.referenceFinding? reported ⟨file, index⟩ reference := rfl
    simp only [Function.comp_apply, remark, hfinding]
    change _ = if env.isReachable ⟨file, reference.source⟩ = true then _ else none
    split
    · rw [Option.bind_some, Option.map_map]
      rfl
    · rfl

theorem Reordered.remark_eq (h : env.Reordered other) (reported : List String) (file : Nat)
    {reference : Reference} (hundisputed : env.isReachable ⟨file, reference.source⟩ = true →
      ¬env.Disputed ⟨file, 0⟩ reference) :
    env.remark reported file reference = other.remark reported file reference := by
  have huri : (env.file? file).bind Catalog.uri = (other.file? file).bind Catalog.uri :=
    h.uri?_eq file
  rw [remark, remark, ← h.isReachable_eq, huri]
  split
  · next hreachable =>
    rw [referenceFinding?, referenceFinding?,
      h.lookupReference_eq (show (⟨file, 0⟩ : ReferenceId).file = (⟨file, 0⟩ : ReferenceId).file
        from rfl) rfl (hundisputed hreachable), h.kind?_eq]
  · rfl

/-- What is found wrong with references is the same up to places and order, if none is disputed. -/
theorem Reordered.referenceFindings_perm (h : env.Reordered other) (reported : List String)
    (hundisputed : ∀ id reference, (id, reference) ∈ env.references →
      ¬env.Disputed id reference) :
    ((env.referenceFindings reported).map Diagnostic.unplaced).Perm
      ((other.referenceFindings reported).map Diagnostic.unplaced) := by
  rw [map_unplaced_referenceFindings, map_unplaced_referenceFindings, h.size]
  refine List.Perm.flatMap_left _ fun file hfile => ?_
  have hne : file ≠ 0 := by
    rw [List.range_eq_range', List.drop_range', List.mem_range'_1] at hfile
    omega
  rcases rel_cases (h.file? file) with
    ⟨hnone, hnone'⟩ | ⟨catalog, catalog', hcatalog, hcatalog', hsame⟩
  · rw [hnone, hnone']
  · rw [hcatalog, hcatalog']
    dsimp only
    have hremark : (catalog.references.toList.map Reference.stripped).filterMap
        (env.remark reported file) =
          (catalog.references.toList.map Reference.stripped).filterMap
            (other.remark reported file) := by
      apply List.filterMap_congr
      intro stripped hmem
      obtain ⟨reference, hreference, rfl⟩ := List.mem_map.mp hmem
      refine h.remark_eq reported file fun hreachable => ?_
      obtain ⟨index, hindex⟩ := List.mem_iff_getElem?.mp hreference
      exact hundisputed ⟨file, index⟩ reference
        (mem_references.mpr ⟨hne, by rw [reference?, hcatalog]; simpa using hindex, hreachable⟩)
    rw [hremark]
    exact hsame.references_perm.filterMap _

/-! ### The same is bound -/

def IsImport (env : Environment) (id : ReferenceId) : Prop :=
  ∃ model, ∃ entry ∈ env.importsOf model, id = ⟨model.file, entry.1.model⟩

theorem isImport_iff {id : ReferenceId} :
    env.IsImport id ↔ ∃ catalog, env.file? id.file = some catalog ∧ catalog.IsImport id.index := by
  constructor
  · rintro ⟨model, entry, hentry, rfl⟩
    rw [importsOf_eq] at hentry
    cases hfile : env.file? model.file with
    | none => rw [hfile] at hentry; cases hentry
    | some catalog =>
      rw [hfile] at hentry
      exact ⟨catalog, rfl, model.index, entry, hentry, rfl⟩
  · rintro ⟨catalog, hfile, index, entry, hentry, hnumber⟩
    refine ⟨⟨id.file, index⟩, entry, ?_, by rw [hnumber]⟩
    rw [importsOf_eq, hfile]
    exact hentry

instance (env : Environment) (id : ReferenceId) : Decidable (env.IsImport id) :=
  decidable_of_iff (∃ catalog ∈ env.file? id.file, catalog.IsImport id.index) isImport_iff.symm

theorem qualifiedName_bind (env : Environment) : env.bind.qualifiedName = env.qualifiedName := by
  funext id
  have hname : env.bind.nameOf = env.nameOf := by
    funext id
    rw [nameOf, nameOf, definition?_bind]
  rw [qualifiedName, qualifiedName, chain_bind, hname]

theorem isImport_bind (id : ReferenceId) : env.bind.IsImport id ↔ env.IsImport id := by
  simp only [IsImport, importsOf_bind, List.mem_map, exists_exists_and_eq_and]

theorem disputed_bind {id : ReferenceId} {reference reference' : Reference}
    (hpath : reference.path = reference'.path) (hsource : reference.source = reference'.source)
    (hexpected : reference.expected = reference'.expected) :
    env.bind.Disputed id reference ↔ env.Disputed id reference' := by
  have hcontested (source : DefinitionId) (path : List String) :
      env.bind.Contested source path = env.Contested source path := by
    cases path with
    | nil => rfl
    | cons name rest =>
      have hoffers : env.bind.offers source name = env.offers source name := by
        rw [offers, offers, openModels_bind, funext fun model => element?_bind env model name]
      have hscoped : env.bind.scopedElement? source name = env.scopedElement? source name := by
        simp only [scopedElement?, chain_bind, element?_bind]
      have hdown (start : DefinitionId) :
          env.bind.descend? start rest = env.descend? start rest := by
        rw [descend?, descend?, funext fun id => funext (child?_bind env id)]
      simp only [Contested, hoffers, hscoped, hdown, model?_bind]
  rw [Disputed, Disputed, hcontested, hpath, hsource, hexpected]

theorem Reordered.reference? (h : env.Reordered other) {id : ReferenceId} {reference : Reference}
    (hfound : env.reference? id = some reference) (himport : ¬env.IsImport id) :
    ∃ reference', other.reference? id = some reference' ∧
      reference.stripped = reference'.stripped := by
  obtain ⟨catalog, hfile, hreference⟩ := Option.bind_eq_some_iff.mp hfound
  rcases rel_cases (h.file? id.file) with
    ⟨hnone, -⟩ | ⟨found, catalog', hcatalog, hcatalog', hsame⟩
  · rw [hfile] at hnone
    cases hnone
  · obtain rfl := Option.some.inj (hfile.symm.trans hcatalog)
    have hnumber : ¬catalog.IsImport id.index := fun hnumber =>
      himport (isImport_iff.mpr ⟨catalog, hfile, hnumber⟩)
    have hsame := hsame.references id.index hnumber
    rw [hreference, Option.map_some] at hsame
    obtain ⟨reference', hreference', hstripped⟩ := Option.map_eq_some_iff.mp hsame.symm
    refine ⟨reference', ?_, hstripped.symm⟩
    rw [Environment.reference?, hcatalog']
    exact hreference'

/-- Imports apart, the same references are written under the same numbers, and what is not disputed
has the same target. -/
def BindsAlike (env other : Environment) : Prop :=
  ∀ id reference, env.reference? id = some reference → ¬env.IsImport id →
    ∃ reference', other.reference? id = some reference' ∧ reference'.path = reference.path ∧
      reference'.source = reference.source ∧ reference'.expected = reference.expected ∧
      (¬env.Disputed id reference → reference'.state = reference.state)

theorem Reordered.bindsAlike (h : env.Reordered other) : env.BindsAlike other := by
  intro id reference hfound himport
  obtain ⟨reference', hfound', hsame⟩ := h.reference? hfound himport
  simp only [Reference.stripped, Reference.mk.injEq] at hsame
  obtain ⟨hpath, -, hsource, hexpected, hstate⟩ := hsame
  exact ⟨reference', hfound', hpath.symm, hsource.symm, hexpected.symm, fun _ => hstate.symm⟩

theorem Reordered.bindsAlike_bind (h : env.Reordered other) : env.bind.BindsAlike other.bind := by
  intro id reference hfound himport
  rw [reference?_bind] at hfound
  obtain ⟨before, hbefore, rfl⟩ := Option.map_eq_some_iff.mp hfound
  rw [isImport_bind] at himport
  obtain ⟨before', hbefore', hsame⟩ := h.reference? hbefore himport
  have hparts := hsame
  simp only [Reference.stripped, Reference.mk.injEq] at hparts
  obtain ⟨hpath, -, hsource, hexpected, hstate⟩ := hparts
  have hbound := boundReference_eq env id before
  have hbound' := boundReference_eq other id before'
  refine ⟨other.boundReference id before', ?_, ?_, ?_, ?_, fun hundisputed => ?_⟩
  · rw [reference?_bind, hbefore', Option.map_some]
  · rw [hbound, hbound', hpath]
  · rw [hbound, hbound', hsource]
  · rw [hbound, hbound', hexpected]
  · have hclosed : ¬env.Disputed id before := fun hdisputed => hundisputed <|
      (disputed_bind (by rw [hbound]) (by rw [hbound]) (by rw [hbound])).mpr hdisputed
    rw [boundReference, boundReference, ← h.isReachable_eq, ← hsource]
    split
    · rw [h.lookupReference_eq (show id.file = id.file from rfl) hsame hclosed]
    · exact hstate.symm

end Environment

/-- What two runs have in common that are the same but for the order of imports: all but what comes
of disputed references. -/
structure Resolution.SameButDisputed (run other : Resolution) : Prop where
  isComplete : run.isComplete = other.isComplete
  queries : run.queries = other.queries
  bindings : run.env.BindsAlike other.env
  qualifiedName : run.env.qualifiedName = other.env.qualifiedName
  importDiagnostics :
    ((run.diagnostics.filter fun d => d.finding.isOfImport).map Diagnostic.unplaced).Perm
      ((other.diagnostics.filter fun d => d.finding.isOfImport).map Diagnostic.unplaced)
  diagnostics :
    (∀ id reference, (id, reference) ∈ run.env.references → ¬run.env.Disputed id reference) →
      (run.diagnostics.map Diagnostic.unplaced).Perm (other.diagnostics.map Diagnostic.unplaced)

theorem Closure.filter_isOfImport {closure : Closure} (h : closure.OnImports)
    {findings : List Diagnostic} (hnone : ∀ d ∈ findings, d.finding.isOfImport = false) :
    ((Diagnostic.sort (closure.diagnostics ++ findings)).filter
      fun d => d.finding.isOfImport).Perm closure.diagnostics := by
  have hall : closure.diagnostics.filter (fun d => d.finding.isOfImport) = closure.diagnostics :=
    List.filter_eq_self.mpr h
  have hfindings : findings.filter (fun d => d.finding.isOfImport) = [] :=
    List.filter_eq_nil_iff.mpr fun d hd => by
      rw [hnone d hd]
      exact Bool.false_ne_true
  refine ((Diagnostic.sort_perm _).filter _).trans (.of_eq ?_)
  rw [List.filter_append, hall, hfindings, List.append_nil]

namespace Environment

variable {env other : Environment}

/-- Environments that differ in the order of imports only are resolved alike. -/
theorem Reordered.resolve (h : env.Reordered other) (access : RepositoryAccess)
    (filter : Option String) :
    (env.resolve access filter).SameButDisputed (other.resolve access filter) := by
  have hfilter : env.queryFilter filter = other.queryFilter filter := by
    rw [queryFilter, queryFilter, h.version]
  set closure := Closure.run access (env.queryFilter filter) env
  set closure' := Closure.run access (env.queryFilter filter) other with hright
  have hclosure : closure.Reordered closure' := Closure.run_reordered h access _
  have hrun : env.resolve access filter =
      if closure.isAborted || access.isCalledOff closure.queries.length then
        ⟨closure.env, false, Diagnostic.sort closure.diagnostics, closure.queries⟩
      else
        ⟨closure.env.bind, true, Diagnostic.sort (closure.diagnostics ++
          closure.env.referenceFindings closure.reported), closure.queries⟩ := rfl
  have hrun' : other.resolve access filter =
      if closure.isAborted || access.isCalledOff closure.queries.length then
        ⟨closure'.env, false, Diagnostic.sort closure'.diagnostics, closure.queries⟩
      else
        ⟨closure'.env.bind, true, Diagnostic.sort (closure'.diagnostics ++
          closure'.env.referenceFindings closure.reported), closure.queries⟩ := by
    rw [hclosure.isAborted, hclosure.queries, hclosure.reported, hright, hfilter]
    rfl
  have himports : closure.OnImports := Closure.onImports_run access _ env
  have himports' : closure'.OnImports := Closure.onImports_run access _ other
  split at hrun
  · next hoff =>
    rw [if_pos hoff] at hrun'
    rw [hrun, hrun']
    have hsame : ((Diagnostic.sort closure.diagnostics).map Diagnostic.unplaced).Perm
        ((Diagnostic.sort closure'.diagnostics).map Diagnostic.unplaced) :=
      ((Diagnostic.sort_perm _).map _).trans
        (hclosure.diagnostics ▸ ((Diagnostic.sort_perm _).map _).symm)
    have hnone : ∀ d ∈ ([] : List Diagnostic), d.finding.isOfImport = false :=
      List.forall_mem_nil _
    have hleft := Closure.filter_isOfImport himports hnone
    have hright := Closure.filter_isOfImport himports' hnone
    rw [List.append_nil] at hleft hright
    exact ⟨rfl, rfl, hclosure.env.bindsAlike, hclosure.env.qualifiedName_eq,
      (hleft.map _).trans (.trans (.of_eq hclosure.diagnostics) (hright.map _).symm),
      fun _ => hsame⟩
  · next hon =>
    rw [if_neg hon] at hrun'
    rw [hrun, hrun']
    refine ⟨rfl, rfl, hclosure.env.bindsAlike_bind, ?_, ?_, fun hundisputed => ?_⟩
    · rw [qualifiedName_bind, qualifiedName_bind, hclosure.env.qualifiedName_eq]
    · have hleft := Closure.filter_isOfImport himports
        (isOfImport_of_mem_referenceFindings closure.env closure.reported)
      have hright := Closure.filter_isOfImport himports'
        (isOfImport_of_mem_referenceFindings closure'.env closure.reported)
      exact (hleft.map _).trans (.trans (.of_eq hclosure.diagnostics) (hright.map _).symm)
    · refine ((Diagnostic.sort_perm _).map _).trans
        (.trans ?_ ((Diagnostic.sort_perm _).map _).symm)
      rw [List.map_append, List.map_append, hclosure.diagnostics]
      refine (hclosure.env.referenceFindings_perm _ fun id reference hmem => ?_).append_left _
      -- What is listed before binding is listed after it, with another state at most.
      have hlisted : (id, closure.env.settled id reference) ∈ closure.env.bind.references := by
        rw [references_bind]
        exact List.mem_map.mpr ⟨(id, reference), hmem, rfl⟩
      exact fun hdisputed => hundisputed id _ hlisted ((disputed_bind rfl rfl rfl).mpr hdisputed)

def addFiles (env : Environment) (files : List (String × Option String)) : Environment :=
  files.foldl (fun env file => (env.add (.ofText file.1 file.2)).1) env

theorem Reordered.addFiles {files others : List (String × Option String)}
    (hfiles : List.Forall₂ (fun file other => ReordersImports file.1 other.1 ∧ file.2 = other.2)
      files others) (h : env.Reordered other) :
    (env.addFiles files).Reordered (other.addFiles others) := by
  induction hfiles generalizing env other with
  | nil => exact h
  | cons hfirst _ ih =>
    exact ih (h.add (hfirst.2 ▸ Catalog.reordered_ofText hfirst.1 _))

/-- In whatever order the models of some files import others: the runs are complete or not, make the
same queries and bind and report the same, but for disputed references. -/
theorem resolve_of_reordersImports (env : Environment)
    {files others : List (String × Option String)}
    (h : List.Forall₂ (fun file other => ReordersImports file.1 other.1 ∧ file.2 = other.2)
      files others) (access : RepositoryAccess) (filter : Option String) :
    ((env.addFiles files).resolve access filter).SameButDisputed
      ((env.addFiles others).resolve access filter) :=
  Reordered.resolve (.addFiles h (.refl env)) access filter

/-- A class that extends one of a model that is imported for use without its name. -/
def openFirstText : String :=
  "INTERLIS 2.4; MODEL A = CLASS X = END X; END A. MODEL B = END B. " ++
    "MODEL M = IMPORTS UNQUALIFIED A, B; CLASS Y EXTENDS X = END Y; END M."

def openLastText : String :=
  "INTERLIS 2.4; MODEL A = CLASS X = END X; END A. MODEL B = END B. " ++
    "MODEL M = IMPORTS B, UNQUALIFIED A; CLASS Y EXTENDS X = END Y; END M."

def openFirstSpelling : { chars : List Char // openFirstText = String.ofList chars } :=
  ⟨_ ++ _, String.ofList_append.symm⟩

def openLastSpelling : { chars : List Char // openLastText = String.ofList chars } :=
  ⟨_ ++ _, String.ofList_append.symm⟩

theorem reordersImports_openLastText : ReordersImports openFirstText openLastText := by
  rw [ReordersImports, tree_parse_of_eq openFirstSpelling.2, tree_parse_of_eq openLastSpelling.2]
  decide +kernel

def BindsImported (env : Environment) : Prop :=
  env.missingImports.entries = [] ∧ ¬env.bind.IsImport ⟨1, 2⟩ ∧
    ∃ reference ∈ env.bind.reference? ⟨1, 2⟩,
      reference.state = .resolved ⟨1, 1⟩ ∧ ¬env.bind.Disputed ⟨1, 2⟩ reference

instance (env : Environment) : Decidable env.BindsImported :=
  inferInstanceAs (Decidable (_ ∧ _))

theorem bindsImported_openFirstText :
    (initial.addFiles [(openFirstText, none)]).BindsImported := by
  rw [initial_eq_spelledInitial, addFiles, List.foldl_cons, Catalog.ofText,
    tree_parse_of_eq openFirstSpelling.2]
  decide +kernel

/-- The class stays bound when the imports change places. -/
theorem resolve_of_reordersImports_opened :
    ReordersImports openFirstText openLastText ∧
      ∃ reference ∈ ((initial.addFiles [(openLastText, none)]).resolve emptyAccess
        none).env.reference? ⟨1, 2⟩, reference.state = .resolved ⟨1, 1⟩ := by
  refine ⟨reordersImports_openLastText, ?_⟩
  obtain ⟨hmissing, himport, reference, hfound, hstate, hundisputed⟩ := bindsImported_openFirstText
  have hfiles : List.Forall₂ (fun file other : String × Option String =>
      ReordersImports file.1 other.1 ∧ file.2 = other.2)
      [(openFirstText, none)] [(openLastText, none)] :=
    .cons ⟨reordersImports_openLastText, rfl⟩ .nil
  have hsame := (resolve_of_reordersImports initial hfiles emptyAccess none).bindings
  rw [env_resolve_of_nothing_missing calledOff_emptyAccess none hmissing] at hsame
  obtain ⟨reference', hfound', -, -, -, hbound⟩ := hsame ⟨1, 2⟩ reference hfound himport
  exact ⟨reference', hfound', (hbound hundisputed).trans hstate⟩

end Environment

end Ili
