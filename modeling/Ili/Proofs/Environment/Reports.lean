import Ili.Proofs.Environment.Lookups

/-!
# What is reported of references

A complete run reports every reference that it leaves without a target, once and at its place, but
for the imports whose models it has already said are not to be had. The closure reports nothing but
imports, and an import that was said not to be had is never of the wrong kind: where its name is
known in the end, a file that the closure took in declares it as a model.
-/

namespace Ili

namespace Finding

/-- What a closure can find. -/
def isOfImport : Finding → Bool
  | modelNotFound _ | versionMismatch _ _ _ | ambiguousModel _ _ => true
  | _ => false

def isOfReference (finding : Finding) : Bool :=
  finding.code == some "E0001" || finding.code == some "E0002"

theorem isOfReference_of_isOfImport {finding : Finding} (h : finding.isOfImport = true) :
    finding.isOfReference = false := by
  cases finding <;> first | rfl | cases h

end Finding

namespace Closure

variable {access : RepositoryAccess} {filter : Option String} {closure : Closure}

def OnImports (closure : Closure) : Prop :=
  ∀ diagnostic ∈ closure.diagnostics, diagnostic.finding.isOfImport = true

theorem OnImports.report (h : closure.OnImports) (site : ImportSite) {finding : Finding}
    (hfinding : finding.isOfImport = true) : (closure.report site finding).OnImports := by
  intro diagnostic hmem
  rcases List.mem_append.mp hmem with hmem | hmem
  · exact h diagnostic hmem
  · rw [List.mem_singleton.mp hmem]
    exact hfinding

theorem OnImports.take (h : closure.OnImports) (name : String) (site : ImportSite)
    (catalog : Catalog) : (closure.take name site catalog).OnImports := by
  rw [Closure.take]
  split
  · exact h
  · exact h.report site rfl

theorem OnImports.choose (h : closure.OnImports) (name : String) (site : ImportSite)
    (candidates : List RepositoryModel) : (closure.choose name site candidates).OnImports := by
  cases candidates with
  | nil => exact h.report site rfl
  | cons chosen others =>
    rw [Closure.choose]
    split
    · exact h.take name site _
    · have hmany : (Finding.ambiguousModel name
          ((chosen :: others).map RepositoryModel.uri)).isOfImport = true := rfl
      exact (h.report site hmany).take name site _

theorem OnImports.step (h : closure.OnImports) (missing : String × ImportSite) :
    (step access filter closure missing).OnImports := by
  rw [Closure.step]
  split
  · exact h
  · dsimp only
    split
    · exact h
    · split
      · exact h
      · have hasked : OnImports { closure with
            handled := closure.handled ++ [missing.1]
            queries := closure.queries ++ [(missing.1, filter)] } := h
        exact hasked.choose missing.1 missing.2 _

theorem OnImports.foldl (h : closure.OnImports) (missing : List (String × ImportSite)) :
    (missing.foldl (Closure.step access filter) closure).OnImports := by
  induction missing generalizing closure with
  | nil => exact h
  | cons entry rest ih => exact ih (h.step entry)

theorem OnImports.rounds (h : closure.OnImports) (count : Nat) :
    (rounds access filter count closure).OnImports := by
  induction count generalizing closure with
  | zero => exact h
  | succ count ih =>
    rw [Closure.rounds]
    split
    · exact h
    · exact ih (h.foldl _)

theorem onImports_run (access : RepositoryAccess) (filter : Option String) (env : Environment) :
    (run access filter env).OnImports :=
  have hstart : (start env).OnImports := by simp [OnImports, start]
  hstart.rounds _

end Closure

namespace Environment

variable {access : RepositoryAccess} {filter : Option String}

theorem Extends.kind? {env larger : Environment} (h : env.Extends larger) {id : DefinitionId}
    {kind : DefinitionKind} (hkind : env.kind? id = some kind) : larger.kind? id = some kind := by
  obtain ⟨definition, hfound, rfl⟩ := Option.map_eq_some_iff.mp hkind
  rw [Environment.kind?, h.definition? hfound]
  rfl

theorem kind?_answered {env : Environment} {asked name : String} {id : DefinitionId}
    (h : (env.answered access filter asked).model? name = some id) :
    env.model? name = some id ∨ (env.answered access filter asked).kind? id = some .model := by
  rw [answered] at h ⊢
  split at h
  · exact .inl h
  · next catalog htaken =>
    obtain ⟨text, uri, rfl⟩ := eq_ofText_of_taken? htaken
    rw [merge] at h ⊢
    split at h
    · exact .inl h
    · next hnew =>
      rw [model?_append] at h
      refine (Option.or_eq_some_iff.mp h).imp_right fun hentered => ?_
      obtain ⟨model, hmodel, rfl⟩ := Option.map_eq_some_iff.mp hentered.2
      obtain ⟨definition, hfound, hkind⟩ :=
        Catalog.kind_of_mem_models text _ uri model (List.mem_of_find?_eq_some hmodel)
      rw [if_neg hnew, kind?, definition?, file?_append, if_pos rfl]
      exact (congrArg (Option.map Definition.kind) hfound).trans (congrArg some hkind)

theorem kind?_foldl_answered {env : Environment} {names : List String} {name : String}
    {id : DefinitionId} (h : (names.foldl (answered access filter) env).model? name = some id) :
    env.model? name = some id ∨
      (names.foldl (answered access filter) env).kind? id = some .model := by
  induction names generalizing env with
  | nil => exact .inl h
  | cons first rest ih =>
    rcases ih h with hmodel | hkind
    · exact (kind?_answered hmodel).imp_right (extends_foldl_answered access filter _ rest).kind?
    · exact .inr hkind

/-- A name that was reported and is known in the end stands for a model: it was not known at first.
-/
theorem kind?_of_reported {env : Environment} {name : String} {id : DefinitionId}
    (hreported : name ∈ (Closure.run access filter env).reported)
    (hmodel : (Closure.run access filter env).env.model? name = some id) :
    (Closure.run access filter env).env.kind? id = some .model := by
  have hclosure := Closure.consistent_run access filter env
  have hunknown : env.model? name = none := by
    rw [hclosure.reported_eq] at hreported
    obtain ⟨before, after, hsplit⟩ := List.append_of_mem (List.mem_of_mem_filter hreported)
    have hmoment := (hclosure.moment before name after hsplit).1
    refine Option.eq_none_iff_forall_ne_some.mpr fun known hknown => ?_
    have hgrown := (extends_foldl_answered access filter env before).model? hknown
    rw [Environment.knowsModel, Dict.contains, show Dict.get? _ name = some known from hgrown]
      at hmoment
    cases hmoment
  rw [hclosure.env_eq] at hmodel ⊢
  exact (kind?_foldl_answered hmodel).resolve_left
    (Option.eq_none_iff_forall_ne_some.mp hunknown id)

/-! ### One report for each reference without a target -/

def complaint (env : Environment) (id : ReferenceId) (reference : Reference) : Diagnostic where
  uri := (env.file? id.file).bind Catalog.uri
  span := reference.span
  finding :=
    match env.named? id reference with
    | none => .unresolvedReference reference.text
    | some target =>
      .wrongKind reference.text reference.expected.describe
        (((env.kind? target).map DefinitionKind.display).getD "")

theorem isOfReference_complaint (env : Environment) (id : ReferenceId) (reference : Reference) :
    (env.complaint id reference).finding.isOfReference = true := by
  rw [complaint]
  cases env.named? id reference <;> rfl

theorem code_complaint (env : Environment) (id : ReferenceId) (reference : Reference) :
    (env.complaint id reference).finding.code =
      some (if (env.named? id reference).isSome then "E0002" else "E0001") := by
  rw [complaint]
  cases env.named? id reference <;> rfl

theorem complaint_bind (env : Environment) (id : ReferenceId) (reference : Reference) :
    env.bind.complaint id (env.settled id reference) = env.complaint id reference := by
  have hnamed : env.bind.named? id (env.settled id reference) = env.named? id reference :=
    named?_bind env id reference
  have huri : (env.bind.file? id.file).bind Catalog.uri = (env.file? id.file).bind Catalog.uri := by
    rw [file?_bind, Option.bind_map]
    rfl
  rw [complaint, complaint, hnamed, huri, funext (kind?_bind env)]
  rfl

/-- The reference stays without a target and has not been reported as an import. -/
def isDue (reported : List String) (reference : Reference) : Bool :=
  reference.state == .unresolved && !isImportOf reported reference

/-- A report is made just of the references that are due, provided that what was reported before is
not of the wrong kind. -/
theorem referenceFinding?_eq {env : Environment} {reported : List String}
    (hknown : ∀ name ∈ reported, ∀ target, env.model? name = some target →
      env.kind? target = some .model) (id : ReferenceId) (reference : Reference) :
    env.referenceFinding? reported id reference =
      if isDue reported (env.settled id reference) then some (env.complaint id reference).finding
      else none := by
  rw [referenceFinding?, isDue, settled, complaint]
  cases hnamed : env.named? id reference with
  | none =>
    rw [show env.lookupReference id reference = .notFound by rw [lookupReference, hnamed]]
    change (if isImportOf reported reference then none else _) =
      if !isImportOf reported reference then _ else _
    cases isImportOf reported reference <;> rfl
  | some target =>
    cases haccepts : (env.kind? target).any reference.expected.accepts with
    | true =>
      rw [show env.lookupReference id reference = .found target by
        rw [lookupReference, hnamed]; exact if_pos haccepts]
      rfl
    | false =>
      rw [show env.lookupReference id reference = .wrongKind target by
        rw [lookupReference, hnamed]; exact if_neg (by rw [haccepts]; exact Bool.false_ne_true)]
      -- An import that was reported would name a model, which it accepts.
      have hnew : isImportOf reported reference = false := by
        rw [isImportOf.eq_def]
        split
        · next name hexpected hpath =>
          refine Bool.eq_false_iff.mpr fun hcontains => ?_
          rw [named?.eq_def, hexpected, hpath] at hnamed
          rw [hknown name (List.contains_iff_mem.mp hcontains) target hnamed, hexpected] at haccepts
          cases haccepts
        · rfl
      change _ = if !isImportOf reported reference then _ else _
      rw [hnew]
      rfl

theorem referenceFindings_eq {env : Environment} {reported : List String}
    (hknown : ∀ name ∈ reported, ∀ target, env.model? name = some target →
      env.kind? target = some .model) :
    env.referenceFindings reported =
      (env.bind.references.filter fun entry => isDue reported entry.2).map fun entry =>
        env.bind.complaint entry.1 entry.2 := by
  rw [references_bind, List.filter_map, List.map_map, ← List.filterMap_eq_map,
    List.filterMap_filter, referenceFindings]
  apply List.filterMap_congr
  rintro ⟨id, reference⟩ -
  simp only [Function.comp_apply, complaint_bind, referenceFinding?_eq hknown]
  split <;> rfl

theorem isOfImport_of_mem_referenceFindings (env : Environment) (reported : List String) :
    ∀ d ∈ env.referenceFindings reported, d.finding.isOfImport = false := by
  intro d hd
  obtain ⟨⟨id, reference⟩, -, hmap⟩ := List.mem_filterMap.mp hd
  obtain ⟨finding, hfinding, rfl⟩ := Option.map_eq_some_iff.mp hmap
  rw [referenceFinding?] at hfinding
  split at hfinding
  · cases hfinding
  · obtain rfl := Option.some.inj hfinding
    rfl
  · split at hfinding
    · cases hfinding
    · obtain rfl := Option.some.inj hfinding
      rfl

theorem filter_isOfReference_resolve {env : Environment}
    (hcomplete : (env.resolve access filter).isComplete = true) :
    let closure := Closure.run access (env.queryFilter filter) env
    ((env.resolve access filter).diagnostics.filter fun d => d.finding.isOfReference).Perm
      (closure.env.referenceFindings closure.reported) := by
  intro closure
  have hnone : closure.diagnostics.filter (fun d => d.finding.isOfReference) = [] :=
    List.filter_eq_nil_iff.mpr fun diagnostic hmem => by
      rw [Finding.isOfReference_of_isOfImport (Closure.onImports_run access _ env diagnostic hmem)]
      exact Bool.false_ne_true
  have hall : (closure.env.referenceFindings closure.reported).filter
      (fun d => d.finding.isOfReference) = closure.env.referenceFindings closure.reported :=
    List.filter_eq_self.mpr fun diagnostic hmem => by
      rw [referenceFindings_eq fun name hname target => kind?_of_reported hname] at hmem
      obtain ⟨entry, -, rfl⟩ := List.mem_map.mp hmem
      exact isOfReference_complaint ..
  rw [(resolve_of_isComplete hcomplete).2]
  refine ((Diagnostic.sort_perm _).filter _).trans ?_
  rw [List.filter_append, hnone, hall, List.nil_append]

theorem isImportOf_congr {reported others : List String}
    (h : ∀ name, name ∈ reported ↔ name ∈ others) (reference : Reference) :
    isImportOf reported reference = isImportOf others reference := by
  rw [isImportOf.eq_def, isImportOf.eq_def]
  split
  · exact Bool.eq_iff_iff.mpr (by simp only [List.contains_iff_mem, h])
  · rfl

/-- What binding leaves without a target names nothing, or nothing of a kind that is accepted. -/
theorem unresolved_iff {env : Environment} {id : ReferenceId} {reference : Reference}
    (hmem : (id, reference) ∈ env.bind.references) :
    reference.state = .unresolved ↔ ∀ target, env.bind.named? id reference = some target →
      (env.bind.kind? target).any reference.expected.accepts = false := by
  rw [references_bind] at hmem
  obtain ⟨⟨found, before⟩, -, heq⟩ := List.mem_map.mp hmem
  obtain ⟨rfl, rfl⟩ := Prod.mk.inj heq
  have hnamed : env.bind.named? found (env.settled found before) = env.named? found before :=
    named?_bind env found before
  have hsettled : (env.settled found before).state =
      (env.lookupReference found before).binding := rfl
  rw [hnamed, hsettled, lookupReference, funext (kind?_bind env)]
  cases env.named? found before with
  | none => simp [Lookup.binding]
  | some target =>
    change _ ↔ ∀ other, some target = some other →
      (env.kind? other).any before.expected.accepts = false
    cases haccepts : (env.kind? target).any before.expected.accepts <;>
      simp [Lookup.binding, haccepts]

/-- A complete run reports the references that it leaves without a target, each once, but for the
imports whose models it says are not to be had. A reference is without a target when what its path
names, if anything, is of a kind that the reference does not accept; that it names something is told
by the code. -/
theorem resolve_reports_unresolved (env : Environment) (access : RepositoryAccess)
    (filter : Option String) (hcomplete : (env.resolve access filter).isComplete = true) :
    let run := env.resolve access filter
    let refused := Closure.refusals run.diagnostics
    (run.diagnostics.filter fun d => d.finding.isOfReference).Perm
        ((run.env.references.filter fun entry =>
            entry.2.state == .unresolved && !isImportOf refused entry.2).map
          fun entry => run.env.complaint entry.1 entry.2) ∧
      ∀ id reference, (id, reference) ∈ run.env.references →
        (reference.state = .unresolved ↔ ∀ target, run.env.named? id reference = some target →
          (run.env.kind? target).any reference.expected.accepts = false) ∧
        (reference.state = .unresolved →
          ((run.env.complaint id reference).finding.code = some "E0002" ↔
            ∃ target, run.env.named? id reference = some target ∧
              (run.env.kind? target).any reference.expected.accepts = false)) := by
  intro run refused
  have henv : run.env = (Closure.run access (env.queryFilter filter) env).env.bind :=
    congrArg Resolution.env (resolve_of_isComplete hcomplete).2
  refine ⟨?_, fun id reference hmem => ?_⟩
  · refine (filter_isOfReference_resolve hcomplete).trans ?_
    rw [referenceFindings_eq fun name hname target => kind?_of_reported hname, ← henv]
    refine .of_eq (congrArg (List.map _) (List.filter_congr fun entry _ => ?_))
    rw [isDue, isImportOf_congr fun name => (mem_refusals_resolve hcomplete).symm]
  · have hstate := unresolved_iff (henv ▸ hmem)
    rw [← henv] at hstate
    refine ⟨hstate, fun hunresolved => ?_⟩
    have hrefuses := hstate.mp hunresolved
    rw [code_complaint]
    cases hnamed : run.env.named? id reference with
    | none => simp
    | some target => simp [hrefuses target hnamed]

/-- A model that imports one that is not to be had, names a class of it, and takes a topic for a
class. -/
def strayText : String :=
  "MODEL U = IMPORTS A; CLASS D EXTENDS A.C = END D; TOPIC T = END T; " ++
    "CLASS E EXTENDS T = END E; END U."

def straying : Environment :=
  append (append ⟨some "2.4", #[], .empty⟩ (.ofText "MODEL INTERLIS = END INTERLIS." none))
    (.ofText strayText (some "u.ili"))

def emptyAccess : RepositoryAccess :=
  ⟨⟨[]⟩, [], none⟩

theorem calledOff_emptyAccess : emptyAccess.calledOff = none :=
  rfl

theorem run_straying :
    Closure.run emptyAccess (some "ili2_4") straying =
      Closure.step emptyAccess (some "ili2_4") (.start straying)
        ("A", ⟨some "u.ili", ⟨⟨0, 18⟩, ⟨0, 19⟩⟩⟩) := by
  have hpending : (Closure.start straying).pending =
      [("A", ⟨some "u.ili", ⟨⟨0, 18⟩, ⟨0, 19⟩⟩⟩)] := by
    have hmissing : ((Closure.start straying).env.missingImports.entries.filter fun entry =>
        !(Closure.start straying).handled.contains entry.1) =
          [("A", ⟨some "u.ili", ⟨⟨0, 18⟩, ⟨0, 19⟩⟩⟩)] := by
      decide +kernel
    rw [Closure.pending, hmissing]
    exact List.mergeSort_of_pairwise (by decide)
  change Closure.rounds emptyAccess (some "ili2_4") 1 (.start straying) = _
  rw [Closure.rounds, hpending, if_neg (by decide), Closure.rounds, List.foldl_cons, List.foldl_nil]

/-- The class that is not there and the topic are reported, the import only as not to be had. -/
theorem resolve_reports_unresolved_straying :
    (straying.resolve emptyAccess none).isComplete = true ∧
      ((straying.resolve emptyAccess none).diagnostics.filter
          fun d => d.finding.isOfReference).Perm
        [⟨some "u.ili", ⟨⟨0, 37⟩, ⟨0, 40⟩⟩, .unresolvedReference "A.C"⟩,
          ⟨some "u.ili", ⟨⟨0, 83⟩, ⟨0, 84⟩⟩, .wrongKind "T" "a class" "topic"⟩] := by
  have hfilter : straying.queryFilter none = some "ili2_4" := by decide +kernel
  have hcomplete := isComplete_resolve calledOff_emptyAccess straying none
  refine ⟨hcomplete, (resolve_reports_unresolved straying emptyAccess none hcomplete).1.trans ?_⟩
  rw [List.filter_congr fun entry _ => congrArg (_ && !·)
    (isImportOf_congr (fun name => mem_refusals_resolve hcomplete) entry.2)]
  rw [(resolve_of_isComplete hcomplete).2, hfilter, run_straying]
  refine .of_eq ?_
  decide +kernel

end Environment

end Ili
