import Ili.Proofs.Catalog.ModelNames
import Ili.Proofs.Environment.Cancellation
import Ili.Proofs.Token.Endings

/-!
# Models from a directory

A file of a directory is read once for its entries and again when it is fetched. Both readings find
the same models and the same version, so a file that is fetched for a name brings a model of this
name, and it is turned down only if it has no version of its own: such a file is entered under the
assumed version and fits no environment that has one.
-/

namespace Ili

/-! ### Versions and their tags -/

theorem isNumberChar_of_schemaVersion? {text version : String}
    (h : (Site.root (parse text).tree).schemaVersion? = some version) :
    ∀ c ∈ version.toList, Lexer.isNumberChar c = true := by
  obtain ⟨header, hheader, hversion⟩ := Option.bind_eq_some_iff.mp h
  obtain ⟨decimal, hdecimal, rfl⟩ := Option.map_eq_some_iff.mp hversion
  have hkind : decimal.kind = .decimal := by
    have hfound := List.find?_some hdecimal
    exact beq_iff_eq.mp hfound
  have hchild : header.tree ∈ (parse text).tree.children :=
    Site.tree_mem_of_mem_sitesOf (List.mem_of_find?_eq_some hheader)
  have hgrandchild : decimal.tree ∈ header.tree.children :=
    Site.tree_mem_of_mem_sitesOf (List.mem_of_find?_eq_some hdecimal)
  have hregular := (((neat_parse text).child hchild).child hgrandchild).regular
  have htokens : decimal.tree.tokens ⊆ (parse text).tree.tokens :=
    List.Subset.trans (Tree.tokens_subset_of_mem_children hgrandchild)
      (Tree.tokens_subset_of_mem_children hchild)
  obtain ⟨tree, start, before⟩ := decimal
  cases tree with
  | node kind children =>
    have hnode := hregular.1
    rw [show kind = .decimal from hkind] at hnode
    cases hnode
  | token t =>
    obtain ⟨inText, hmem, hstands⟩ := exists_standsFor (htokens (List.mem_singleton.mpr rfl))
    obtain ⟨rest, hheads⟩ := (tiled_tokenize text).heads_of_mem hmem
    rcases hstands with rfl | ⟨rfl, -⟩
    · exact hheads.isNumberChar hkind
    · cases hkind

/-- No version stands in the header of a file. -/
def Site.LacksVersion (file : Site) : Prop :=
  ∀ header, file.child? .header = some header → header.has .decimal = false

theorem Site.lacksVersion_of_schemaVersion? {file : Site} (h : file.schemaVersion? = none) :
    file.LacksVersion := by
  intro header hheader
  rw [schemaVersion?, hheader, Option.bind_some, Option.map_eq_none_iff] at h
  rw [has, List.any_eq_false]
  exact List.find?_eq_none.mp h

theorem schemaLanguage_injective {version other : String} (h : '_' ∉ version.toList)
    (hother : '_' ∉ other.toList) (heq : schemaLanguage version = schemaLanguage other) :
    version = other := by
  -- The tag can be read back.
  have hread {word : String} (hword : '_' ∉ word.toList) :
      (word.toList.map fun c => if c = '.' then '_' else c).map
        (fun c => if c = '_' then '.' else c) = word.toList := by
    rw [List.map_map]
    refine (List.map_congr_left fun c hc => ?_).trans (List.map_id _)
    have hne : c ≠ '_' := fun h => hword (h ▸ hc)
    by_cases hdot : c = '.' <;> simp [hdot, hne]
  have htags : (version.toList.map fun c => if c = '.' then '_' else c) =
      other.toList.map fun c => if c = '.' then '_' else c := by
    rw [schemaLanguage, schemaLanguage, String.append_right_inj] at heq
    exact String.ofList_injective heq
  rw [← String.toList_inj, ← hread h, htags, hread hother]

namespace Repository

/-- Every entry says what is read off its text. -/
def ReadOff (repository : Repository) : Prop :=
  ∀ entry ∈ repository.models,
    let file := Site.root (parse entry.content).tree
    entry.name ∈ file.modelNames ∧
      entry.schemaLanguage = Ili.schemaLanguage (file.schemaVersion?.getD assumedVersion)

theorem readOff_scan {tree : FileTree} {root : String} {repository : Repository}
    (h : scan tree root = .ok repository) : repository.ReadOff := by
  intro entry hentry
  rw [scan] at h
  cases hfiles : tree.filesBelow root with
  | error => rw [hfiles] at h; cases h
  | ok files =>
    rw [hfiles] at h
    obtain rfl := Except.ok.inj h
    obtain ⟨⟨path, content⟩, -, hentry⟩ := List.mem_flatMap.mp hentry
    dsimp only at hentry
    split at hentry
    · cases htext : String.fromUTF8? content with
      | none => rw [htext] at hentry; cases hentry
      | some text =>
        rw [htext] at hentry
        obtain ⟨name, hname, rfl⟩ := List.mem_map.mp hentry
        exact ⟨hname, rfl⟩
    · cases hentry

variable {repository : Repository} {name : String} {filter : Option String}

theorem ReadOff.modelNames (h : repository.ReadOff) {entry : RepositoryModel}
    (hentry : entry ∈ repository.search name filter) (uri : Option String) :
    name ∈ (Catalog.ofText entry.content uri).modelNames := by
  obtain ⟨hmem, hmatches⟩ := List.mem_filter.mp hentry
  rw [Bool.and_eq_true, beq_iff_eq] at hmatches
  rw [Catalog.modelNames_ofText, ← hmatches.1]
  exact (h entry hmem).1

theorem ReadOff.schemaVersion? (h : repository.ReadOff) {entry : RepositoryModel}
    {version : String} (hversion : '_' ∉ version.toList)
    (hentry : entry ∈ repository.search name (some (schemaLanguage version))) :
    (Site.root (parse entry.content).tree).schemaVersion? = some version ∨
      (Site.root (parse entry.content).tree).schemaVersion? = none := by
  obtain ⟨hmem, hmatches⟩ := List.mem_filter.mp hentry
  have hlanguage : entry.schemaLanguage = schemaLanguage version := by
    simpa using (Bool.and_eq_true _ _).mp hmatches |>.2
  cases hfound : (Site.root (parse entry.content).tree).schemaVersion? with
  | none => exact .inr rfl
  | some found =>
    have hentered := (h entry hmem).2
    rw [hfound, Option.getD_some, hlanguage] at hentered
    have hplain : '_' ∉ found.toList := fun hmem =>
      nomatch isNumberChar_of_schemaVersion? hfound '_' hmem
    rw [schemaLanguage_injective hversion hplain hentered]
    exact .inl rfl

end Repository

namespace Environment

variable {env : Environment}

theorem Session.exists_schemaVersion? (h : env.Session) {version : String}
    (hversion : env.version = some version) :
    ∃ text, (Site.root (parse text).tree).schemaVersion? = some version := by
  induction h with
  | initial => cases hversion
  | @add env _ text uri ih =>
    rw [Environment.add] at hversion
    split at hversion
    · rw [(extends_merge _ _).version] at hversion
      exact ⟨text, hversion⟩
    · rw [(extends_merge _ _).version] at hversion
      exact ih hversion
  | @resolve env _ access filter ih =>
    have hclosed := (extends_run access (env.queryFilter filter) env).version
    rcases env_resolve env access filter with heq | heq
    · rw [heq, hclosed] at hversion
      exact ih hversion
    · rw [heq] at hversion
      exact ih (hclosed ▸ hversion)

theorem refused?_eq_some_iff {finding : Finding} {name : String} :
    finding.refused? = some name ↔ finding = .modelNotFound name ∨
      ∃ found wanted, finding = .versionMismatch name found wanted := by
  cases finding <;> simp [Finding.refused?]

/-- With a repository that says what is read off its texts, a name that was asked for is known in
the end or reported. -/
theorem known_or_refused {repository : Repository} (h : repository.ReadOff)
    {calledOff : Option Nat} {filter : Option String}
    (hcomplete : (env.resolve ⟨repository, [], calledOff⟩ filter).isComplete = true)
    {name : String}
    (hname : name ∈ (env.resolve ⟨repository, [], calledOff⟩ filter).queries.map Prod.fst) :
    (env.resolve ⟨repository, [], calledOff⟩ filter).env.knowsModel name = true ∨
      name ∈ Closure.refusals (env.resolve ⟨repository, [], calledOff⟩ filter).diagnostics := by
  set access : RepositoryAccess := ⟨repository, [], calledOff⟩
  have hclosure := Closure.consistent_run access (env.queryFilter filter) env
  rw [mem_refusals_resolve hcomplete, hclosure.reported_eq, List.mem_filter]
  rw [(resolve_of_isComplete hcomplete).2] at hname ⊢
  set closure := Closure.run access (env.queryFilter filter) env
  have hasked : name ∈ closure.asked := hname
  cases htaken : access.taken? (env.queryFilter filter) env.version name with
  | none => exact .inr ⟨hasked, rfl⟩
  | some catalog =>
    left
    obtain ⟨chosen, hchosen, rfl⟩ :=
      Option.map_eq_some_iff.mp (Option.filter_eq_some_iff.mp htaken).1
    have hdeclared := h.modelNames (List.mem_of_head? hchosen) (some chosen.uri)
    rw [knowsModel_bind, hclosure.env_eq, knowsModel_foldl_answered]
    exact .inr ⟨name, hasked, _, htaken, hdeclared⟩

/-- A file is turned down for its version only if it has none. -/
theorem Session.lacksVersion_of_versionMismatch (h : env.Session) {version : String}
    (hversion : env.version = some version) {repository : Repository} (hread : repository.ReadOff)
    {calledOff : Option Nat}
    (hcomplete : (env.resolve ⟨repository, [], calledOff⟩ none).isComplete = true)
    {diagnostic : Diagnostic}
    (hmem : diagnostic ∈ (env.resolve ⟨repository, [], calledOff⟩ none).diagnostics)
    {name : String} {found wanted : Option String}
    (hfinding : diagnostic.finding = .versionMismatch name found wanted) :
    ∃ chosen others, repository.search name (some (schemaLanguage version)) = chosen :: others ∧
      (Site.root (parse chosen.content).tree).LacksVersion := by
  set access : RepositoryAccess := ⟨repository, [], calledOff⟩
  have hclosing := (closesUnder_run env access none).1.closing
  rw [(resolve_of_isComplete hcomplete).2] at hmem
  rcases List.mem_append.mp ((Diagnostic.sort_perm _).mem_iff.mp hmem) with hmem | hmem
  · obtain ⟨asked, hfault⟩ := hclosing.faults diagnostic hmem
    have hfilter : env.queryFilter none = some (schemaLanguage version) := by
      rw [queryFilter, hversion]
      rfl
    rw [hfinding, hversion, hfilter] at hfault
    change Closure.Fault _ _ (repository.search asked (some (schemaLanguage version))) _ at hfault
    generalize hcandidates :
      repository.search asked (some (schemaLanguage version)) = candidates at hfault
    cases hfault with
    | @mismatch chosen others catalog hcatalog hother =>
      refine ⟨chosen, others, hcandidates, Site.lacksVersion_of_schemaVersion? ?_⟩
      obtain ⟨text, htext⟩ := h.exists_schemaVersion? hversion
      have hplain : '_' ∉ version.toList := fun hmem =>
        nomatch isNumberChar_of_schemaVersion? htext '_' hmem
      have hchosen := hread.schemaVersion? hplain (hcandidates ▸ List.mem_cons_self)
      exact hchosen.resolve_left fun hsame => hother (hcatalog ▸ hsame)
  · -- What is said of references is about no file that has been offered.
    have hnone := refused?_of_mem_referenceFindings hmem
    rw [hfinding] at hnone
    cases hnone

/-- In a run with the models of a directory, a file that is offered for a name declares this model
when it is built, and a name that was asked for is known in the end or reported as not found or as
written for another version. The latter happens only where the file that was chosen has no version
in its header. -/
theorem Session.resolve_scanned (h : env.Session) {version : String}
    (hversion : env.version = some version) {tree : FileTree} {root : String}
    {repository : Repository} (hscan : Repository.scan tree root = .ok repository)
    (calledOff : Option Nat)
    (hcomplete : (env.resolve ⟨repository, [], calledOff⟩ none).isComplete = true) :
    let run := env.resolve ⟨repository, [], calledOff⟩ none
    (∀ name filter, ∀ candidate ∈ repository.search name filter,
      name ∈ (Catalog.ofText candidate.content (some candidate.uri)).modelNames) ∧
    (∀ name filter, (name, filter) ∈ run.queries → run.env.knowsModel name = true ∨
      ∃ diagnostic ∈ run.diagnostics, diagnostic.finding = .modelNotFound name ∨
        ∃ found wanted, diagnostic.finding = .versionMismatch name found wanted) ∧
    ∀ diagnostic ∈ run.diagnostics, ∀ name found wanted,
      diagnostic.finding = .versionMismatch name found wanted →
        ∃ chosen others,
          repository.search name (some (schemaLanguage version)) = chosen :: others ∧
            (Site.root (parse chosen.content).tree).LacksVersion := by
  intro run
  have hread := Repository.readOff_scan hscan
  refine ⟨fun name filter candidate hcandidate => hread.modelNames hcandidate _,
    fun name filter hquery => ?_, fun diagnostic hmem name found wanted hfinding => ?_⟩
  · refine (known_or_refused hread hcomplete (List.mem_map_of_mem hquery)).imp_right fun hname => ?_
    obtain ⟨diagnostic, hmem, hrefused⟩ := List.mem_filterMap.mp hname
    exact ⟨diagnostic, hmem, refused?_eq_some_iff.mp hrefused⟩
  · exact h.lacksVersion_of_versionMismatch hversion hread hcomplete hmem hfinding

def importedTree : FileTree :=
  FileTree.empty.addFile "a.ili" "INTERLIS 2.4; MODEL A = END A.".toUTF8

theorem version_importing_initial : (importing .initial).version = some "2.4" := by
  rw [initial_eq_spelledInitial]
  decide +kernel

/-- The imported model is asked for and fetched from the directory. -/
theorem Session.resolve_scanned_importing :
    let run := (importing .initial).resolve importedAccess none
    (importing .initial).Session ∧ run.isComplete = true ∧
      Repository.scan importedTree "a.ili" = .ok importedAccess.repository ∧
      run.queries = [("A", some "ili2_4")] ∧ run.env.knowsModel "A" = true ∧
      ∀ name filter, (name, filter) ∈ run.queries → run.env.knowsModel name = true ∨
        ∃ diagnostic ∈ run.diagnostics, diagnostic.finding = .modelNotFound name ∨
          ∃ found wanted, diagnostic.finding = .versionMismatch name found wanted := by
  -- For any base, so that nothing in the proof computes the predefined catalog.
  suffices hbase : ∀ base : Environment, base.Session → (importing base).version = some "2.4" →
      base.Fetches →
      let run := (importing base).resolve importedAccess none
      (importing base).Session ∧ run.isComplete = true ∧
        Repository.scan importedTree "a.ili" = .ok importedAccess.repository ∧
        run.queries = [("A", some "ili2_4")] ∧ run.env.knowsModel "A" = true ∧
        ∀ name filter, (name, filter) ∈ run.queries → run.env.knowsModel name = true ∨
          ∃ diagnostic ∈ run.diagnostics, diagnostic.finding = .modelNotFound name ∨
            ∃ found wanted, diagnostic.finding = .versionMismatch name found wanted from
    hbase .initial .initial version_importing_initial fetches_initial
  intro base hbase hversion hfetches
  have hsession : (importing base).Session := .add hbase importingText none
  have hscan : Repository.scan importedTree "a.ili" = .ok importedAccess.repository := by
    decide +kernel
  have hcomplete := isComplete_resolve (show importedAccess.calledOff = none from rfl)
    (importing base) none
  obtain ⟨-, hqueries, -⟩ := hsession.resolve_scanned hversion hscan none hcomplete
  obtain ⟨hasked, hfetched⟩ := resolve_importing hfetches
  refine ⟨hsession, hcomplete, hscan, hasked, ?_, hqueries⟩
  rw [hfetched, knowsModel_bind]
  exact knowsModel_fetched hfetches

end Environment

end Ili
