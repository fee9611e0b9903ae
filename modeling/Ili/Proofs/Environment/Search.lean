import Ili.Proofs.Environment.Directory
import Ili.Proofs.Environment.Reports
import Ili.Proofs.FileTree

/-!
# Searching a directory

A search for a name brings the files that declare a model of this name, in the order of the walk. As
a file is entered for each of its models, it is listed as often as it declares the name. So a name
that only one file declares is reported as ambiguous where this file declares it repeatedly.
-/

namespace Ili

namespace Repository

/-- What a search finds of a file: it is a model file that can be read, declares a model of this
name, and passes the filter. -/
def listing? (name : String) (filter : Option String) (path : String) (content : ByteArray) :
    Option RepositoryModel :=
  if isModelFile path then
    (String.fromUTF8? content).bind fun text =>
      let file := Site.root (parse text).tree
      let language := schemaLanguage (file.schemaVersion?.getD assumedVersion)
      if name ∈ file.modelNames ∧ ∀ wanted ∈ filter, language = wanted then
        some ⟨name, language, path, text⟩
      else none
  else none

/-- How often the text of an entry declares the model it was entered for. -/
def timesDeclared (entry : RepositoryModel) : Nat :=
  (Site.root (parse entry.content).tree).modelNames.count entry.name

variable {name : String} {filter : Option String}

theorem uri_of_listing? {path : String} {content : ByteArray} {entry : RepositoryModel}
    (h : listing? name filter path content = some entry) :
    entry.uri = path ∧ 0 < timesDeclared entry := by
  rw [listing?, Option.ite_none_right_eq_some] at h
  obtain ⟨text, -, h⟩ := Option.bind_eq_some_iff.mp h.2
  obtain ⟨⟨hname, -⟩, heq⟩ := Option.ite_none_right_eq_some.mp h
  obtain rfl := Option.some.inj heq
  exact ⟨rfl, List.count_pos_iff.mpr hname⟩

theorem filter_modelsOfFile (path text : String) :
    let file := Site.root (parse text).tree
    let language := schemaLanguage (file.schemaVersion?.getD assumedVersion)
    ((modelsOfFile path text).filter fun model =>
      model.name == name && filter.all fun wanted => model.schemaLanguage == wanted) =
      if ∀ wanted ∈ filter, language = wanted then
        List.replicate (file.modelNames.count name) ⟨name, language, path, text⟩
      else [] := by
  intro file language
  rw [modelsOfFile, List.filter_map]
  split
  · next hfilter =>
    have hnames (declared : String) : ((fun model : RepositoryModel => model.name == name &&
        filter.all fun wanted => model.schemaLanguage == wanted) ∘ fun name =>
          (⟨name, language, path, text⟩ : RepositoryModel)) declared = (declared == name) := by
      have hall : (filter.all fun wanted => language == wanted) = true := by
        simpa [Option.all_eq_true] using hfilter
      simp [hall]
    rw [List.filter_congr fun declared _ => hnames declared, List.filter_beq, List.map_replicate]
  · next hfilter =>
    have hnone : (filter.all fun wanted => language == wanted) = false := by
      rw [Bool.eq_false_iff]
      exact fun hall => hfilter (by simpa [Option.all_eq_true] using hall)
    rw [List.filter_eq_nil_iff.mpr, List.map_nil]
    intro declared _
    change ¬(declared == name && filter.all fun wanted => language == wanted) = true
    rw [hnone, Bool.and_false]
    exact Bool.false_ne_true

theorem filter_entries (path : String) (content : ByteArray) :
    ((if isModelFile path then ((String.fromUTF8? content).map (modelsOfFile path)).getD []
      else []).filter fun model =>
        model.name == name && filter.all fun wanted => model.schemaLanguage == wanted) =
      (listing? name filter path content).toList.flatMap fun entry =>
        List.replicate (timesDeclared entry) entry := by
  rw [listing?]
  split
  · cases String.fromUTF8? content with
    | none => rfl
    | some text =>
      rw [Option.map_some, Option.getD_some, filter_modelsOfFile, Option.bind_some]
      set file := Site.root (parse text).tree
      by_cases hname : name ∈ file.modelNames
      · by_cases hfilter : ∀ wanted ∈ filter,
            schemaLanguage (file.schemaVersion?.getD assumedVersion) = wanted
        · rw [if_pos hfilter, if_pos ⟨hname, hfilter⟩, Option.toList_some, List.flatMap_singleton]
          rfl
        · rw [if_neg hfilter, if_neg (fun h => hfilter h.2)]
          rfl
      · rw [List.count_eq_zero.mpr hname, List.replicate_zero, ite_self,
          if_neg (fun h => hname h.1)]
        rfl
  · rfl

/-- A search lists every file that it finds as often as the file declares the name. -/
theorem search_eq_flatMap {tree : FileTree} {root : String} {repository : Repository}
    {files : List (String × ByteArray)} (hfiles : tree.filesBelow root = .ok files)
    (hscan : scan tree root = .ok repository) (name : String) (filter : Option String) :
    repository.search name filter =
      (files.filterMap fun file => listing? name filter file.1 file.2).flatMap fun entry =>
        List.replicate (timesDeclared entry) entry := by
  rw [scan, hfiles] at hscan
  obtain rfl := Except.ok.inj hscan
  rw [search, List.filter_flatMap, List.filterMap_eq_flatMap_toList, List.flatMap_assoc]
  exact List.flatMap_congr fun file _ => filter_entries file.1 file.2

theorem flatMap_replicate_eq_iff {listed : List RepositoryModel} (hnodup : listed.Nodup)
    (hpos : ∀ entry ∈ listed, 0 < timesDeclared entry) :
    (listed.flatMap fun entry => List.replicate (timesDeclared entry) entry) = listed ↔
      ∀ entry ∈ listed, timesDeclared entry = 1 := by
  constructor
  · intro heq
    induction listed with
    | nil => exact List.forall_mem_nil _
    | cons entry rest ih =>
      obtain ⟨hnotMem, hrest⟩ := List.nodup_cons.mp hnodup
      obtain ⟨hentry, hpos⟩ := List.forall_mem_cons.mp hpos
      obtain ⟨more, hmore⟩ := Nat.exists_eq_succ_of_ne_zero (Nat.ne_of_gt hentry)
      rw [List.flatMap_cons, hmore, List.replicate_succ, List.cons_append] at heq
      have hbehind := (List.cons.inj heq).2
      -- Another one of these would stand among those that are left.
      have hzero : more = 0 := by
        refine Nat.eq_zero_of_not_pos fun hmore => hnotMem ?_
        rw [← hbehind]
        exact List.mem_append_left _ (List.mem_replicate.mpr ⟨Nat.ne_of_gt hmore, rfl⟩)
      rw [hzero, List.replicate_zero, List.nil_append] at hbehind
      exact List.forall_mem_cons.mpr ⟨by rw [hmore, hzero], ih hrest hpos hbehind⟩
  · intro honce
    have hsingle : listed.flatMap (fun entry => List.replicate (timesDeclared entry) entry) =
        listed.flatMap fun entry => [entry] :=
      List.flatMap_congr fun entry hentry => by rw [honce entry hentry]; rfl
    rw [hsingle, List.flatMap_singleton']

theorem exists_uri_ne_or_single {listed : List RepositoryModel}
    (huris : (listed.map RepositoryModel.uri).Nodup)
    (hpos : ∀ entry ∈ listed, 0 < timesDeclared entry)
    (hmany : 1 < (listed.flatMap fun entry =>
      List.replicate (timesDeclared entry) entry).length) :
    (∃ uri ∈ (listed.flatMap fun entry =>
        List.replicate (timesDeclared entry) entry).map RepositoryModel.uri,
      ∃ other ∈ (listed.flatMap fun entry =>
        List.replicate (timesDeclared entry) entry).map RepositoryModel.uri, uri ≠ other) ∨
      ∃ entry, listed = [entry] ∧ 1 < timesDeclared entry := by
  have hlisted {entry : RepositoryModel} (hentry : entry ∈ listed) :
      entry.uri ∈ (listed.flatMap fun entry =>
        List.replicate (timesDeclared entry) entry).map RepositoryModel.uri :=
    List.mem_map_of_mem (List.mem_flatMap.mpr
      ⟨entry, hentry, List.mem_replicate.mpr ⟨Nat.ne_of_gt (hpos entry hentry), rfl⟩⟩)
  match listed with
  | [] => cases hmany
  | [entry] =>
    rw [List.flatMap_singleton, List.length_replicate] at hmany
    exact .inr ⟨entry, rfl, hmany⟩
  | first :: second :: rest =>
    have hne : first.uri ≠ second.uri := by
      intro heq
      exact (List.nodup_cons.mp huris).1 (heq ▸ List.mem_cons_self)
    exact .inl ⟨first.uri, hlisted (by simp), second.uri, hlisted (by simp), hne⟩

end Repository

namespace Environment

theorem exists_candidates_of_ambiguousModel {env : Environment} {access : RepositoryAccess}
    {filter : Option String} {diagnostic : Diagnostic} {name : String} {uris : List String}
    (hmem : diagnostic ∈ (env.resolve access filter).diagnostics)
    (hfinding : diagnostic.finding = .ambiguousModel name uris) :
    ∃ candidates, (access.search name (env.queryFilter filter)).toOption.getD [] = candidates ∧
      1 < candidates.length ∧ uris = candidates.map RepositoryModel.uri := by
  set closure := Closure.run access (env.queryFilter filter) env with hclosure
  have hclosing := (closesUnder_run env access filter).1.closing
  have hcases : diagnostic ∈ closure.diagnostics ∨
      diagnostic ∈ closure.env.referenceFindings closure.reported := by
    rw [resolve] at hmem
    split at hmem
    · exact .inl ((Diagnostic.sort_perm _).mem_iff.mp hmem)
    · exact List.mem_append.mp ((Diagnostic.sort_perm _).mem_iff.mp hmem)
  rcases hcases with hmem | hmem
  · obtain ⟨asked, hfault⟩ := hclosing.faults diagnostic hmem
    rw [hfinding] at hfault
    generalize hcandidates :
      (access.search asked (env.queryFilter filter)).toOption.getD [] = candidates at hfault
    cases hfault with
    | @ambiguous chosen others hothers =>
      refine ⟨chosen :: others, hcandidates, ?_, rfl⟩
      exact Nat.succ_lt_succ (List.length_pos_iff.mpr hothers)
  · have hother := isOfImport_of_mem_referenceFindings _ _ diagnostic hmem
    rw [hfinding] at hother
    cases hother

end Environment

namespace Repository

/-- **A search lists each file as often as it declares the name.** It finds the model files of the
walk that can be read, declare the name and pass the filter, each at its own path, and lists them in
the order of the walk. So each is listed once just when none of them declares the name repeatedly;
and what is reported as ambiguous are two different files at least, unless it is a single one that
declares the name repeatedly. -/
theorem search_scan {tree : FileTree} {root : String} {repository : Repository}
    (hscan : scan tree root = .ok repository) :
    ∃ place below, tree.Walk root place below ∧ ∀ name filter,
      let files := below.map fun (names, content) => (names.foldl Path.join root, content)
      let listed := files.filterMap fun file => listing? name filter file.1 file.2
      (listed.map RepositoryModel.uri).Nodup ∧ (∀ entry ∈ listed, 0 < timesDeclared entry) ∧
        repository.search name filter =
          (listed.flatMap fun entry => List.replicate (timesDeclared entry) entry) ∧
        (repository.search name filter = listed ↔ ∀ entry ∈ listed, timesDeclared entry = 1) ∧
        ∀ (env : Environment) wanted calledOff, env.queryFilter wanted = filter →
          ∀ diagnostic ∈ (env.resolve ⟨repository, [], calledOff⟩ wanted).diagnostics, ∀ uris,
            diagnostic.finding = .ambiguousModel name uris →
              uris = (repository.search name filter).map RepositoryModel.uri ∧
                ((∃ uri ∈ uris, ∃ other ∈ uris, uri ≠ other) ∨
                  ∃ entry, listed = [entry] ∧ 1 < timesDeclared entry) := by
  obtain ⟨files, hfiles⟩ : ∃ files, tree.filesBelow root = .ok files := by
    cases hfiles : tree.filesBelow root with
    | error error =>
      rw [scan, hfiles] at hscan
      cases hscan
    | ok files => exact ⟨files, rfl⟩
  obtain ⟨place, below, hwalk, rfl⟩ := FileTree.exists_walk_of_filesBelow hfiles
  refine ⟨place, below, hwalk, fun name filter => ?_⟩
  intro files listed
  have hsearch := search_eq_flatMap hfiles hscan name filter
  have huris : (listed.map RepositoryModel.uri).Nodup := by
    have hpaths : files.Pairwise fun file next => file.1 ≠ next.1 :=
      List.pairwise_map.mpr (List.pairwise_map.mp hwalk.nodup_paths)
    refine List.pairwise_map.mpr (hpaths.filterMap _ ?_)
    intro file next hne entry hentry other hother
    rwa [(uri_of_listing? hentry).1, (uri_of_listing? hother).1]
  have hpos : ∀ entry ∈ listed, 0 < timesDeclared entry := by
    intro entry hentry
    obtain ⟨file, -, hfile⟩ := List.mem_filterMap.mp hentry
    exact (uri_of_listing? hfile).2
  refine ⟨huris, hpos, hsearch, ?_, ?_⟩
  · rw [hsearch]
    exact flatMap_replicate_eq_iff (List.Nodup.of_map _ huris) hpos
  · rintro env wanted calledOff rfl diagnostic hmem uris hfinding
    obtain ⟨candidates, hcandidates, hmany, rfl⟩ :=
      Environment.exists_candidates_of_ambiguousModel hmem hfinding
    obtain rfl : repository.search name (env.queryFilter wanted) = candidates := hcandidates
    refine ⟨rfl, ?_⟩
    rw [hsearch] at hmany ⊢
    exact exists_uri_ne_or_single huris hpos hmany

def repeatedText : String :=
  "INTERLIS 2.4; MODEL A = END A. MODEL A = END A."

def repeatedTree : FileTree :=
  FileTree.empty.addFile "a.ili" repeatedText.toUTF8

theorem search_scan_repeated :
    ∃ repository, scan repeatedTree "a.ili" = .ok repository ∧
      repository.search "A" none =
        List.replicate 2 ⟨"A", "ili2_4", "a.ili", repeatedText⟩ ∧
      ∃ entry ∈ repository.search "A" none, timesDeclared entry ≠ 1 := by
  have hscan : scan repeatedTree "a.ili" =
      .ok ⟨List.replicate 2 ⟨"A", "ili2_4", "a.ili", repeatedText⟩⟩ := by
    decide +kernel
  refine ⟨_, hscan, rfl, ?_⟩
  obtain ⟨place, below, -, hfound⟩ := search_scan hscan
  obtain ⟨huris, hpos, hsearch, honce, -⟩ := hfound "A" none
  by_contra hnone
  push Not at hnone
  rw [hsearch] at hnone
  have hlisted := honce.mpr fun entry hentry => hnone entry
    (List.mem_flatMap.mpr ⟨entry, hentry,
      List.mem_replicate.mpr ⟨Nat.ne_of_gt (hpos entry hentry), rfl⟩⟩)
  -- Its path would be listed twice among paths that are different.
  rw [← hlisted] at huris
  exact absurd huris (by decide)

end Repository

end Ili
