import Ili.FileTree
import Ili.Proofs.Text.Pieces
import Mathlib.Data.List.Nodup
import Mathlib.Data.List.Lex
import Mathlib.Data.String.Basic

/-!
# Walks over a file tree

A walk comes to every file at or below its root, in the order of the names along the paths, and to
none twice. The path it gives a file is the root with these names behind it, from which the names
can be read back, so different files have different paths.
-/

namespace Ili

namespace Path

def opened (path : String) : List Char :=
  if path.isEmpty || path.toList.getLast? == some '/' then path.toList else path.toList ++ ['/']

theorem toList_join (path name : String) :
    (join path name).toList = opened path ++ name.toList := by
  rw [join, opened]
  split
  · rw [String.toList_append]
  · rw [String.toList_append, String.toList_append]
    rfl

theorem IsName.toList_ne_nil {name : String} (h : IsName name) : name.toList ≠ [] := by
  intro hnil
  have hempty : name = "" := String.toList_inj.mp hnil
  have hsilent := h.1
  rw [hempty] at hsilent
  cases hsilent

theorem opened_join {path name : String} (h : IsName name) :
    opened (join path name) = opened path ++ name.toList ++ ['/'] := by
  have hlast : (join path name).toList.getLast? ≠ some '/' := by
    rw [toList_join, List.getLast?_append_of_ne_nil _ h.toList_ne_nil]
    exact fun hlast => h.2.2 (List.mem_of_getLast? hlast)
  have hne : (join path name).isEmpty = false := by
    rw [Bool.eq_false_iff, ne_eq, String.isEmpty_iff, ← String.toList_inj, toList_join]
    simp [h.toList_ne_nil]
  rw [opened, if_neg (by simp [hne, hlast]), toList_join]

theorem toList_foldl_join {names : List String} (hnames : ∀ name ∈ names, IsName name)
    (hne : names ≠ []) (root : String) :
    (names.foldl join root).toList =
      opened root ++ ['/'].intercalate (names.map String.toList) := by
  induction names generalizing root with
  | nil => exact absurd rfl hne
  | cons name rest ih =>
    cases rest with
    | nil => simp [toList_join]
    | cons next others =>
      rw [List.foldl_cons, ih (fun other hother => hnames other (List.mem_cons_of_mem _ hother))
        (List.cons_ne_nil _ _), opened_join (hnames name List.mem_cons_self), List.map_cons,
        List.map_cons, List.map_cons, List.intercalate_cons_cons]
      simp only [List.append_assoc]

theorem length_add_le_foldl_join {names : List String} (hnames : ∀ name ∈ names, IsName name)
    (root : String) :
    root.toList.length + names.length ≤ (names.foldl join root).toList.length := by
  induction names generalizing root with
  | nil => exact Nat.le_refl _
  | cons name rest ih =>
    have hrest := ih (fun other hother => hnames other (List.mem_cons_of_mem _ hother))
      (join root name)
    have hname : 0 < name.toList.length :=
      List.length_pos_iff.mpr (hnames name List.mem_cons_self).toList_ne_nil
    have hopened : root.toList.length ≤ (opened root).length := by
      rw [opened]
      split
      · exact Nat.le_refl _
      · exact (List.sublist_append_left ..).length_le
    rw [toList_join, List.length_append] at hrest
    rw [List.foldl_cons, List.length_cons]
    omega

theorem foldl_join_injective {root : String} {names others : List String}
    (hnames : ∀ name ∈ names, IsName name) (hothers : ∀ name ∈ others, IsName name)
    (h : names.foldl join root = others.foldl join root) : names = others := by
  have hread {names : List String} (hnames : ∀ name ∈ names, IsName name) (hne : names ≠ []) :
      splitWhere (· == '/') (['/'].intercalate (names.map String.toList)) =
        names.map String.toList := by
    refine splitWhere_intercalate (mt List.map_eq_nil_iff.mp hne) (fun piece hpiece c hc => ?_) rfl
    obtain ⟨name, hname, rfl⟩ := List.mem_map.mp hpiece
    refine beq_eq_false_iff_ne.mpr ?_
    rintro rfl
    exact (hnames name hname).2.2 hc
  -- A path without names is shorter than any with some.
  have hempty {names : List String} (hnames : ∀ name ∈ names, IsName name)
      (h : root = names.foldl join root) : names = [] := by
    have hle := length_add_le_foldl_join hnames root
    rw [← h] at hle
    exact List.length_eq_zero_iff.mp (by omega)
  by_cases hnil : names = []
  · subst hnil
    exact (hempty hothers h).symm
  · by_cases hnil' : others = []
    · subst hnil'
      exact hempty hnames h.symm
    · rw [← String.toList_inj, toList_foldl_join hnames hnil, toList_foldl_join hothers hnil'] at h
      have hsame := congrArg (splitWhere (· == '/')) (List.append_cancel_left h)
      rw [hread hnames hnil, hread hothers hnil'] at hsame
      exact List.map_injective_iff.mpr (fun _ _ => String.toList_inj.mp) hsame

end Path

namespace FileTree

/-- What a walk from the root comes to: the files at or below the place that the root leads to, each
by the names that lead there from that place. -/
structure Walk (tree : FileTree) (root : String) (place : List String)
    (below : List (List String × ByteArray)) : Prop where
  locate : tree.locate root = .ok place
  distinct : (below.map Prod.fst).Nodup
  ordered : below.Pairwise fun file next => placeLe file.1 next.1 = true
  mem_iff : ∀ names content, (names, content) ∈ below ↔
    (place ++ names, content) ∈ tree.files ∧ ((tree.fileAt? place).isSome = true → names = [])

variable {tree : FileTree} {root : String}

theorem eq_of_mem_files {place : List String} {content other : ByteArray}
    (h : (place, content) ∈ tree.files) (h' : (place, other) ∈ tree.files) : content = other :=
  (Prod.mk.inj (List.inj_on_of_nodup_map tree.distinct h h' rfl)).2

theorem walk_file {place : List String} {content : ByteArray}
    (hlocate : tree.locate root = .ok place) (hfile : tree.fileAt? place = some content) :
    tree.Walk root place [([], content)] := by
  have hmem : (place, content) ∈ tree.files := by
    obtain ⟨before, behind, hfiles, -⟩ := List.lookup_eq_some_iff.mp hfile
    rw [hfiles]
    exact List.mem_append_right _ List.mem_cons_self
  refine ⟨hlocate, List.nodup_singleton _, List.pairwise_singleton _ _, fun names other => ?_⟩
  rw [hfile, List.mem_singleton]
  constructor
  · rintro heq
    obtain ⟨rfl, rfl⟩ := Prod.mk.inj heq
    exact ⟨by rwa [List.append_nil], fun _ => rfl⟩
  · rintro ⟨hother, hnames⟩
    obtain rfl := hnames rfl
    rw [List.append_nil] at hother
    rw [eq_of_mem_files hmem hother]

theorem placeLe_iff {left right : List String} : placeLe left right = true ↔ left ≤ right := by
  simp [placeLe]

theorem walk_directory {place : List String} (hlocate : tree.locate root = .ok place)
    (hfile : tree.fileAt? place = none) :
    tree.Walk root place
      ((tree.files.filterMap fun (path, content) =>
        if place.isPrefixOf path then some (path.drop place.length, content) else none).mergeSort
          fun a b => placeLe a.1 b.1) := by
  have hlead {file below : List String × ByteArray} :
      (if place.isPrefixOf file.1 then some (file.1.drop place.length, file.2) else none) =
        some below ↔ file = (place ++ below.1, below.2) := by
    obtain ⟨path, content⟩ := file
    obtain ⟨names, other⟩ := below
    rw [Option.ite_none_right_eq_some, Option.some_inj, Prod.mk.injEq, Prod.mk.injEq,
      List.isPrefixOf_iff_prefix]
    constructor
    · rintro ⟨⟨behind, rfl⟩, hdrop, hcontent⟩
      rw [List.drop_left' rfl] at hdrop
      exact ⟨by rw [hdrop], hcontent⟩
    · rintro ⟨rfl, rfl⟩
      exact ⟨List.prefix_append _ _, List.drop_left' rfl, rfl⟩
  have hperm := List.mergeSort_perm
    (tree.files.filterMap fun (path, content) =>
      if place.isPrefixOf path then some (path.drop place.length, content) else none)
    (fun a b => placeLe a.1 b.1)
  refine ⟨hlocate, ?_, ?_, fun names content => ?_⟩
  · rw [(hperm.map Prod.fst).nodup_iff, List.Nodup, List.pairwise_map]
    refine (List.pairwise_map.mp tree.distinct).filterMap _ ?_
    intro file next hne below hbelow other hother heq
    have hfile := hlead.mp hbelow
    have hnext := hlead.mp hother
    rw [hfile, hnext, heq] at hne
    exact hne rfl
  · refine List.pairwise_mergeSort (fun a b c hab hbc => ?_) (fun a b => ?_) _
    · exact placeLe_iff.mpr ((placeLe_iff.mp hab).trans (placeLe_iff.mp hbc))
    · rw [Bool.or_eq_true, placeLe_iff, placeLe_iff]
      exact le_total a.1 b.1
  · rw [hperm.mem_iff, List.mem_filterMap, hfile]
    constructor
    · rintro ⟨file, hmem, hbelow⟩
      exact ⟨hlead.mp hbelow ▸ hmem, nofun⟩
    · rintro ⟨hmem, -⟩
      have hsame : (place ++ names, content) =
          (place ++ (names, content).1, (names, content).2) := rfl
      exact ⟨_, hmem, hlead.mpr hsame⟩

theorem exists_walk_of_filesBelow {files : List (String × ByteArray)}
    (h : tree.filesBelow root = .ok files) :
    ∃ place below, tree.Walk root place below ∧
      files = below.map fun (names, content) => (names.foldl Path.join root, content) := by
  rw [filesBelow] at h
  cases hlocate : tree.locate root with
  | error obstacle =>
    rw [hlocate] at h
    cases h
  | ok place =>
    rw [hlocate] at h
    dsimp only at h
    cases hfile : tree.fileAt? place with
    | some content =>
      rw [hfile] at h
      exact ⟨place, _, walk_file hlocate hfile, (Except.ok.inj h).symm⟩
    | none =>
      rw [hfile] at h
      exact ⟨place, _, walk_directory hlocate hfile, (Except.ok.inj h).symm⟩

theorem Walk.nodup_paths {place : List String} {below : List (List String × ByteArray)}
    (h : tree.Walk root place below) :
    (below.map fun file => file.1.foldl Path.join root).Nodup := by
  have hnames : ∀ file ∈ below, ∀ name ∈ file.1, Path.IsName name := by
    intro file hfile name hname
    exact tree.named _ ((h.mem_iff file.1 file.2).mp hfile).1 name
      (List.mem_append_right place hname)
  rw [List.Nodup, List.pairwise_map]
  refine (List.pairwise_map.mp h.distinct).imp_of_mem fun {file next} hfile hnext hne heq => ?_
  exact hne (Path.foldl_join_injective (hnames file hfile) (hnames next hnext) heq)

end FileTree

end Ili
