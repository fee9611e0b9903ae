import Ili.Proofs.Catalog.Elements
import Ili.Proofs.Tree.Sites
import Mathlib.Data.List.Flatten
import Mathlib.Data.List.Perm.Subperm

/-!
# The spans of references

Every reference stands for a path, and no path is read twice: what is noted for a node has its paths
from different children. So the spans of references are spans of paths, each at most once, and paths
stand apart.
-/

namespace Ili

open scoped List

section Subperm

variable {α β : Type}

theorem flatMap_subperm {fewer more : List α} (h : fewer <+~ more) (f : α → List β) :
    fewer.flatMap f <+~ more.flatMap f := by
  obtain ⟨middle, hperm, hsublist⟩ := h
  exact (hperm.symm.flatMap_right f).subperm.trans (hsublist.flatMap f).subperm

theorem flatMap_subperm_flatMap {row : List α} {f g : α → List β} (h : ∀ a ∈ row, f a <+~ g a) :
    row.flatMap f <+~ row.flatMap g := by
  induction row with
  | nil => exact List.nil_subperm
  | cons a rest ih =>
    exact (h a List.mem_cons_self).append (ih fun b hb => h b (List.mem_cons_of_mem a hb))

end Subperm

namespace Site

def pathRanges (site : Site) : List (Nat × Nat) :=
  site.tree.pathRanges site.start

def pathRangesAmong (site : Site) (kinds : List Kind) : List (Nat × Nat) :=
  (site.children.filter fun c => kinds.contains c.kind).flatMap pathRanges

theorem pathRanges_of_path {path : Site} (h : path.kind = .path) :
    path.pathRanges = [(path.start, path.stop)] := by
  obtain ⟨tree, start, before⟩ := path
  cases tree with
  | token t => exact if_pos h
  | node kind children => exact if_pos h

theorem flatMap_pathRanges_sitesOf (start : Nat) (before : List Token) (row : List Tree) :
    (sitesOf start before row).flatMap pathRanges = Tree.pathRangesOf start row := by
  induction row generalizing start before with
  | nil => rfl
  | cons tree rest ih => rw [sitesOf, List.flatMap_cons, ih]; rfl

theorem pathRanges_eq {site : Site} (h : site.kind ≠ .path) :
    site.pathRanges = site.children.flatMap pathRanges := by
  obtain ⟨tree, start, before⟩ := site
  cases tree with
  | token t => exact if_neg h
  | node kind children =>
    rw [Site.children, flatMap_pathRanges_sitesOf]
    exact if_neg h

/-- Children picked by different kinds are different children. -/
theorem flatMap_filter_subperm {groups : List (List Kind)} (h : groups.flatten.Nodup)
    (sites : List Site) :
    (groups.flatMap fun kinds => sites.filter fun c => kinds.contains c.kind) <+~ sites := by
  induction groups generalizing sites with
  | nil => exact List.nil_subperm
  | cons kinds groups ih =>
    obtain ⟨-, hgroups, hdisjoint⟩ := List.nodup_append.mp h
    have hothers : (groups.flatMap fun kinds => sites.filter fun c => kinds.contains c.kind) =
        groups.flatMap fun group =>
          (sites.filter fun c => !kinds.contains c.kind).filter fun c => group.contains c.kind := by
      refine List.flatMap_congr fun group hgroup => ?_
      rw [List.filter_filter]
      refine List.filter_congr fun c _ => ?_
      cases hkind : group.contains c.kind with
      | false => rfl
      | true =>
        have hnot : c.kind ∉ kinds := fun hmem => hdisjoint c.kind hmem c.kind
          (List.mem_flatten_of_mem hgroup (List.contains_iff_mem.mp hkind)) rfl
        simp [hnot]
    rw [List.flatMap_cons, hothers]
    exact ((List.subperm_append_left _).mpr (ih hgroups _)).trans
      (List.filter_append_perm _ sites).subperm

theorem pathRangesAmong_subperm {site : Site} (hsite : site.kind ≠ .path)
    {groups : List (List Kind)} (h : groups.flatten.Nodup) :
    groups.flatMap site.pathRangesAmong <+~ site.pathRanges := by
  have hpaths := flatMap_subperm (flatMap_filter_subperm h site.children) pathRanges
  rwa [List.flatMap_assoc, ← pathRanges_eq hsite] at hpaths

theorem flatMap_childrenOf (site : Site) (kind : Kind) :
    (site.childrenOf kind).flatMap pathRanges = site.pathRangesAmong [kind] := by
  have hkind : (fun c : Site => c.kind == kind) = fun c => [kind].contains c.kind := by
    funext c
    rw [List.contains_cons, List.contains_nil, Bool.or_false]
  rw [childrenOf, pathRangesAmong, hkind]

theorem find?_subperm_filter (p : Site → Bool) (sites : List Site) :
    (sites.find? p).toList <+~ sites.filter p := by
  rw [← List.head?_filter]
  cases sites.filter p with
  | nil => exact List.nil_subperm
  | cons first rest => exact (List.Sublist.cons_cons first (List.nil_sublist rest)).subperm

theorem child?_subperm (site : Site) (kind : Kind) :
    (site.child? kind).toList.flatMap pathRanges <+~ site.pathRangesAmong [kind] := by
  rw [← flatMap_childrenOf]
  exact flatMap_subperm (find?_subperm_filter _ _) pathRanges

theorem path?_subperm {site : Site} (h : site.kind ≠ .path) :
    (site.child? .path).toList.flatMap pathRanges <+~ site.pathRanges := by
  have hamong : [[Kind.path]].flatMap site.pathRangesAmong <+~ site.pathRanges :=
    pathRangesAmong_subperm h (by decide)
  rw [List.flatMap_singleton] at hamong
  exact (child?_subperm site .path).trans hamong

theorem clausePath?_subperm (site : Site) {kind : Kind} (hkind : kind ≠ .path) :
    ((site.child? kind).bind fun clause => clause.child? .path).toList.flatMap pathRanges <+~
      site.pathRangesAmong [kind] := by
  refine List.Subperm.trans ?_ (child?_subperm site kind)
  cases hclause : site.child? kind with
  | none => exact List.nil_subperm
  | some clause =>
    have hpath := path?_subperm (kind_of_child? hclause ▸ hkind : clause.kind ≠ .path)
    simpa using hpath

end Site

namespace Drafting

variable {α β : Type} {file : FileContext} {ranges fewer first second : List (Nat × Nat)}

/-- The references that the step notes have spans among these ranges, each range used once. -/
def Spends (file : FileContext) (ranges : List (Nat × Nat)) (step : Drafting α) : Prop :=
  ∀ draft : Draft, ∃ noted : List Reference,
    (step draft).2.references.toList = draft.references.toList ++ noted ∧
    noted.map Reference.span <+~ ranges.map fun range => file.index.span range.1 range.2

theorem Spends.weaken {step : Drafting α} (h : Spends file fewer step) (hfewer : fewer <+~ ranges) :
    Spends file ranges step := by
  intro draft
  obtain ⟨noted, hnoted, hspans⟩ := h draft
  refine ⟨noted, hnoted, hspans.trans ?_⟩
  rw [List.map_eq_flatMap, List.map_eq_flatMap]
  exact flatMap_subperm hfewer _

theorem Spends.last {step : Drafting α} (h : Spends file ranges step) :
    Spends file (ranges ++ []) step := by
  rwa [List.append_nil]

theorem spends_of_references_eq {step : Drafting α}
    (h : ∀ draft : Draft, (step draft).2.references = draft.references) : Spends file [] step :=
  fun draft => ⟨[], by rw [h, List.append_nil], List.nil_subperm⟩

theorem spends_pure (a : α) : Spends file [] (pure a) :=
  spends_of_references_eq fun _ => rfl

theorem spends_nextDefinition : Spends file [] nextDefinition :=
  spends_of_references_eq fun _ => rfl

theorem spends_define (heading : Heading) (parent : Option Nat) (data : DefinitionData) :
    Spends file [] (define heading parent data) :=
  spends_of_references_eq fun _ => rfl

theorem spends_addModel (id : Nat) : Spends file [] (addModel id) :=
  spends_of_references_eq fun _ => rfl

theorem spends_bind {step : Drafting α} {f : α → Drafting β} (h : Spends file first step)
    (hf : ∀ a, Spends file second (f a)) : Spends file (first ++ second) (step >>= f) := by
  intro draft
  obtain ⟨noted, hnoted, hspans⟩ := h draft
  obtain ⟨others, hothers, hspansOthers⟩ := hf (step draft).1 (step draft).2
  refine ⟨noted ++ others, ?_, ?_⟩
  · rw [← List.append_assoc, ← hnoted]
    exact hothers
  · rw [List.map_append, List.map_append]
    exact hspans.append hspansOthers

theorem spends_after {step : Drafting α} {f : α → Drafting β} (h : Spends file [] step)
    (hf : ∀ a, Spends file ranges (f a)) : Spends file ranges (step >>= f) :=
  spends_bind h hf

theorem spends_map {step : Drafting α} (f : α → β) (h : Spends file ranges step) :
    Spends file ranges (f <$> step) :=
  h

theorem spends_then {step : Drafting α} {f : α → Drafting β} (h : Spends file ranges step)
    (hf : ∀ a, Spends file [] (f a)) : Spends file ranges (step >>= f) :=
  (spends_bind h hf).weaken (by rw [List.append_nil])

theorem spends_forM {row : List β} {f : β → Drafting Unit} {spent : β → List (Nat × Nat)}
    (hf : ∀ b ∈ row, Spends file (spent b) (f b)) :
    Spends file (row.flatMap spent) (row.forM f) := by
  induction row with
  | nil => exact spends_pure ()
  | cons b rest ih =>
    rw [List.forM_eq_forM] at ih ⊢
    rw [List.forM_cons]
    exact spends_bind (hf b List.mem_cons_self) fun _ =>
      ih fun other hother => hf other (List.mem_cons_of_mem b hother)

theorem spends_mapM {row : List β} {f : β → Drafting α} {spent : β → List (Nat × Nat)}
    (hf : ∀ b ∈ row, Spends file (spent b) (f b)) :
    Spends file (row.flatMap spent) (row.mapM f) := by
  induction row with
  | nil => exact spends_pure []
  | cons b rest ih =>
    rw [List.mapM_cons]
    exact spends_bind (hf b List.mem_cons_self) fun _ =>
      spends_then (ih fun other hother => hf other (List.mem_cons_of_mem b hother))
        fun _ => spends_pure _

theorem spends_foldlM {row : List β} {f : α → β → Drafting α} {spent : β → List (Nat × Nat)}
    (hf : ∀ a, ∀ b ∈ row, Spends file (spent b) (f a b)) (a : α) :
    Spends file (row.flatMap spent) (row.foldlM f a) := by
  induction row generalizing a with
  | nil => exact spends_pure a
  | cons b rest ih =>
    rw [List.foldlM_cons]
    exact spends_bind (hf a b List.mem_cons_self) fun next =>
      ih (fun a other hother => hf a other (List.mem_cons_of_mem b hother)) next

end Drafting

open Drafting

namespace Catalog

variable {file : FileContext} {id owner : Nat} {site : Site}

theorem spends_refer (expected : Expected) {path : Site} (h : path.kind = .path) :
    Spends file path.pathRanges (refer file id expected path) := by
  intro draft
  refine ⟨[⟨path.segments, path.span file, id, expected, .unbound⟩], ?_, ?_⟩
  · simp [refer, addReference]
  · rw [Site.pathRanges_of_path h]
    exact List.Subperm.refl _

theorem spends_referTo? (expected : Expected) {path : Option Site}
    (h : ∀ p ∈ path, p.kind = .path) :
    Spends file (path.toList.flatMap Site.pathRanges) (referTo? file id expected path) := by
  cases path with
  | none => exact spends_pure none
  | some path =>
    rw [Option.toList_some, List.flatMap_singleton]
    exact spends_map some (spends_refer expected (h path rfl))

theorem spends_path? (expected : Expected) (hsite : site.kind ≠ .path) :
    Spends file site.pathRanges (referTo? file id expected (site.child? .path)) :=
  (spends_referTo? expected fun _ hpath => Site.kind_of_child? hpath).weaken
    (Site.path?_subperm hsite)

theorem spends_clausePath? (expected : Expected) {kind : Kind} (hkind : kind ≠ .path) :
    Spends file (site.pathRangesAmong [kind])
      (referTo? file id expected ((site.child? kind).bind fun clause => clause.child? .path)) := by
  refine (spends_referTo? expected fun path hpath => ?_).weaken
    (Site.clausePath?_subperm site hkind)
  obtain ⟨clause, -, hchild⟩ := Option.bind_eq_some_iff.mp hpath
  exact Site.kind_of_child? hchild

theorem spends_paths (expected : Expected) (hsite : site.kind ≠ .path) :
    Spends file site.pathRanges ((site.childrenOf .path).mapM (refer file id expected)) := by
  have hbelow : [[Kind.path]].flatMap site.pathRangesAmong <+~ site.pathRanges :=
    Site.pathRangesAmong_subperm hsite (by decide)
  rw [List.flatMap_singleton, ← Site.flatMap_childrenOf] at hbelow
  exact (spends_mapM fun path hpath =>
    spends_refer expected (Site.kind_of_mem_childrenOf hpath)).weaken hbelow

theorem spends_typeOf (site : Site) : Spends file site.pathRanges (typeOf file id site) := by
  rw [typeOf.eq_def]
  cases hkind : site.kind
  case numericType =>
    exact spends_then (spends_path? .unit (by rw [hkind]; nofun)) fun _ => spends_pure _
  case referenceType =>
    exact spends_then (spends_paths .classLike (by rw [hkind]; nofun)) fun _ => spends_pure _
  case listType =>
    have hpath := Site.path?_subperm (by rw [hkind]; nofun : site.kind ≠ .path)
    cases hchild : site.child? .path with
    | none => exact (spends_pure _).weaken List.nil_subperm
    | some path =>
      rw [hchild, Option.toList_some, List.flatMap_singleton] at hpath
      exact spends_then ((spends_refer .classLike (Site.kind_of_child? hchild)).weaken hpath)
        fun _ => spends_pure _
  case typeRef =>
    have hpath := Site.path?_subperm (by rw [hkind]; nofun : site.kind ≠ .path)
    cases hchild : site.child? .path with
    | none => exact (spends_pure _).weaken List.nil_subperm
    | some path =>
      rw [hchild, Option.toList_some, List.flatMap_singleton] at hpath
      exact spends_then ((spends_refer .type (Site.kind_of_child? hchild)).weaken hpath)
        fun _ => spends_pure _
  all_goals exact (spends_pure _).weaken List.nil_subperm

theorem spends_typeBelow (site : Site) :
    Spends file (site.pathRangesAmong (Kind.all.filter Kind.isType)) (typeBelow file id site) := by
  have htypes : (fun c : Site => c.kind.isType) = fun c =>
      (Kind.all.filter Kind.isType).contains c.kind := by
    funext c
    rw [Bool.eq_iff_iff, List.contains_iff_mem, List.mem_filter]
    exact ⟨fun h => ⟨Kind.mem_all _, h⟩, And.right⟩
  have htype := flatMap_subperm
    (Site.find?_subperm_filter (fun c => c.kind.isType) site.children) Site.pathRanges
  rw [htypes] at htype
  rw [typeBelow, Site.type?, htypes]
  split
  · exact (spends_pure _).weaken List.nil_subperm
  · next type heq =>
    rw [heq, Option.toList_some, List.flatMap_singleton] at htype
    exact (spends_typeOf type).weaken htype

theorem spends_defineElements (enumeration : Site) :
    Spends file [] (defineElements file owner enumeration) := by
  induction enumeration using Site.elements_induction generalizing owner with
  | step enumeration ih =>
    have hnone : (enumeration.childrenOf .enumElement).flatMap (fun _ => []) =
        ([] : List (Nat × Nat)) := List.flatMap_eq_nil_iff.mpr fun _ _ => rfl
    rw [defineElements_eq, ← hnone]
    refine spends_forM fun element helement => ?_
    rw [defineElement]
    cases element.heading? file with
    | none => exact spends_pure ()
    | some heading =>
      refine spends_after spends_nextDefinition fun id =>
        spends_after (Drafting.spends_define _ _ _) fun _ => ?_
      cases hinner : element.child? .enumType with
      | none => exact spends_pure ()
      | some inner => exact ih element helement inner hinner

theorem spends_defineValues (site : Site) : Spends file [] (defineValues file owner site) := by
  rw [defineValues]
  split
  · exact spends_pure ()
  · split
    · exact spends_defineElements _
    · exact spends_pure ()

theorem spends_defineUnit (hsite : site.kind ≠ .path) :
    Spends file site.pathRanges (defineUnit file owner site) := by
  rw [defineUnit.eq_def]
  cases site.heading? file with
  | none => exact (spends_pure ()).weaken List.nil_subperm
  | some heading =>
    have hparts : [[Kind.extendsClause]].flatMap site.pathRangesAmong <+~ site.pathRanges :=
      Site.pathRangesAmong_subperm hsite (by decide)
    refine Spends.weaken ?_ hparts
    exact spends_after spends_nextDefinition fun id =>
      spends_bind (spends_clausePath? .unit (by decide)) fun base =>
        spends_define _ _ _

theorem spends_defineDomain (hsite : site.kind ≠ .path) :
    Spends file site.pathRanges (defineDomain file owner site) := by
  rw [defineDomain.eq_def]
  cases site.heading? file with
  | none => exact (spends_pure ()).weaken List.nil_subperm
  | some heading =>
    have hparts : [[Kind.extendsClause], Kind.all.filter Kind.isType].flatMap
        site.pathRangesAmong <+~ site.pathRanges :=
      Site.pathRangesAmong_subperm hsite (by decide)
    refine Spends.weaken ?_ hparts
    exact spends_after spends_nextDefinition fun id =>
      spends_bind (spends_clausePath? .domain (by decide)) fun base =>
        spends_bind (spends_typeBelow site) fun type =>
          spends_after (spends_define _ _ _) fun _ => spends_defineValues site

theorem spends_defineRole (hsite : site.kind ≠ .path) :
    Spends file site.pathRanges (defineRole file owner site) := by
  rw [defineRole.eq_def]
  cases site.heading? file with
  | none => exact (spends_pure ()).weaken List.nil_subperm
  | some heading =>
    exact spends_after spends_nextDefinition fun id =>
      spends_then (spends_paths .classLike hsite) fun targets => spends_define _ _ _

theorem spends_defineAttribute (hsite : site.kind ≠ .path) :
    Spends file site.pathRanges (defineAttribute file owner site) := by
  rw [defineAttribute.eq_def]
  cases site.heading? file with
  | none => exact (spends_pure ()).weaken List.nil_subperm
  | some heading =>
    have hparts : [Kind.all.filter Kind.isType].flatMap site.pathRangesAmong <+~
        site.pathRanges :=
      Site.pathRangesAmong_subperm hsite (by decide)
    refine Spends.weaken ?_ hparts
    exact spends_after spends_nextDefinition fun id =>
      spends_bind (spends_typeBelow site) fun type =>
        spends_after (spends_define _ _ _) fun _ => spends_defineValues site

theorem spends_childrenOf {kind : Kind} (hkind : kind ≠ .path) {f : Site → Drafting Unit}
    (hf : ∀ child : Site, child.kind ≠ .path → Spends file child.pathRanges (f child)) :
    Spends file (site.pathRangesAmong [kind]) ((site.childrenOf kind).forM f) := by
  rw [← Site.flatMap_childrenOf]
  exact spends_forM fun child hchild => hf child (Site.kind_of_mem_childrenOf hchild ▸ hkind)

theorem spends_defineMembers (site : Site) :
    Spends file ([[Kind.role], [Kind.attributeDef]].flatMap site.pathRangesAmong)
      (defineMembers file owner site) :=
  spends_bind (spends_childrenOf (by decide) fun _ => spends_defineRole) fun _ =>
    (spends_childrenOf (by decide) fun _ => spends_defineAttribute).last

theorem spends_defineClass (hsite : site.kind ≠ .path) :
    Spends file site.pathRanges (defineClass file owner site) := by
  rw [defineClass.eq_def]
  cases site.heading? file with
  | none => exact (spends_pure ()).weaken List.nil_subperm
  | some heading =>
    have hparts : [[Kind.extendsClause], [Kind.oidDecl], [Kind.role], [Kind.attributeDef]].flatMap
        site.pathRangesAmong <+~ site.pathRanges :=
      Site.pathRangesAmong_subperm hsite (by decide)
    refine Spends.weaken ?_ hparts
    exact spends_after spends_nextDefinition fun id =>
      spends_bind (spends_clausePath? .classLike (by decide)) fun base =>
        spends_bind (spends_clausePath? .domain (by decide)) fun oid =>
          spends_after (spends_define _ _ _) fun _ => spends_defineMembers site

theorem spends_defineAssociation (hsite : site.kind ≠ .path) :
    Spends file site.pathRanges (defineAssociation file owner site) := by
  rw [defineAssociation.eq_def]
  cases associationHeading? file site with
  | none => exact (spends_pure ()).weaken List.nil_subperm
  | some heading =>
    have hparts : [[Kind.extendsClause], [Kind.role], [Kind.attributeDef]].flatMap
        site.pathRangesAmong <+~ site.pathRanges :=
      Site.pathRangesAmong_subperm hsite (by decide)
    refine Spends.weaken ?_ hparts
    exact spends_after spends_nextDefinition fun id =>
      spends_bind (spends_clausePath? .association (by decide)) fun base =>
        spends_after (spends_define _ _ _) fun _ => spends_defineMembers site

def sharedMembers : List Kind := [.unitSection, .domainSection, .classDef, .association]

def headMembers : List Kind := [.oidDecl, .dependsOn]

theorem spends_defineMember (member : Site) :
    Spends file (if sharedMembers.contains member.kind then member.pathRanges else [])
      (defineMember file owner member) := by
  have hsection {kind : Kind} (hsite : member.kind ≠ .path) (hkind : kind ≠ .path)
      {f : Site → Drafting Unit}
      (hf : ∀ child : Site, child.kind ≠ .path → Spends file child.pathRanges (f child)) :
      Spends file member.pathRanges ((member.childrenOf kind).forM f) := by
    have hparts : [[kind]].flatMap member.pathRangesAmong <+~ member.pathRanges :=
      Site.pathRangesAmong_subperm hsite (by simp)
    rw [List.flatMap_singleton] at hparts
    exact (spends_childrenOf hkind hf).weaken hparts
  rw [defineMember.eq_def]
  cases hkind : member.kind
  case unitSection =>
    exact hsection (by rw [hkind]; nofun) (by decide) fun _ => spends_defineUnit
  case domainSection =>
    exact hsection (by rw [hkind]; nofun) (by decide) fun _ => spends_defineDomain
  case classDef => exact spends_defineClass (by rw [hkind]; nofun)
  case association => exact spends_defineAssociation (by rw [hkind]; nofun)
  all_goals exact spends_pure ()

theorem spends_readTopicHead (data : TopicData) (member : Site) :
    Spends file (if headMembers.contains member.kind then member.pathRanges else [])
      (readTopicHead file id data member) := by
  rw [readTopicHead.eq_def]
  cases hkind : member.kind
  case oidDecl =>
    exact spends_then (spends_path? .domain (by rw [hkind]; nofun)) fun _ => spends_pure _
  case dependsOn =>
    exact spends_then (spends_paths .topic (by rw [hkind]; nofun)) fun _ => spends_pure _
  all_goals exact spends_pure data

theorem flatMap_members {kinds : List Kind} (h : ∀ kind ∈ kinds, kind.isMember = true)
    (site : Site) :
    (site.members.flatMap fun c => if kinds.contains c.kind then c.pathRanges else []) =
      site.pathRangesAmong kinds := by
  rw [Site.members, Site.pathRangesAmong]
  induction site.children with
  | nil => rfl
  | cons c rest ih =>
    rw [List.filter_cons, List.filter_cons]
    by_cases hkind : kinds.contains c.kind = true
    · have hmember := h c.kind (List.contains_iff_mem.mp hkind)
      rw [if_pos hmember, if_pos hkind, List.flatMap_cons, List.flatMap_cons, ih, if_pos hkind]
    · rw [if_neg hkind, ← ih]
      split
      · rw [List.flatMap_cons, if_neg hkind, List.nil_append]
      · rfl

theorem spends_defineTopic (hsite : site.kind ≠ .path) :
    Spends file site.pathRanges (defineTopic file owner site) := by
  rw [defineTopic.eq_def]
  cases site.heading? file with
  | none => exact (spends_pure ()).weaken List.nil_subperm
  | some heading =>
    have hparts : [[Kind.extendsClause], headMembers, sharedMembers].flatMap
        site.pathRangesAmong <+~ site.pathRanges :=
      Site.pathRangesAmong_subperm hsite (by decide)
    refine Spends.weaken ?_ hparts
    have hhead (id : Nat) (data : TopicData) : Spends file (site.pathRangesAmong headMembers)
        (site.members.foldlM (readTopicHead file id) data) := by
      rw [← flatMap_members (by decide)]
      exact spends_foldlM (fun data member _ => spends_readTopicHead data member) data
    have hbody (id : Nat) : Spends file (site.pathRangesAmong sharedMembers)
        (site.members.forM (defineMember file id)) := by
      rw [← flatMap_members (by decide)]
      exact spends_forM fun member _ => spends_defineMember member
    exact spends_after spends_nextDefinition fun id =>
      spends_bind (spends_clausePath? .topic (by decide)) fun base =>
        spends_bind (hhead id _) fun data =>
          spends_after (spends_define _ _ _) fun _ => (hbody id).last

theorem spends_readImport {item : Site} (h : item.kind ≠ .path) :
    Spends file item.pathRanges (readImport file id item) := by
  have hpath := Site.path?_subperm h
  rw [readImport]
  cases hchild : item.child? .path with
  | none => exact (spends_pure []).weaken List.nil_subperm
  | some path =>
    rw [hchild, Option.toList_some, List.flatMap_singleton] at hpath
    exact spends_then ((spends_refer .model (Site.kind_of_child? hchild)).weaken hpath)
      fun _ => spends_pure _

theorem spends_defineModel (hsite : site.kind ≠ .path) :
    Spends file site.pathRanges (defineModel file site) := by
  rw [defineModel.eq_def]
  cases site.heading? file with
  | none => exact (spends_pure ()).weaken List.nil_subperm
  | some heading =>
    have hparts : [[Kind.translationOf], [Kind.imports], Kind.topic :: sharedMembers].flatMap
        site.pathRangesAmong <+~ site.pathRanges :=
      Site.pathRangesAmong_subperm hsite (by decide)
    refine Spends.weaken ?_ hparts
    have hitems (id : Nat) : Spends file (site.pathRangesAmong [.imports])
        (site.importItems.mapM (readImport file id)) := by
      have hkinds (item : Site) (hitem : item ∈ site.importItems) : item.kind ≠ .path := by
        obtain ⟨statement, -, hitem⟩ := List.mem_flatMap.mp hitem
        rw [Site.kind_of_mem_childrenOf hitem]
        nofun
      refine (spends_mapM fun item hitem => spends_readImport (hkinds item hitem)).weaken ?_
      rw [Site.importItems, List.flatMap_assoc, ← Site.flatMap_childrenOf]
      refine flatMap_subperm_flatMap fun statement hstatement => ?_
      have hstatement := Site.kind_of_mem_childrenOf hstatement
      have hbelow : [[Kind.importItem]].flatMap statement.pathRangesAmong <+~
          statement.pathRanges :=
        Site.pathRangesAmong_subperm (by rw [hstatement]; nofun) (by decide)
      rwa [List.flatMap_singleton, ← Site.flatMap_childrenOf] at hbelow
    have hbody (id : Nat) : Spends file (site.pathRangesAmong (.topic :: sharedMembers))
        (site.members.forM fun member =>
          if member.kind = .topic then defineTopic file id member
          else defineMember file id member) := by
      rw [← flatMap_members (by decide)]
      refine spends_forM fun member _ => ?_
      by_cases htopic : member.kind = .topic
      · rw [if_pos htopic, htopic]
        exact spends_defineTopic (by rw [htopic]; nofun)
      · rw [if_neg htopic, List.contains_cons, beq_eq_false_iff_ne.mpr htopic, Bool.false_or]
        exact spends_defineMember member
    exact spends_after spends_nextDefinition fun id =>
      spends_bind (spends_clausePath? .model (by decide)) fun translationOf =>
        spends_bind (hitems id) fun imports =>
          spends_after (spends_define _ _ _) fun _ =>
            spends_after (spends_addModel id) fun _ => (hbody id).last

end Catalog

def Span.Apart (span other : Span) : Prop :=
  ∀ position, span.contains position = true → other.contains position = false

theorem Span.Apart.symm {span other : Span} (h : span.Apart other) : other.Apart span := by
  intro position hother
  rw [← Bool.not_eq_true]
  intro hspan
  rw [h position hspan] at hother
  cases hother

namespace Catalog

theorem apart_pathRanges (text : String) :
    (((parse text).tree.pathRanges 0).map fun range =>
      (LineIndex.ofText text).span range.1 range.2).Pairwise Span.Apart := by
  refine List.pairwise_map.mpr ((pathRanges_parse text).imp_of_mem fun hrange hnext hlt => ?_)
  exact fun position => LineIndex.not_contains_of_lt (isBoundary_parse hrange).2
    (isBoundary_parse hnext).1 hlt

theorem spends_ofText (text : String) (uri : Option String) :
    (ofText text uri).references.toList.map Reference.span <+~
      ((parse text).tree.pathRanges 0).map fun range =>
        (LineIndex.ofText text).span range.1 range.2 := by
  let root := Site.root (parse text).tree
  let file : FileContext := ⟨.ofText text, uri, root.schemaVersion?⟩
  have hbelow : [[Kind.model]].flatMap root.pathRangesAmong <+~ root.pathRanges :=
    Site.pathRangesAmong_subperm (fun h => by cases h) (by decide)
  rw [List.flatMap_singleton] at hbelow
  have hmodels : Spends file root.pathRanges (root.models.forM (defineModel file)) :=
    (spends_childrenOf (by decide) fun _ => spends_defineModel).weaken hbelow
  obtain ⟨noted, hnoted, hspans⟩ := hmodels .empty
  have hreferences : (ofText text uri).references.toList = noted := hnoted
  rw [hreferences]
  exact hspans

/-- **The references of a text stand apart**: no position belongs to the spans of two of them. -/
theorem apart_ofText (text : String) (uri : Option String) :
    ((ofText text uri).references.toList.map Reference.span).Pairwise Span.Apart := by
  obtain ⟨spans, hperm, hsublist⟩ := spends_ofText text uri
  exact (hperm.pairwise_iff Span.Apart.symm).mp ((apart_pathRanges text).sublist hsublist)

end Catalog

end Ili
