import Ili.Environment.Navigation
import Ili.Proofs.Catalog.Spans
import Ili.Proofs.Environment.Persistence

/-!
# Where a position leads

In every file of a session no position belongs to the spans of two references, however often they
have been bound. So a position leads to one definition at most, and to which one is known from the
references of the file.
-/

namespace Ili

namespace Environment

/-- The references of every file stand apart. The first file is the predefined one and has no
address. -/
structure Navigable (env : Environment) : Prop where
  first : 0 < env.files.size
  unaddressed : ∀ {catalog : Catalog}, env.file? 0 = some catalog → catalog.uri = none
  apart : ∀ {index : Nat} {catalog : Catalog}, env.file? index = some catalog →
    (catalog.references.toList.map Reference.span).Pairwise Span.Apart

theorem navigable_initial : initial.Navigable where
  first := Nat.one_pos
  unaddressed hfile := by
    obtain rfl : predefinedCatalog = _ := Option.some.inj hfile
    rfl
  apart {index _} hfile := by
    rw [initial, file?_append] at hfile
    split at hfile
    · obtain rfl := Option.some.inj hfile
      exact Catalog.apart_ofText predefinedText none
    · simp [file?] at hfile

theorem Navigable.append {env : Environment} (h : env.Navigable) (text : String)
    (uri : Option String) : (env.append (.ofText text uri)).Navigable where
  first := (Array.size_push ..).symm ▸ Nat.succ_pos _
  unaddressed hfile := by
    rw [file?_append, if_neg (Nat.ne_of_lt h.first)] at hfile
    exact h.unaddressed hfile
  apart {index _} hfile := by
    rw [file?_append] at hfile
    split at hfile
    · obtain rfl := Option.some.inj hfile
      exact Catalog.apart_ofText text uri
    · exact h.apart hfile

theorem Navigable.merge {env : Environment} (h : env.Navigable) (text : String)
    (uri : Option String) : (env.merge (.ofText text uri)).1.Navigable := by
  rw [Environment.merge]
  split
  · exact h
  · exact h.append text uri

theorem Navigable.add {env : Environment} (h : env.Navigable) (text : String)
    (uri : Option String) : (env.add (.ofText text uri)).1.Navigable := by
  rw [Environment.add]
  split
  · have hversion : Navigable { env with version := (Catalog.ofText text uri).schemaVersion } :=
      ⟨h.first, h.unaddressed, h.apart⟩
    exact hversion.merge text uri
  · exact h.merge text uri

theorem Navigable.closed {env : Environment} (h : env.Navigable) (access : RepositoryAccess)
    (filter : Option String) : (Closure.run access filter env).env.Navigable := by
  have hgrows := extends_run access filter env
  obtain ⟨predefined, hpredefined⟩ : ∃ catalog, env.file? 0 = some catalog :=
    ⟨_, Array.getElem?_eq_getElem h.first⟩
  have hfirst := hgrows.file? hpredefined
  refine ⟨(Array.getElem?_eq_some_iff.mp hfirst).1, fun hfile => ?_, fun hfile => ?_⟩
  · obtain rfl := Option.some.inj (hfirst.symm.trans hfile)
    exact h.unaddressed hpredefined
  · rw [(Closure.consistent_run access filter env).env_eq] at hfile
    rcases file?_foldl_answered hfile with hold | ⟨-, text, uri, rfl⟩
    · exact h.apart hold
    · exact Catalog.apart_ofText text uri

theorem span_boundReference (env : Environment) (id : ReferenceId) (reference : Reference) :
    (env.boundReference id reference).span = reference.span := by
  rw [boundReference]
  split <;> rfl

theorem Navigable.bind {env : Environment} (h : env.Navigable) : env.bind.Navigable where
  first := by
    change 0 < (Array.mapIdx _ env.files).size
    rw [Array.size_mapIdx]
    exact h.first
  unaddressed hfile := by
    rw [file?_bind] at hfile
    obtain ⟨before, hbefore, rfl⟩ := Option.map_eq_some_iff.mp hfile
    have huri : before.uri = none := h.unaddressed hbefore
    exact huri
  apart {index _} hfile := by
    rw [file?_bind] at hfile
    obtain ⟨catalog, hcatalog, rfl⟩ := Option.map_eq_some_iff.mp hfile
    have hspans : (catalog.references.mapIdx fun number reference =>
        env.boundReference ⟨index, number⟩ reference).toList.map Reference.span =
          catalog.references.toList.map Reference.span :=
      List.ext_getElem? fun number => by simp [Function.comp_def, span_boundReference]
    rw [hspans]
    exact h.apart hcatalog

theorem Session.navigable {env : Environment} (h : env.Session) : env.Navigable := by
  induction h with
  | initial => exact navigable_initial
  | add _ text uri ih => exact ih.add text uri
  | @resolve env _ access filter ih =>
    have hclosed := ih.closed access (env.queryFilter filter)
    rcases env_resolve env access filter with heq | heq
    · exact heq ▸ hclosed
    · exact heq ▸ hclosed.bind

/-! ### One link at a position -/

/-- References of one file have no position in common. -/
def SeparatedAt (first second : ReferenceId × Reference) : Prop :=
  first.1.file = second.1.file → first.2.span.Apart second.2.span

theorem Navigable.pairwise_referencesOf {env : Environment} (h : env.Navigable) (file : Nat) :
    (env.referencesOf file).Pairwise SeparatedAt := by
  rw [referencesOf]
  cases hfile : env.file? file with
  | none => exact .nil
  | some catalog =>
    have hspans : catalog.references.toList.zipIdx.Pairwise fun first second =>
        first.1.span.Apart second.1.span := by
      have happart := h.apart hfile
      rwa [← List.zipIdx_map_fst 0 catalog.references.toList, List.map_map,
        List.pairwise_map] at happart
    refine List.pairwise_filterMap.mpr (hspans.imp fun {first second} happart => ?_)
    intro entry hentry other hother _
    dsimp only at hentry hother
    split at hentry
    · split at hother
      · cases hentry
        cases hother
        exact happart
      · cases hother
    · cases hentry

theorem Navigable.pairwise_references {env : Environment} (h : env.Navigable) :
    env.references.Pairwise SeparatedAt := by
  have hfiles : ((List.range env.files.size).drop 1).Pairwise fun first second => first < second :=
    List.pairwise_lt_range.sublist (List.drop_sublist 1 _)
  refine List.pairwise_flatMap.mpr
    ⟨fun file _ => h.pairwise_referencesOf file, hfiles.imp fun hlt => ?_⟩
  intro entry hentry other hother hsame
  have hfirst := (mem_referencesOf.mp hentry).1
  have hsecond := (mem_referencesOf.mp hother).1
  omega

theorem link?_eq_some {env : Environment} {reference : Reference} {link : Link} :
    env.link? reference = some link ↔
      ∃ target definition, reference.state = .resolved target ∧
        env.definition? target = some definition ∧
        link = ⟨reference.span, target, env.uri? target, definition.nameSpan,
          env.qualifiedName target⟩ := by
  rw [link?, Reference.target?, Option.bind_eq_some_iff]
  constructor
  · rintro ⟨target, htarget, hlink⟩
    obtain ⟨definition, hfound, rfl⟩ := Option.map_eq_some_iff.mp hlink
    refine ⟨target, definition, ?_, hfound, rfl⟩
    split at htarget
    · next hstate => rw [hstate, Option.some.inj htarget]
    · cases htarget
  · rintro ⟨target, definition, hstate, hfound, rfl⟩
    exact ⟨target, by rw [hstate], by rw [hfound]; rfl⟩

theorem span_of_link? {env : Environment} {reference : Reference} {link : Link}
    (h : env.link? reference = some link) : link.span = reference.span := by
  obtain ⟨target, definition, -, -, rfl⟩ := link?_eq_some.mp h
  rfl

theorem Navigable.ne_zero {env : Environment} (h : env.Navigable) {uri : String} {file : Nat}
    (hfile : env.fileAt? uri = some file) : file ≠ 0 := by
  rintro rfl
  obtain ⟨hlt, haddress, -⟩ := Array.findIdx?_eq_some_iff_getElem.mp hfile
  have hnone : env.files[0].uri = none := h.unaddressed (Array.getElem?_eq_getElem hlt)
  rw [hnone] at haddress
  cases haddress

theorem mem_linksAt {env : Environment} (h : env.Navigable) {uri : String} {file : Nat}
    (hfile : env.fileAt? uri = some file) {position : Position} {link : Link} :
    link ∈ env.linksAt uri position ↔
      ∃ id reference, (id, reference) ∈ env.referencesOf file ∧
        env.link? reference = some link ∧ reference.span.contains position = true ∧
        link.targetUri.isSome = true := by
  have hne := h.ne_zero hfile
  rw [linksAt, linksIn, hfile, List.mem_filter, List.mem_filterMap]
  simp only [List.mem_filter, beq_iff_eq, Bool.and_eq_true]
  constructor
  · rintro ⟨⟨⟨id, reference⟩, ⟨hmem, rfl⟩, hlink⟩, hinside, haddress⟩
    have hlisted := mem_references.mp hmem
    rw [span_of_link? hlink] at hinside
    exact ⟨id, reference, mem_referencesOf.mpr ⟨rfl, hlisted.2⟩, hlink, hinside, haddress⟩
  · rintro ⟨id, reference, hmem, hlink, hinside, haddress⟩
    obtain ⟨rfl, hlisted⟩ := mem_referencesOf.mp hmem
    rw [← span_of_link? hlink] at hinside
    exact ⟨⟨⟨id, reference⟩, ⟨mem_references.mpr ⟨hne, hlisted⟩, rfl⟩, hlink⟩, hinside, haddress⟩

theorem Navigable.pairwise_linksIn {env : Environment} (h : env.Navigable) (uri : String) :
    (env.linksIn uri).Pairwise fun first second => first.span.Apart second.span := by
  rw [linksIn]
  split
  · exact .nil
  · next file _ =>
    refine List.pairwise_filterMap.mpr ?_
    refine (h.pairwise_references.sublist List.filter_sublist).imp_of_mem ?_
    intro first second hfirst hsecond happart link hlink other hother
    have hsame : first.1.file = second.1.file := by
      rw [beq_iff_eq.mp (List.mem_filter.mp hfirst).2, beq_iff_eq.mp (List.mem_filter.mp hsecond).2]
    rw [span_of_link? hlink, span_of_link? hother]
    exact happart hsame

/-- A position belongs to one link at most. -/
theorem Navigable.length_linksAt_le {env : Environment} (h : env.Navigable) (uri : String)
    (position : Position) : (env.linksAt uri position).length ≤ 1 := by
  have happart : (env.linksAt uri position).Pairwise fun first second =>
      first.span.Apart second.span :=
    (h.pairwise_linksIn uri).sublist List.filter_sublist
  have hinside : ∀ link ∈ env.linksAt uri position, link.span.contains position = true :=
    fun link hlink => ((Bool.and_eq_true _ _).mp (List.mem_filter.mp hlink).2).1
  match hlinks : env.linksAt uri position with
  | [] => exact Nat.zero_le 1
  | [link] => exact Nat.le_refl 1
  | first :: second :: rest =>
    rw [hlinks] at happart hinside
    have hfirst := hinside first (.head _)
    have hsecond := hinside second (.tail _ (.head _))
    rw [List.rel_of_pairwise_cons happart (.head _) position hfirst] at hsecond
    cases hsecond

theorem Navigable.eq_of_contains {env : Environment} (h : env.Navigable) {id other : ReferenceId}
    {first second : Reference} (hfirst : env.reference? id = some first)
    (hsecond : env.reference? other = some second) (hsame : id.file = other.file)
    {position : Position} (hin : first.span.contains position = true)
    (hother : second.span.contains position = true) : id = other := by
  obtain ⟨catalog, hfile, hfirst⟩ := Option.bind_eq_some_iff.mp hfirst
  rw [reference?, ← hsame, hfile, Option.bind_some] at hsecond
  have happart := List.pairwise_map.mp (h.apart hfile)
  have hnot {low high : Nat} (hlt : low < high) {a b : Reference}
      (ha : catalog.references[low]? = some a) (hb : catalog.references[high]? = some b)
      (hina : a.span.contains position = true) : b.span.contains position = false := by
    obtain ⟨hlow, rfl⟩ := Array.getElem?_eq_some_iff.mp ha
    obtain ⟨hhigh, rfl⟩ := Array.getElem?_eq_some_iff.mp hb
    exact List.pairwise_iff_getElem.mp happart low high hlow hhigh hlt position hina
  have hindex : id.index = other.index := by
    by_contra hne
    rcases Nat.lt_or_gt_of_ne hne with hlt | hlt
    · rw [hnot hlt hfirst hsecond hin] at hother
      cases hother
    · rw [hnot hlt hsecond hfirst hother] at hin
      cases hin
  obtain ⟨file, index⟩ := id
  obtain ⟨otherFile, otherIndex⟩ := other
  exact congrArg₂ ReferenceId.mk hsame hindex

/-- The reference is written in a reachable definition, its span holds the position, and it is bound
to a definition whose file has an address. -/
structure LeadsFrom (env : Environment) (position : Position) (id : ReferenceId)
    (reference : Reference) : Prop where
  reachable : env.isReachable ⟨id.file, reference.source⟩ = true
  inside : reference.span.contains position = true
  bound : ∃ target, reference.state = .resolved target ∧ (env.uri? target).isSome = true

theorem leadsFrom_of_link? {env : Environment} {file : Nat} {id : ReferenceId}
    {reference : Reference} (hmem : (id, reference) ∈ env.referencesOf file) {link : Link}
    (hlink : env.link? reference = some link) (haddress : link.targetUri.isSome = true)
    {position : Position} (hinside : reference.span.contains position = true) :
    env.LeadsFrom position id reference := by
  obtain ⟨target, definition, hstate, -, rfl⟩ := link?_eq_some.mp hlink
  exact ⟨(mem_referencesOf.mp hmem).2.2, hinside, target, hstate, haddress⟩

theorem Session.exists_link? {env : Environment} (h : env.Session) {access : RepositoryAccess}
    {filter : Option String} (hcomplete : (env.resolve access filter).isComplete = true)
    {id : ReferenceId} {reference : Reference}
    (hmem : (id, reference) ∈ (env.resolve access filter).env.references) {target : DefinitionId}
    (hstate : reference.state = .resolved target) :
    ∃ link, (env.resolve access filter).env.link? reference = some link ∧
      link.targetUri = (env.resolve access filter).env.uri? target := by
  rcases (h.resolve_binds access filter hcomplete).1 id reference hmem with
    hunresolved | ⟨bound, definition, -, hbound, hfound, -⟩
  · rw [hstate] at hunresolved
    cases hunresolved
  · obtain rfl := Binding.resolved.inj (hstate.symm.trans hbound)
    exact ⟨_, link?_eq_some.mpr ⟨target, definition, hstate, hfound, rfl⟩, rfl⟩

/-- **A position leads where its reference is bound to.** After a complete run a position of a file
has one link at most. It is the link of a reference of the file just when that reference leads from
there, and there is none just when no reference does. -/
theorem Session.linksAt_exact {env : Environment} (h : env.Session) (access : RepositoryAccess)
    (filter : Option String) (hcomplete : (env.resolve access filter).isComplete = true)
    {uri : String} {file : Nat}
    (hfile : (env.resolve access filter).env.fileAt? uri = some file) (position : Position) :
    let run := (env.resolve access filter).env
    (run.linksAt uri position).length ≤ 1 ∧
      (∀ id reference, id.file = file → run.reference? id = some reference →
        ((∃ link, run.link? reference = some link ∧ run.linksAt uri position = [link]) ↔
          run.LeadsFrom position id reference)) ∧
      (run.linksAt uri position = [] ↔
        ¬∃ id reference, id.file = file ∧ run.reference? id = some reference ∧
          run.LeadsFrom position id reference) := by
  intro run
  have hnavigable : run.Navigable := (h.resolve access filter).navigable
  have hlength := hnavigable.length_linksAt_le uri position
  have hlinked {id : ReferenceId} {reference : Reference} (hid : id.file = file)
      (hfound : run.reference? id = some reference) (hleads : run.LeadsFrom position id reference) :
      ∃ link, run.link? reference = some link ∧ run.linksAt uri position = [link] := by
    obtain ⟨hreachable, hinside, target, hstate, haddress⟩ := hleads
    have hlisted : (id, reference) ∈ run.references :=
      mem_references.mpr ⟨hid ▸ hnavigable.ne_zero hfile, hfound, hreachable⟩
    obtain ⟨link, hlink, huri⟩ := h.exists_link? hcomplete hlisted hstate
    have hmem : link ∈ run.linksAt uri position :=
      (mem_linksAt hnavigable hfile).mpr ⟨id, reference,
        mem_referencesOf.mpr ⟨hid, hfound, hreachable⟩, hlink, hinside, huri ▸ haddress⟩
    obtain ⟨only, honly⟩ := List.length_eq_one_iff.mp
      (Nat.le_antisymm hlength (List.length_pos_of_mem hmem))
    rw [honly, List.mem_singleton] at hmem
    exact ⟨link, hlink, hmem ▸ honly⟩
  refine ⟨hlength, fun id reference hid hfound => ⟨?_, hlinked hid hfound⟩, ?_, ?_⟩
  · rintro ⟨link, hlink, honly⟩
    obtain ⟨other, found, hmem, hsame, hinside, haddress⟩ :=
      (mem_linksAt hnavigable hfile).mp (honly ▸ List.mem_singleton_self link)
    obtain ⟨hother, hfoundOther, -⟩ := mem_referencesOf.mp hmem
    -- Both spans are that of the link, so there is only one reference.
    have hspan : reference.span.contains position = true := by
      rwa [← span_of_link? hlink, span_of_link? hsame]
    obtain rfl := hnavigable.eq_of_contains hfound hfoundOther (hid.trans hother.symm) hspan hinside
    obtain rfl := Option.some.inj (hfound.symm.trans hfoundOther)
    exact leadsFrom_of_link? hmem hlink haddress hspan
  · rintro hnil ⟨id, reference, hid, hfound, hleads⟩
    obtain ⟨link, -, honly⟩ := hlinked hid hfound hleads
    rw [hnil] at honly
    cases honly
  · intro hnone
    refine List.eq_nil_iff_forall_not_mem.mpr fun link hlink => hnone ?_
    obtain ⟨id, reference, hmem, hof, hinside, haddress⟩ :=
      (mem_linksAt hnavigable hfile).mp hlink
    obtain ⟨hid, hfound, -⟩ := mem_referencesOf.mp hmem
    exact ⟨id, reference, hid, hfound, leadsFrom_of_link? hmem hof haddress hinside⟩

def inheritingText : String :=
  "INTERLIS 2.4; MODEL U = CLASS C = END C; CLASS D EXTENDS C = END D; END U."

def inheriting (base : Environment) : Environment :=
  (base.add (.ofText inheritingText (some "u.ili"))).1

def inheritedReference : Reference :=
  ⟨["C"], ⟨⟨0, 57⟩, ⟨0, 58⟩⟩, 2, .classLike, .resolved ⟨1, 1⟩⟩

def Inherits (base : Environment) : Prop :=
  (inheriting base).missingImports.entries = [] ∧
    (inheriting base).bind.files.toList.map Catalog.uri = [none, some "u.ili"] ∧
    (inheriting base).bind.reference? ⟨1, 0⟩ = some inheritedReference ∧
    (inheriting base).bind.isReachable ⟨1, 2⟩ = true ∧
    ((inheriting base).bind.uri? ⟨1, 1⟩).isSome = true

instance (base : Environment) : Decidable base.Inherits :=
  inferInstanceAs (Decidable (_ ∧ _))

theorem inherits_initial : Inherits initial := by
  rw [initial_eq_spelledInitial]
  decide +kernel

/-- The end of the name still leads to the class. -/
theorem Session.linksAt_exact_inherited :
    let run := ((inheriting .initial).resolve emptyAccess none).env
    run.fileAt? "u.ili" = some 1 ∧
      ∃ link, run.linksAt "u.ili" ⟨0, 58⟩ = [link] ∧ link.target = ⟨1, 1⟩ := by
  -- For any base, so that nothing in the proof computes the predefined catalog.
  suffices hbase : ∀ base : Environment, base.Session → base.Inherits →
      ((inheriting base).resolve emptyAccess none).env.fileAt? "u.ili" = some 1 ∧
        ∃ link, ((inheriting base).resolve emptyAccess none).env.linksAt "u.ili" ⟨0, 58⟩ = [link] ∧
          link.target = ⟨1, 1⟩ from
    hbase .initial .initial inherits_initial
  rintro base hsession ⟨hmissing, huris, hreference, hreachable, haddress⟩
  have hrun := env_resolve_of_nothing_missing calledOff_emptyAccess none hmissing
  have hinheriting : (inheriting base).Session := .add hsession inheritingText (some "u.ili")
  rw [← hrun] at huris hreference hreachable haddress
  have hfile : ((inheriting base).resolve emptyAccess none).env.fileAt? "u.ili" = some 1 := by
    have haddresses : ((inheriting base).resolve emptyAccess none).env.files.map Catalog.uri =
        #[none, some "u.ili"] :=
      Array.toList_inj.mp (Array.toList_map.trans huris)
    have hfind := congrArg (Array.findIdx? (· == some "u.ili")) haddresses
    rw [Array.findIdx?_map] at hfind
    exact hfind.trans (by simp [List.findIdx?_cons])
  refine ⟨hfile, ?_⟩
  obtain ⟨-, hexact, -⟩ := hinheriting.linksAt_exact emptyAccess none
    (isComplete_resolve calledOff_emptyAccess _ none) hfile ⟨0, 58⟩
  obtain ⟨link, hlink, honly⟩ := (hexact ⟨1, 0⟩ inheritedReference rfl hreference).mpr
    ⟨hreachable, by decide, ⟨1, 1⟩, rfl, haddress⟩
  obtain ⟨target, definition, hstate, -, rfl⟩ := link?_eq_some.mp hlink
  exact ⟨_, honly, (Binding.resolved.inj hstate).symm⟩

end Environment

end Ili
