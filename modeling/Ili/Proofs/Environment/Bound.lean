import Ili.Proofs.Environment.Initial
import Ili.Proofs.Environment.Session

/-!
# What references are bound to

A complete run binds every reference that is written in a reachable definition, to a definition that
the reference may name and that is reachable itself, or it leaves the reference unresolved. All
other references are as they were before, or as they came with their file.
-/

namespace Ili

namespace Environment

def reference? (env : Environment) (id : ReferenceId) : Option Reference :=
  (env.file? id.file).bind fun file => file.references[id.index]?

theorem mem_referencesOf {env : Environment} {file : Nat} {id : ReferenceId}
    {reference : Reference} :
    (id, reference) ∈ env.referencesOf file ↔
      id.file = file ∧ env.reference? id = some reference ∧
        env.isReachable ⟨id.file, reference.source⟩ = true := by
  rw [referencesOf, reference?]
  obtain ⟨other, index⟩ := id
  constructor
  · cases hfile : env.file? file with
    | none => simp
    | some catalog =>
      intro hmem
      obtain ⟨⟨found, number⟩, hfound, hkept⟩ := List.mem_filterMap.mp hmem
      dsimp only at hkept
      split at hkept
      · next hreachable =>
        cases hkept
        rw [List.mem_zipIdx_iff_getElem?, Array.getElem?_toList] at hfound
        exact ⟨rfl, by rw [hfile]; exact hfound, hreachable⟩
      · cases hkept
  · rintro ⟨rfl, hfound, hreachable⟩
    obtain ⟨catalog, hfile, hreference⟩ := Option.bind_eq_some_iff.mp hfound
    dsimp only at hfile hreachable ⊢
    rw [hfile]
    refine List.mem_filterMap.mpr ⟨(reference, index), ?_, if_pos hreachable⟩
    rwa [List.mem_zipIdx_iff_getElem?, Array.getElem?_toList]

/-- The references that are bound are those outside the predefined file that are written in
reachable definitions. -/
theorem mem_references {env : Environment} {id : ReferenceId} {reference : Reference} :
    (id, reference) ∈ env.references ↔
      id.file ≠ 0 ∧ env.reference? id = some reference ∧
        env.isReachable ⟨id.file, reference.source⟩ = true := by
  have hlisted : id.file ∈ (List.range env.files.size).drop 1 ↔
      id.file ≠ 0 ∧ id.file < env.files.size := by
    rw [List.range_eq_range', List.drop_range', List.mem_range'_1]
    omega
  rw [references, List.mem_flatMap]
  constructor
  · rintro ⟨file, hfile, hmem⟩
    obtain ⟨rfl, hrest⟩ := mem_referencesOf.mp hmem
    exact ⟨(hlisted.mp hfile).1, hrest⟩
  · rintro ⟨hfile, hfound, hreachable⟩
    obtain ⟨catalog, hcatalog, -⟩ := Option.bind_eq_some_iff.mp hfound
    exact ⟨id.file, hlisted.mpr ⟨hfile, (Array.getElem?_eq_some_iff.mp hcatalog).1⟩,
      mem_referencesOf.mpr ⟨rfl, hfound, hreachable⟩⟩

theorem reference?_bind (env : Environment) (id : ReferenceId) :
    env.bind.reference? id = (env.reference? id).map (env.boundReference id) := by
  rw [reference?, reference?, file?_bind]
  cases env.file? id.file with
  | none => rfl
  | some catalog => exact Array.getElem?_mapIdx

/-- A file of a closed environment was there before, or it is fresh. -/
theorem file?_foldl_answered {access : RepositoryAccess} {filter : Option String}
    {env : Environment} {names : List String} {index : Nat} {catalog : Catalog}
    (h : (names.foldl (answered access filter) env).file? index = some catalog) :
    env.file? index = some catalog ∨
      env.file? index = none ∧ ∃ text uri, catalog = .ofText text uri := by
  induction names generalizing env with
  | nil => exact .inl h
  | cons name rest ih =>
    have hgrows := extends_answered access filter env name
    rcases ih h with hfile | ⟨hnone, hfresh⟩
    · cases hold : env.file? index with
      | some before => exact .inl ((hgrows.file? hold).symm.trans hfile)
      | none =>
        refine .inr ⟨rfl, ?_⟩
        rw [answered] at hfile
        split at hfile
        · rw [hold] at hfile
          cases hfile
        · next taken htaken =>
          obtain ⟨text, uri, rfl⟩ := eq_ofText_of_taken? htaken
          rw [Environment.merge] at hfile
          split at hfile
          · rw [hold] at hfile
            cases hfile
          · rw [file?_append] at hfile
            split at hfile
            · exact ⟨text, uri, (Option.some.inj hfile).symm⟩
            · rw [hold] at hfile
              cases hfile
    · refine .inr ⟨?_, hfresh⟩
      cases hold : env.file? index with
      | none => rfl
      | some before => rw [hgrows.file? hold] at hnone; cases hnone

theorem reference?_closed {access : RepositoryAccess} {filter : Option String} {env : Environment}
    {id : ReferenceId} {reference : Reference}
    (h : (Closure.run access filter env).env.reference? id = some reference) :
    env.reference? id = some reference ∨
      env.reference? id = none ∧ reference.state = .unbound := by
  obtain ⟨catalog, hfile, hfound⟩ := Option.bind_eq_some_iff.mp h
  rw [(Closure.consistent_run access filter env).env_eq] at hfile
  rcases file?_foldl_answered hfile with hold | ⟨hnone, text, uri, rfl⟩
  · exact .inl (by rw [reference?, hold]; exact hfound)
  · exact .inr ⟨by rw [reference?, hnone]; rfl,
      Catalog.unbound_ofText text uri reference (Array.mem_of_getElem? hfound)⟩

/-- A look-up yields a definition that the reference may name, or none. -/
theorem Sound.binding_lookupReference {env : Environment} (h : env.Sound) {id : ReferenceId}
    {reference : Reference} (hsource : env.isReachable ⟨id.file, reference.source⟩ = true) :
    (env.lookupReference id reference).binding = .unresolved ∨
      ∃ target definition last,
        (env.lookupReference id reference).binding = .resolved target ∧
          env.definition? target = some definition ∧
          reference.expected.accepts definition.kind = true ∧ env.isReachable target = true ∧
          reference.path.getLast? = some last ∧ last ∈ definition.names := by
  rw [lookupReference]
  cases hnamed : env.named? id reference with
  | none => exact .inl rfl
  | some target =>
    obtain ⟨last, hlast, ⟨definition, hfound, hnames⟩, hreachable⟩ :=
      h.reaches_of_named? hsource hnamed
    dsimp only
    split
    · next haccepts =>
      rw [kind?, hfound] at haccepts
      exact .inr ⟨target, definition, last, rfl, hfound, haccepts, hreachable, hlast, hnames⟩
    · exact .inl rfl

/-- A complete run leaves no reference that it lists unbound. What a reference is bound to exists,
is of the kind that is expected, belongs to the model known under its name and has the last name of
the path. The other references are as they were, or unbound if their file came in the run. -/
theorem Session.resolve_binds {env : Environment} (h : env.Session) (access : RepositoryAccess)
    (filter : Option String) (hcomplete : (env.resolve access filter).isComplete = true) :
    let run := (env.resolve access filter).env
    (∀ id reference, (id, reference) ∈ run.references →
      reference.state = .unresolved ∨
        ∃ target definition last, reference.state = .resolved target ∧
          run.definition? target = some definition ∧
          reference.expected.accepts definition.kind = true ∧ run.isReachable target = true ∧
          reference.path.getLast? = some last ∧ last ∈ definition.names) ∧
    ∀ id reference, run.reference? id = some reference → (id, reference) ∉ run.references →
      env.reference? id = some reference ∨
        env.reference? id = none ∧ reference.state = .unbound := by
  intro run
  set closed := (Closure.run access (env.queryFilter filter) env).env with hclosed
  have hsound : closed.Sound := h.sound.closed access (env.queryFilter filter)
  have hrun : run = closed.bind := congrArg Resolution.env (resolve_of_isComplete hcomplete).2
  rw [hrun]
  -- Binding is looked at in the closed environment, which is sound and knows no bound references of
  -- its own; what a definition belongs to is the same before and after.
  refine ⟨fun id reference hmem => ?_, fun id reference hfound hnotMem => ?_⟩
  · obtain ⟨hfile, hfound, hreachable⟩ := mem_references.mp hmem
    rw [reference?_bind] at hfound
    obtain ⟨before, -, rfl⟩ := Option.map_eq_some_iff.mp hfound
    rw [isReachable_bind] at hreachable
    rw [boundReference] at hreachable ⊢
    split at hreachable
    · next hbinds =>
      rw [if_pos hbinds]
      simp only [definition?_bind, isReachable_bind]
      exact hsound.binding_lookupReference hbinds.2
    · next hkeeps => exact absurd ⟨hfile, hreachable⟩ hkeeps
  · have hkept : closed.reference? id = some reference := by
      rw [reference?_bind] at hfound
      obtain ⟨before, hbefore, rfl⟩ := Option.map_eq_some_iff.mp hfound
      rw [hbefore, boundReference, if_neg]
      rintro ⟨hfile, hreachable⟩
      refine hnotMem (mem_references.mpr ⟨hfile, ?_, ?_⟩)
      · rw [reference?_bind, hbefore, Option.map_some]
      · rw [isReachable_bind, boundReference, if_pos ⟨hfile, hreachable⟩]
        exact hreachable
    exact reference?_closed hkept

def extendingText : String :=
  "INTERLIS 2.4; MODEL U = IMPORTS A; CLASS D EXTENDS A.C = END D; END U."

def extendedAccess : RepositoryAccess :=
  ⟨⟨[⟨"A", "ili2_4", "a.ili", "INTERLIS 2.4; MODEL A = CLASS C = END C; END A."⟩]⟩, [], none⟩

def extending (base : Environment) : Environment :=
  (base.add (.ofText extendingText (some "u.ili"))).1

def extendedSite : ImportSite :=
  ⟨some "u.ili", ⟨⟨0, 32⟩, ⟨0, 33⟩⟩⟩

def extended (base : Environment) : Environment :=
  (Closure.step extendedAccess (some "ili2_4") (.start (extending base)) ("A", extendedSite)).env

def extendedReference : Reference :=
  ⟨["A", "C"], ⟨⟨0, 51⟩, ⟨0, 54⟩⟩, 1, .classLike, .resolved ⟨2, 1⟩⟩

/-- One query is enough, and the class that is extended is in the file fetched with it. -/
def Extending (base : Environment) : Prop :=
  (extending base).queryFilter none = some "ili2_4" ∧
    (extending base).missingImports.entries = [("A", extendedSite)] ∧
    (extended base).missingImports.entries = [] ∧
    (extended base).bind.reference? ⟨1, 1⟩ = some extendedReference ∧
    (extended base).bind.isReachable ⟨1, 1⟩ = true

instance (base : Environment) : Decidable base.Extending :=
  inferInstanceAs (Decidable (_ ∧ _))

theorem extending_initial : Extending initial := by
  rw [initial_eq_spelledInitial]
  decide +kernel

/-- The class is bound to the one of the imported model that it extends. -/
theorem Session.resolve_binds_extending :
    let run := ((extending .initial).resolve extendedAccess none).env
    (extending .initial).Session ∧
      ((extending .initial).resolve extendedAccess none).isComplete = true ∧
      (⟨1, 1⟩, extendedReference) ∈ run.references ∧
      (∃ definition, run.definition? ⟨2, 1⟩ = some definition ∧
        Expected.classLike.accepts definition.kind = true ∧ run.isReachable ⟨2, 1⟩ = true ∧
        "C" ∈ definition.names) ∧
      ∀ id reference, (id, reference) ∈ run.references → reference.state ≠ .unbound := by
  -- For any base, so that nothing in the proof computes the predefined catalog.
  suffices hbase : ∀ base : Environment, base.Session → base.Extending →
      let run := ((extending base).resolve extendedAccess none).env
      (extending base).Session ∧
        ((extending base).resolve extendedAccess none).isComplete = true ∧
        (⟨1, 1⟩, extendedReference) ∈ run.references ∧
        (∃ definition, run.definition? ⟨2, 1⟩ = some definition ∧
          Expected.classLike.accepts definition.kind = true ∧ run.isReachable ⟨2, 1⟩ = true ∧
          "C" ∈ definition.names) ∧
        ∀ id reference, (id, reference) ∈ run.references → reference.state ≠ .unbound from
    hbase .initial .initial extending_initial
  rintro base hbase ⟨hfilter, hmissing, hnothing, hreference, hreachable⟩ run
  have hsession : (extending base).Session := .add hbase extendingText (some "u.ili")
  have hcomplete : ((extending base).resolve extendedAccess none).isComplete = true :=
    isComplete_resolve (show extendedAccess.calledOff = none from rfl) (extending base) none
  have hrun : run = (extended base).bind := by
    change ((extending base).resolve extendedAccess none).env = _
    rw [(resolve_of_isComplete hcomplete).2, hfilter, Closure.run_of_single hmissing hnothing,
      extended]
  rw [← hrun] at hreference hreachable
  have hlisted : (⟨1, 1⟩, extendedReference) ∈ run.references :=
    mem_references.mpr ⟨by decide, hreference, hreachable⟩
  obtain ⟨hbound, -⟩ := hsession.resolve_binds extendedAccess none hcomplete
  refine ⟨hsession, hcomplete, hlisted, ?_, fun id reference hmem hunbound => ?_⟩
  · rcases hbound _ _ hlisted with
      hstate | ⟨target, definition, last, hstate, hfound, haccepts, hknown, hlast, hnames⟩
    · cases hstate
    · obtain rfl := Binding.resolved.inj hstate
      obtain rfl := Option.some.inj hlast
      exact ⟨definition, hfound, haccepts, hknown, hnames⟩
  · rcases hbound id reference hmem with hstate | ⟨target, -, -, hstate, -⟩
    · rw [hunbound] at hstate
      cases hstate
    · rw [hunbound] at hstate
      cases hstate

end Environment

end Ili
