import Ili.Proofs.Catalog.MemberOrder
import Ili.Proofs.Environment.FileOrder

/-!
# The order of declarations

Whether a definition is written before or after a reference to it makes no difference. If the
declarations of a model or a topic are put in another order, the definitions and references of that
file get other numbers, and all look-ups end at what had the corresponding number.
-/

namespace Ili

def Renumbering.ofFile (file : Nat) (number reference : Equiv.Perm Nat) : Renumbering where
  file := .refl Nat
  definition index := if index = file then number else .refl Nat
  reference index := if index = file then reference else .refl Nat

theorem Renumbering.ofFile_fixes {file index : Nat} (number reference : Equiv.Perm Nat)
    (h : index ≠ file) : (ofFile file number reference).Fixes index :=
  ⟨rfl, if_neg h, if_neg h⟩

theorem Renumbering.ofFile_refl_fixes (file index : Nat) :
    (ofFile file (.refl Nat) (.refl Nat)).Fixes index :=
  ⟨rfl, ite_self _, ite_self _⟩

namespace Environment

namespace Renumbered

variable {ρ : Renumbering} {env other : Environment} (h : env.Renumbered ρ other)

include h

theorem add {catalog catalog' : Catalog} (hlast : ρ.file env.files.size = env.files.size)
    (hcatalog : catalog.Renumbered (ρ.definition env.files.size) (ρ.reference env.files.size)
      catalog')
    (hunbound : ∀ reference ∈ catalog.references, reference.state = .unbound)
    (hunbound' : ∀ reference ∈ catalog'.references, reference.state = .unbound) :
    (env.add catalog).1.Renumbered ρ (other.add catalog').1 := by
  rw [Environment.add, Environment.add, h.size, hcatalog.schemaVersion]
  split
  · have hversion := h.of_version catalog.schemaVersion
    exact hversion.merge hlast hcatalog hunbound hunbound'
  · exact h.merge hlast hcatalog hunbound hunbound'

theorem addFiles (hfixes : ρ.FixesFrom env.files.size) (files : List (String × Option String)) :
    (env.addFiles files).Renumbered ρ (other.addFiles files) := by
  induction files generalizing env other with
  | nil => exact h
  | cons file rest ih =>
    obtain ⟨hlast, hdefinition, hreference⟩ := hfixes (le_refl env.files.size)
    have hunbound := Catalog.unbound_ofText file.1 file.2
    refine ih (h.add hlast ?_ hunbound hunbound) fun hindex =>
      hfixes ((size_le_add env _).trans hindex)
    rw [hdefinition, hreference]
    exact .refl _

end Renumbered

theorem size_le_addFiles (env : Environment) (files : List (String × Option String)) :
    env.files.size ≤ (env.addFiles files).files.size := by
  induction files generalizing env with
  | nil => exact le_rfl
  | cons file rest ih => exact (size_le_add env _).trans (ih _)

/-- A file whose models are all known is dropped, and so is the other one. Otherwise it is stored
under the next number. -/
theorem Session.renumbered_add {env : Environment} (h : env.Session) {text other : String}
    (hpermutes : PermutesDeclarations text other) (uri : Option String) :
    ∃ number reference : Equiv.Perm Nat,
      let ρ := Renumbering.ofFile env.files.size number reference
      (env.add (.ofText text uri)).1.Renumbered ρ (env.add (.ofText other uri)).1 ∧
        ρ.FixesFrom (env.add (.ofText text uri)).1.files.size := by
  obtain ⟨number, reference, hcatalog⟩ := Catalog.exists_renumbered_ofText hpermutes uri
  by_cases hknown : (Catalog.ofText text uri).modelNames.all env.knowsModel = true
  · refine ⟨.refl Nat, .refl Nat, ?_, fun _ => Renumbering.ofFile_refl_fixes ..⟩
    have hdropped : (env.add (.ofText other uri)).1 = (env.add (.ofText text uri)).1 := by
      rw [add_of_known hknown, add_of_known (by rwa [hcatalog.modelNames_eq]),
        hcatalog.schemaVersion]
    rw [hdropped]
    exact (h.add text uri).selfContained _ fun index _ => Renumbering.ofFile_refl_fixes _ index
  · have hstored : (env.add (.ofText text uri)).1.files.size = env.files.size + 1 := by
      rw [add_of_not_known hknown, size_append]
    refine ⟨number, reference, ?_, fun hindex => Renumbering.ofFile_fixes _ _ (by omega)⟩
    have hself := h.selfContained (.ofFile env.files.size number reference) fun index hindex =>
      Renumbering.ofFile_fixes _ _ hindex.ne
    refine hself.add rfl ?_ (Catalog.unbound_ofText text uri) (Catalog.unbound_ofText other uri)
    change Catalog.Renumbered ⇑(if env.files.size = env.files.size then number else .refl Nat)
      ⇑(if env.files.size = env.files.size then reference else .refl Nat) _ _
    rwa [if_pos rfl, if_pos rfl]

/-- The declarations of a scope of a file may be put in another order, provided that no two of them
share a name. The runs are complete or not and make the same queries. In a complete one every
reference of every file is bound to the definition that corresponds to the one it had been bound to,
or neither is bound. -/
theorem Session.resolves_of_permutesDeclarations {env : Environment} (h : env.Session)
    {text other : String} (hpermutes : PermutesDeclarations text other) (uri : Option String)
    (rest : List (String × Option String)) {provider : Provider} {calledOff : Option Nat}
    {filter : Option String} {run : Resolution}
    (hrun : ((env.add (.ofText text uri)).1.addFiles rest).Resolves provider calledOff filter run) :
    ∃ (number reference : Equiv.Perm Nat) (run' : Resolution),
      let ρ := Renumbering.ofFile env.files.size number reference
      ((env.add (.ofText other uri)).1.addFiles rest).Resolves provider calledOff filter run' ∧
        run'.isComplete = run.isComplete ∧ run'.queries = run.queries ∧
        (run.isComplete = true → run.env.Renumbered ρ run'.env ∧
          ∀ {id : ReferenceId} {first : Reference}, run.env.reference? id = some first →
            ∃ second, run'.env.reference? (ρ.referenceId id) = some second ∧
              second.state = first.state.renumber ρ.definitionId) := by
  obtain ⟨number, reference, hrenumbered, hfixes⟩ := h.renumbered_add hpermutes uri
  have hsound := ((h.add text uri).addFiles rest).sound
  have hsound' := ((h.add other uri).addFiles rest).sound
  obtain ⟨run', hrun', hcomplete, hqueries, hbinds⟩ :=
    (hrenumbered.addFiles hfixes rest).resolves
      (fun hindex => hfixes ((size_le_addFiles _ rest).trans hindex)) hsound hsound' hrun
  refine ⟨number, reference, run', hrun', hcomplete, hqueries, fun hdone => ⟨hbinds hdone, ?_⟩⟩
  intro id first hfirst
  have hcorresponds := (hbinds hdone).reference? id
  rw [hfirst] at hcorresponds
  generalize run'.env.reference? _ = found at hcorresponds ⊢
  cases hcorresponds with
  | some hsame => exact ⟨_, rfl, hsame.2⟩

/-- A class that extends one that comes later. -/
def forwardText : String :=
  "INTERLIS 2.4; MODEL M = TOPIC T = CLASS A EXTENDS B = END A; CLASS B = END B; END T; END M."

def backwardText : String :=
  "INTERLIS 2.4; MODEL M = TOPIC T = CLASS B = END B; CLASS A EXTENDS B = END A; END T; END M."

def forwardSpelling : { chars : List Char // forwardText = String.ofList chars } :=
  ⟨_, rfl⟩

def backwardSpelling : { chars : List Char // backwardText = String.ofList chars } :=
  ⟨_, rfl⟩

theorem permutesDeclarations_forwardText : PermutesDeclarations forwardText backwardText := by
  rw [PermutesDeclarations, tree_parse_of_eq forwardSpelling.2, tree_parse_of_eq backwardSpelling.2]
  decide +kernel

def BindsForward (env : Environment) : Prop :=
  env.missingImports.entries = [] ∧ env.bind.nameOf ⟨1, 3⟩ = "B" ∧
    ∃ reference ∈ env.bind.reference? ⟨1, 0⟩, reference.state = .resolved ⟨1, 3⟩

instance (env : Environment) : Decidable env.BindsForward :=
  inferInstanceAs (Decidable (_ ∧ _ ∧ _))

theorem bindsForward_forwardText :
    (initial.add (.ofText forwardText none)).1.BindsForward := by
  rw [initial_eq_spelledInitial, Catalog.ofText, tree_parse_of_eq forwardSpelling.2]
  decide +kernel

/-- When the class that is extended comes first, it is bound as well. -/
theorem resolves_of_permutesDeclarations_backward :
    PermutesDeclarations forwardText backwardText ∧
      ∃ id, ∃ reference ∈ ((initial.add (.ofText backwardText none)).1.resolve emptyAccess
          none).env.reference? id, ∃ target, reference.state = .resolved target ∧
        ((initial.add (.ofText backwardText none)).1.resolve emptyAccess none).env.nameOf target =
          "B" := by
  refine ⟨permutesDeclarations_forwardText, ?_⟩
  have hnil (env : Environment) : env.addFiles [] = env := rfl
  obtain ⟨number, others, run', hrun', -, -, hbinds⟩ :=
    Session.initial.resolves_of_permutesDeclarations permutesDeclarations_forwardText none []
      (resolves_resolve _ emptyAccess none)
  rw [hnil] at hrun' hbinds
  obtain rfl := hrun'.unique (resolves_resolve _ emptyAccess none)
  obtain ⟨hmissing, hname, reference, hfound, hstate⟩ := bindsForward_forwardText
  rw [env_resolve_of_nothing_missing calledOff_emptyAccess none hmissing] at hbinds
  obtain ⟨hrenumbered, hreferences⟩ := hbinds (isComplete_resolve calledOff_emptyAccess _ none)
  obtain ⟨second, hsecond, hsame⟩ := hreferences hfound
  rw [hstate] at hsame
  exact ⟨_, second, hsecond, _, hsame, (hrenumbered.nameOf_eq _).trans hname⟩

end Environment

end Ili
