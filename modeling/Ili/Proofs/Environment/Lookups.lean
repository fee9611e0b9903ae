import Ili.Proofs.Environment.Bound

/-!
# Looking up in a bound environment

Binding writes the states of references and nothing else, and no look-up reads a state. So in a
bound environment every name stands for what it stood for before, and the references that are listed
are the same ones, each with what became of it.
-/

namespace Ili

namespace Environment

theorem named?_of_model (env : Environment) {id : ReferenceId} {reference : Reference}
    (hexpected : reference.expected = .model) :
    env.named? id reference =
      match reference.path with
      | [name] => env.model? name
      | _ => none := by
  rw [named?.eq_def, hexpected]
  split <;> simp_all

theorem named?_of_ne_model (env : Environment) {id : ReferenceId} {reference : Reference}
    (hexpected : reference.expected ≠ .model) :
    env.named? id reference = env.lookup? ⟨id.file, reference.source⟩ reference.path := by
  rw [named?.eq_def]
  split
  · exact absurd ‹_› hexpected
  · exact absurd ‹_› hexpected
  · rfl

section Bind

variable (env : Environment)

theorem kind?_bind (id : DefinitionId) : env.bind.kind? id = env.kind? id := by
  rw [kind?, kind?, definition?_bind]

theorem child?_bind (id : DefinitionId) (name : String) :
    env.bind.child? id name = env.child? id name := by
  rw [child?, child?, definition?_bind]

theorem element?_bind (scope : DefinitionId) (name : String) :
    env.bind.element? scope name = env.element? scope name := by
  rw [element?, element?, child?_bind, funext (kind?_bind env)]

theorem modelOf_bind (id : DefinitionId) : env.bind.modelOf id = env.modelOf id := by
  rw [modelOf, modelOf, chain_bind]

theorem model?_bind (name : String) : env.bind.model? name = env.model? name :=
  rfl

theorem predefinedModel?_bind : env.bind.predefinedModel? = env.predefinedModel? := by
  rw [predefinedModel?, predefinedModel?, file?_bind, Option.bind_map]
  rfl

theorem boundReference_eq (id : ReferenceId) (reference : Reference) :
    env.boundReference id reference =
      { reference with state := (env.boundReference id reference).state } := by
  rw [boundReference]
  split <;> rfl

theorem importsOf_bind (model : DefinitionId) :
    env.bind.importsOf model = (env.importsOf model).map fun entry =>
      (entry.1, env.boundReference ⟨model.file, entry.1.model⟩ entry.2) := by
  rw [importsOf, importsOf, file?_bind, definition?_bind]
  cases env.file? model.file with
  | none => rfl
  | some catalog =>
    generalize (env.definition? model).map Definition.data = data?
    cases data? with
    | none => rfl
    | some data =>
      cases data with
      | model data =>
        simp only [Option.map_some, Array.getElem?_mapIdx, List.map_filterMap, Option.map_map]
        rfl
      | _ => rfl

theorem openModels_bind (source : DefinitionId) :
    env.bind.openModels source = env.openModels source := by
  rw [openModels, openModels, modelOf_bind, importsOf_bind, List.filter_map, List.filterMap_map]
  congr 1
  funext entry
  rw [Function.comp_apply, boundReference_eq]
  rfl

theorem lookup?_bind (source : DefinitionId) (path : List String) :
    env.bind.lookup? source path = env.lookup? source path := by
  cases path with
  | nil => rfl
  | cons name rest =>
    have hfirst : env.bind.lookupFirst? source name = env.lookupFirst? source name := by
      funext qualified
      simp only [lookupFirst?, scopedElement?, openElement?, predefinedElement?, chain_bind,
        element?_bind, model?_bind, openModels_bind, predefinedModel?_bind]
    have hdown (start : DefinitionId) : env.bind.descend? start rest = env.descend? start rest := by
      rw [descend?, descend?, funext fun id => funext (child?_bind env id)]
    simp only [lookup?, hfirst, hdown]

theorem named?_bind (id : ReferenceId) (reference : Reference) :
    env.bind.named? id reference = env.named? id reference := by
  rw [named?.eq_def, named?.eq_def]
  simp only [lookup?_bind, model?_bind]

theorem lookupReference_bind (id : ReferenceId) (reference : Reference) :
    env.bind.lookupReference id reference = env.lookupReference id reference := by
  rw [lookupReference, lookupReference, named?_bind, funext (kind?_bind env)]

def settled (id : ReferenceId) (reference : Reference) : Reference :=
  { reference with state := (env.lookupReference id reference).binding }

theorem referencesOf_bind {file : Nat} (hfile : file ≠ 0) :
    env.bind.referencesOf file = (env.referencesOf file).map fun entry =>
      (entry.1, env.settled entry.1 entry.2) := by
  rw [referencesOf, referencesOf, file?_bind]
  cases env.file? file with
  | none => rfl
  | some catalog =>
    rw [Option.map_some]
    dsimp only
    have hnumbered : (catalog.references.mapIdx fun index reference =>
        env.boundReference ⟨file, index⟩ reference).toList.zipIdx =
          catalog.references.toList.zipIdx.map fun entry =>
            (env.boundReference ⟨file, entry.2⟩ entry.1, entry.2) := by
      apply List.ext_getElem <;> simp
    rw [hnumbered, List.filterMap_map, List.map_filterMap]
    apply List.filterMap_congr
    rintro ⟨reference, index⟩ -
    simp only [Function.comp_apply, isReachable_bind]
    rw [boundReference]
    split
    · next hbinds =>
      rw [if_pos hbinds.2, if_pos hbinds.2]
      rfl
    · next hkeeps =>
      have hhidden : ¬env.isReachable ⟨file, reference.source⟩ = true := fun h => hkeeps ⟨hfile, h⟩
      rw [if_neg hhidden]
      rfl

theorem references_bind :
    env.bind.references = env.references.map fun entry =>
      (entry.1, env.settled entry.1 entry.2) := by
  have hsize : env.bind.files.size = env.files.size := Array.size_mapIdx
  rw [references, references, hsize, List.map_flatMap]
  apply List.flatMap_congr
  intro file hfile
  refine referencesOf_bind env ?_
  rw [List.range_eq_range', List.drop_range', List.mem_range'_1] at hfile
  omega

end Bind

end Environment

end Ili
