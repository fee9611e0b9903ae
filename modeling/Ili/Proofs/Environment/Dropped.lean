import Ili.Proofs.Environment.FileOrder

/-!
# Files that are dropped

A file without a new model is dropped: no file and no model comes from it. As long as no file has
been kept, though, the version is set before it is known that the file will be dropped. That trace
stays until the next file is added, dropped or not, and never once a file has been kept.
-/

namespace Ili

namespace Environment

variable {env other : Environment}

/-- The environments differ in their version at most, and not once a file has been kept. -/
structure AgreesWith (env other : Environment) : Prop where
  files : env.files = other.files
  models : env.models = other.models
  version : 1 < env.files.size → env.version = other.version

namespace AgreesWith

theorem refl (env : Environment) : env.AgreesWith env :=
  ⟨rfl, rfl, fun _ => rfl⟩

theorem trans {last : Environment} (h : env.AgreesWith other) (h' : other.AgreesWith last) :
    env.AgreesWith last where
  files := h.files.trans h'.files
  models := h.models.trans h'.models
  version hmany := by
    have hmany' : 1 < other.files.size := h.files ▸ hmany
    exact (h.version hmany).trans (h'.version hmany')

theorem eq (h : env.AgreesWith other) (hversion : env.version = other.version) : env = other := by
  obtain ⟨version, files, models⟩ := env
  obtain ⟨version', files', models'⟩ := other
  obtain rfl : version = version' := hversion
  obtain rfl : files = files' := h.files
  obtain rfl : models = models' := h.models
  rfl

theorem add_eq (h : env.AgreesWith other) (catalog : Catalog) :
    env.add catalog = other.add catalog := by
  by_cases hmany : 1 < env.files.size
  · rw [h.eq (h.version hmany)]
  · have hfew : env.files.size ≤ 1 := Nat.not_lt.mp hmany
    have hfew' : other.files.size ≤ 1 := h.files ▸ hfew
    rw [add, add, if_pos hfew, if_pos hfew']
    congr 1
    rw [h.files, h.models]

theorem addFiles (h : env.AgreesWith other) (files : List (String × Option String)) :
    (env.addFiles files).AgreesWith (other.addFiles files) := by
  cases files with
  | nil => exact h
  | cons file rest =>
    have hadd := h.add_eq (.ofText file.1 file.2)
    rw [Environment.addFiles, Environment.addFiles, List.foldl_cons, List.foldl_cons, hadd]
    exact refl _

end AgreesWith

/-! ### One file -/

theorem add_eq_none_iff (env : Environment) (catalog : Catalog) :
    (env.add catalog).2 = none ↔ catalog.modelNames.all env.knowsModel = true := by
  have hmerge (before : Environment) : (before.merge catalog).2 = none ↔
      catalog.modelNames.all before.knowsModel = true := by
    rw [merge]
    split
    · next hknown => exact iff_of_true rfl hknown
    · next hnew => exact iff_of_false (Option.some_ne_none _) hnew
  rw [add]
  split
  · exact hmerge { env with version := catalog.schemaVersion }
  · exact hmerge env

theorem agreesWith_of_dropped {catalog : Catalog} (h : (env.add catalog).2 = none) :
    (env.add catalog).1.AgreesWith env := by
  rw [add_of_known ((add_eq_none_iff env catalog).mp h)]
  refine ⟨rfl, rfl, fun hmany => ?_⟩
  exact if_neg (Nat.not_le.mpr hmany)

/-- **A file that is dropped leaves its version at most.** It does so as long as no file has been
kept, and whatever is added next is added as if the file had never been there. -/
theorem add_of_dropped {catalog : Catalog} (h : (env.add catalog).2 = none) :
    (env.add catalog).1.files = env.files ∧ (env.add catalog).1.models = env.models ∧
      (env.add catalog).1.version =
        (if 1 < env.files.size then env.version else catalog.schemaVersion) ∧
      ((env.add catalog).1 = env ↔ 1 < env.files.size ∨ catalog.schemaVersion = env.version) ∧
      (∀ next, (env.add catalog).1.add next = env.add next) := by
  have hagrees := agreesWith_of_dropped h
  have hversion : (env.add catalog).1.version =
      if 1 < env.files.size then env.version else catalog.schemaVersion := by
    rw [add_of_known ((add_eq_none_iff env catalog).mp h)]
    by_cases hmany : 1 < env.files.size
    · rw [if_pos hmany]
      exact if_neg (Nat.not_le.mpr hmany)
    · rw [if_neg hmany]
      exact if_pos (Nat.not_lt.mp hmany)
  refine ⟨hagrees.files, hagrees.models, hversion, ?_, hagrees.add_eq⟩
  constructor
  · intro hsame
    rw [hsame] at hversion
    by_cases hmany : 1 < env.files.size
    · exact .inl hmany
    · rw [if_neg hmany] at hversion
      exact .inr hversion.symm
  · intro hcases
    apply hagrees.eq
    rw [hversion]
    rcases hcases with hmany | hsame
    · exact if_pos hmany
    · rw [hsame, ite_self]

def predefinedNameText : String :=
  "INTERLIS 2.3; MODEL INTERLIS = END INTERLIS."

theorem add_of_dropped_predefinedName :
    (initial.add (.ofText predefinedNameText none)).2 = none ∧
      (initial.add (.ofText predefinedNameText none)).1 ≠ initial ∧
      (initial.add (.ofText predefinedNameText none)).1.version = some "2.3" := by
  have hread : (initial.add (.ofText predefinedNameText none)).2 = none ∧
      ¬1 < initial.files.size ∧ initial.version = none ∧
      (Catalog.ofText predefinedNameText none).schemaVersion = some "2.3" := by
    rw [initial_eq_spelledInitial]
    decide +kernel
  obtain ⟨hdropped, hfew, hnone, hschema⟩ := hread
  obtain ⟨-, -, hversion, hsame, -⟩ := add_of_dropped hdropped
  refine ⟨hdropped, ?_, ?_⟩
  · intro heq
    rcases hsame.mp heq with hmany | hversions
    · exact hfew hmany
    · rw [hschema, hnone] at hversions
      cases hversions
  · rw [hversion, if_neg hfew, hschema]

/-! ### Many files -/

def keptFiles (env : Environment) :
    List (String × Option String) → List (String × Option String)
  | [] => []
  | file :: rest =>
    let (next, number) := env.add (.ofText file.1 file.2)
    if number.isSome then file :: next.keptFiles rest else next.keptFiles rest

theorem agreesWith_addFiles_keptFiles (env : Environment) (files : List (String × Option String)) :
    (env.addFiles files).AgreesWith (env.addFiles (env.keptFiles files)) := by
  induction files generalizing env with
  | nil => exact .refl env
  | cons file rest ih =>
    have hrest := ih (env.add (.ofText file.1 file.2)).1
    rw [keptFiles]
    dsimp only
    split
    · exact hrest
    · next hdropped =>
      rw [Option.not_isSome_iff_eq_none] at hdropped
      exact hrest.trans ((agreesWith_of_dropped hdropped).addFiles _)

/-- Once a file is kept, the environment is what it would be without those that are dropped. -/
theorem addFiles_keptFiles {files : List (String × Option String)}
    (hmany : 1 < (env.addFiles (env.keptFiles files)).files.size) :
    env.addFiles files = env.addFiles (env.keptFiles files) := by
  have hagrees := env.agreesWith_addFiles_keptFiles files
  have hmany' : 1 < (env.addFiles files).files.size := hagrees.files ▸ hmany
  exact hagrees.eq (hagrees.version hmany')

end Environment

end Ili
