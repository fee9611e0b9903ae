import Ili.Environment.Closure

/-!
# Environments only grow

A file is put behind the others, and a name once entered keeps its definition. So whatever is found
in an environment, by number or by name, is found in every environment that it grows into; in
particular what a model imports stays imported.
-/

namespace Ili

namespace Environment

/-- The second environment holds all that the first one holds, under the same numbers and names. -/
structure Extends (env larger : Environment) : Prop where
  version : larger.version = env.version
  file? : ∀ {index : Nat} {catalog : Catalog},
    env.file? index = some catalog → larger.file? index = some catalog
  model? : ∀ {name : String} {id : DefinitionId},
    env.model? name = some id → larger.model? name = some id

theorem Extends.refl (env : Environment) : env.Extends env :=
  ⟨rfl, id, id⟩

theorem Extends.trans {env larger largest : Environment} (h : env.Extends larger)
    (h' : larger.Extends largest) : env.Extends largest :=
  ⟨h'.version.trans h.version, fun hfile => h'.file? (h.file? hfile),
    fun hmodel => h'.model? (h.model? hmodel)⟩

/-- A name stands for what it stood for, else for the first model of the file that has it. -/
theorem get?_enterModels (models : Dict DefinitionId) (file : Nat) (catalog : Catalog)
    (name : String) :
    (enterModels models file catalog).get? name =
      (models.get? name).or
        ((catalog.models.find? fun model => catalog.nameOf model == name).map (⟨file, ·⟩)) := by
  rw [enterModels]
  induction catalog.models generalizing models with
  | nil => simp
  | cons model rest ih =>
    rw [List.foldl_cons, ih, Dict.get?_insertNew]
    by_cases hname : catalog.nameOf model = name
    · rw [if_pos hname.symm, List.find?_cons_of_pos (by simpa using hname), hname]
      cases models.get? name <;> rfl
    · rw [if_neg (Ne.symm hname), List.find?_cons_of_neg (by simpa using hname)]

theorem model?_append (env : Environment) (catalog : Catalog) (name : String) :
    (env.append catalog).model? name =
      (env.model? name).or
        ((catalog.models.find? fun model => catalog.nameOf model == name).map
          (⟨env.files.size, ·⟩)) :=
  get?_enterModels ..

theorem extends_append (env : Environment) (catalog : Catalog) :
    env.Extends (env.append catalog) where
  version := rfl
  file? {index _} hfile := by
    have hlt : index < env.files.size := (Array.getElem?_eq_some_iff.mp hfile).1
    change (env.files.push catalog)[index]? = _
    rw [Array.getElem?_push, if_neg (Nat.ne_of_lt hlt)]
    exact hfile
  model? hmodel := by rw [model?_append, hmodel, Option.some_or]

theorem extends_merge (env : Environment) (catalog : Catalog) :
    env.Extends (env.merge catalog).1 := by
  rw [merge]
  split
  · exact .refl env
  · exact extends_append env catalog

theorem Extends.knowsModel {env larger : Environment} (h : env.Extends larger) {name : String}
    (hknown : env.knowsModel name = true) : larger.knowsModel name = true := by
  obtain ⟨id, hid⟩ := Option.isSome_iff_exists.mp hknown
  exact Option.isSome_iff_exists.mpr ⟨id, h.model? hid⟩

theorem knowsModel_append (env : Environment) (catalog : Catalog) (name : String) :
    (env.append catalog).knowsModel name = true ↔
      env.knowsModel name = true ∨ name ∈ catalog.modelNames := by
  change ((env.append catalog).model? name).isSome = true ↔ (env.model? name).isSome = true ∨ _
  simp [model?_append, Catalog.modelNames]

theorem knowsModel_merge (env : Environment) (catalog : Catalog) (name : String) :
    (env.merge catalog).1.knowsModel name = true ↔
      env.knowsModel name = true ∨ name ∈ catalog.modelNames := by
  rw [merge]
  split
  · next hall => exact ⟨.inl, fun h => h.elim id fun hmem => List.all_eq_true.mp hall name hmem⟩
  · exact knowsModel_append env catalog name

/-- A model that is known imports a path that begins with this name. -/
def Imports (env : Environment) (name : String) : Prop :=
  ∃ importer model item reference, env.model? importer = some model ∧
    (item, reference) ∈ env.importsOf model ∧ reference.path.head? = some name

theorem mem_importedNames {env : Environment} {name : String} :
    (∃ site, (name, site) ∈ env.importedNames) ↔ env.Imports name := by
  constructor
  · rintro ⟨site, hsite⟩
    obtain ⟨⟨importer, model⟩, hmodel, hitem⟩ := List.mem_flatMap.mp hsite
    obtain ⟨⟨item, reference⟩, hmem, hhead⟩ := List.mem_filterMap.mp hitem
    obtain ⟨first, hfirst, heq⟩ := Option.map_eq_some_iff.mp hhead
    obtain ⟨rfl, -⟩ := Prod.mk.inj heq
    exact ⟨importer, model, item, reference, Dict.mem_entries_iff.mp hmodel, hmem, hfirst⟩
  · rintro ⟨importer, model, item, reference, hmodel, hmem, hhead⟩
    refine ⟨⟨env.uri? model, reference.span⟩, List.mem_flatMap.mpr
      ⟨(importer, model), Dict.mem_entries_iff.mpr hmodel, List.mem_filterMap.mpr
        ⟨(item, reference), hmem, ?_⟩⟩⟩
    simp only [hhead, Option.map_some]

theorem importsOf_of_extends {env larger : Environment} (h : env.Extends larger)
    {model : DefinitionId} (hne : env.importsOf model ≠ []) :
    larger.importsOf model = env.importsOf model := by
  rw [importsOf, importsOf, definition?, definition?] at *
  cases hfile : env.file? model.file with
  | none => simp [hfile] at hne
  | some file => rw [h.file? hfile]

theorem Imports.of_extends {env larger : Environment} {name : String} (himports : env.Imports name)
    (h : env.Extends larger) : larger.Imports name := by
  obtain ⟨importer, model, item, reference, hmodel, hmem, hhead⟩ := himports
  refine ⟨importer, model, item, reference, h.model? hmodel, ?_, hhead⟩
  rwa [importsOf_of_extends h (List.ne_nil_of_mem hmem)]

theorem mem_missingImports {env : Environment} {name : String} :
    (∃ site, (name, site) ∈ env.missingImports.entries) ↔
      env.Imports name ∧ env.knowsModel name = false := by
  have hfold (row : List (String × ImportSite)) (missing : Dict ImportSite) :
      ((row.foldl (fun missing (entry : String × ImportSite) =>
          if env.knowsModel entry.1 then missing else missing.insertNew entry.1 entry.2)
        missing).get? name).isSome = true ↔
      (missing.get? name).isSome = true ∨
        (∃ site, (name, site) ∈ row) ∧ env.knowsModel name = false := by
    induction row generalizing missing with
    | nil => simp
    | cons entry rest ih =>
      obtain ⟨key, site⟩ := entry
      rw [List.foldl_cons, ih]
      by_cases hkey : name = key
      · subst hkey
        cases hknown : env.knowsModel name <;> simp [Dict.get?_insertNew]
      · cases hknown : env.knowsModel key <;> simp [Dict.get?_insertNew, hkey]
  rw [← mem_importedNames]
  simp only [Dict.mem_entries_iff, ← Option.isSome_iff_exists]
  rw [missingImports, hfold]
  simp

end Environment

end Ili
