import Ili.Proofs.Environment.ImportOrder
import Ili.Proofs.Environment.Registry
import Ili.Proofs.Environment.Renumbering

/-!
# The order in which files are added

Files that are added in another order get other numbers, and nothing else depends on their order as
long as no two of them have a model of the same name. The numbers of the definitions and of the
references in a file come from its text and stay.
-/

namespace Ili

def Renumbering.ofFiles (number : Equiv.Perm Nat) : Renumbering :=
  ⟨number, fun _ => .refl Nat, fun _ => .refl Nat⟩

def DefinitionId.refile (number : Nat → Nat) (id : DefinitionId) : DefinitionId :=
  ⟨number id.file, id.index⟩

def ReferenceId.refile (number : Nat → Nat) (id : ReferenceId) : ReferenceId :=
  ⟨number id.file, id.index⟩

def Reference.refile (number : Nat → Nat) (reference : Reference) : Reference :=
  { reference with state := reference.state.renumber (DefinitionId.refile number) }

theorem Reference.refile_refile (number more : Nat → Nat) (reference : Reference) :
    (reference.refile number).refile more = reference.refile (more ∘ number) := by
  obtain ⟨path, span, source, expected, state⟩ := reference
  cases state <;> rfl

namespace Catalog

variable {catalog other : Catalog} (h : other.asRead = catalog.asRead)

include h

theorem rel_references_of_asRead (index : Nat) :
    Option.Rel (fun first second : Reference => second = { first with state := second.state })
      catalog.references[index]? other.references[index]? := by
  have hread := congrArg (fun catalog : Catalog => catalog.references[index]?) h
  simp only [asRead, Array.getElem?_map] at hread
  refine rel_of_map_eq hread fun first second hsame => ?_
  obtain ⟨hpath, hspan, hsource, hexpected, -⟩ := Reference.mk.inj hsame
  rw [Reference.mk.injEq]
  exact ⟨hpath, hspan, hsource, hexpected, rfl⟩

theorem Renumbered.of_asRead : catalog.Renumbered id id other := by
  obtain ⟨huri, hversion, hdefinitions, -, hmodels⟩ := Catalog.mk.inj h
  refine ⟨huri, hversion, hmodels.trans (List.map_id _).symm, fun index => ?_, fun index => ?_⟩
  · rw [id, definition?, definition?, hdefinitions]
    cases catalog.definitions[index]? with
    | none => exact .none
    | some definition => exact .some (.refl definition)
  · rw [id]
    rcases rel_cases (rel_references_of_asRead h index) with
      ⟨hleft, hright⟩ | ⟨first, second, hleft, hright, hsame⟩
    · rw [hleft, hright]
      exact .none
    · rw [hleft, hright, hsame]
      exact .some rfl

end Catalog

namespace Environment

/-- The environments hold the same texts under other numbers, and the same references are bound to
the same definitions of these texts. -/
structure Refiled (number : Equiv.Perm Nat) (env other : Environment) : Prop where
  version : other.version = env.version
  size : other.files.size = env.files.size
  file? : ∀ index, (other.file? (number index)).map Catalog.asRead =
    (env.file? index).map Catalog.asRead
  model? : ∀ name, other.model? name = (env.model? name).map (.refile number)
  reference? : ∀ id : ReferenceId, other.reference? (id.refile number) =
    (env.reference? id).map (.refile number)
  first : number 0 = 0

variable {number more : Equiv.Perm Nat} {env other last : Environment}

theorem Refiled.renumbered (h : env.Refiled number other) :
    env.Renumbered (.ofFiles number) other where
  version := h.version
  size := h.size
  file? index := rel_of_map_eq (h.file? index) fun _ _ hsame => .of_asRead hsame
  model? := h.model?
  bound {id first second} hfirst hsecond := by
    have hreference := h.reference? id
    rw [hfirst, Option.map_some] at hreference
    obtain rfl := Option.some.inj (hsecond.symm.trans hreference)
    rfl
  first := h.first

theorem Renumbered.refiled (h : env.Renumbered (.ofFiles number) other)
    (hfile : ∀ index, (other.file? (number index)).map Catalog.asRead =
      (env.file? index).map Catalog.asRead) : env.Refiled number other where
  version := h.version
  size := h.size
  file? := hfile
  model? := h.model?
  reference? id := by
    have hread : Option.Rel (fun first second : Reference =>
        second = { first with state := second.state })
        (env.reference? id) (other.reference? (id.refile number)) :=
      rel_bind (rel_of_map_eq (hfile id.file) fun _ _ hsame => hsame) fun _ _ hsame =>
        Catalog.rel_references_of_asRead hsame id.index
    rcases rel_cases hread with ⟨hleft, hright⟩ | ⟨first, second, hleft, hright, hsame⟩
    · rw [hleft, hright, Option.map_none]
    · have hstate : second.state = first.state.renumber (.refile number) := h.bound hleft hright
      rw [hleft, hright, hsame, hstate, Option.map_some, Reference.refile]
  first := h.first

theorem Refiled.trans (h : env.Refiled number other) (h' : other.Refiled more last) :
    env.Refiled (number.trans more) last where
  version := h'.version.trans h.version
  size := h'.size.trans h.size
  file? index := (h'.file? (number index)).trans (h.file? index)
  model? name := by
    rw [h'.model?, h.model?, Option.map_map]
    rfl
  reference? id := by
    have hreference := h'.reference? (id.refile number)
    rw [h.reference?, Option.map_map] at hreference
    refine hreference.trans (congrArg (Option.map · _) (funext fun reference => ?_))
    exact reference.refile_refile number more
  first := (congrArg more h.first).trans h'.first

theorem size_le_add (env : Environment) (catalog : Catalog) :
    env.files.size ≤ (env.add catalog).1.files.size := by
  rw [add]
  split
  · exact size_le_merge { env with version := catalog.schemaVersion } catalog
  · exact size_le_merge env catalog

namespace Refiled

variable (h : env.Refiled number other)

include h

theorem of_version (version : Option String) :
    Refiled number { env with version } { other with version } :=
  ⟨rfl, h.size, h.file?, h.model?, h.reference?, h.first⟩

theorem merge (hlast : number env.files.size = env.files.size) (text : String)
    (uri : Option String) :
    (env.merge (.ofText text uri)).1.Refiled number (other.merge (.ofText text uri)).1 := by
  have hunbound := Catalog.unbound_ofText text uri
  refine (h.renumbered.merge hlast (.refl _) hunbound hunbound).refiled fun index => ?_
  rw [Environment.merge, Environment.merge, h.renumbered.knowsModel_eq]
  split
  · exact h.file? index
  · dsimp only
    rw [file?_append, file?_append, h.size]
    by_cases hindex : index = env.files.size
    · rw [if_pos hindex, if_pos (by rw [hindex, hlast])]
    · rw [if_neg hindex, if_neg fun heq => hindex (number.injective (heq.trans hlast.symm))]
      exact h.file? index

theorem add (hlast : number env.files.size = env.files.size) (text : String)
    (uri : Option String) :
    (env.add (.ofText text uri)).1.Refiled number (other.add (.ofText text uri)).1 := by
  rw [Environment.add, Environment.add, h.size]
  split
  · have hversion := h.of_version (Catalog.ofText text uri).schemaVersion
    exact hversion.merge hlast text uri
  · exact h.merge hlast text uri

theorem addFiles (hfixes : ∀ index, env.files.size ≤ index → number index = index)
    (files : List (String × Option String)) :
    (env.addFiles files).Refiled number (other.addFiles files) := by
  induction files generalizing env other with
  | nil => exact h
  | cons file rest ih =>
    have hadd := h.add (hfixes _ le_rfl) file.1 file.2
    refine ih hadd fun index hindex => hfixes index ?_
    exact (size_le_add env _).trans hindex

theorem bind (hsound : env.Sound) (hsound' : other.Sound) : env.bind.Refiled number other.bind :=
  (h.renumbered.bind hsound hsound').refiled fun index => by
    rw [asRead_bind, asRead_bind, h.file?]

end Refiled

/-- Environments whose files have other numbers are alike, provided that files to come get the same
numbers in both. -/
def refiledLikeness (number : Equiv.Perm Nat) : Likeness where
  env first second := first.Refiled number second ∧
    (∀ index, first.files.size ≤ index → number index = index) ∧ first.Sound ∧ second.Sound
  site _ _ := True
  version h := h.1.version
  knowsModel h := h.1.renumbered.knowsModel_eq
  missing h := h.1.renumbered.missing
  merge {first second} h text uri := by
    obtain ⟨hsame, hfixes, hfirst, hsecond⟩ := h
    refine ⟨hsame.merge (hfixes _ le_rfl) text uri, fun index hindex => hfixes index ?_,
      hfirst.merge (Catalog.rooted_ofText text uri),
      hsecond.merge (Catalog.rooted_ofText text uri)⟩
    exact (size_le_merge first _).trans hindex

theorem Refiled.resolve (h : env.Refiled number other)
    (hfixes : ∀ index, env.files.size ≤ index → number index = index) (hsound : env.Sound)
    (hsound' : other.Sound) (access : RepositoryAccess) (filter : Option String) :
    let run := env.resolve access filter
    let run' := other.resolve access filter
    run'.isComplete = run.isComplete ∧ run'.queries = run.queries ∧
      (run.isComplete = true → run.env.Refiled number run'.env) := by
  intro run run'
  have hlike : (refiledLikeness number).env env other := ⟨h, hfixes, hsound, hsound'⟩
  obtain ⟨last, hlast, hcomplete, hqueries, hbinds⟩ :=
    (resolves_resolve env access filter).alike hlike
  obtain rfl := (resolves_resolve other access filter).unique hlast
  refine ⟨hcomplete, hqueries, fun hdone => ?_⟩
  obtain ⟨closed, closed', ⟨hclosed, -, hsound, hsound'⟩, hleft, hright⟩ := hbinds hdone
  change run.env = closed.bind at hleft
  change run'.env = closed'.bind at hright
  rw [hleft, hright]
  exact hclosed.bind hsound hsound'

/-! ### Two neighbours change places -/

/-- The names of the models that a file brings. -/
def namesBrought (file : String × Option String) : List String :=
  (Catalog.ofText file.1 file.2).modelNames

theorem add_of_not_known {catalog : Catalog}
    (h : ¬catalog.modelNames.all env.knowsModel = true) :
    (env.add catalog).1 = append { env with
      version := if env.files.size ≤ 1 then catalog.schemaVersion else env.version } catalog := by
  rw [add]
  split
  · exact congrArg Prod.fst (if_neg h)
  · exact congrArg Prod.fst (if_neg h)

/-- A file without a new model is dropped, but may have set the version. -/
theorem add_of_known {catalog : Catalog} (h : catalog.modelNames.all env.knowsModel = true) :
    (env.add catalog).1 = { env with
      version := if env.files.size ≤ 1 then catalog.schemaVersion else env.version } := by
  rw [add]
  split
  · exact congrArg Prod.fst (if_pos h)
  · exact congrArg Prod.fst (if_pos h)

/-- A file that brings models of new names only, and at least one, is stored behind the others. -/
theorem add_of_new {catalog : Catalog} (hmodels : catalog.modelNames ≠ [])
    (hnew : ∀ name ∈ catalog.modelNames, env.knowsModel name = false) :
    (env.add catalog).1 = append { env with
      version := if env.files.size ≤ 1 then catalog.schemaVersion else env.version } catalog := by
  obtain ⟨name, hname⟩ := List.exists_mem_of_ne_nil _ hmodels
  refine add_of_not_known fun hall => ?_
  have hknown := List.all_eq_true.mp hall name hname
  rw [hnew name hname] at hknown
  cases hknown

theorem size_append (env : Environment) (catalog : Catalog) :
    (env.append catalog).files.size = env.files.size + 1 :=
  Array.size_push ..

section Swap

variable (env) (catalog catalog' : Catalog)

def swapNext : Equiv.Perm Nat :=
  Equiv.swap env.files.size (env.files.size + 1)

theorem swapNext_of_lt {index : Nat} (h : index < env.files.size) : env.swapNext index = index :=
  Equiv.swap_apply_of_ne_of_ne (by omega) (by omega)

theorem file?_swapNext (index : Nat) :
    ((env.append catalog').append catalog).file? (env.swapNext index) =
      ((env.append catalog).append catalog').file? index := by
  simp only [file?_append, size_append]
  by_cases hleft : index = env.files.size
  · rw [hleft, swapNext, Equiv.swap_apply_left]
    simp
  · by_cases hright : index = env.files.size + 1
    · rw [hright, swapNext, Equiv.swap_apply_right]
      simp
    · rw [swapNext, Equiv.swap_apply_of_ne_of_ne hleft hright]
      simp [hleft, hright]

variable {env catalog catalog'} (hself : env.Renumbered (.ofFiles env.swapNext) env)

include hself

theorem model?_swapNext (hdisjoint : List.Disjoint catalog.modelNames catalog'.modelNames)
    (name : String) :
    ((env.append catalog').append catalog).model? name =
      (((env.append catalog).append catalog').model? name).map (.refile env.swapNext) := by
  have hname : env.model? name = (env.model? name).map (.refile env.swapNext) := hself.model? name
  have hfirst (model : Nat) : DefinitionId.refile env.swapNext ⟨env.files.size, model⟩ =
      ⟨env.files.size + 1, model⟩ := by
    rw [DefinitionId.refile, swapNext, Equiv.swap_apply_left]
  have hsecond (model : Nat) : DefinitionId.refile env.swapNext ⟨env.files.size + 1, model⟩ =
      ⟨env.files.size, model⟩ := by
    rw [DefinitionId.refile, swapNext, Equiv.swap_apply_right]
  have hnone {catalog : Catalog} (hmem : name ∉ catalog.modelNames) :
      (catalog.models.find? fun model => catalog.nameOf model == name) = none :=
    List.find?_eq_none.mpr fun model hmodel heq =>
      hmem (List.mem_map.mpr ⟨model, hmodel, beq_iff_eq.mp heq⟩)
  have hunshared : (catalog.models.find? fun model => catalog.nameOf model == name) = none ∨
      (catalog'.models.find? fun model => catalog'.nameOf model == name) = none := by
    by_cases hmem : name ∈ catalog.modelNames
    · exact .inr (hnone (hdisjoint hmem))
    · exact .inl (hnone hmem)
  simp only [model?_append, size_append]
  cases hknown : env.model? name with
  | some model =>
    rw [hknown] at hname
    simpa only [Option.some_or] using hname
  | none =>
    rcases hunshared with hnot | hnot
    · rw [hnot]
      simp [Function.comp_def, hsecond]
    · rw [hnot]
      simp [Function.comp_def, hfirst]

theorem reference?_swapNext
    (hunbound : ∀ reference ∈ catalog.references, reference.state = .unbound)
    (hunbound' : ∀ reference ∈ catalog'.references, reference.state = .unbound) (id : ReferenceId) :
    ((env.append catalog').append catalog).reference? (id.refile env.swapNext) =
      (((env.append catalog).append catalog').reference? id).map (.refile env.swapNext) := by
  have hmoved : ((env.append catalog').append catalog).reference? (id.refile env.swapNext) =
      ((env.append catalog).append catalog').reference? id :=
    congrArg (Option.bind · _) (file?_swapNext env catalog catalog' id.file)
  rw [hmoved]
  cases hfound : ((env.append catalog).append catalog').reference? id with
  | none => rfl
  | some reference =>
    have hstate : reference.state = reference.state.renumber (.refile env.swapNext) := by
      simp only [reference?, file?_append, size_append] at hfound
      split at hfound
      · rw [hunbound' reference (Array.mem_of_getElem? hfound)]
        rfl
      · split at hfound
        · rw [hunbound reference (Array.mem_of_getElem? hfound)]
          rfl
        · refine hself.bound hfound ?_
          obtain ⟨before, hbefore, -⟩ := Option.bind_eq_some_iff.mp hfound
          have hlt : id.file < env.files.size := (Array.getElem?_eq_some_iff.mp hbefore).1
          change ((env.file? (env.swapNext id.file)).bind _) = _
          rwa [env.swapNext_of_lt hlt]
    rw [Option.map_some, Reference.refile, ← hstate]

end Swap

/-- What the next two files bring does not depend on which of them comes first. -/
theorem refiled_swapNext (hself : env.SelfContained) (hfirst : 0 < env.files.size)
    {file file' : String × Option String}
    (hdisjoint : List.Disjoint (namesBrought file) (namesBrought file')) :
    ((env.append (.ofText file.1 file.2)).append (.ofText file'.1 file'.2)).Refiled env.swapNext
      ((env.append (.ofText file'.1 file'.2)).append (.ofText file.1 file.2)) := by
  have henv : env.Renumbered (.ofFiles env.swapNext) env :=
    hself _ fun index hindex => ⟨env.swapNext_of_lt hindex, rfl, rfl⟩
  have hunbound := Catalog.unbound_ofText
  exact ⟨rfl, by simp only [size_append], fun index => by rw [file?_swapNext],
    model?_swapNext henv hdisjoint, reference?_swapNext henv (hunbound _ _) (hunbound _ _),
    env.swapNext_of_lt hfirst⟩

/-! ### Any permutation -/

/-- Files with models of their own, which are unknown to the environment, for the same version. -/
structure Independent (env : Environment) (version : Option String)
    (files : List (String × Option String)) : Prop where
  models : ∀ file ∈ files, namesBrought file ≠ []
  new : ∀ file ∈ files, ∀ name ∈ namesBrought file, env.knowsModel name = false
  apart : files.Pairwise fun file other => List.Disjoint (namesBrought file) (namesBrought other)
  version : ∀ file ∈ files, (Catalog.ofText file.1 file.2).schemaVersion = version

/-- Behind the first files the numbers of the ones go over to the numbers of the others. -/
structure Carries (size : Nat) (files others : List (String × Option String))
    (number : Equiv.Perm Nat) : Prop where
  before : ∀ index < size, number index = index
  behind : ∀ index, size + files.length ≤ index → number index = index
  file : ∀ {i : Nat} {file : String × Option String}, files[i]? = some file →
    ∃ j, others[j]? = some file ∧ number (size + i) = size + j

namespace Independent

variable {version : Option String} {files others : List (String × Option String)}
variable {file file' : String × Option String}

theorem perm (h : env.Independent version files) (hperm : files.Perm others) :
    env.Independent version others where
  models file hmem := h.models file (hperm.mem_iff.mpr hmem)
  new file hmem := h.new file (hperm.mem_iff.mpr hmem)
  apart := hperm.pairwise h.apart fun hdisjoint => hdisjoint.symm
  version file hmem := h.version file (hperm.mem_iff.mpr hmem)

theorem add_eq (h : env.Independent version (file :: files)) :
    (env.add (.ofText file.1 file.2)).1 = append { env with
      version := if env.files.size ≤ 1 then version else env.version } (.ofText file.1 file.2) := by
  rw [add_of_new (h.models file List.mem_cons_self) (h.new file List.mem_cons_self),
    h.version file List.mem_cons_self]

theorem tail (h : env.Independent version (file :: files)) :
    (env.add (.ofText file.1 file.2)).1.Independent version files where
  models other hmem := h.models other (List.mem_cons_of_mem _ hmem)
  new other hmem name hname := by
    rw [Bool.eq_false_iff, h.add_eq, Ne, knowsModel_append]
    rintro (hold | hbrought)
    · have hnew := h.new other (List.mem_cons_of_mem _ hmem) name hname
      rw [show env.knowsModel name = true from hold] at hnew
      cases hnew
    · exact List.rel_of_pairwise_cons h.apart hmem hbrought hname
  apart := h.apart.tail
  version other hmem := h.version other (List.mem_cons_of_mem _ hmem)

theorem size_add (h : env.Independent version (file :: files)) :
    (env.add (.ofText file.1 file.2)).1.files.size = env.files.size + 1 := by
  rw [h.add_eq]
  exact size_append _ _

theorem add_add_eq (h : env.Independent version (file :: file' :: files))
    (hfirst : 0 < env.files.size) :
    ((env.add (.ofText file.1 file.2)).1.add (.ofText file'.1 file'.2)).1 =
      (append { env with version := if env.files.size ≤ 1 then version else env.version }
        (.ofText file.1 file.2)).append (.ofText file'.1 file'.2) := by
  rw [h.tail.add_eq, h.size_add, if_neg (by omega), h.add_eq]

theorem refiled_add_add (h : env.Independent version (file :: file' :: files))
    (hself : env.SelfContained) (hfirst : 0 < env.files.size) :
    ((env.add (.ofText file.1 file.2)).1.add (.ofText file'.1 file'.2)).1.Refiled env.swapNext
      ((env.add (.ofText file'.1 file'.2)).1.add (.ofText file.1 file.2)).1 := by
  rw [h.add_add_eq hfirst, (h.perm (.swap file' file files)).add_add_eq hfirst]
  have hbase := hself.of_version (if env.files.size ≤ 1 then version else env.version)
  exact refiled_swapNext hbase hfirst (List.rel_of_pairwise_cons h.apart List.mem_cons_self)

end Independent

namespace Carries

variable {size : Nat} {files others rest : List (String × Option String)}

theorem refl (size : Nat) (files : List (String × Option String)) :
    Carries size files files (.refl Nat) :=
  ⟨fun _ _ => rfl, fun _ _ => rfl, fun hfile => ⟨_, hfile, rfl⟩⟩

theorem cons (h : Carries (size + 1) files others number) (file : String × Option String) :
    Carries size (file :: files) (file :: others) number where
  before index hindex := h.before index (by omega)
  behind index hindex := h.behind index (by rw [List.length_cons] at hindex; omega)
  file {i other} hother := by
    cases i with
    | zero => exact ⟨0, hother, h.before size (by omega)⟩
    | succ i =>
      obtain ⟨j, hj, hnumber⟩ := h.file hother
      rw [Nat.add_right_comm, Nat.add_right_comm size 1 j] at hnumber
      exact ⟨j + 1, hj, hnumber⟩

theorem trans (h : Carries size files others number) (h' : Carries size others rest more)
    (hlength : files.length = others.length) : Carries size files rest (number.trans more) where
  before index hindex := by
    rw [Equiv.trans_apply, h.before index hindex, h'.before index hindex]
  behind index hindex := by
    rw [Equiv.trans_apply, h.behind index hindex, h'.behind index (hlength ▸ hindex)]
  file hfile := by
    obtain ⟨j, hother, hnumber⟩ := h.file hfile
    obtain ⟨k, hrest, hmore⟩ := h'.file hother
    exact ⟨k, hrest, by rw [Equiv.trans_apply, hnumber, hmore]⟩

theorem swap (env : Environment) (file file' : String × Option String) :
    Carries env.files.size (file :: file' :: rest) (file' :: file :: rest) env.swapNext where
  before index hindex := env.swapNext_of_lt hindex
  behind index hindex := by
    rw [List.length_cons, List.length_cons] at hindex
    exact Equiv.swap_apply_of_ne_of_ne (by omega) (by omega)
  file {i other} hother := by
    match i with
    | 0 => exact ⟨1, hother, Equiv.swap_apply_left ..⟩
    | 1 => exact ⟨0, hother, Equiv.swap_apply_right ..⟩
    | i + 2 => exact ⟨i + 2, hother, Equiv.swap_apply_of_ne_of_ne (by omega) (by omega)⟩

end Carries

/-- Whatever the order, the same files come to the same environment but for their numbers. -/
theorem Independent.exists_refiled {version : Option String}
    {files others : List (String × Option String)} (h : env.Independent version files)
    (hsession : env.Session) (hperm : files.Perm others) :
    ∃ number, Carries env.files.size files others number ∧
      (env.addFiles files).Refiled number (env.addFiles others) := by
  induction hperm generalizing env with
  | nil =>
    exact ⟨.refl Nat, .refl _ [], (hsession.selfContained (.ofFiles (.refl Nat))
      fun _ _ => ⟨rfl, rfl, rfl⟩).refiled fun _ => rfl⟩
  | cons file _ ih =>
    obtain ⟨number, hcarries, hrefiled⟩ := ih h.tail (.add hsession file.1 file.2)
    rw [h.size_add] at hcarries
    exact ⟨number, hcarries.cons file, hrefiled⟩
  | swap file file' rest =>
    have hfirst := hsession.sound.first
    refine ⟨env.swapNext, .swap env file' file,
      (h.refiled_add_add hsession.selfContained hfirst).addFiles (fun index hindex => ?_) rest⟩
    rw [h.tail.size_add, h.size_add] at hindex
    exact Equiv.swap_apply_of_ne_of_ne (by omega) (by omega)
  | trans hfirst _ ih ih' =>
    obtain ⟨number, hcarries, hrefiled⟩ := ih h hsession
    obtain ⟨more, hcarries', hrefiled'⟩ := ih' (h.perm hfirst) hsession
    exact ⟨number.trans more, hcarries.trans hcarries' hfirst.length_eq,
      hrefiled.trans hrefiled'⟩

theorem Session.addFiles (h : env.Session) (files : List (String × Option String)) :
    (env.addFiles files).Session := by
  induction files generalizing env with
  | nil => exact h
  | cons file _ ih => exact ih (.add h file.1 file.2)

theorem keeps_addFiles (env : Environment) (files : List (String × Option String)) :
    env.Keeps (env.addFiles files) := by
  induction files generalizing env with
  | nil => exact .refl env
  | cons file _ ih => exact (keeps_add env _).trans (ih _)

theorem Independent.file?_addFiles {version : Option String} {files : List (String × Option String)}
    (h : env.Independent version files) {i : Nat} {file : String × Option String}
    (hfile : files[i]? = some file) :
    ∃ catalog, (env.addFiles files).file? (env.files.size + i) = some catalog ∧
      catalog.asRead = (Catalog.ofText file.1 file.2).asRead := by
  induction files generalizing env i with
  | nil => cases hfile
  | cons head rest ih =>
    cases i with
    | zero =>
      obtain rfl : head = file := Option.some.inj hfile
      refine (keeps_addFiles (env.add _).1 rest).file? ?_
      rw [h.add_eq, file?_append]
      exact if_pos rfl
    | succ i =>
      have hrest := ih h.tail hfile
      rwa [h.size_add, Nat.add_right_comm] at hrest

theorem Independent.size_addFiles {version : Option String}
    {files : List (String × Option String)} (h : env.Independent version files) :
    (env.addFiles files).files.size = env.files.size + files.length := by
  induction files generalizing env with
  | nil => rfl
  | cons _ _ ih =>
    refine (ih h.tail).trans ?_
    rw [h.size_add, List.length_cons, Nat.add_right_comm, Nat.add_assoc]

theorem modelNames_predefinedCatalog : predefinedCatalog.modelNames = ["INTERLIS"] := by
  rw [predefinedCatalog_eq]
  decide +kernel

theorem knowsModel_initial (name : String) :
    initial.knowsModel name = true ↔ name = "INTERLIS" := by
  rw [initial, knowsModel_append, modelNames_predefinedCatalog, List.mem_singleton]
  exact or_iff_right Bool.false_ne_true

/-- User files with models of different names, for the same version, may be added in any order. The
runs are complete or not and make the same queries. In a complete one every reference of every file
is bound to the definition of the same text and number as in the other one, or in neither, and the
same models are known. -/
theorem resolve_of_perm {files others : List (String × Option String)} (hperm : files.Perm others)
    (hmodels : ∀ file ∈ files, namesBrought file ≠ [])
    (hdistinct : (files.flatMap namesBrought).Nodup)
    (hpredefined : "INTERLIS" ∉ files.flatMap namesBrought)
    (hversion : ∀ file ∈ files, ∀ other ∈ files,
      (Catalog.ofText file.1 file.2).schemaVersion =
        (Catalog.ofText other.1 other.2).schemaVersion)
    (access : RepositoryAccess) (filter : Option String) :
    let run := (initial.addFiles files).resolve access filter
    let run' := (initial.addFiles others).resolve access filter
    run'.isComplete = run.isComplete ∧ run'.queries = run.queries ∧
      (run.isComplete = true →
        (∀ name, run'.env.knowsModel name = run.env.knowsModel name) ∧
          ∃ number, Carries 1 files others number ∧ run.env.Refiled number run'.env ∧
            ∀ {i : Nat} {file : String × Option String}, files[i]? = some file →
              ∃ catalog, run.env.file? (1 + i) = some catalog ∧
                catalog.asRead = (Catalog.ofText file.1 file.2).asRead) := by
  intro run run'
  obtain ⟨version, hversions⟩ : ∃ version, ∀ file ∈ files,
      (Catalog.ofText file.1 file.2).schemaVersion = version := by
    cases files with
    | nil => exact ⟨none, nofun⟩
    | cons first _ => exact ⟨_, fun file hfile => hversion file hfile first List.mem_cons_self⟩
  have hnew (file : String × Option String) (hfile : file ∈ files) (name : String)
      (hname : name ∈ namesBrought file) : initial.knowsModel name = false := by
    rw [Bool.eq_false_iff, Ne, knowsModel_initial]
    rintro rfl
    exact hpredefined (List.mem_flatMap.mpr ⟨file, hfile, hname⟩)
  have hindependent : initial.Independent version files :=
    ⟨hmodels, hnew, (List.nodup_flatMap.mp hdistinct).2, hversions⟩
  obtain ⟨number, hcarries, hrefiled⟩ := hindependent.exists_refiled .initial hperm
  have hfixes (index : Nat) (hindex : (initial.addFiles files).files.size ≤ index) :
      number index = index :=
    hcarries.behind index (hindependent.size_addFiles ▸ hindex)
  obtain ⟨hcomplete, hqueries, hbinds⟩ := hrefiled.resolve hfixes
    (Session.initial.addFiles files).sound (Session.initial.addFiles others).sound access filter
  refine ⟨hcomplete, hqueries, fun hdone => ⟨fun name => ?_, number, hcarries, hbinds hdone,
    fun hfile => ?_⟩⟩
  · exact congrFun (hbinds hdone).renumbered.knowsModel_eq name
  · obtain ⟨catalog, hcatalog, hread⟩ := hindependent.file?_addFiles hfile
    obtain ⟨catalog', hcatalog', hread'⟩ :=
      (keeps_resolve (initial.addFiles files) access filter).file? hcatalog
    exact ⟨catalog', hcatalog', hread'.trans hread⟩

def offeringText : String :=
  "INTERLIS 2.4; MODEL A = CLASS X = END X; END A."

def derivingText : String :=
  "INTERLIS 2.4; MODEL B = IMPORTS A; CLASS Y EXTENDS A.X = END Y; END B."

def offeringSpelling : { chars : List Char // offeringText = String.ofList chars } :=
  ⟨_, rfl⟩

def derivingSpelling : { chars : List Char // derivingText = String.ofList chars } :=
  ⟨_, rfl⟩

/-- Nothing is missing, and the class that is extended is bound. -/
def BindsOffered (env : Environment) : Prop :=
  env.missingImports.entries = [] ∧
    ∃ reference ∈ env.bind.reference? ⟨2, 1⟩, reference.state = .resolved ⟨1, 1⟩

instance (env : Environment) : Decidable env.BindsOffered :=
  inferInstanceAs (Decidable (_ ∧ _))

theorem bindsOffered_derivingText :
    (initial.addFiles [(offeringText, none), (derivingText, none)]).BindsOffered := by
  rw [initial_eq_spelledInitial, addFiles, List.foldl_cons, List.foldl_cons, Catalog.ofText,
    Catalog.ofText, tree_parse_of_eq offeringSpelling.2, tree_parse_of_eq derivingSpelling.2]
  decide +kernel

theorem namesBrought_offeringText : namesBrought (offeringText, none) = ["A"] := by
  rw [namesBrought, Catalog.ofText, tree_parse_of_eq offeringSpelling.2]
  decide +kernel

theorem namesBrought_derivingText : namesBrought (derivingText, none) = ["B"] := by
  rw [namesBrought, Catalog.ofText, tree_parse_of_eq derivingSpelling.2]
  decide +kernel

theorem schemaVersion_derivingText : (Catalog.ofText derivingText none).schemaVersion =
    (Catalog.ofText offeringText none).schemaVersion := by
  rw [Catalog.ofText, Catalog.ofText, tree_parse_of_eq offeringSpelling.2,
    tree_parse_of_eq derivingSpelling.2]
  decide +kernel

/-- When the file with the class is added last, it is its class that is found. -/
theorem resolve_of_perm_offered :
    ∃ reference ∈ ((initial.addFiles [(derivingText, none), (offeringText, none)]).resolve
      emptyAccess none).env.reference? ⟨1, 1⟩, reference.state = .resolved ⟨2, 1⟩ := by
  have hnames : [(offeringText, none), (derivingText, none)].flatMap namesBrought =
      ["A", "B"] := by
    simp [namesBrought_offeringText, namesBrought_derivingText]
  obtain ⟨-, -, hbinds⟩ := resolve_of_perm (.swap (derivingText, none) (offeringText, none) [])
    (by simp [namesBrought_offeringText, namesBrought_derivingText])
    (by rw [hnames]; decide) (by rw [hnames]; decide)
    (by simp [schemaVersion_derivingText]) emptyAccess none
  obtain ⟨-, number, hcarries, hrefiled, -⟩ :=
    hbinds (isComplete_resolve calledOff_emptyAccess _ none)
  have hne : (derivingText, none) ≠ (offeringText, none) := fun heq => by
    have hsame := congrArg namesBrought heq
    rw [namesBrought_offeringText, namesBrought_derivingText] at hsame
    revert hsame
    decide
  have hplaces : number 1 = 2 ∧ number 2 = 1 := by
    obtain ⟨i, hi, hfirst⟩ := hcarries.file (show [_, _][0]? = some (offeringText, none) from rfl)
    obtain ⟨j, hj, hsecond⟩ := hcarries.file (show [_, _][1]? = some (derivingText, none) from rfl)
    obtain rfl : i = 1 := by
      rcases i with _ | _ | i
      · exact absurd (Option.some.inj hi) hne
      · rfl
      · cases hi
    obtain rfl : j = 0 := by
      rcases j with _ | _ | j
      · rfl
      · exact absurd (Option.some.inj hj).symm hne
      · cases hj
    exact ⟨hfirst, hsecond⟩
  obtain ⟨hmissing, reference, hfound, hstate⟩ := bindsOffered_derivingText
  have hbound := hrefiled.reference? ⟨2, 1⟩
  rw [env_resolve_of_nothing_missing calledOff_emptyAccess none hmissing, hfound, Option.map_some,
    ReferenceId.refile, hplaces.2] at hbound
  refine ⟨_, hbound, ?_⟩
  rw [Reference.refile, hstate, Binding.renumber, DefinitionId.refile, hplaces.1]

end Environment

end Ili
