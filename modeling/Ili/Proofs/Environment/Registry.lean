import Ili.Proofs.Environment.Persistence
import Ili.Proofs.Environment.Providers
import Mathlib.Logic.Relation

/-!
# What an environment holds at any time

Files are added and the environment is resolved, in any order and with any providers. The names of
models are entered once and for all, and a file that has been stored is changed by binding only.
The version of an environment is the one of the first file behind the predefined one; as long as
there is no such file it may be the version of a file that was dropped.
-/

namespace Ili

def Catalog.asRead (catalog : Catalog) : Catalog :=
  { catalog with
    references := catalog.references.map fun reference => { reference with state := .unbound } }

namespace Environment

/-- What can be done to an environment. The provider can be another one each time, and the run can
be called off. -/
inductive Step : Environment → Environment → Prop
  | add (env : Environment) (text : String) (uri : Option String) :
      Step env (env.add (.ofText text uri)).1
  | resolve {env : Environment} {provider : Provider} {calledOff : Option Nat}
      {filter : Option String} {run : Resolution}
      (h : env.Resolves provider calledOff filter run) : Step env run.env

/-- The second environment comes about from the first one. -/
def Evolves : Environment → Environment → Prop :=
  Relation.ReflTransGen Step

/-- Names stand for models that have them, `INTERLIS` for the predefined one. Every other file has
a model that its name stands for, and the first one has the version of the environment. -/
structure Registered (env : Environment) : Prop where
  model : ∀ {name : String} {id : DefinitionId}, env.model? name = some id →
    ∃ definition, env.definition? id = some definition ∧ definition.kind = .model ∧
      definition.name = name
  first : env.file? 0 = some predefinedCatalog
  predefined : ∃ id, env.predefinedModel? = some id ∧ env.model? "INTERLIS" = some id
  brought : ∀ {index : Nat}, index ≠ 0 → index < env.files.size →
    ∃ name id, env.model? name = some id ∧ id.file = index
  version : ∀ {catalog : Catalog}, env.file? 1 = some catalog → catalog.schemaVersion = env.version

/-- The second environment has all names of the first one for the same models, and all its files
under the same numbers, with the same contents but for what is bound. -/
structure Keeps (env later : Environment) : Prop where
  model? : ∀ {name : String} {id : DefinitionId},
    env.model? name = some id → later.model? name = some id
  file? : ∀ {index : Nat} {catalog : Catalog}, env.file? index = some catalog →
    ∃ catalog', later.file? index = some catalog' ∧ catalog'.asRead = catalog.asRead

def Brings (env later : Environment) (version : Option String) : Prop :=
  ∀ {index : Nat} {catalog : Catalog}, later.file? index = some catalog →
    env.file? index = some catalog ∨ catalog.schemaVersion = version

/-! ### Nothing is lost -/

theorem Keeps.refl (env : Environment) : env.Keeps env :=
  ⟨id, fun hfile => ⟨_, hfile, rfl⟩⟩

theorem Keeps.trans {env later last : Environment} (h : env.Keeps later) (h' : later.Keeps last) :
    env.Keeps last where
  model? hmodel := h'.model? (h.model? hmodel)
  file? hfile := by
    obtain ⟨catalog, hlater, hsame⟩ := h.file? hfile
    obtain ⟨catalog', hlast, hsame'⟩ := h'.file? hlater
    exact ⟨catalog', hlast, hsame'.trans hsame⟩

theorem Extends.keeps {env larger : Environment} (h : env.Extends larger) : env.Keeps larger :=
  ⟨h.model?, fun hfile => ⟨_, h.file? hfile, rfl⟩⟩

theorem keeps_add (env : Environment) (catalog : Catalog) : env.Keeps (env.add catalog).1 := by
  rw [add]
  split
  · -- Another version is all that the file may change if it is dropped.
    have hversion : env.Keeps { env with version := catalog.schemaVersion } :=
      ⟨id, fun hfile => ⟨_, hfile, rfl⟩⟩
    exact hversion.trans (extends_merge _ catalog).keeps
  · exact (extends_merge env catalog).keeps

theorem asRead_bind (env : Environment) (index : Nat) :
    (env.bind.file? index).map Catalog.asRead = (env.file? index).map Catalog.asRead := by
  rw [file?_bind, Option.map_map]
  refine congrArg (Option.map · _) (funext fun catalog => ?_)
  rw [Function.comp_apply, Catalog.asRead, Catalog.asRead]
  congr 1
  apply Array.ext
  · simp
  · intro number _ _
    simp only [Array.getElem_map, Array.getElem_mapIdx]
    rw [boundReference_eq]

theorem keeps_bind (env : Environment) : env.Keeps env.bind where
  model? := id
  file? {index catalog} hfile := by
    have hbound := asRead_bind env index
    rw [hfile, Option.map_some] at hbound
    exact Option.map_eq_some_iff.mp hbound

theorem keeps_resolve (env : Environment) (access : RepositoryAccess) (filter : Option String) :
    env.Keeps (env.resolve access filter).env := by
  have hclosed := (extends_run access (env.queryFilter filter) env).keeps
  rcases env_resolve env access filter with heq | heq
  · exact heq ▸ hclosed
  · exact heq ▸ hclosed.trans (keeps_bind _)

/-! ### What holds of an environment goes on to hold -/

theorem registered_initial : initial.Registered where
  model {name id} hmodel := by
    obtain ⟨definition, hfound, -, hname⟩ := sound_initial.model hmodel
    refine ⟨definition, hfound, ?_, hname⟩
    obtain ⟨model, hmem, rfl⟩ : ∃ model ∈ predefinedCatalog.models, id = ⟨0, model⟩ := by
      have hnone : model? ⟨none, #[], .empty⟩ name = none := rfl
      rw [initial, model?_append, hnone, Option.none_or] at hmodel
      obtain ⟨model, hfind, rfl⟩ := Option.map_eq_some_iff.mp hmodel
      exact ⟨model, List.mem_of_find?_eq_some hfind, rfl⟩
    obtain ⟨found, hdefinition, hkind⟩ :=
      Catalog.kind_of_mem_models predefinedText (parse predefinedText).tree none model hmem
    rw [definition?, initial, file?_append, if_pos (by rfl), Option.bind_some] at hfound
    obtain rfl : found = definition := Option.some.inj (hdefinition.symm.trans hfound)
    exact hkind
  first := by
    rw [initial, file?_append]
    exact if_pos rfl
  predefined := by
    rw [initial_eq_spelledInitial]
    exact ⟨⟨0, 0⟩, by decide +kernel, by decide +kernel⟩
  brought hne hlt := absurd (Nat.lt_one_iff.mp hlt) hne
  version hfile := by cases hfile

theorem Registered.of_version {env : Environment} (h : env.Registered) (hfew : env.files.size ≤ 1)
    (version : Option String) : Registered { env with version } where
  model := h.model
  first := h.first
  predefined := h.predefined
  brought := h.brought
  version hfile := absurd (Array.getElem?_eq_some_iff.mp hfile).1 (Nat.not_lt.mpr hfew)

/-- A file that brings a new model is stored behind the others. Where it comes first behind the
predefined one, it has to be of the version of the environment. -/
theorem Registered.append {env : Environment} (h : env.Registered) {text : String}
    {uri : Option String} (hnew : ¬((Catalog.ofText text uri).modelNames.all env.knowsModel) = true)
    (hversion : env.files.size = 1 → (Catalog.ofText text uri).schemaVersion = env.version) :
    (env.append (.ofText text uri)).Registered := by
  have hextends := extends_append env (.ofText text uri)
  have hpositive : 0 < env.files.size := (Array.getElem?_eq_some_iff.mp h.first).1
  refine ⟨fun {name id} hmodel => ?_, hextends.file? h.first, ?_, fun {index} hne hlt => ?_,
    fun {catalog} hfile => ?_⟩
  · cases hold : env.model? name with
    | some before =>
      obtain rfl := Option.some.inj ((hextends.model? hold).symm.trans hmodel)
      obtain ⟨definition, hfound, hrest⟩ := h.model hold
      exact ⟨definition, hextends.definition? hfound, hrest⟩
    | none =>
      obtain ⟨definition, hfound, -, hname⟩ :=
        model_of_append (Catalog.rooted_ofText text uri) hmodel hold
      rw [model?_append, hold, Option.none_or] at hmodel
      obtain ⟨model, hfind, rfl⟩ := Option.map_eq_some_iff.mp hmodel
      obtain ⟨found, hdefinition, hkind⟩ :=
        Catalog.kind_of_mem_models _ _ _ model (List.mem_of_find?_eq_some hfind)
      refine ⟨definition, hfound, ?_, hname⟩
      rw [definition?, file?_append, if_pos rfl] at hfound
      obtain rfl : found = definition := Option.some.inj (hdefinition.symm.trans hfound)
      exact hkind
  · obtain ⟨id, hid, hmodel⟩ := h.predefined
    refine ⟨id, ?_, hextends.model? hmodel⟩
    rw [← hid, predefinedModel?, predefinedModel?, h.first, hextends.file? h.first]
  · by_cases hlast : index = env.files.size
    · obtain ⟨name, hname, hunknown⟩ : ∃ name ∈ (Catalog.ofText text uri).modelNames,
          env.model? name = none := by
        simpa [knowsModel, Dict.contains, model?] using hnew
      obtain ⟨model, hmodel, rfl⟩ := List.mem_map.mp hname
      obtain ⟨found, hfound⟩ := Option.isSome_iff_exists.mp
        (List.find?_isSome (p := fun other =>
        (Catalog.ofText text uri).nameOf other == (Catalog.ofText text uri).nameOf model).mpr
          ⟨model, hmodel, beq_self_eq_true _⟩)
      exact ⟨_, ⟨env.files.size, found⟩, by rw [model?_append, hunknown, hfound]; rfl, hlast.symm⟩
    · have hsize : (env.append (.ofText text uri)).files.size = env.files.size + 1 :=
        Array.size_push ..
      obtain ⟨name, id, hmodel, hid⟩ := h.brought hne (by omega)
      exact ⟨name, id, hextends.model? hmodel, hid⟩
  · rw [file?_append] at hfile
    split at hfile
    · next hfirst => exact Option.some.inj hfile ▸ hversion hfirst.symm
    · exact h.version hfile

theorem Registered.merge {env : Environment} (h : env.Registered) {text : String}
    {uri : Option String}
    (hversion : env.files.size = 1 → (Catalog.ofText text uri).schemaVersion = env.version) :
    (env.merge (.ofText text uri)).1.Registered := by
  rw [Environment.merge]
  split
  · exact h
  · next hnew => exact h.append hnew hversion

theorem Registered.add {env : Environment} (h : env.Registered) (text : String)
    (uri : Option String) : (env.add (.ofText text uri)).1.Registered := by
  rw [Environment.add]
  split
  · next hfew => exact (h.of_version hfew _).merge fun _ => rfl
  · next hmany => exact h.merge fun hone => absurd hone.le hmany

theorem schemaVersion_of_taken? {access : RepositoryAccess} {filter version : Option String}
    {name : String} {catalog : Catalog} (h : access.taken? filter version name = some catalog) :
    catalog.schemaVersion = version :=
  of_decide_eq_true (Option.filter_eq_some_iff.mp h).2

theorem Registered.answered {env : Environment} (h : env.Registered) (access : RepositoryAccess)
    (filter : Option String) (name : String) : (env.answered access filter name).Registered := by
  rw [Environment.answered]
  split
  · exact h
  · next catalog htaken =>
    obtain ⟨text, uri, rfl⟩ := eq_ofText_of_taken? htaken
    exact h.merge fun _ => schemaVersion_of_taken? htaken

theorem Registered.closed {env : Environment} (h : env.Registered) (access : RepositoryAccess)
    (filter : Option String) : (Closure.run access filter env).env.Registered := by
  rw [(Closure.consistent_run access filter env).env_eq]
  generalize (Closure.run access filter env).asked = names
  induction names generalizing env with
  | nil => exact h
  | cons name rest ih => exact ih (h.answered access filter name)

theorem file?_zero_bind (env : Environment) : env.bind.file? 0 = env.file? 0 := by
  have hkeeps (number : Nat) (reference : Reference) :
      env.boundReference ⟨0, number⟩ reference = reference := by
    rw [boundReference, if_neg fun h => h.1 rfl]
  rw [file?_bind]
  cases env.file? 0 with
  | none => rfl
  | some catalog =>
    rw [Option.map_some, funext fun number => funext (hkeeps number)]
    congr 1
    obtain ⟨_, _, _, references, _⟩ := catalog
    congr 1
    exact Array.ext (by simp) (by simp)

theorem Registered.bind {env : Environment} (h : env.Registered) : env.bind.Registered where
  model hmodel := by
    obtain ⟨definition, hfound, hrest⟩ := h.model hmodel
    exact ⟨definition, by rw [definition?_bind, hfound], hrest⟩
  first := by rw [file?_zero_bind, h.first]
  predefined := by
    obtain ⟨id, hid, hmodel⟩ := h.predefined
    exact ⟨id, by rw [predefinedModel?_bind, hid], hmodel⟩
  brought hne hlt := h.brought hne (lt_of_lt_of_eq hlt Array.size_mapIdx)
  version hfile := by
    rw [file?_bind] at hfile
    obtain ⟨catalog, hcatalog, rfl⟩ := Option.map_eq_some_iff.mp hfile
    exact (h.version hcatalog :)

theorem Registered.step {env later : Environment} (h : env.Registered) (hstep : env.Step later) :
    later.Registered := by
  cases hstep with
  | add text uri => exact h.add text uri
  | resolve hrun =>
    obtain ⟨access, -, -, rfl⟩ := hrun.exists_access
    rename_i filter
    have hclosed := h.closed access (env.queryFilter filter)
    rcases env_resolve env access filter with heq | heq
    · exact heq ▸ hclosed
    · exact heq ▸ hclosed.bind

theorem Step.keeps {env later : Environment} (h : env.Step later) : env.Keeps later := by
  cases h with
  | add text uri => exact keeps_add env _
  | resolve hrun =>
    obtain ⟨access, -, -, rfl⟩ := hrun.exists_access
    exact keeps_resolve env access _

/-! ### What a closure brings -/

theorem brings_answered (access : RepositoryAccess) (filter : Option String) (env : Environment)
    (name : String) : env.Brings (env.answered access filter name) env.version := by
  intro index catalog hfile
  rw [answered] at hfile
  split at hfile
  · exact .inl hfile
  · next taken htaken =>
    rw [merge] at hfile
    split at hfile
    · exact .inl hfile
    · rw [file?_append] at hfile
      split at hfile
      · exact .inr (Option.some.inj hfile ▸ schemaVersion_of_taken? htaken)
      · exact .inl hfile

theorem brings_foldl_answered (access : RepositoryAccess) (filter : Option String)
    (env : Environment) (names : List String) :
    env.Brings (names.foldl (answered access filter) env) env.version := by
  induction names generalizing env with
  | nil => exact fun hfile => .inl hfile
  | cons name rest ih =>
    intro index catalog hfile
    have hversion := (extends_answered access filter env name).version
    rcases ih _ hfile with hbefore | hfitting
    · exact brings_answered access filter env name hbefore
    · exact .inr (hversion ▸ hfitting)

/-- A file that a run appends is written for the version of the first file behind the predefined
one. -/
theorem Registered.schemaVersion_of_resolves {env : Environment} (h : env.Registered)
    {provider : Provider} {calledOff : Option Nat} {filter : Option String} {run : Resolution}
    (hrun : env.Resolves provider calledOff filter run) {index : Nat} {catalog : Catalog}
    (hindex : env.files.size ≤ index) (hfile : run.env.file? index = some catalog) :
    ∃ first, run.env.file? 1 = some first ∧ catalog.schemaVersion = first.schemaVersion := by
  have hregistered : run.env.Registered := h.step (.resolve hrun)
  obtain ⟨access, -, -, rfl⟩ := hrun.exists_access
  set closed := (Closure.run access (env.queryFilter filter) env).env with hclosed
  have hextends : env.Extends closed := extends_run access (env.queryFilter filter) env
  have hfits : catalog.schemaVersion = env.version := by
    obtain ⟨before, hbefore, hversion⟩ : ∃ before, closed.file? index = some before ∧
        before.schemaVersion = catalog.schemaVersion := by
      rcases env_resolve env access filter with heq | heq
      · exact ⟨catalog, by rw [hclosed, ← heq, hfile], rfl⟩
      · rw [heq, file?_bind] at hfile
        obtain ⟨before, hbefore, rfl⟩ := Option.map_eq_some_iff.mp hfile
        exact ⟨before, hbefore, rfl⟩
    rw [hclosed, (Closure.consistent_run access _ env).env_eq] at hbefore
    rw [← hversion]
    refine (brings_foldl_answered access _ env _ hbefore).resolve_left fun hold => ?_
    exact absurd (Array.getElem?_eq_some_iff.mp hold).1 (by omega)
  have hmany : 1 < (env.resolve access filter).env.files.size := by
    have hlt := (Array.getElem?_eq_some_iff.mp hfile).1
    have hpositive : 0 < env.files.size := (Array.getElem?_eq_some_iff.mp h.first).1
    omega
  refine ⟨_, Array.getElem?_eq_getElem hmany, ?_⟩
  rw [hfits, hregistered.version (Array.getElem?_eq_getElem hmany), ← hextends.version]
  rcases env_resolve env access filter with heq | heq
  · rw [heq]
  · rw [heq]
    rfl

/-- Whatever is done to the initial environment: names stand for models of stored files, every file
but the predefined one has a model that is known, nothing that has been stored is lost, and the
files that a run appends are written for the version of the environment, which is that of the first
file behind the predefined one. -/
theorem Evolves.registry {env later : Environment} (h : initial.Evolves env)
    (hlater : env.Evolves later) :
    env.Registered ∧ env.Keeps later ∧
      ∀ {provider : Provider} {calledOff : Option Nat} {filter : Option String} {run : Resolution},
        env.Resolves provider calledOff filter run →
        ∀ {index : Nat} {catalog : Catalog}, env.files.size ≤ index →
          run.env.file? index = some catalog →
          ∃ first, run.env.file? 1 = some first ∧
            catalog.schemaVersion = first.schemaVersion := by
  have hregistered : env.Registered := by
    clear hlater
    induction h with
    | refl => exact registered_initial
    | tail _ hstep ih => exact ih.step hstep
  refine ⟨hregistered, ?_, hregistered.schemaVersion_of_resolves⟩
  induction hlater with
  | refl => exact .refl env
  | tail _ hstep ih => exact ih.trans hstep.keeps

def importingText : String :=
  "INTERLIS 2.4; MODEL U = IMPORTS A; END U."

def importedAccess : RepositoryAccess :=
  ⟨⟨[⟨"A", "ili2_4", "a.ili", "INTERLIS 2.4; MODEL A = END A."⟩]⟩, [], none⟩

def importing (base : Environment) : Environment :=
  (base.add (.ofText importingText none)).1

def importedSite : ImportSite :=
  ⟨none, ⟨⟨0, 32⟩, ⟨0, 33⟩⟩⟩

def fetched (base : Environment) : Environment :=
  (Closure.step importedAccess (some "ili2_4") (.start (importing base)) ("A", importedSite)).env

def Fetches (base : Environment) : Prop :=
  (importing base).queryFilter none = some "ili2_4" ∧
    (importing base).missingImports.entries = [("A", importedSite)] ∧
    (fetched base).missingImports.entries = [] ∧
    (importing base).files.size = 2 ∧ (fetched base).files.size = 3

instance (base : Environment) : Decidable base.Fetches :=
  inferInstanceAs (Decidable (_ ∧ _))

theorem fetches_initial : Fetches initial := by
  rw [initial_eq_spelledInitial]
  decide +kernel

/-- One query closes the environment, unless the run is called off before it. -/
theorem run_importing {base : Environment} {calledOff : Option Nat} (hon : calledOff ≠ some 0)
    (hmissing : (importing base).missingImports.entries = [("A", importedSite)])
    (hnothing : (fetched base).missingImports.entries = []) :
    Closure.run ⟨importedAccess.repository, [], calledOff⟩ (some "ili2_4") (importing base) =
      Closure.step importedAccess (some "ili2_4") (.start (importing base))
        ("A", importedSite) := by
  have hstep : Closure.step ⟨importedAccess.repository, [], calledOff⟩ (some "ili2_4")
      (.start (importing base)) ("A", importedSite) =
        Closure.step importedAccess (some "ili2_4") (.start (importing base))
          ("A", importedSite) := by
    cases calledOff with
    | none => rfl
    | some number =>
      cases number with
      | zero => exact absurd rfl hon
      | succ number => rfl
  rw [← hstep]
  exact Closure.run_of_single hmissing (by rw [hstep]; exact hnothing)

theorem queries_step_importing {base : Environment}
    (hmissing : (importing base).missingImports.entries = [("A", importedSite)]) :
    (Closure.step importedAccess (some "ili2_4") (.start (importing base))
      ("A", importedSite)).queries = [("A", some "ili2_4")] := by
  have hunknown : (importing base).knowsModel "A" = false :=
    (mem_missingImports.mp ⟨importedSite, hmissing ▸ List.mem_singleton.mpr rfl⟩).2
  exact Closure.queries_step_of_unknown rfl rfl hunknown importedSite

theorem resolve_importing {base : Environment} (h : base.Fetches) :
    ((importing base).resolve importedAccess none).queries = [("A", some "ili2_4")] ∧
      ((importing base).resolve importedAccess none).env = (fetched base).bind := by
  obtain ⟨hfilter, hmissing, hnothing, -⟩ := h
  have hrun : Closure.run importedAccess (some "ili2_4") (importing base) = _ :=
    run_importing nofun hmissing hnothing
  rw [(resolve_of_isComplete (isComplete_resolve rfl (importing base) none)).2, hfilter, hrun]
  exact ⟨queries_step_importing hmissing, rfl⟩

theorem size_resolve_importing {base : Environment} (h : base.Fetches) :
    ((importing base).resolve importedAccess none).env.files.size = 3 := by
  have hbound : (fetched base).bind.files.size = (fetched base).files.size := Array.size_mapIdx
  rw [(resolve_importing h).2, hbound]
  exact h.2.2.2.2

theorem knowsModel_fetched {base : Environment} (h : base.Fetches) :
    (fetched base).knowsModel "A" = true := by
  obtain ⟨-, hmissing, hnothing, -⟩ := h
  obtain ⟨himports, -⟩ :=
    mem_missingImports.mp ⟨importedSite, hmissing ▸ List.mem_singleton.mpr rfl⟩
  have hgrows : (importing base).Extends (fetched base) :=
    (Closure.step_grows importedAccess (some "ili2_4") (.start (importing base))
      ("A", importedSite)).2.2
  rw [← Bool.not_eq_false]
  intro hunknown
  obtain ⟨site, hmem⟩ := mem_missingImports.mpr ⟨himports.of_extends hgrows, hunknown⟩
  rw [hnothing] at hmem
  cases hmem

/-- The imported model is fetched into the third file. -/
theorem Evolves.registry_importing :
    let env := importing initial
    let later := (env.resolve importedAccess none).env
    env.Registered ∧ env.Keeps later ∧
      ∃ last first, later.file? 2 = some last ∧ later.file? 1 = some first ∧
        last.schemaVersion = first.schemaVersion := by
  -- For any base, so that nothing in the proof computes the predefined catalog.
  suffices hbase : ∀ base : Environment, initial.Evolves base → base.Fetches →
      (importing base).Registered ∧
        (importing base).Keeps ((importing base).resolve importedAccess none).env ∧
        ∃ last first,
          ((importing base).resolve importedAccess none).env.file? 2 = some last ∧
            ((importing base).resolve importedAccess none).env.file? 1 = some first ∧
            last.schemaVersion = first.schemaVersion from
    hbase initial .refl fetches_initial
  intro base hevolves hfetches
  have hrun := resolves_resolve (importing base) importedAccess none
  obtain ⟨hregistered, hkeeps, hversion⟩ :=
    Evolves.registry (hevolves.tail (.add base importingText none)) (.single (.resolve hrun))
  have hsize : (importing base).files.size = 2 := hfetches.2.2.2.1
  have hlast : 2 < ((importing base).resolve importedAccess none).env.files.size := by
    rw [size_resolve_importing hfetches]
    decide
  have hfile := Array.getElem?_eq_getElem hlast
  obtain ⟨first, hfirst, hsame⟩ := hversion hrun hsize.le hfile
  exact ⟨hregistered, hkeeps, _, first, hfile, hfirst, hsame⟩

end Environment

end Ili
