import Ili.Proofs.Catalog.Names
import Ili.Proofs.Environment.Registry
import Ili.Proofs.Text.Pieces

/-!
# Qualified names

A qualified name is put together on the way up from a definition to its model; a path is followed on
the way down. As no name holds a dot, a qualified name is cut into the names that it was made of. It
leads back to its definition unless another one has been entered under a name on the way.
-/

namespace Ili

/-! ### Cutting what was joined -/

theorem splitWhere_dot_intercalate {names : List String} (hne : names ≠ [])
    (h : ∀ name ∈ names, '.' ∉ name.toList) :
    (splitWhere (· == '.') (".".intercalate names).toList).map String.ofList = names := by
  have hpieces : ∀ piece ∈ names.map String.toList, ∀ c ∈ piece, (c == '.') = false := by
    intro piece hpiece c hc
    obtain ⟨name, hname, rfl⟩ := List.mem_map.mp hpiece
    apply beq_eq_false_iff_ne.mpr
    rintro rfl
    exact h name hname hc
  calc (splitWhere (· == '.') (".".intercalate names).toList).map String.ofList
      = (splitWhere (· == '.') (['.'].intercalate (names.map String.toList))).map
          String.ofList := by rw [String.toList_intercalate]; rfl
    _ = (names.map String.toList).map String.ofList := by
        rw [splitWhere_intercalate (mt List.map_eq_nil_iff.mp hne) hpieces (by rfl)]
    _ = names := by
        rw [List.map_map]
        simp only [Function.comp_def, String.ofList_toList, List.map_id']

namespace Environment

/-! ### The files of a session -/

def Written (env : Environment) : Prop :=
  ∀ (index : Nat) (catalog : Catalog), env.file? index = some catalog →
    ∃ text uri, catalog.definitions = (Catalog.ofText text uri).definitions

theorem Written.append {env : Environment} (h : env.Written) (text : String)
    (uri : Option String) : (env.append (.ofText text uri)).Written := by
  intro index catalog hfile
  rw [file?_append] at hfile
  split at hfile
  · obtain rfl := Option.some.inj hfile
    exact ⟨text, uri, rfl⟩
  · exact h index catalog hfile

theorem written_initial : initial.Written := by
  have hempty : Written ⟨none, #[], .empty⟩ := by
    intro index catalog hfile
    cases hfile
  exact hempty.append predefinedText none

theorem Written.merge {env : Environment} (h : env.Written) (text : String)
    (uri : Option String) : (env.merge (.ofText text uri)).1.Written := by
  rw [Environment.merge]
  split
  · exact h
  · exact h.append text uri

theorem Written.add {env : Environment} (h : env.Written) (text : String) (uri : Option String) :
    (env.add (.ofText text uri)).1.Written := by
  rw [Environment.add]
  split
  · have hversion : Written { env with version := (Catalog.ofText text uri).schemaVersion } := h
    exact hversion.merge text uri
  · exact h.merge text uri

theorem Written.closed {env : Environment} (h : env.Written) (access : RepositoryAccess)
    (filter : Option String) : (Closure.run access filter env).env.Written := by
  intro index catalog hfile
  rw [(Closure.consistent_run access filter env).env_eq] at hfile
  rcases file?_foldl_answered hfile with hold | ⟨-, text, uri, rfl⟩
  · exact h index catalog hold
  · exact ⟨text, uri, rfl⟩

theorem Written.bind {env : Environment} (h : env.Written) : env.bind.Written := by
  intro index catalog hfile
  rw [file?_bind] at hfile
  obtain ⟨before, hbefore, rfl⟩ := Option.map_eq_some_iff.mp hfile
  exact h index before hbefore

theorem Session.written {env : Environment} (h : env.Session) : env.Written := by
  induction h with
  | initial => exact written_initial
  | add _ text uri ih => exact ih.add text uri
  | @resolve env _ access filter ih =>
    have hclosed := ih.closed access (env.queryFilter filter)
    rcases env_resolve env access filter with heq | heq
    · exact heq ▸ hclosed
    · exact heq ▸ hclosed.bind

theorem Evolves.session {env later : Environment} (h : env.Session) (hlater : env.Evolves later) :
    later.Session := by
  induction hlater with
  | refl => exact h
  | tail _ hstep ih =>
    cases hstep with
    | add text uri => exact ih.add text uri
    | resolve hrun =>
      obtain ⟨access, -, -, rfl⟩ := hrun.exists_access
      exact ih.resolve access _

theorem Written.dot_notMem_nameOf {env : Environment} (h : env.Written) (id : DefinitionId) :
    '.' ∉ (env.nameOf id).toList := by
  rw [nameOf, definition?]
  cases hfile : env.file? id.file with
  | none => exact List.not_mem_nil
  | some catalog =>
    obtain ⟨text, uri, hdefinitions⟩ := h _ _ hfile
    rw [Option.bind_some, Catalog.definition?, hdefinitions]
    cases hfound : (Catalog.ofText text uri).definitions[id.index]? with
    | none => exact List.not_mem_nil
    | some definition => exact Catalog.dot_notMem_name_ofText hfound

/-! ### Up and down -/

def namesDown (env : Environment) (id : DefinitionId) : List String :=
  ((env.chain id).map env.nameOf).reverse

/-- On the way down to the definition each one is what is found under its name. -/
def Unshadowed (env : Environment) (id : DefinitionId) : Prop :=
  ∀ inner ∈ env.chain id, ∀ outer ∈ env.parent? inner,
    env.child? outer (env.nameOf inner) = some inner

instance (env : Environment) (id : DefinitionId) : Decidable (env.Unshadowed id) :=
  inferInstanceAs (Decidable (∀ inner ∈ env.chain id, ∀ outer ∈ env.parent? inner, _))

theorem descend?_concat (env : Environment) (start : DefinitionId) (names : List String)
    (name : String) :
    env.descend? start (names ++ [name]) =
      (env.descend? start names).bind fun outer => env.child? outer name := by
  have hlast (outer : DefinitionId) : [name].foldlM env.child? outer = env.child? outer name := by
    rw [List.foldlM_cons]
    exact bind_pure _
  rw [descend?, List.foldlM_append]
  simp only [hlast]
  rfl

section Down

variable {env : Environment} (h : env.Sound) {id parent : DefinitionId}

include h

theorem Sound.induction_down {motive : DefinitionId → Prop}
    (top : ∀ id, env.parent? id = none → motive id)
    (below : ∀ id parent, env.parent? id = some parent → motive parent → motive id)
    (id : DefinitionId) : motive id := by
  obtain ⟨file, index⟩ := id
  induction index using Nat.strongRecOn with
  | ind index ih =>
    cases hparent : env.parent? ⟨file, index⟩ with
    | none => exact top _ hparent
    | some parent =>
      obtain ⟨above, -, rfl⟩ := Option.map_eq_some_iff.mp hparent
      exact below _ _ hparent (ih above (h.parent_lt hparent))

theorem Sound.namesDown_of_top (htop : env.parent? id = none) :
    env.namesDown id = [env.nameOf id] := by
  rw [namesDown, h.chain_eq, htop]
  rfl

theorem Sound.namesDown_of_parent? (hparent : env.parent? id = some parent) :
    env.namesDown id = env.namesDown parent ++ [env.nameOf id] := by
  rw [namesDown, h.chain_eq, hparent, Option.map_some, Option.getD_some, List.map_cons,
    List.reverse_cons]
  rfl

theorem Sound.namesDown_ne_nil (id : DefinitionId) : env.namesDown id ≠ [] := by
  rw [namesDown, h.chain_eq]
  simp

theorem Sound.modelOf_of_descend? {start : DefinitionId} {names : List String}
    (hdescend : env.descend? start names = some id) : env.modelOf id = env.modelOf start := by
  induction names generalizing start with
  | nil =>
    obtain rfl := Option.some.inj hdescend
    rfl
  | cons name rest ih =>
    rw [descend?, List.foldlM_cons] at hdescend
    obtain ⟨child, hchild, hrest⟩ := Option.bind_eq_some_iff.mp hdescend
    calc env.modelOf id
        = env.modelOf child := ih hrest
      _ = env.modelOf start := h.modelOf_of_parent? (h.parent?_of_child? hchild)

theorem Sound.unshadowed_of_parent? (hparent : env.parent? id = some parent) :
    env.Unshadowed id ↔
      env.Unshadowed parent ∧ env.child? parent (env.nameOf id) = some id := by
  rw [Unshadowed, h.chain_eq id, hparent, Option.map_some, Option.getD_some, List.forall_mem_cons,
    hparent, and_comm]
  simp only [Option.mem_some_iff, forall_eq']
  rfl

/-- Going down along the names of a definition ends at it just when nothing on the way is
shadowed. -/
theorem Sound.descend?_namesDown (id : DefinitionId) :
    ∃ rest, env.namesDown id = env.nameOf (env.modelOf id) :: rest ∧
      (env.descend? (env.modelOf id) rest = some id ↔ env.Unshadowed id) := by
  induction id using h.induction_down with
  | top id htop =>
    refine ⟨[], ?_, ?_⟩
    · rw [h.namesDown_of_top htop, h.modelOf_of_top htop]
    · rw [h.modelOf_of_top htop, Unshadowed, h.chain_eq, htop]
      simp [descend?, htop]
  | below id parent hparent ih =>
    obtain ⟨rest, hnames, hiff⟩ := ih
    have hmodel : env.modelOf id = env.modelOf parent := h.modelOf_of_parent? hparent
    refine ⟨rest ++ [env.nameOf id], ?_, ?_⟩
    · rw [h.namesDown_of_parent? hparent, hnames, hmodel, List.cons_append]
    · rw [hmodel, h.unshadowed_of_parent? hparent, ← hiff, descend?_concat]
      constructor
      · intro hdescend
        obtain ⟨outer, houter, hchild⟩ := Option.bind_eq_some_iff.mp hdescend
        obtain rfl : outer = parent :=
          Option.some.inj ((h.parent?_of_child? hchild).symm.trans hparent)
        exact ⟨houter, hchild⟩
      · rintro ⟨houter, hchild⟩
        rw [houter, Option.bind_some, hchild]

end Down

/-! ### There and back -/

/-- Looking up a qualified name follows the names on the way down from the model. -/
theorem lookupPath?_qualifiedName {env : Environment} (h : env.Session) {id : DefinitionId}
    {name : String} {rest : List String} (hnames : env.namesDown id = name :: rest) :
    env.lookupPath? (env.qualifiedName id) =
      (env.model? name).bind fun model => env.descend? model rest := by
  have hdots : ∀ name ∈ env.namesDown id, '.' ∉ name.toList := by
    intro name hname
    obtain ⟨inner, -, rfl⟩ := List.mem_map.mp (List.mem_reverse.mp hname)
    exact h.written.dot_notMem_nameOf inner
  have hsplit := splitWhere_dot_intercalate (h.sound.namesDown_ne_nil id) hdots
  rw [lookupPath?, qualifiedName, ← namesDown, hsplit, hnames]

/-- **A qualified name leads back to its definition** just when the definition is reachable and no
name on the way down to it has been taken by a younger definition. -/
theorem lookupPath?_qualifiedName_iff {env : Environment} (h : initial.Evolves env)
    (id : DefinitionId) :
    env.lookupPath? (env.qualifiedName id) = some id ↔
      env.isReachable id = true ∧ env.Unshadowed id := by
  have hsession : env.Session := h.session .initial
  have hsound : env.Sound := hsession.sound
  obtain ⟨rest, hnames, hdescend⟩ := hsound.descend?_namesDown id
  rw [lookupPath?_qualifiedName hsession hnames, isReachable, beq_iff_eq, ← hdescend]
  constructor
  · intro hlookup
    obtain ⟨model, hmodel, hdown⟩ := Option.bind_eq_some_iff.mp hlookup
    obtain ⟨definition, hfound, hnone, -⟩ := hsound.model hmodel
    have htop : env.parent? model = none := by
      rw [parent?, hfound, Option.bind_some, hnone]
      rfl
    have hsame : env.modelOf id = model :=
      (hsound.modelOf_of_descend? hdown).trans (hsound.modelOf_of_top htop)
    rw [← hsame] at hmodel hdown
    exact ⟨hmodel, hdown⟩
  · rintro ⟨hmodel, hdown⟩
    rw [hmodel, Option.bind_some, hdown]

/-- A class that a younger one of the same name shadows. -/
def shadowedText : String :=
  "INTERLIS 2.4; MODEL M = CLASS A = END A; CLASS A = END A; END M."

theorem lookupPath?_qualifiedName_shadowed :
    let env := (initial.add (.ofText shadowedText none)).1
    env.lookupPath? (env.qualifiedName ⟨1, 2⟩) = some ⟨1, 2⟩ ∧
      env.lookupPath? (env.qualifiedName ⟨1, 1⟩) ≠ some ⟨1, 1⟩ := by
  intro env
  have henv : initial.Evolves env := .single (.add initial shadowedText none)
  have hshadowed : env.isReachable ⟨1, 2⟩ = true ∧ env.Unshadowed ⟨1, 2⟩ ∧
      ¬env.Unshadowed ⟨1, 1⟩ := by
    simp only [env, initial_eq_spelledInitial]
    decide +kernel
  constructor
  · exact (lookupPath?_qualifiedName_iff henv _).mpr ⟨hshadowed.1, hshadowed.2.1⟩
  · intro hlookup
    exact hshadowed.2.2 ((lookupPath?_qualifiedName_iff henv _).mp hlookup).2

end Environment

end Ili
