import Ili.Proofs.Environment.Initial
import Ili.Proofs.Environment.Reports

/-!
# What stays bound when an environment grows

In an environment that has grown, everything that was found by going up or down from a definition is
found again, and so is every model. What can come in between are the models that have become known:
they are tried before the elements that are open to a place, where a path goes on behind its first
name, and they can open elements of their own. A reference that no new model overtakes in this way
keeps its target.
-/

namespace Ili

namespace Environment

/-! ### Looking up in a larger environment -/

theorem file_of_mem_chain {env : Environment} {id scope : DefinitionId}
    (hscope : scope ∈ env.chain id) : scope.file = id.file := by
  rw [chain] at hscope
  split at hscope
  · exact congrArg DefinitionId.file (List.mem_singleton.mp hscope)
  · obtain ⟨index, -, rfl⟩ := List.mem_map.mp hscope
    rfl

theorem file_modelOf (env : Environment) (id : DefinitionId) :
    (env.modelOf id).file = id.file := by
  rw [modelOf, List.getLastD_eq_getLast?]
  cases hlast : (env.chain id).getLast? with
  | none => rfl
  | some model => exact file_of_mem_chain (List.mem_of_getLast? hlast)

section Files

variable {env larger : Environment} (h : env.Extends larger)
variable {id : DefinitionId} {catalog : Catalog} (hfile : env.file? id.file = some catalog)

include h hfile

theorem Extends.definition?_eq : larger.definition? id = env.definition? id := by
  rw [Environment.definition?, Environment.definition?, hfile, h.file? hfile]

theorem Extends.kind?_eq : larger.kind? id = env.kind? id := by
  rw [Environment.kind?, Environment.kind?, h.definition?_eq hfile]

theorem Extends.chain_eq : larger.chain id = env.chain id := by
  rw [chain, chain, hfile, h.file? hfile]

theorem Extends.modelOf_eq : larger.modelOf id = env.modelOf id := by
  rw [modelOf, modelOf, h.chain_eq hfile]

theorem Extends.importsOf_eq : larger.importsOf id = env.importsOf id := by
  rw [importsOf, importsOf, h.definition?_eq hfile, hfile, h.file? hfile]

theorem Extends.child?_eq (name : String) : larger.child? id name = env.child? id name := by
  rw [child?, child?, h.definition?_eq hfile]

theorem Extends.element?_eq (name : String) : larger.element? id name = env.element? id name := by
  rw [element?, element?, h.child?_eq hfile, child?]
  cases (env.definition? id).bind fun definition => definition.content.get? name with
  | none => rfl
  | some index =>
    have hchild : env.file? (⟨id.file, index⟩ : DefinitionId).file = some catalog := hfile
    rw [Option.map_some, Option.filter_some, Option.filter_some, h.kind?_eq hchild]

theorem Extends.scopedElement?_eq (name : String) :
    larger.scopedElement? id name = env.scopedElement? id name := by
  have hfiles : ∀ scope ∈ (env.chain id).tail, env.file? scope.file = some catalog := by
    intro scope hscope
    rw [file_of_mem_chain (List.mem_of_mem_tail hscope), hfile]
  rw [scopedElement?, scopedElement?, h.chain_eq hfile]
  generalize (env.chain id).tail = scopes at hfiles
  induction scopes with
  | nil => rfl
  | cons scope rest ih =>
    rw [List.findSome?_cons, List.findSome?_cons, h.element?_eq (hfiles scope List.mem_cons_self),
      ih fun other hother => hfiles other (List.mem_cons_of_mem _ hother)]

end Files

theorem Extends.child?_of_eq_some {env larger : Environment} (h : env.Extends larger)
    {id child : DefinitionId} {name : String} (hchild : env.child? id name = some child) :
    larger.child? id name = some child := by
  obtain ⟨index, hindex, rfl⟩ := Option.map_eq_some_iff.mp hchild
  obtain ⟨definition, hfound, hcontent⟩ := Option.bind_eq_some_iff.mp hindex
  rw [child?, h.definition? hfound, Option.bind_some, hcontent]
  rfl

theorem Extends.descend?_of_eq_some {env larger : Environment} (h : env.Extends larger)
    {start target : DefinitionId} {names : List String}
    (hfound : env.descend? start names = some target) :
    larger.descend? start names = some target := by
  induction names generalizing start with
  | nil => exact hfound
  | cons name rest ih =>
    rw [descend?, List.foldlM_cons] at hfound ⊢
    obtain ⟨child, hchild, hrest⟩ := Option.bind_eq_some_iff.mp hfound
    rw [h.child?_of_eq_some hchild]
    exact ih hrest

section Sound

variable {env larger : Environment} (hsound : env.Sound)

include hsound

theorem Sound.file_of_model? {name : String} {id : DefinitionId}
    (hmodel : env.model? name = some id) : ∃ catalog, env.file? id.file = some catalog := by
  obtain ⟨definition, hfound, -⟩ := hsound.model hmodel
  obtain ⟨catalog, hfile, -⟩ := Option.bind_eq_some_iff.mp hfound
  exact ⟨catalog, hfile⟩

theorem Sound.predefinedElement?_eq (h : env.Extends larger) (name : String) :
    larger.predefinedElement? name = env.predefinedElement? name := by
  obtain ⟨catalog, hfile⟩ : ∃ catalog, env.file? 0 = some catalog :=
    ⟨_, Array.getElem?_eq_getElem hsound.first⟩
  rw [predefinedElement?, predefinedElement?, predefinedModel?, predefinedModel?, hfile,
    h.file? hfile, Option.bind_some]
  cases catalog.models.head? with
  | none => rfl
  | some model =>
    have hmodel : env.file? (⟨0, model⟩ : DefinitionId).file = some catalog := hfile
    exact h.element?_eq hmodel name

theorem Sound.isReachable_of_extends (h : env.Extends larger) {id : DefinitionId}
    (hreachable : env.isReachable id = true) : larger.isReachable id = true := by
  rw [isReachable, beq_iff_eq] at hreachable
  obtain ⟨definition, hfound, -⟩ := hsound.model hreachable
  have hmodel : larger.modelOf id = env.modelOf id := by
    cases hfile : env.file? id.file with
    | some catalog => exact h.modelOf_eq hfile
    | none =>
      have hself : env.modelOf id = id := by rw [modelOf, chain, hfile]; rfl
      rw [hself, definition?, hfile] at hfound
      cases hfound
  rw [isReachable, hmodel, beq_iff_eq, nameOf, h.definition? hfound]
  rw [nameOf, hfound] at hreachable
  exact h.model? hreachable

end Sound

/-! ### What new models come before -/

/-- A search through what a row yields finds what it found before, or something that the row did not
yield then. -/
theorem findSome?_filterMap_eq_or {α β γ : Type} {before after : α → Option β}
    {search again : β → Option γ}
    (hold : ∀ a b, before a = some b → after a = some b ∧ again b = search b) (row : List α) :
    (row.filterMap after).findSome? again = (row.filterMap before).findSome? search ∨
      ∃ a ∈ row, ∃ b, before a = none ∧ after a = some b ∧ (again b).isSome = true ∧
        (row.filterMap after).findSome? again = again b := by
  induction row with
  | nil => exact .inl rfl
  | cons first rest ih =>
    have hrest : (rest.filterMap after).findSome? again = (rest.filterMap before).findSome? search ∨
        ∃ a ∈ first :: rest, ∃ b, before a = none ∧ after a = some b ∧ (again b).isSome = true ∧
          (rest.filterMap after).findSome? again = again b :=
      ih.imp_right fun ⟨a, ha, hfound⟩ => ⟨a, List.mem_cons_of_mem first ha, hfound⟩
    cases hbefore : before first with
    | some b =>
      obtain ⟨hafter, hsame⟩ := hold first b hbefore
      rw [List.filterMap_cons_some hbefore, List.filterMap_cons_some hafter, List.findSome?_cons,
        List.findSome?_cons, hsame]
      cases search b with
      | some c => exact .inl rfl
      | none => exact hrest
    | none =>
      rw [List.filterMap_cons_none hbefore]
      cases hafter : after first with
      | none =>
        rw [List.filterMap_cons_none hafter]
        exact hrest
      | some b =>
        rw [List.filterMap_cons_some hafter, List.findSome?_cons]
        cases hfound : again b with
        | none => exact hrest
        | some c => exact .inr ⟨first, List.mem_cons_self, b, hbefore, hafter, by simp [hfound]⟩

/-- The first open model with an element of a name is the one it was, or it was not open before,
since it was not known. -/
theorem Sound.openElement?_eq_or {env larger : Environment} (hsound : env.Sound)
    (hlarger : larger.Sound) (h : env.Extends larger) {source : DefinitionId} {catalog : Catalog}
    (hfile : env.file? source.file = some catalog) (name : String) :
    larger.openElement? source name = env.openElement? source name ∨
      ∃ model ∈ larger.openModels source, model ∉ env.openModels source ∧
        (larger.element? model name).isSome = true ∧
        larger.openElement? source name = larger.element? model name := by
  let opened (env : Environment) (entry : Import × Reference) : Option DefinitionId :=
    entry.2.path.head?.bind env.model?
  let imports := (env.importsOf (env.modelOf source)).filter fun entry => entry.1.unqualified
  have hmodelOf : env.file? (env.modelOf source).file = some catalog := by
    rw [file_modelOf, hfile]
  have hbefore : env.openModels source = imports.filterMap (opened env) := rfl
  have hafter : larger.openModels source = imports.filterMap (opened larger) := by
    rw [openModels, h.modelOf_eq hfile, h.importsOf_eq hmodelOf]
  have hold (entry : Import × Reference) (model : DefinitionId)
      (hopened : opened env entry = some model) :
      opened larger entry = some model ∧ larger.element? model name = env.element? model name := by
    obtain ⟨first, hfirst, hmodel⟩ := Option.bind_eq_some_iff.mp hopened
    obtain ⟨above, habove⟩ := hsound.file_of_model? hmodel
    exact ⟨Option.bind_eq_some_iff.mpr ⟨first, hfirst, h.model? hmodel⟩, h.element?_eq habove name⟩
  refine (findSome?_filterMap_eq_or hold imports).imp ?_ ?_
  · rw [openElement?, openElement?, hbefore, hafter]
    exact id
  · rintro ⟨entry, hentry, model, hunknown, hopened, hsome, hfound⟩
    refine ⟨model, hafter ▸ List.mem_filterMap.mpr ⟨entry, hentry, hopened⟩, fun hopen => ?_, hsome,
      by rw [openElement?, hafter, hfound]⟩
    -- A model has one name, so it cannot have been opened under another one.
    rw [hbefore] at hopen
    obtain ⟨other, -, hother⟩ := List.mem_filterMap.mp hopen
    obtain ⟨_, -, hmodel⟩ := Option.bind_eq_some_iff.mp hother
    obtain ⟨_, hfirst, hnew⟩ := Option.bind_eq_some_iff.mp hopened
    obtain ⟨definition, hheld, -, rfl⟩ := hlarger.model (h.model? hmodel)
    obtain ⟨again, hagain, -, rfl⟩ := hlarger.model hnew
    obtain rfl := Option.some.inj (hheld.symm.trans hagain)
    rw [Option.bind_eq_none_iff.mp hunknown _ hfirst] at hmodel
    cases hmodel

/-- A path that was looked up begins with something else, since a model has become known: the model
of its first name, where the path goes on behind it, or one that is open to the place and has an
element of this name. -/
inductive Overtaken (before after : Environment) (source : DefinitionId) : List String → Prop
  | byModel {name next : String} {rest : List String}
      (hscope : before.scopedElement? source name = none)
      (hunknown : before.knowsModel name = false) (hknown : after.knowsModel name = true) :
      Overtaken before after source (name :: next :: rest)
  | byElement {name : String} {rest : List String} {model : DefinitionId}
      (hscope : before.scopedElement? source name = none)
      (hunknown : rest ≠ [] → before.knowsModel name = false)
      (hopen : model ∈ after.openModels source) (hnew : model ∉ before.openModels source)
      (helement : (after.element? model name).isSome = true)
      (hfirst : after.openElement? source name = after.element? model name) :
      Overtaken before after source (name :: rest)

theorem knowsModel_eq_isSome (env : Environment) (name : String) :
    env.knowsModel name = (env.model? name).isSome :=
  rfl

theorem Overtaken.bind {before after : Environment} {source : DefinitionId} {path : List String}
    (h : before.Overtaken after source path) : before.Overtaken after.bind source path := by
  cases h with
  | byModel hscope hunknown hknown => exact .byModel hscope hunknown hknown
  | byElement hscope hunknown hopen hnew helement hfirst =>
    refine .byElement hscope hunknown (openModels_bind after source ▸ hopen) hnew
      (by rwa [element?_bind]) ?_
    rw [openElement?, openModels_bind, funext fun model => element?_bind after model _,
      element?_bind]
    exact hfirst

section Kept

variable {env larger : Environment} (hsound : env.Sound) (hlarger : larger.Sound)
variable (h : env.Extends larger) {source target : DefinitionId} {catalog : Catalog}
variable (hfile : env.file? source.file = some catalog)

include hsound hlarger h hfile

/-- What a first name stands for is kept, stage by stage. -/
theorem Sound.lookup?_of_extends {path : List String}
    (hkeeps : ¬env.Overtaken larger source path) (hfound : env.lookup? source path = some target) :
    larger.lookup? source path = some target := by
  cases path with
  | nil => cases hfound
  | cons name rest =>
    obtain ⟨start, hstart, hdown⟩ := Option.bind_eq_some_iff.mp hfound
    refine Option.bind_eq_some_iff.mpr ⟨start, ?_, h.descend?_of_eq_some hdown⟩
    rw [lookupFirst?, h.scopedElement?_eq hfile]
    rw [lookupFirst?] at hstart
    cases hscope : env.scopedElement? source name with
    | some element =>
      rw [hscope] at hstart
      exact hstart
    | none =>
      rw [hscope, Option.none_or] at hstart
      rw [Option.none_or]
      have hopen (hunknown : rest ≠ [] → env.model? name = none) :
          larger.openElement? source name = env.openElement? source name := by
        refine (hsound.openElement?_eq_or hlarger h hfile name).resolve_right ?_
        rintro ⟨model, hopen, hnew, helement, hfirst⟩
        refine hkeeps (.byElement hscope (fun hrest => ?_) hopen hnew helement hfirst)
        rw [knowsModel_eq_isSome, hunknown hrest]
        rfl
      cases rest with
      | nil =>
        rw [List.isEmpty_nil, Bool.not_true, if_neg Bool.false_ne_true] at hstart ⊢
        rw [hopen (absurd rfl), hsound.predefinedElement?_eq h]
        cases hmodel : env.model? name with
        | some model =>
          rw [h.model? hmodel, ← hmodel]
          exact hstart
        | none =>
          rw [hmodel, Option.or_none] at hstart
          rw [← Option.or_assoc, hstart, Option.some_or]
      | cons next rest =>
        rw [List.isEmpty_cons, Bool.not_false, if_pos rfl] at hstart ⊢
        cases hmodel : env.model? name with
        | some model =>
          rw [hmodel, Option.some_or] at hstart
          rw [h.model? hmodel, Option.some_or, hstart]
        | none =>
          have hstill : larger.model? name = none := by
            rw [← Option.not_isSome_iff_eq_none]
            exact fun hknown => hkeeps (.byModel hscope (by rw [knowsModel_eq_isSome, hmodel]; rfl)
              hknown)
          rw [hmodel, Option.none_or] at hstart
          rw [hstill, Option.none_or, hopen fun _ => hmodel, hsound.predefinedElement?_eq h,
            hstart]

theorem Sound.lookupReference_of_extends {id : ReferenceId} {reference : Reference}
    (hsource : source = ⟨id.file, reference.source⟩)
    (hkeeps : reference.expected = .model ∨ ¬env.Overtaken larger source reference.path)
    (hfound : env.lookupReference id reference = .found target) :
    larger.lookupReference id reference = .found target := by
  rw [lookupReference] at hfound
  cases hnamed : env.named? id reference with
  | none => simp [hnamed] at hfound
  | some named =>
    rw [hnamed] at hfound
    dsimp only at hfound
    split at hfound
    · next haccepts =>
      obtain rfl := Lookup.found.inj hfound
      have hstill : larger.named? id reference = some named := by
        by_cases hmodel : reference.expected = .model
        · rw [named?.eq_def, hmodel] at hnamed ⊢
          generalize reference.path = path at hnamed ⊢
          rcases path with _ | ⟨name, _ | ⟨second, rest⟩⟩
          · cases hnamed
          · exact h.model? hnamed
          · cases hnamed
        · rw [named?_of_ne_model _ hmodel] at hnamed ⊢
          subst hsource
          exact hsound.lookup?_of_extends hlarger h hfile (hkeeps.resolve_left hmodel) hnamed
      obtain ⟨kind, hkind, hkindAccepts⟩ := (Option.any_eq_true _ _).mp haccepts
      rw [lookupReference, hstill]
      exact if_pos ((Option.any_eq_true _ _).mpr ⟨kind, h.kind? hkind, hkindAccepts⟩)
    · cases hfound

end Kept

/-! ### What a session has bound -/

theorem reference?_append {env : Environment} {text : String} {uri : Option String}
    {id : ReferenceId} {reference : Reference}
    (h : (env.append (.ofText text uri)).reference? id = some reference) :
    env.reference? id = some reference ∨ reference.state = .unbound := by
  rw [reference?, file?_append] at h
  split at h
  · exact .inr (Catalog.unbound_ofText text uri reference (Array.mem_of_getElem? h))
  · exact .inl h

theorem reference?_merge {env : Environment} {text : String} {uri : Option String}
    {id : ReferenceId} {reference : Reference}
    (h : (env.merge (.ofText text uri)).1.reference? id = some reference) :
    env.reference? id = some reference ∨ reference.state = .unbound := by
  rw [merge] at h
  split at h
  · exact .inl h
  · exact reference?_append h

def BindsListed (env : Environment) : Prop :=
  ∀ id reference, env.reference? id = some reference → reference.state ≠ .unbound →
    (id, reference) ∈ env.references

theorem BindsListed.extend {env larger : Environment} (hsound : env.Sound)
    (h : env.BindsListed) (hextends : env.Extends larger)
    (hnew : ∀ id reference, larger.reference? id = some reference →
      env.reference? id = some reference ∨ reference.state = .unbound) :
    larger.BindsListed := by
  intro id reference hfound hbound
  have hold := (hnew id reference hfound).resolve_right hbound
  obtain ⟨hfile, -, hreachable⟩ := mem_references.mp (h id reference hold hbound)
  exact mem_references.mpr ⟨hfile, hfound, hsound.isReachable_of_extends hextends hreachable⟩

theorem BindsListed.bind {env : Environment} (h : env.BindsListed) : env.bind.BindsListed := by
  intro id reference hfound hbound
  rw [reference?_bind] at hfound
  obtain ⟨before, hbefore, rfl⟩ := Option.map_eq_some_iff.mp hfound
  rw [mem_references, reference?_bind, hbefore, isReachable_bind]
  rw [boundReference] at hbound ⊢
  split at hbound
  · next hlisted => exact ⟨hlisted.1, rfl, by rw [if_pos hlisted]; exact hlisted.2⟩
  · next hhidden =>
    obtain ⟨hfile, -, hreachable⟩ := mem_references.mp (h id before hbefore hbound)
    exact absurd ⟨hfile, hreachable⟩ hhidden

theorem extends_run (access : RepositoryAccess) (filter : Option String) (env : Environment) :
    env.Extends (Closure.run access filter env).env := by
  rw [(Closure.consistent_run access filter env).env_eq]
  exact extends_foldl_answered ..

theorem Session.bindsListed {env : Environment} (h : env.Session) : env.BindsListed := by
  induction h with
  | initial =>
    intro id reference hfound hbound
    have hpredefined : (append ⟨none, #[], .empty⟩ (.ofText predefinedText none)).reference? id =
        some reference := hfound
    rcases reference?_append hpredefined with hnone | hunbound
    · simp [reference?, file?] at hnone
    · exact absurd hunbound hbound
  | @add env hsession text uri ih =>
    have hmerge {env : Environment} (hsound : env.Sound) (h : env.BindsListed) :
        (env.merge (.ofText text uri)).1.BindsListed :=
      h.extend hsound (extends_merge env _) fun _ _ => reference?_merge
    rw [Environment.add]
    split
    · have hsound : Sound { env with version := (Catalog.ofText text uri).schemaVersion } :=
        have hsound := hsession.sound
        ⟨hsound.first, hsound.file, hsound.model, hsound.predefined⟩
      exact hmerge hsound ih
    · exact hmerge hsession.sound ih
  | @resolve env hsession access filter ih =>
    have hclosed : BindsListed (Closure.run access (env.queryFilter filter) env).env :=
      ih.extend hsession.sound (extends_run ..) fun id reference hfound =>
        (reference?_closed hfound).imp_right And.right
    rcases env_resolve env access filter with heq | heq
    · exact heq ▸ hclosed
    · exact heq ▸ hclosed.bind

/-- What a complete run leaves resolved is what a look-up in its environment finds. -/
theorem lookupReference_of_resolved {env : Environment} {id : ReferenceId} {reference : Reference}
    {target : DefinitionId} (hmem : (id, reference) ∈ env.bind.references)
    (hstate : reference.state = .resolved target) :
    env.bind.lookupReference id reference = .found target := by
  rw [references_bind] at hmem
  obtain ⟨⟨found, before⟩, -, heq⟩ := List.mem_map.mp hmem
  obtain ⟨rfl, rfl⟩ := Prod.mk.inj heq
  rw [lookupReference_bind]
  change env.lookupReference found before = _
  change (env.lookupReference found before).binding = _ at hstate
  cases hlookup : env.lookupReference found before with
  | found other =>
    rw [hlookup] at hstate
    exact congrArg _ (Binding.resolved.inj hstate)
  | wrongKind _ => rw [hlookup] at hstate; cases hstate
  | notFound => rw [hlookup] at hstate; cases hstate

theorem definition_of_found {env : Environment} {id : ReferenceId} {reference : Reference}
    {target : DefinitionId} (h : env.lookupReference id reference = .found target) :
    ∃ definition, env.definition? target = some definition := by
  rw [lookupReference] at h
  split at h
  · cases h
  · next named _ =>
    split at h
    · next haccepts =>
      obtain rfl := Lookup.found.inj h
      obtain ⟨kind, hkind, -⟩ := (Option.any_eq_true _ _).mp haccepts
      obtain ⟨definition, hfound, -⟩ := Option.map_eq_some_iff.mp hkind
      exact ⟨definition, hfound⟩
    · cases h

/-- A reference that a complete run has resolved is resolved to the same definition once a file has
been added and a second run completes, unless a model that has become known overtakes it. -/
theorem Session.resolve_again_keeps {env : Environment} (h : env.Session)
    (first second : RepositoryAccess) (filter again : Option String) (text : String)
    (uri : Option String) (hfirst : (env.resolve first filter).isComplete = true)
    (hsecond : (((env.resolve first filter).env.add (.ofText text uri)).1.resolve second
      again).isComplete = true) :
    let before := (env.resolve first filter).env
    let after := ((before.add (.ofText text uri)).1.resolve second again).env
    ∀ id reference target, before.reference? id = some reference →
      reference.state = .resolved target →
      (reference.expected = .model ∨
        ¬before.Overtaken after ⟨id.file, reference.source⟩ reference.path) →
      after.reference? id = some reference ∧
        after.definition? target = before.definition? target := by
  intro before after id reference target hfound hstate hkeeps
  have hbefore : before.Session := .resolve h first filter
  set grown := (before.add (.ofText text uri)).1 with hgrown
  set closed := (Closure.run second (grown.queryFilter again) grown).env with hclosed
  have hafter : after = closed.bind := congrArg Resolution.env (resolve_of_isComplete hsecond).2
  have hlisted := hbefore.bindsListed id reference hfound (by rw [hstate]; exact nofun)
  obtain ⟨hid, -, hreachable⟩ := mem_references.mp hlisted
  obtain ⟨catalog, hfile, hreference⟩ := Option.bind_eq_some_iff.mp hfound
  -- A reference outside the predefined file means that the version is settled.
  have hextends : before.Extends closed := by
    have hsize : ¬before.files.size ≤ 1 := by
      have hlt : id.file < before.files.size := (Array.getElem?_eq_some_iff.mp hfile).1
      omega
    refine .trans ?_ (extends_run second (grown.queryFilter again) grown)
    rw [hgrown, Environment.add, if_neg hsize]
    exact extends_merge before _
  have hfoundBefore : before.lookupReference id reference = .found target := by
    have hbound : before = (Closure.run first (env.queryFilter filter) env).env.bind :=
      congrArg Resolution.env (resolve_of_isComplete hfirst).2
    rw [hbound] at hlisted ⊢
    exact lookupReference_of_resolved hlisted hstate
  have hlookup : closed.lookupReference id reference = .found target := by
    have hsound : closed.Sound := (Session.add hbefore text uri).sound.closed second _
    refine hbefore.sound.lookupReference_of_extends hsound hextends hfile rfl ?_ ?_
    · exact hkeeps.imp_right fun hnot hovertaken => hnot (hafter ▸ hovertaken.bind)
    · exact hfoundBefore
  obtain ⟨definition, hdefinition⟩ := definition_of_found hfoundBefore
  have hreachableAfter := hbefore.sound.isReachable_of_extends hextends hreachable
  rw [hafter, reference?_bind, reference?, hextends.file? hfile, Option.bind_some, hreference,
    Option.map_some, boundReference, if_pos ⟨hid, hreachableAfter⟩, hlookup, definition?_bind,
    hextends.definition? hdefinition, hdefinition]
  refine ⟨congrArg some ?_, rfl⟩
  rw [Lookup.binding, ← hstate]

/-- Where nothing is missing, a run binds the references and leaves the rest as it is. -/
theorem env_resolve_of_nothing_missing {access : RepositoryAccess}
    (hoff : access.calledOff = none) (filter : Option String) {env : Environment}
    (h : env.missingImports.entries = []) : (env.resolve access filter).env = env.bind := by
  have hpending : (Closure.start env).pending = [] := by
    rw [Closure.pending, show (Closure.start env).env.missingImports.entries = [] from h,
      List.filter_nil, List.mergeSort_nil]
  have hrun : Closure.run access (env.queryFilter filter) env = .start env :=
    Closure.run_of_round hpending hpending
  rw [(resolve_of_isComplete (isComplete_resolve hoff env filter)).2, hrun]
  rfl

/-- A class of a topic that an import opens, named without the name of the model. -/
def openedText : String :=
  "INTERLIS 2.4; MODEL B = TOPIC X = CLASS C = END C; END X; END B. " ++
    "MODEL U = IMPORTS UNQUALIFIED B; CLASS D EXTENDS X.C = END D; END U."

def openedReference (state : Binding) : Reference :=
  ⟨["X", "C"], ⟨⟨0, 114⟩, ⟨0, 117⟩⟩, 4, .classLike, state⟩

def bareText (name : String) : String :=
  "INTERLIS 2.4; MODEL " ++ name ++ " = END " ++ name ++ "."

def opening (base : Environment) : Environment :=
  (base.add (.ofText openedText none)).1

def openingWith (base : Environment) (name : String) : Environment :=
  ((opening base).bind.add (.ofText (bareText name) none)).1

/-- In all three environments nothing is missing, and the name of the class is bound in the first,
not in the second. In the third one no model was added that matters to it. -/
def Openable (base : Environment) : Prop :=
  (opening base).missingImports.entries = [] ∧
    (openingWith base "X").missingImports.entries = [] ∧
    (openingWith base "Y").missingImports.entries = [] ∧
    (opening base).bind.reference? ⟨1, 1⟩ = some (openedReference (.resolved ⟨1, 2⟩)) ∧
    (openingWith base "X").bind.reference? ⟨1, 1⟩ = some (openedReference .unresolved) ∧
    (openingWith base "Y").bind.knowsModel "X" = false ∧
    (openingWith base "Y").bind.openModels ⟨1, 4⟩ = (opening base).bind.openModels ⟨1, 4⟩

instance (base : Environment) : Decidable base.Openable :=
  inferInstanceAs (Decidable (_ ∧ _))

theorem openable_initial : Openable initial := by
  rw [initial_eq_spelledInitial]
  decide +kernel

theorem resolve_openingWith {base : Environment} {name : String}
    (hopening : (opening base).missingImports.entries = [])
    (hwith : (openingWith base name).missingImports.entries = []) :
    ((((opening base).resolve emptyAccess none).env.add
      (.ofText (bareText name) none)).1.resolve emptyAccess none).env =
        (openingWith base name).bind := by
  rw [env_resolve_of_nothing_missing calledOff_emptyAccess none hopening]
  exact env_resolve_of_nothing_missing calledOff_emptyAccess none hwith

/-- The class of the opened topic stays bound when a model of another name is added. -/
theorem Session.resolve_again_keeps_opened :
    let before := ((opening .initial).resolve emptyAccess none).env
    let after := ((before.add (.ofText (bareText "Y") none)).1.resolve emptyAccess none).env
    after.reference? ⟨1, 1⟩ = some (openedReference (.resolved ⟨1, 2⟩)) := by
  -- For any base, so that nothing in the proof computes the predefined catalog.
  suffices hbase : ∀ base : Environment, base.Session → base.Openable →
      (((((opening base).resolve emptyAccess none).env.add
        (.ofText (bareText "Y") none)).1.resolve emptyAccess none).env.reference? ⟨1, 1⟩) =
          some (openedReference (.resolved ⟨1, 2⟩)) from
    hbase .initial .initial openable_initial
  rintro base hsession ⟨hopening, -, hwith, hbound, -, hunknown, hopen⟩
  have hbefore : ((opening base).resolve emptyAccess none).env = (opening base).bind :=
    env_resolve_of_nothing_missing calledOff_emptyAccess none hopening
  have hkeeps : ¬((opening base).resolve emptyAccess none).env.Overtaken
      ((((opening base).resolve emptyAccess none).env.add
        (.ofText (bareText "Y") none)).1.resolve emptyAccess none).env ⟨1, 4⟩ ["X", "C"] := by
    rw [resolve_openingWith hopening hwith, hbefore]
    intro h
    cases h with
    | byModel _ _ hknown => rw [hunknown] at hknown; cases hknown
    | byElement _ _ hopened hnew => exact hnew (hopen ▸ hopened)
  have hopened : (opening base).Session := .add hsession openedText none
  exact (hopened.resolve_again_keeps emptyAccess emptyAccess none none (bareText "Y") none
    (isComplete_resolve calledOff_emptyAccess _ none)
    (isComplete_resolve calledOff_emptyAccess _ none)
    ⟨1, 1⟩ (openedReference (.resolved ⟨1, 2⟩)) ⟨1, 2⟩ (hbefore ▸ hbound) rfl (.inr hkeeps)).1

/-- It is overtaken by a model that has the name of the topic. -/
theorem resolve_again_overtakes_opened :
    let before := ((opening initial).resolve emptyAccess none).env
    let grown := (before.add (.ofText (bareText "X") none)).1
    (opening initial).Session ∧
      ((opening initial).resolve emptyAccess none).isComplete = true ∧
      (grown.resolve emptyAccess none).isComplete = true ∧
      before.reference? ⟨1, 1⟩ = some (openedReference (.resolved ⟨1, 2⟩)) ∧
      (grown.resolve emptyAccess none).env.reference? ⟨1, 1⟩ =
        some (openedReference .unresolved) := by
  suffices hbase : ∀ base : Environment, base.Session → base.Openable →
      (opening base).Session ∧
        ((opening base).resolve emptyAccess none).isComplete = true ∧
        ((((opening base).resolve emptyAccess none).env.add
          (.ofText (bareText "X") none)).1.resolve emptyAccess none).isComplete = true ∧
        ((opening base).resolve emptyAccess none).env.reference? ⟨1, 1⟩ =
          some (openedReference (.resolved ⟨1, 2⟩)) ∧
        ((((opening base).resolve emptyAccess none).env.add
          (.ofText (bareText "X") none)).1.resolve emptyAccess none).env.reference? ⟨1, 1⟩ =
            some (openedReference .unresolved) from
    hbase initial .initial openable_initial
  rintro base hsession ⟨hopening, hwith, -, hbound, hunbound, -⟩
  refine ⟨.add hsession openedText none, isComplete_resolve calledOff_emptyAccess _ none,
    isComplete_resolve calledOff_emptyAccess _ none, ?_, ?_⟩
  · rw [env_resolve_of_nothing_missing calledOff_emptyAccess none hopening, hbound]
  · rw [resolve_openingWith hopening hwith, hunbound]

end Environment

end Ili
