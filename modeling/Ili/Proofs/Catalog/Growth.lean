import Ili.Proofs.Catalog.Elements
import Mathlib.Data.List.Perm.Subperm
import Mathlib.Logic.Relation

/-!
# How a catalog grows

The walk over a tree only ever does one thing to the draft: it notes some references and then the
definition they are written in, either a model or a member of a definition noted before that may
hold it. A model is entered among the models of the file in the same go. What the definition refers
to are references noted in that go, each once. So what holds of every draft is shown by looking at
one such step.
-/

namespace Ili

open scoped List

/-- A definition of the second kind may stand directly below one of the first. -/
def DefinitionKind.mayHold : DefinitionKind → DefinitionKind → Bool
  | .model, .topic | .model, .classLike | .model, .association | .model, .domain | .model, .unit
  | .topic, .classLike | .topic, .association | .topic, .domain | .topic, .unit
  | .classLike, .attributeLike | .association, .attributeLike
  | .attributeLike, .enumValue | .domain, .enumValue | .enumValue, .enumValue => true
  | _, _ => false

theorem subperm_of_count_le {fewer more : List Nat} (h : ∀ n, fewer.count n ≤ more.count n) :
    fewer <+~ more :=
  List.subperm_ext_iff.mpr fun n _ => h n

namespace Draft

def Owns (draft : Draft) (owner : Nat) (kind : DefinitionKind) : Prop :=
  ∃ definition, draft.definitions[owner]? = some definition ∧ definition.kind = kind

def AreNew (references : Array Reference) (source : Nat) : Prop :=
  ∀ reference ∈ references, reference.source = source ∧ reference.state = .unbound

/-- The numbers are those of references noted next, no number twice. -/
def Numbers (draft : Draft) (references : Array Reference) (held : List Nat) : Prop :=
  held <+~ List.range' draft.references.size references.size

inductive Step (draft : Draft) : Draft → Prop
  | member {references : Array Reference} {definition : Definition} {parent : Nat}
      {kind : DefinitionKind} (hnew : AreNew references draft.definitions.size)
      (hheld : draft.Numbers references definition.data.references)
      (hparent : definition.parent = some parent) (howner : draft.Owns parent kind)
      (hkind : kind.mayHold definition.kind) :
      Step draft
        ⟨draft.definitions.push definition, draft.references ++ references, draft.models⟩
  | model {references : Array Reference} {definition : Definition}
      (hnew : AreNew references draft.definitions.size)
      (hheld : draft.Numbers references definition.data.references)
      (hparent : definition.parent = none) (hkind : definition.kind = .model) :
      Step draft
        ⟨draft.definitions.push definition, draft.references ++ references,
          draft.models ++ [draft.definitions.size]⟩

abbrev Walk : Draft → Draft → Prop :=
  Relation.ReflTransGen Step

theorem Owns.push {draft : Draft} {owner : Nat} {kind : DefinitionKind}
    (h : draft.Owns owner kind) (definition : Definition) (references : Array Reference)
    (models : List Nat) :
    Owns ⟨draft.definitions.push definition, references, models⟩ owner kind := by
  obtain ⟨held, hheld, hkind⟩ := h
  have hlt : owner < draft.definitions.size := (Array.getElem?_eq_some_iff.mp hheld).1
  refine ⟨held, ?_, hkind⟩
  rw [Array.getElem?_push, if_neg (Nat.ne_of_lt hlt), hheld]

theorem Owns.walk {draft next : Draft} {owner : Nat} {kind : DefinitionKind}
    (h : draft.Owns owner kind) (hwalk : draft.Walk next) : next.Owns owner kind := by
  induction hwalk with
  | refl => exact h
  | tail _ hstep ih =>
    cases hstep with
    | member => exact ih.push ..
    | model => exact ih.push ..

/-- Between two steps: references have been noted, but not yet the definition they belong to. It
will refer to those in `held`. -/
def Pending (start : Draft) (held : List Nat) (draft : Draft) : Prop :=
  ∃ references, AreNew references start.definitions.size ∧ start.Numbers references held ∧
    draft = ⟨start.definitions, start.references ++ references, start.models⟩

theorem pending_self (start : Draft) : start.Pending [] start :=
  ⟨#[], by simp [AreNew], List.nil_subperm, by simp⟩

theorem Pending.weaken {start draft : Draft} {held fewer : List Nat} (h : start.Pending held draft)
    (hfewer : fewer <+~ held) : start.Pending fewer draft := by
  obtain ⟨references, hnew, hheld, hdraft⟩ := h
  exact ⟨references, hnew, hfewer.trans hheld, hdraft⟩

end Draft

namespace Drafting

open Draft

variable {α β : Type}

def Walks (owner : Nat) (kind : DefinitionKind) (step : Drafting α) : Prop :=
  ∀ draft : Draft, draft.Owns owner kind → draft.Walk (step draft).2

/-- The step only notes references of the definition that comes next. If that was to refer to the
ones in `before`, it may now refer to those that `held` reads off the result. -/
def Refers (id : Nat) (before : List Nat) (held : α → List Nat) (step : Drafting α) : Prop :=
  ∀ start draft : Draft, start.definitions.size = id → start.Pending before draft →
    start.Pending (held (step draft).1) (step draft).2

/-- The step notes the definition that is pending, and goes on as a walk. -/
def Completes (start : Draft) (before : List Nat) (step : Drafting α) : Prop :=
  ∀ draft : Draft, start.Pending before draft → start.Walk (step draft).2

section Rules

variable {id owner : Nat} {kind : DefinitionKind} {start : Draft} {before : List Nat}
  {held : α → List Nat}

theorem refers_pure {a : α} (h : held a <+~ before) : Refers id before held (pure a) :=
  fun _ _ _ hpending => hpending.weaken h

theorem refers_bind {step : Drafting α} {f : α → Drafting β} {after : β → List Nat}
    (h : Refers id before held step) (hf : ∀ a, Refers id (held a) after (f a)) :
    Refers id before after (step >>= f) :=
  fun start draft hsize hpending => hf _ start _ hsize (h start draft hsize hpending)

theorem refers_map {step : Drafting α} {f : α → β} {after : β → List Nat}
    (h : Refers id before (fun a => after (f a)) step) : Refers id before after (f <$> step) :=
  h

theorem Refers.weaken {step : Drafting α} {fewer : List Nat} (h : Refers id fewer held step)
    (hfewer : fewer <+~ before) : Refers id before held step :=
  fun start draft hsize hpending => h start draft hsize (hpending.weaken hfewer)

theorem refers_mapM {row : List β} {f : β → Drafting α}
    (hf : ∀ b before, Refers id before (fun a => held a ++ before) (f b)) :
    Refers id before (fun results => results.flatMap held ++ before) (row.mapM f) := by
  induction row generalizing before with
  | nil => exact refers_pure (List.Subperm.refl before)
  | cons first rest ih =>
    rw [List.mapM_cons]
    refine refers_bind (hf first before) fun a => refers_bind ih fun results => refers_pure ?_
    calc (a :: results).flatMap held ++ before
        _ = held a ++ (results.flatMap held ++ before) := by simp
        _ <+~ results.flatMap held ++ (held a ++ before) :=
          (List.perm_append_comm_assoc ..).subperm

theorem refers_foldlM {row : List β} {f : α → β → Drafting α}
    (hf : ∀ a b, Refers id (held a) held (f a b)) (first : α) :
    Refers id (held first) held (row.foldlM f first) := by
  induction row generalizing first with
  | nil => exact refers_pure (List.Subperm.refl _)
  | cons b rest ih =>
    rw [List.foldlM_cons]
    exact refers_bind (hf first b) ih

theorem refers_addReference {reference : Reference} (hsource : reference.source = id)
    (hstate : reference.state = .unbound) :
    Refers id before (fun number => number :: before) (addReference reference) := by
  rintro start _ hsize ⟨references, hnew, hheld, rfl⟩
  refine ⟨references.push reference, ?_, ?_, by simp [addReference]⟩
  · intro other hother
    rcases Array.mem_push.mp hother with hmem | rfl
    · exact hnew other hmem
    · exact ⟨hsource.trans hsize.symm, hstate⟩
  · have hlast : List.range' start.references.size (references.push reference).size =
        List.range' start.references.size references.size ++
          [(start.references ++ references).size] := by
      rw [Array.size_push, List.range'_1_concat, Array.size_append]
    rw [Numbers, hlast]
    exact ((List.subperm_cons _).mpr hheld).trans (List.perm_append_singleton ..).symm.subperm

theorem walks_pure (a : α) : Walks owner kind (pure a) :=
  fun _ _ => .refl

theorem walks_bind {step : Drafting α} {f : α → Drafting β} (h : Walks owner kind step)
    (hf : ∀ a, Walks owner kind (f a)) : Walks owner kind (step >>= f) := by
  intro draft howner
  have hfirst := h draft howner
  exact hfirst.trans (hf _ _ (howner.walk hfirst))

theorem walks_forM {row : List β} {f : β → Drafting Unit}
    (hf : ∀ b ∈ row, Walks owner kind (f b)) : Walks owner kind (row.forM f) := by
  induction row with
  | nil => exact walks_pure ()
  | cons first rest ih =>
    rw [List.forM_eq_forM] at ih ⊢
    rw [List.forM_cons]
    exact walks_bind (hf first List.mem_cons_self) fun _ =>
      ih fun b hb => hf b (List.mem_cons_of_mem _ hb)

theorem walk_nextDefinition {f : Nat → Drafting α}
    (h : Completes start [] (f start.definitions.size)) :
    start.Walk ((nextDefinition >>= f) start).2 :=
  h start start.pending_self

theorem walks_nextDefinition {f : Nat → Drafting α}
    (hf : ∀ start : Draft, start.Owns owner kind → Completes start [] (f start.definitions.size)) :
    Walks owner kind (nextDefinition >>= f) :=
  fun start howner => walk_nextDefinition (hf start howner)

theorem completes_bind {step : Drafting α} {f : α → Drafting β}
    (h : Refers start.definitions.size before held step)
    (hf : ∀ a, Completes start (held a) (f a)) : Completes start before (step >>= f) :=
  fun draft hpending => hf _ _ (h start draft rfl hpending)

theorem completes_define {heading : Heading} {data : DefinitionData} {f : Unit → Drafting α}
    (howner : start.Owns owner kind) (hkind : kind.mayHold data.kind)
    (hheld : data.references <+~ before) (hf : Walks start.definitions.size data.kind (f ())) :
    Completes start before (define heading (some owner) data >>= f) := by
  rintro _ ⟨references, hnew, hbefore, rfl⟩
  refine .trans (.single (.member hnew ?_ rfl howner ?_)) (hf _ ?_)
  · exact hheld.trans hbefore
  · exact hkind
  · exact ⟨_, Array.getElem?_push_size, rfl⟩

theorem completes_define_last {heading : Heading} {data : DefinitionData}
    (howner : start.Owns owner kind) (hkind : kind.mayHold data.kind)
    (hheld : data.references <+~ before) :
    Completes start before (define heading (some owner) data) := by
  rintro _ ⟨references, hnew, hbefore, rfl⟩
  refine .single (.member hnew ?_ rfl howner ?_)
  · exact hheld.trans hbefore
  · exact hkind

theorem completes_addModel {heading : Heading} {data : ModelData} {f : Unit → Drafting α}
    (hheld : (DefinitionData.model data).references <+~ before)
    (hf : Walks start.definitions.size .model (f ())) :
    Completes start before (define heading none (.model data) >>= fun _ =>
      addModel start.definitions.size >>= f) := by
  rintro _ ⟨references, hnew, hbefore, rfl⟩
  refine .trans (.single (.model hnew ?_ rfl rfl)) (hf _ ?_)
  · exact hheld.trans hbefore
  · exact ⟨_, Array.getElem?_push_size, rfl⟩

end Rules

end Drafting

open Drafting

namespace Catalog

variable {file : FileContext} {id owner : Nat} {kind : DefinitionKind} {before : List Nat}

theorem refers_refer (expected : Expected) (path : Site) :
    Refers id before (fun number => number :: before) (refer file id expected path) :=
  refers_addReference rfl rfl

theorem refers_referTo? (expected : Expected) (path : Option Site) :
    Refers id before (fun number => number.toList ++ before) (referTo? file id expected path) := by
  cases path with
  | none => exact refers_pure (List.Subperm.refl before)
  | some path => exact refers_map (refers_refer expected path)

theorem refers_mapM_refer (expected : Expected) (paths : List Site) :
    Refers id before (fun targets => targets ++ before)
      (paths.mapM (refer file id expected)) := by
  have hrow : Refers id before (fun targets => targets.flatMap (fun number => [number]) ++ before)
      (paths.mapM (refer file id expected)) :=
    refers_mapM fun path _ => refers_refer expected path
  simpa only [List.flatMap_singleton'] using hrow

theorem refers_typeOf (site : Site) :
    Refers id before (fun type => type.references ++ before) (typeOf file id site) := by
  rw [typeOf.eq_def]
  cases site.kind
  case numericType =>
    exact refers_bind (refers_referTo? .unit _) fun _ => refers_pure (List.Subperm.refl _)
  case referenceType =>
    exact refers_bind (refers_mapM_refer .classLike _) fun _ => refers_pure (List.Subperm.refl _)
  case listType =>
    cases site.child? .path with
    | none => exact refers_pure (List.Subperm.refl before)
    | some path =>
      exact refers_bind (refers_refer .classLike path) fun _ => refers_pure (List.Subperm.refl _)
  case typeRef =>
    cases site.child? .path with
    | none => exact refers_pure (List.Subperm.refl before)
    | some path =>
      exact refers_bind (refers_refer .type path) fun _ => refers_pure (List.Subperm.refl _)
  all_goals exact refers_pure (List.Subperm.refl before)

theorem refers_typeBelow (site : Site) :
    Refers id before (fun type => type.references ++ before) (typeBelow file id site) := by
  rw [typeBelow.eq_def]
  cases site.type? with
  | none => exact refers_pure (List.Subperm.refl before)
  | some type => exact refers_typeOf type

/-- What a later declaration replaces is no longer referred to. -/
theorem refers_readTopicHead (data : TopicData) (member : Site) :
    Refers id (DefinitionData.topic data).references
      (fun data => (DefinitionData.topic data).references) (readTopicHead file id data member) := by
  rw [readTopicHead.eq_def]
  cases member.kind
  case oidDecl =>
    refine refers_bind (refers_referTo? .domain _) fun target => refers_pure ?_
    refine subperm_of_count_le fun number => ?_
    split <;> simp only [DefinitionData.references, List.count_append] <;> omega
  case dependsOn =>
    refine refers_bind (refers_mapM_refer .topic _) fun targets => refers_pure ?_
    refine subperm_of_count_le fun number => ?_
    simp only [DefinitionData.references, List.count_append]
    omega
  all_goals exact refers_pure (List.Subperm.refl _)

theorem refers_readImport (item : Site) :
    Refers id before (fun imports => imports.map Import.model ++ before)
      (readImport file id item) := by
  rw [readImport.eq_def]
  cases item.child? .path with
  | none => exact refers_pure (List.Subperm.refl before)
  | some path =>
    exact refers_bind (refers_refer .model path) fun _ => refers_pure (List.Subperm.refl _)

theorem walks_defineElements (enumeration : Site) (hkind : kind.mayHold .enumValue) :
    Walks owner kind (defineElements file owner enumeration) := by
  induction enumeration using Site.elements_induction generalizing owner kind with
  | step enumeration ih =>
    rw [defineElements_eq]
    refine walks_forM fun element helement => ?_
    rw [defineElement]
    cases element.heading? file with
    | none => exact walks_pure ()
    | some heading =>
      refine walks_nextDefinition fun start howner =>
        completes_define howner hkind List.nil_subperm ?_
      cases hinner : element.child? .enumType with
      | none => exact walks_pure ()
      | some inner => exact ih element helement inner hinner rfl

theorem walks_defineValues (site : Site) (hkind : kind.mayHold .enumValue) :
    Walks owner kind (defineValues file owner site) := by
  rw [defineValues.eq_def]
  cases site.type? with
  | none => exact walks_pure ()
  | some type =>
    dsimp only
    split
    · exact walks_defineElements type hkind
    · exact walks_pure ()

theorem walks_defineUnit (site : Site) (hkind : kind.mayHold .unit) :
    Walks owner kind (defineUnit file owner site) := by
  rw [defineUnit.eq_def]
  cases site.heading? file with
  | none => exact walks_pure ()
  | some heading =>
    exact walks_nextDefinition fun start howner =>
      completes_bind (refers_referTo? .unit _) fun base =>
        completes_define_last howner hkind (List.sublist_append_left ..).subperm

theorem walks_defineDomain (site : Site) (hkind : kind.mayHold .domain) :
    Walks owner kind (defineDomain file owner site) := by
  rw [defineDomain.eq_def]
  cases site.heading? file with
  | none => exact walks_pure ()
  | some heading =>
    exact walks_nextDefinition fun start howner =>
      completes_bind (refers_referTo? .domain _) fun base =>
        completes_bind (refers_typeBelow site) fun type =>
          completes_define howner hkind (by
            simpa only [DefinitionData.references, List.append_nil] using
              List.perm_append_comm.subperm) (walks_defineValues site rfl)

theorem walks_defineRole (site : Site) (hkind : kind.mayHold .attributeLike) :
    Walks owner kind (defineRole file owner site) := by
  rw [defineRole.eq_def]
  cases site.heading? file with
  | none => exact walks_pure ()
  | some heading =>
    exact walks_nextDefinition fun start howner =>
      completes_bind (refers_mapM_refer .classLike _) fun targets =>
        completes_define_last howner hkind (List.sublist_append_left ..).subperm

theorem walks_defineAttribute (site : Site) (hkind : kind.mayHold .attributeLike) :
    Walks owner kind (defineAttribute file owner site) := by
  rw [defineAttribute.eq_def]
  cases site.heading? file with
  | none => exact walks_pure ()
  | some heading =>
    exact walks_nextDefinition fun start howner =>
      completes_bind (refers_typeBelow site) fun type =>
        completes_define howner hkind (List.sublist_append_left ..).subperm
          (walks_defineValues site rfl)

theorem walks_defineMembers (site : Site) (hkind : kind.mayHold .attributeLike) :
    Walks owner kind (defineMembers file owner site) :=
  walks_bind (walks_forM fun site _ => walks_defineRole site hkind) fun _ =>
    walks_forM fun site _ => walks_defineAttribute site hkind

theorem walks_defineClass (site : Site) (hkind : kind.mayHold .classLike) :
    Walks owner kind (defineClass file owner site) := by
  rw [defineClass.eq_def]
  cases site.heading? file with
  | none => exact walks_pure ()
  | some heading =>
    exact walks_nextDefinition fun start howner =>
      completes_bind (refers_referTo? .classLike _) fun base =>
        completes_bind (refers_referTo? .domain _) fun oid =>
          completes_define howner hkind (by
            simpa only [DefinitionData.references, List.append_nil] using
              List.perm_append_comm.subperm) (walks_defineMembers site rfl)

theorem walks_defineAssociation (site : Site) (hkind : kind.mayHold .association) :
    Walks owner kind (defineAssociation file owner site) := by
  rw [defineAssociation.eq_def]
  cases associationHeading? file site with
  | none => exact walks_pure ()
  | some heading =>
    exact walks_nextDefinition fun start howner =>
      completes_bind (refers_referTo? .association _) fun base =>
        completes_define howner hkind (List.sublist_append_left ..).subperm
          (walks_defineMembers site rfl)

theorem walks_defineMember (member : Site) (hkind : kind = .model ∨ kind = .topic) :
    Walks owner kind (defineMember file owner member) := by
  have hholds (child : DefinitionKind) (hchild : DefinitionKind.topic.mayHold child) :
      kind.mayHold child := by
    rcases hkind with rfl | rfl <;> cases child <;> first | rfl | cases hchild
  rw [defineMember.eq_def]
  cases member.kind
  case unitSection => exact walks_forM fun site _ => walks_defineUnit site (hholds _ rfl)
  case domainSection => exact walks_forM fun site _ => walks_defineDomain site (hholds _ rfl)
  case classDef => exact walks_defineClass member (hholds _ rfl)
  case association => exact walks_defineAssociation member (hholds _ rfl)
  all_goals exact walks_pure ()

theorem walks_defineTopic (site : Site) : Walks owner .model (defineTopic file owner site) := by
  rw [defineTopic.eq_def]
  cases site.heading? file with
  | none => exact walks_pure ()
  | some heading =>
    exact walks_nextDefinition fun start howner =>
      completes_bind (refers_referTo? .topic _) fun base =>
        completes_bind
          ((refers_foldlM refers_readTopicHead _).weaken (by
            simpa only [DefinitionData.references, Option.toList_none, List.append_nil] using
              List.Subperm.refl _))
          fun data => completes_define howner rfl (List.Subperm.refl _) <|
            walks_forM fun member _ => walks_defineMember member (.inr rfl)

theorem walk_defineModel (draft : Draft) (site : Site) :
    draft.Walk (defineModel file site draft).2 := by
  rw [defineModel.eq_def]
  cases site.heading? file with
  | none => exact .refl
  | some heading =>
    refine walk_nextDefinition ?_
    refine completes_bind (refers_referTo? .model _) fun translationOf => ?_
    refine completes_bind (refers_mapM fun item _ => refers_readImport item) fun imports => ?_
    refine completes_addModel ?_ (walks_forM fun member _ => ?_)
    · simpa only [DefinitionData.references, List.map_flatten, ← List.flatMap_def,
        List.append_nil] using List.perm_append_comm.subperm
    split
    · exact walks_defineTopic member
    · exact walks_defineMember member (.inl rfl)

end Catalog

end Ili
