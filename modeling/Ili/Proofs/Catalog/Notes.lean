import Ili.Proofs.Catalog.Forest

/-!
# What the walk notes of the definitions

Which definitions a file has, with what headings and with what cardinalities, can be read off its
tree alone: every step of the walk appends its notes to those taken before, and the references it
notes in between leave no trace in them. So a definition is there just when its site is one that the
walk comes to and there is a heading for it.
-/

namespace Ili

/-- What is noted of a definition, apart from its references and its place in the catalog. -/
structure Note where
  kind : DefinitionKind
  heading : Heading
  cardinality : Option Cardinality

def DefinitionData.cardinality? : DefinitionData → Option Cardinality
  | association data => data.cardinality
  | attributeLike data => data.cardinality
  | _ => none

def Definition.heading (definition : Definition) : Heading :=
  ⟨definition.name, definition.span, definition.nameSpan, definition.metaAttributes⟩

def Definition.note (definition : Definition) : Note :=
  ⟨definition.kind, definition.heading, definition.data.cardinality?⟩

def Heading.notes (heading : Option Heading) (kind : DefinitionKind)
    (cardinality : Option Cardinality) (below : List Note) : List Note :=
  match heading with
  | none => []
  | some heading => ⟨kind, heading, cardinality⟩ :: below

namespace Site

variable (file : FileContext)

def elementNotes (enumeration : Site) : List Note :=
  (enumeration.childrenOf .enumElement).attach.flatMap fun ⟨element, _⟩ =>
    Heading.notes (element.heading? file) .enumValue none <|
      match _hinner : element.child? .enumType with
      | none => []
      | some inner => inner.elementNotes
termination_by sizeOf enumeration.tree
decreasing_by
  exact Nat.lt_trans (Site.sizeOf_lt_of_child? _hinner)
    (Site.sizeOf_lt_of_mem_childrenOf (by assumption))

theorem elementNotes_eq (enumeration : Site) :
    enumeration.elementNotes file = (enumeration.childrenOf .enumElement).flatMap fun element =>
      Heading.notes (element.heading? file) .enumValue none
        ((element.child? .enumType).elim [] (elementNotes file)) := by
  have hattach (row : List Site) (f : Site → List Note) :
      row.flatMap f = row.attach.flatMap fun element => f element.val :=
    calc row.flatMap f = (row.attach.map Subtype.val).flatMap f := by
          rw [List.attach_map_subtype_val]
      _ = row.attach.flatMap fun element => f element.val := List.flatMap_map ..
  rw [elementNotes, hattach]
  refine congrArg (List.flatMap · _) (funext fun ⟨element, _⟩ =>
    congrArg (Heading.notes _ .enumValue none) ?_)
  dsimp only
  split
  · next hnone => rw [hnone, Option.elim_none]
  · next inner hsome => rw [hsome, Option.elim_some]

def valueNotes (site : Site) : List Note :=
  match site.type? with
  | none => []
  | some type => if type.kind = .enumType then type.elementNotes file else []

def roleNotes (site : Site) : List Note :=
  Heading.notes (site.heading? file) .attributeLike site.cardinality? []

def attributeNotes (site : Site) : List Note :=
  let cardinality := (site.type?.filter fun type => type.kind == .listType).bind cardinality?
  Heading.notes (site.heading? file) .attributeLike cardinality (site.valueNotes file)

def contentNotes (site : Site) : List Note :=
  (site.childrenOf .role).flatMap (roleNotes file) ++
    (site.childrenOf .attributeDef).flatMap (attributeNotes file)

def unitNotes (site : Site) : List Note :=
  Heading.notes (site.heading? file) .unit none []

def domainNotes (site : Site) : List Note :=
  Heading.notes (site.heading? file) .domain none (site.valueNotes file)

def classNotes (site : Site) : List Note :=
  Heading.notes (site.heading? file) .classLike none (site.contentNotes file)

def associationNotes (site : Site) : List Note :=
  let cardinality := (site.child? .cardinalityDecl).bind cardinality?
  Heading.notes (Catalog.associationHeading? file site) .association cardinality
    (site.contentNotes file)

def memberNotes (member : Site) : List Note :=
  match member.kind with
  | .unitSection => (member.childrenOf .unitDef).flatMap (unitNotes file)
  | .domainSection => (member.childrenOf .domainDef).flatMap (domainNotes file)
  | .classDef => member.classNotes file
  | .association => member.associationNotes file
  | _ => []

def topicNotes (site : Site) : List Note :=
  Heading.notes (site.heading? file) .topic none (site.members.flatMap (memberNotes file))

def modelNotes (site : Site) : List Note :=
  Heading.notes (site.heading? file) .model none <| site.members.flatMap fun member =>
    if member.kind = .topic then member.topicNotes file else member.memberNotes file

end Site

namespace Drafting

open Draft

variable {α β : Type} {notes more : List Note} {start : Draft} {before : List Nat}

def Appends (notes : List Note) (step : Drafting α) : Prop :=
  ∀ draft : Draft, (step draft).2.definitions.toList.map Definition.note =
    draft.definitions.toList.map Definition.note ++ notes

/-- Once the references are noted that stand before a definition, the step appends these notes. -/
def AppendsTo (start : Draft) (before : List Nat) (notes : List Note) (step : Drafting α) : Prop :=
  ∀ draft : Draft, start.Pending before draft →
    (step draft).2.definitions.toList.map Definition.note =
      start.definitions.toList.map Definition.note ++ notes

theorem appends_of_definitions_eq {step : Drafting α}
    (h : ∀ draft : Draft, (step draft).2.definitions = draft.definitions) : Appends [] step := by
  intro draft
  rw [h, List.append_nil]

theorem appends_pure (a : α) : Appends [] (pure a) :=
  appends_of_definitions_eq fun _ => rfl

theorem appends_addModel (id : Nat) : Appends [] (addModel id) :=
  appends_of_definitions_eq fun _ => rfl

theorem appends_bind {step : Drafting α} {f : α → Drafting β} (h : Appends notes step)
    (hf : ∀ a, Appends more (f a)) : Appends (notes ++ more) (step >>= f) := by
  intro draft
  rw [← List.append_assoc, ← h draft]
  exact hf (step draft).1 (step draft).2

theorem appends_forM {row : List β} {f : β → Drafting Unit} {notes : β → List Note}
    (hf : ∀ b ∈ row, Appends (notes b) (f b)) : Appends (row.flatMap notes) (row.forM f) := by
  induction row with
  | nil => exact appends_pure ()
  | cons b rest ih =>
    rw [List.forM_eq_forM] at ih ⊢
    rw [List.forM_cons, List.flatMap_cons]
    exact appends_bind (hf b List.mem_cons_self) fun _ =>
      ih fun other hother => hf other (List.mem_cons_of_mem b hother)

theorem appends_nextDefinition {f : Nat → Drafting α}
    (hf : ∀ start : Draft, AppendsTo start [] notes (f start.definitions.size)) :
    Appends notes (nextDefinition >>= f) :=
  fun start => hf start start start.pending_self

theorem appendsTo_refers {held : α → List Nat} {step : Drafting α} {f : α → Drafting β}
    (h : Refers start.definitions.size before held step)
    (hf : ∀ a, AppendsTo start (held a) notes (f a)) : AppendsTo start before notes (step >>= f) :=
  fun draft hpending => hf _ _ (h start draft rfl hpending)

theorem appendsTo_define {heading : Heading} {parent : Option Nat} {data : DefinitionData}
    {f : Unit → Drafting α} (hf : Appends notes (f ())) :
    AppendsTo start before (⟨data.kind, heading, data.cardinality?⟩ :: notes)
      (define heading parent data >>= f) := by
  rintro _ ⟨references, -, -, rfl⟩
  set definition : Definition :=
    ⟨heading.name, parent, heading.span, heading.nameSpan, heading.metaAttributes, .empty, data⟩
  refine (hf ⟨start.definitions.push definition, start.references ++ references,
    start.models⟩).trans ?_
  rw [Array.toList_push, List.map_append, List.append_assoc]
  rfl

theorem appendsTo_define_last {heading : Heading} {parent : Option Nat} {data : DefinitionData} :
    AppendsTo start before [⟨data.kind, heading, data.cardinality?⟩]
      (define heading parent data) :=
  appendsTo_define (appends_pure ())

end Drafting

open Drafting

namespace Catalog

variable {file : FileContext} {owner : Nat}

theorem appends_defineElements (enumeration : Site) :
    Appends (enumeration.elementNotes file) (defineElements file owner enumeration) := by
  induction enumeration using Site.elements_induction generalizing owner with
  | step enumeration ih =>
    rw [Site.elementNotes_eq, defineElements_eq]
    refine appends_forM fun element helement => ?_
    rw [defineElement, Heading.notes.eq_def]
    cases element.heading? file with
    | none => exact appends_pure ()
    | some heading =>
      refine appends_nextDefinition fun start => appendsTo_define ?_
      cases hinner : element.child? .enumType with
      | none => exact appends_pure ()
      | some inner => exact ih element helement inner hinner

theorem appends_defineValues (site : Site) :
    Appends (site.valueNotes file) (defineValues file owner site) := by
  rw [defineValues.eq_def, Site.valueNotes]
  cases site.type? with
  | none => exact appends_pure ()
  | some type =>
    dsimp only
    split
    · exact appends_defineElements type
    · exact appends_pure ()

theorem appends_defineUnit (site : Site) :
    Appends (site.unitNotes file) (defineUnit file owner site) := by
  rw [defineUnit.eq_def, Site.unitNotes]
  cases site.heading? file with
  | none => exact appends_pure ()
  | some heading =>
    exact appends_nextDefinition fun start =>
      appendsTo_refers (refers_referTo? .unit _) fun base => appendsTo_define_last

theorem appends_defineDomain (site : Site) :
    Appends (site.domainNotes file) (defineDomain file owner site) := by
  rw [defineDomain.eq_def, Site.domainNotes]
  cases site.heading? file with
  | none => exact appends_pure ()
  | some heading =>
    exact appends_nextDefinition fun start =>
      appendsTo_refers (refers_referTo? .domain _) fun base =>
        appendsTo_refers (refers_typeBelow site) fun type =>
          appendsTo_define (appends_defineValues site)

theorem appends_defineRole (site : Site) :
    Appends (site.roleNotes file) (defineRole file owner site) := by
  rw [defineRole.eq_def, Site.roleNotes]
  cases site.heading? file with
  | none => exact appends_pure ()
  | some heading =>
    exact appends_nextDefinition fun start =>
      appendsTo_refers (refers_mapM_refer .classLike _) fun targets => appendsTo_define_last

theorem appends_defineAttribute (site : Site) :
    Appends (site.attributeNotes file) (defineAttribute file owner site) := by
  rw [defineAttribute.eq_def, Site.attributeNotes]
  cases site.heading? file with
  | none => exact appends_pure ()
  | some heading =>
    exact appends_nextDefinition fun start =>
      appendsTo_refers (refers_typeBelow site) fun type =>
        appendsTo_define (appends_defineValues site)

theorem appends_defineMembers (site : Site) :
    Appends (site.contentNotes file) (defineMembers file owner site) :=
  appends_bind (appends_forM fun role _ => appends_defineRole role) fun _ =>
    appends_forM fun child _ => appends_defineAttribute child

theorem appends_defineClass (site : Site) :
    Appends (site.classNotes file) (defineClass file owner site) := by
  rw [defineClass.eq_def, Site.classNotes]
  cases site.heading? file with
  | none => exact appends_pure ()
  | some heading =>
    exact appends_nextDefinition fun start =>
      appendsTo_refers (refers_referTo? .classLike _) fun base =>
        appendsTo_refers (refers_referTo? .domain _) fun oid =>
          appendsTo_define (appends_defineMembers site)

theorem appends_defineAssociation (site : Site) :
    Appends (site.associationNotes file) (defineAssociation file owner site) := by
  rw [defineAssociation.eq_def, Site.associationNotes]
  cases associationHeading? file site with
  | none => exact appends_pure ()
  | some heading =>
    exact appends_nextDefinition fun start =>
      appendsTo_refers (refers_referTo? .association _) fun base =>
        appendsTo_define (appends_defineMembers site)

theorem appends_defineMember (member : Site) :
    Appends (member.memberNotes file) (defineMember file owner member) := by
  rw [defineMember.eq_def, Site.memberNotes]
  cases member.kind
  case unitSection => exact appends_forM fun child _ => appends_defineUnit child
  case domainSection => exact appends_forM fun child _ => appends_defineDomain child
  case classDef => exact appends_defineClass member
  case association => exact appends_defineAssociation member
  all_goals exact appends_pure ()

theorem appends_defineTopic (site : Site) :
    Appends (site.topicNotes file) (defineTopic file owner site) := by
  rw [defineTopic.eq_def, Site.topicNotes]
  cases site.heading? file with
  | none => exact appends_pure ()
  | some heading =>
    exact appends_nextDefinition fun start =>
      appendsTo_refers (refers_referTo? .topic _) fun base =>
        appendsTo_refers
          ((refers_foldlM refers_readTopicHead _).weaken (by
            simpa only [DefinitionData.references, Option.toList_none, List.append_nil] using
              List.Subperm.refl _))
          fun data => appendsTo_define (appends_forM fun member _ => appends_defineMember member)

theorem appends_defineModel (site : Site) :
    Appends (site.modelNotes file) (defineModel file site) := by
  rw [defineModel.eq_def, Site.modelNotes]
  cases site.heading? file with
  | none => exact appends_pure ()
  | some heading =>
    refine appends_nextDefinition fun start => ?_
    refine appendsTo_refers (refers_referTo? .model _) fun translationOf => ?_
    refine appendsTo_refers (refers_mapM fun item _ => refers_readImport item) fun imports => ?_
    refine appendsTo_define
      (appends_bind (appends_addModel _) fun _ => appends_forM fun member _ => ?_)
    split
    · exact appends_defineTopic member
    · exact appends_defineMember member

def contextOf (text : String) (uri : Option String) : FileContext :=
  ⟨.ofText text, uri, (Site.root (parse text).tree).schemaVersion?⟩

/-- **The definitions of a text are those of its tree.** Each has the heading and the cardinality of
its site, and they come in the order of the walk. -/
theorem notes_ofText (text : String) (uri : Option String) :
    (ofText text uri).definitions.toList.map Definition.note =
      (Site.root (parse text).tree).models.flatMap (Site.modelNotes (contextOf text uri)) := by
  set root := Site.root (parse text).tree
  have hnotes : Appends (root.models.flatMap (Site.modelNotes (contextOf text uri)))
      (root.models.forM (defineModel (contextOf text uri))) :=
    appends_forM fun model _ => appends_defineModel model
  refine Eq.trans ?_ (hnotes .empty)
  -- The content of a definition is entered last and is no part of its note.
  apply List.ext_getElem?
  intro index
  have hdefinition := definition?_ofTree text (parse text).tree uri index
  rw [List.getElem?_map, Array.getElem?_toList, List.getElem?_map, Array.getElem?_toList]
  refine (congrArg (Option.map Definition.note) hdefinition).trans ?_
  rw [Option.map_map]
  rfl

end Catalog

end Ili
