import Ili.Proofs.Catalog.Elements
import Ili.Proofs.Catalog.Stripped

/-!
# What a text declares

The walk from a tree to its catalog takes the same steps over trees that look alike. So the catalogs
of two texts whose trees are the same but for blanks say the same, definition by definition and
reference by reference; and where comments differ too they still say the same, but for what is read
off comments and for the texts of types that are kept as they are written.
-/

namespace Ili

variable {view : View} {like : Congruence view}

def FileContext.Alike (file other : FileContext) : Prop :=
  file.uri = other.uri ∧ file.schemaVersion = other.schemaVersion

section Walk

variable {file file' : FileContext} {site other : Site}

abbrev SameHeading (view : View) (heading other : Heading) : Prop :=
  heading.seen view = other.seen view

theorem heading?_alike (file file' : FileContext) (h : site.Alike view.keep other) :
    Option.Rel (SameHeading view) (site.heading? file) (other.heading? file') := by
  refine rel_map h.nameToken? fun a b hlike => ?_
  simp only [SameHeading, Site.headingAt, Heading.seen, view.comments_eq h,
    hlike.1.text_eq (by rw [hlike.2]; decide)]

theorem has_finalKw_alike (h : site.Alike view.keep other) :
    (site.has .finalKw || (site.child? .enumType).any fun inner => inner.has .finalKw) =
      (other.has .finalKw || (other.child? .enumType).any fun inner => inner.has .finalKw) := by
  have hfinal := h.has_eq (show Kind.finalKw.isTrivia = false from rfl)
  rcases rel_cases (h.child? (show Kind.enumType.isTrivia = false from rfl)) with
    ⟨hleft, hright⟩ | ⟨inner, inner', hleft, hright, hlike⟩
  · rw [hfinal, hleft, hright]
  · rw [hfinal, hleft, hright, Option.any_some, Option.any_some,
      hlike.1.has_eq (show Kind.finalKw.isTrivia = false from rfl)]

theorem enumValues_alike (h : site.Alike view.keep other) : enumValues site = enumValues other := by
  induction site using Site.elements_induction generalizing other with
  | step enumeration ih =>
    have helements := h.childrenOf (show Kind.enumElement.isTrivia = false from rfl)
    rw [enumValues, enumValues]
    refine filterMap_eq_of_forall₂
      ((List.forall₂_and_left _ _).mpr ⟨fun _ helement => helement, helements⟩) ?_
    rintro element element' ⟨helement, hlike⟩
    rw [enumValue?_eq, enumValue?_eq, hlike.name?_eq, has_finalKw_alike hlike]
    rcases rel_cases (hlike.child? (show Kind.enumType.isTrivia = false from rfl)) with
      ⟨hleft, hright⟩ | ⟨inner, inner', hleft, hright, hinner⟩
    · rw [hleft, hright]
    · rw [hleft, hright, Option.elim_some, Option.elim_some,
        ih element helement inner hleft hinner.1]

end Walk

namespace Catalog

open Drafting

variable {file file' : FileContext} {site other : Site}

theorem alike_refer (source : Nat) (expected : Expected) (h : site.Alike view.keep other) :
    Drafting.Alike like (Becomes like.reference) (refer file source expected site)
      (refer file' (like.definition source) expected other) := by
  apply alike_addReference
  simp only [Reference.stripped, Reference.renumber, h.segments_eq]

theorem alike_referTo? (source : Nat) (expected : Expected) {path path' : Option Site} {kind : Kind}
    (h : Option.Rel (fun a b => a.Alike view.keep b ∧ a.kind = kind) path path') :
    Drafting.Alike like (Becomes (Option.map like.reference)) (referTo? file source expected path)
      (referTo? file' (like.definition source) expected path') := by
  cases h with
  | none => exact alike_pure rfl
  | some h => exact alike_map (alike_refer source expected h.1) fun _ => rfl

theorem alike_mapM_refer (source : Nat) (expected : Expected) {paths paths' : List Site}
    (h : List.Forall₂ (Site.Alike view.keep) paths paths') :
    Drafting.Alike like (Becomes (List.map like.reference))
      (paths.mapM (refer file source expected))
      (paths'.mapM (refer file' (like.definition source) expected)) :=
  alike_mapM h fun _ _ hlike => alike_refer source expected hlike

/-- The types look the same but for the numbers of references. -/
abbrev SameType (view : View) (reference : Nat → Nat) (type type' : TypeDef) : Prop :=
  type'.seen view = (type.seen view).renumber reference

theorem alike_raw (h : site.Alike view.keep other) :
    Drafting.Alike like (SameType view like.reference) (pure (.raw (collapseBlanks site.text)))
      (pure (.raw (collapseBlanks other.text))) := by
  apply alike_pure
  simp only [SameType, TypeDef.seen, TypeDef.renumber, view.written_eq h]

theorem alike_typeOf (source : Nat) (h : site.Alike view.keep other) :
    Drafting.Alike like (SameType view like.reference) (typeOf file source site)
      (typeOf file' (like.definition source) other) := by
  have hpath := h.child? (show Kind.path.isTrivia = false from rfl)
  rw [typeOf.eq_def, typeOf.eq_def file', ← h.kind_eq]
  cases hkind : site.kind
  case textType =>
    have hlength : ((site.child? .integer).bind fun c => parseNumber? c.text) =
        (other.child? .integer).bind fun c => parseNumber? c.text := by
      have htext := map_eq_of_rel (h.child? (show Kind.integer.isTrivia = false from rfl))
        (f := Site.text) (g := Site.text) fun a b hlike =>
          hlike.1.text_eq (by rw [hlike.2]; decide)
      have hbind (site : Site) : ((site.child? .integer).bind fun c => parseNumber? c.text) =
          ((site.child? .integer).map Site.text).bind parseNumber? := by
        rw [Option.bind_map]
        rfl
      rw [hbind, hbind, htext]
    exact alike_pure (by rw [h.textKind_eq, hlength]; rfl)
  case numericType =>
    simp only [h.numericBounds_eq]
    exact alike_bind_to (alike_referTo? source .unit hpath) fun unit => alike_pure rfl
  case booleanType => exact alike_pure rfl
  case enumType =>
    apply alike_pure
    rw [enumValues_alike h, h.has_eq (by decide)]
    rfl
  case referenceType =>
    simp only [h.hasProperty_eq]
    exact alike_bind_to (alike_mapM_refer source .classLike (h.childrenOf (by decide)))
      fun targets => alike_pure rfl
  case listType =>
    rcases rel_cases hpath with ⟨hleft, hright⟩ | ⟨path, path', hleft, hright, hlike⟩
    · simp only [hleft, hright]
      exact alike_raw h
    · simp only [hleft, hright, h.has_eq (show Kind.listKw.isTrivia = false from rfl)]
      exact alike_bind_to (alike_refer source .classLike hlike.1) fun target => alike_pure rfl
  case blackboxType =>
    exact alike_pure (by rw [h.has_eq (by decide)]; rfl)
  case typeRef =>
    rcases rel_cases hpath with ⟨hleft, hright⟩ | ⟨path, path', hleft, hright, hlike⟩
    · simp only [hleft, hright]
      exact alike_raw h
    · simp only [hleft, hright]
      exact alike_bind_to (alike_refer source .type hlike.1) fun target => alike_pure rfl
  all_goals exact alike_raw h

theorem alike_typeBelow (source : Nat) (h : site.Alike view.keep other) :
    Drafting.Alike like (SameType view like.reference) (typeBelow file source site)
      (typeBelow file' (like.definition source) other) := by
  rcases rel_cases h.type? with ⟨hleft, hright⟩ | ⟨type, type', hleft, hright, hlike⟩
  · simp only [typeBelow, hleft, hright]
    exact alike_pure rfl
  · simp only [typeBelow, hleft, hright]
    exact alike_typeOf source hlike.1

theorem alike_defineElements (owner : Nat) (h : site.Alike view.keep other) :
    Drafting.Alike like Eq (defineElements file owner site)
      (defineElements file' (like.definition owner) other) := by
  induction site using Site.elements_induction generalizing owner other with
  | step enumeration ih =>
    have helements := h.childrenOf (show Kind.enumElement.isTrivia = false from rfl)
    rw [defineElements_eq, defineElements_eq]
    refine alike_forM ((List.forall₂_and_left _ _).mpr ⟨fun _ helement => helement, helements⟩) ?_
    rintro element element' ⟨helement, hlike⟩
    rw [defineElement, defineElement]
    rcases rel_cases (heading?_alike file file' hlike) with
      ⟨hleft, hright⟩ | ⟨heading, heading', hleft, hright, hheading⟩
    · rw [hleft, hright]
      exact alike_pure rfl
    rw [hleft, hright, hlike.has_eq (show Kind.finalKw.isTrivia = false from rfl)]
    refine alike_bind_to alike_nextDefinition fun id =>
      alike_bind_unit (Drafting.alike_define hheading rfl fun hkind => by cases hkind) ?_
    rcases rel_cases (hlike.child? (show Kind.enumType.isTrivia = false from rfl)) with
      ⟨hleft, hright⟩ | ⟨inner, inner', hleft, hright, hinner⟩
    · rw [hleft, hright]
      exact alike_pure rfl
    · rw [hleft, hright]
      exact ih element helement inner hleft id hinner.1

theorem alike_defineValues (owner : Nat) (h : site.Alike view.keep other) :
    Drafting.Alike like Eq (defineValues file owner site)
      (defineValues file' (like.definition owner) other) := by
  rcases rel_cases h.type? with ⟨hleft, hright⟩ | ⟨type, type', hleft, hright, hlike⟩
  · simp only [defineValues, hleft, hright]
    exact alike_pure rfl
  · simp only [defineValues, hleft, hright, hlike.1.kind_eq]
    split
    · exact alike_defineElements owner hlike.1
    · exact alike_pure rfl

theorem alike_defineUnit (parent : Nat) (h : site.Alike view.keep other) :
    Drafting.Alike like Eq (defineUnit file parent site)
      (defineUnit file' (like.definition parent) other) := by
  have hshort : (((site.childrenOf .name)[1]?).bind fun name => name.child? .ident).map Site.text =
      (((other.childrenOf .name)[1]?).bind fun name => name.child? .ident).map Site.text := by
    have hnames := h.childrenOf (show Kind.name.isTrivia = false from rfl)
    exact map_eq_of_rel (rel_bind (rel_getElem? hnames 1) fun _ _ hlike => hlike.child? (by decide))
      fun _ _ hlike => hlike.1.text_eq (by rw [hlike.2]; decide)
  rcases rel_cases (heading?_alike file file' h) with
    ⟨hleft, hright⟩ | ⟨heading, heading', hleft, hright, hheading⟩
  · simp only [defineUnit, hleft, hright]
    exact alike_pure rfl
  simp only [defineUnit, hleft, hright, hshort, h.hasProperty_eq]
  exact alike_bind_to alike_nextDefinition fun id =>
    alike_bind_to (alike_referTo? id .unit h.extended?) fun base => alike_define hheading rfl nofun

theorem alike_defineDomain (parent : Nat) (h : site.Alike view.keep other) :
    Drafting.Alike like Eq (defineDomain file parent site)
      (defineDomain file' (like.definition parent) other) := by
  rcases rel_cases (heading?_alike file file' h) with
    ⟨hleft, hright⟩ | ⟨heading, heading', hleft, hright, hheading⟩
  · simp only [defineDomain, hleft, hright]
    exact alike_pure rfl
  simp only [defineDomain, hleft, hright, h.modifiers_eq,
    h.has_eq (show Kind.mandatoryKw.isTrivia = false from rfl)]
  refine alike_bind_to alike_nextDefinition fun id =>
    alike_bind_to (alike_referTo? id .domain h.extended?) fun base =>
      alike_bind (alike_typeBelow id h) fun type type' htype =>
        alike_bind_unit (alike_define hheading ?_ nofun) <| alike_defineValues id h
  simp only [DefinitionData.seen, htype, DefinitionData.renumber]

theorem alike_defineRole (parent : Nat) (h : site.Alike view.keep other) :
    Drafting.Alike like Eq (defineRole file parent site)
      (defineRole file' (like.definition parent) other) := by
  rcases rel_cases (heading?_alike file file' h) with
    ⟨hleft, hright⟩ | ⟨heading, heading', hleft, hright, hheading⟩
  · simp only [defineRole, hleft, hright]
    exact alike_pure rfl
  simp only [defineRole, hleft, hright, h.roleKind_eq, h.anyProperty_eq, h.cardinality?_eq]
  exact alike_bind_to alike_nextDefinition fun id =>
    alike_bind_to (alike_mapM_refer id .classLike (h.childrenOf (by decide))) fun targets =>
      alike_define hheading rfl nofun

theorem alike_defineAttribute (parent : Nat) (h : site.Alike view.keep other) :
    Drafting.Alike like Eq (defineAttribute file parent site)
      (defineAttribute file' (like.definition parent) other) := by
  have hcardinality :
      (site.type?.filter fun type => type.kind == .listType).bind Site.cardinality? =
        (other.type?.filter fun type => type.kind == .listType).bind Site.cardinality? := by
    refine bind_eq_of_rel (rel_filter h.type? fun type type' hlike => ?_) fun _ _ hlike =>
      hlike.1.cardinality?_eq
    rw [hlike.1.kind_eq]
  rcases rel_cases (heading?_alike file file' h) with
    ⟨hleft, hright⟩ | ⟨heading, heading', hleft, hright, hheading⟩
  · simp only [defineAttribute, hleft, hright]
    exact alike_pure rfl
  simp only [defineAttribute, hleft, hright, hcardinality,
    h.has_eq (show Kind.mandatoryKw.isTrivia = false from rfl)]
  refine alike_bind_to alike_nextDefinition fun id =>
    alike_bind (alike_typeBelow id h) fun type type' htype =>
      alike_bind_unit (alike_define hheading ?_ nofun) <| alike_defineValues id h
  simp only [DefinitionData.seen, htype, DefinitionData.renumber]

theorem alike_defineMembers (owner : Nat) (h : site.Alike view.keep other) :
    Drafting.Alike like Eq (defineMembers file owner site)
      (defineMembers file' (like.definition owner) other) :=
  alike_bind_unit (alike_forM (h.childrenOf (by decide))
    fun _ _ hlike => alike_defineRole owner hlike) <|
    alike_forM (h.childrenOf (by decide)) fun _ _ hlike => alike_defineAttribute owner hlike

theorem alike_defineClass (parent : Nat) (h : site.Alike view.keep other) :
    Drafting.Alike like Eq (defineClass file parent site)
      (defineClass file' (like.definition parent) other) := by
  rcases rel_cases (heading?_alike file file' h) with
    ⟨hleft, hright⟩ | ⟨heading, heading', hleft, hright, hheading⟩
  · simp only [defineClass, hleft, hright]
    exact alike_pure rfl
  simp only [defineClass, hleft, hright, h.modifiers_eq,
    h.has_eq (show Kind.structureKw.isTrivia = false from rfl)]
  exact alike_bind_to alike_nextDefinition fun id =>
    alike_bind_to (alike_referTo? id .classLike h.extended?) fun base =>
      alike_bind_to (alike_referTo? id .domain (h.grandchild? (by decide) (by decide))) fun oid =>
        alike_bind_unit (alike_define hheading rfl nofun) <| alike_defineMembers id h

theorem associationHeading?_alike (file file' : FileContext) (h : site.Alike view.keep other) :
    Option.Rel (SameHeading view) (associationHeading? file site)
      (associationHeading? file' other) := by
  have hroles := h.childrenOf (show Kind.role.isTrivia = false from rfl)
  have hnames := filterMap_eq_of_forall₂ hroles fun _ _ hlike => hlike.name?_eq
  have hfirst {site : Site} (hname : (String.join ((site.childrenOf .role).filterMap
      Site.name?)).isEmpty = false) : ∃ token, site.children.head? = some token := by
    cases hchildren : site.children with
    | nil =>
      rw [Site.childrenOf, hchildren] at hname
      cases hname
    | cons token rest => exact ⟨token, rfl⟩
  have hheading := heading?_alike file file' h
  rw [associationHeading?, associationHeading?]
  revert hheading
  generalize site.heading? file = heading
  generalize other.heading? file' = heading'
  intro hheading
  cases hheading with
  | some hsame => exact .some hsame
  | none =>
    simp only [Option.none_or, ← hnames]
    split
    · exact .none
    · next hname =>
      obtain ⟨token, htoken⟩ := hfirst (Bool.eq_false_iff.mpr hname)
      rw [hnames] at hname
      obtain ⟨token', htoken'⟩ := hfirst (Bool.eq_false_iff.mpr hname)
      rw [htoken, htoken']
      refine .some ?_
      simp only [SameHeading, Site.headingAt, Heading.seen, view.comments_eq h]

theorem alike_defineAssociation (parent : Nat) (h : site.Alike view.keep other) :
    Drafting.Alike like Eq (defineAssociation file parent site)
      (defineAssociation file' (like.definition parent) other) := by
  have hcardinality : (site.child? .cardinalityDecl).bind Site.cardinality? =
      (other.child? .cardinalityDecl).bind Site.cardinality? :=
    bind_eq_of_rel (h.child? (by decide)) fun _ _ hlike => hlike.1.cardinality?_eq
  rcases rel_cases (associationHeading?_alike file file' h) with
    ⟨hleft, hright⟩ | ⟨heading, heading', hleft, hright, hheading⟩
  · simp only [defineAssociation, hleft, hright]
    exact alike_pure rfl
  simp only [defineAssociation, hleft, hright, h.modifiers_eq, hcardinality]
  exact alike_bind_to alike_nextDefinition fun id =>
    alike_bind_to (alike_referTo? id .association h.extended?) fun base =>
      alike_bind_unit (alike_define hheading rfl nofun) <| alike_defineMembers id h

theorem alike_defineMember (parent : Nat) (h : site.Alike view.keep other) :
    Drafting.Alike like Eq (defineMember file parent site)
      (defineMember file' (like.definition parent) other) := by
  rw [defineMember.eq_def, defineMember.eq_def file', ← h.kind_eq]
  cases site.kind
  case unitSection =>
    exact alike_forM (h.childrenOf (by decide)) fun _ _ hlike => alike_defineUnit parent hlike
  case domainSection =>
    exact alike_forM (h.childrenOf (by decide)) fun _ _ hlike => alike_defineDomain parent hlike
  case classDef => exact alike_defineClass parent h
  case association => exact alike_defineAssociation parent h
  all_goals exact alike_pure rfl

theorem alike_readTopicHead (id : Nat) (data : TopicData) (h : site.Alike view.keep other) :
    Drafting.Alike like (Becomes (TopicData.renumber like.reference))
      (readTopicHead file id data site)
      (readTopicHead file' (like.definition id) (data.renumber like.reference) other) := by
  rw [readTopicHead.eq_def, readTopicHead.eq_def file', ← h.kind_eq]
  cases site.kind
  case oidDecl =>
    simp only [h.has_eq (show Kind.basketKw.isTrivia = false from rfl)]
    refine alike_bind_to (alike_referTo? id .domain (h.child? (by decide))) fun target =>
      alike_pure ?_
    split <;> rfl
  case dependsOn =>
    refine alike_bind_to (alike_mapM_refer id .topic (h.childrenOf (by decide))) fun targets =>
      alike_pure ?_
    simp only [Becomes, TopicData.renumber, List.map_append]
  all_goals exact alike_pure rfl

/-- Notes a topic, but not its members. -/
def topicHead (file : FileContext) (parent : Nat) (heading : Heading) (site : Site) (id : Nat) :
    Drafting Unit := do
  let base ← referTo? file id .topic site.extended?
  let data ← site.members.foldlM (readTopicHead file id) ⟨site.modifiers, base, [], none, none⟩
  define heading (some parent) (.topic data)

theorem defineTopic_of_heading {parent : Nat} {heading : Heading}
    (h : site.heading? file = some heading) :
    defineTopic file parent site = (do
      let id ← nextDefinition
      topicHead file parent heading site id
      site.members.forM (defineMember file id)) := by
  rw [defineTopic, h]
  rfl

theorem foldlM_readTopicHead (id : Nat) (data : TopicData) :
    site.members.foldlM (readTopicHead file id) data =
      (site.children.filter fun child => child.kind == .oidDecl || child.kind == .dependsOn).foldlM
        (readTopicHead file id) data := by
  rw [Site.members, List.foldlM_filter, List.foldlM_filter]
  congr 1
  funext data child
  rw [readTopicHead.eq_def]
  cases child.kind <;> rfl

theorem alike_topicHead (parent : Nat) {heading heading' : Heading} (id : Nat)
    (hheading : SameHeading view heading heading')
    (h : Site.AlikeFor view.keep (Site.inHead view.keep) site other) :
    Drafting.Alike like Eq (topicHead file parent heading site id)
      (topicHead file' (like.definition parent) heading' other (like.definition id)) := by
  have hmodifiers : site.modifiers = other.modifiers :=
    Site.modifiers_eq <| map_eq_of_rel
      (h.child? (by decide) fun _ hkind => Site.inHead_of_kind (hkind ▸ rfl) (hkind ▸ rfl))
      fun _ _ hlike => hlike.1.words_eq
  have hread {kind : Kind} (hkind : (kind == .oidDecl || kind == .dependsOn) = true) :
      kind.isTrivia = false ∧ kind.isDeclaration = false := by
    rcases (Bool.or_eq_true _ _).mp hkind with heq | heq <;> rw [beq_iff_eq.mp heq] <;> decide
  have hmembers := h.filter
    (Site.asks_kind (q := fun kind => kind == .oidDecl || kind == .dependsOn)
      fun _ hkind => (hread hkind).1)
    fun _ hkind => Site.inHead_of_kind (hread hkind).1 (hread hkind).2
  simp only [topicHead, foldlM_readTopicHead, hmodifiers]
  exact alike_bind_to (alike_referTo? id .topic
      (h.grandchild? (by decide) (by decide) fun _ hkind =>
        Site.inHead_of_kind (hkind ▸ rfl) (hkind ▸ rfl))) fun base =>
    alike_bind_to (alike_foldlM _ hmembers fun data _ _ hlike => alike_readTopicHead id data hlike)
      fun data => alike_define hheading rfl nofun

theorem alike_defineTopic (parent : Nat) (h : site.Alike view.keep other) :
    Drafting.Alike like Eq (defineTopic file parent site)
      (defineTopic file' (like.definition parent) other) := by
  rcases rel_cases (heading?_alike file file' h) with
    ⟨hleft, hright⟩ | ⟨heading, heading', hleft, hright, hheading⟩
  · simp only [defineTopic, hleft, hright]
    exact alike_pure rfl
  rw [defineTopic_of_heading hleft, defineTopic_of_heading hright]
  exact alike_bind_to alike_nextDefinition fun id =>
    alike_bind_unit (alike_topicHead parent id hheading h.head) <|
      alike_forM h.members fun _ _ hlike => alike_defineMember id hlike

theorem alike_readImport (id : Nat) (h : site.Alike view.keep other) :
    Drafting.Alike like (Becomes (List.map (Import.renumber like.reference)))
      (readImport file id site) (readImport file' (like.definition id) other) := by
  rcases rel_cases (h.child? (show Kind.path.isTrivia = false from rfl)) with
    ⟨hleft, hright⟩ | ⟨path, path', hleft, hright, hlike⟩
  · simp only [readImport, hleft, hright]
    exact alike_pure rfl
  · simp only [readImport, hleft, hright, h.isUnqualified_eq]
    exact alike_bind_to (alike_refer id .model hlike.1) fun target => alike_pure rfl

def modelHead (file : FileContext) (heading : Heading) (site : Site) (id : Nat) :
    Drafting Unit := do
  let translationOf ← referTo? file id .model site.translated?
  let imports ← site.importItems.mapM (readImport file id)
  define heading none <| .model
    { schemaVersion := file.schemaVersion
      language := site.language?
      issuer := site.stringBehind? .atKw
      version := site.stringBehind? .versionKw
      translationOf
      imports := imports.flatten
      sourceUri := file.uri }
  addModel id

def defineBelow (file : FileContext) (owner : Nat) (member : Site) : Drafting Unit :=
  if member.kind = .topic then defineTopic file owner member else defineMember file owner member

theorem defineModel_of_heading {heading : Heading} (h : site.heading? file = some heading) :
    defineModel file site = (do
      let id ← nextDefinition
      modelHead file heading site id
      site.members.forM (defineBelow file id)) := by
  rw [defineModel, h]
  rfl

theorem alike_modelHead (hmodels : like.KeepsModels) (hfile : file.Alike file')
    {heading heading' : Heading} (id : Nat) (hheading : SameHeading view heading heading')
    (h : Site.AlikeFor view.keep (Site.inHead view.keep) site other) :
    Drafting.Alike like Eq (modelHead file heading site id)
      (modelHead file' heading' other (like.definition id)) := by
  have htokens : site.visibleTokens.map Site.tree = other.visibleTokens.map Site.tree :=
    h.visibleTokens fun child t htree hkind => by
      rw [Site.inHead, Site.isSolid_of_visible hkind, htree]
      rfl
  have himports : List.Forall₂ (Site.Alike view.keep) site.importItems other.importItems :=
    List.rel_flatMap (h.filter (Site.asks_beq (by decide)) fun _ hkind =>
      Site.inHead_of_kind (beq_iff_eq.mp hkind ▸ rfl) (beq_iff_eq.mp hkind ▸ rfl))
      fun _ _ hlike => hlike.childrenOf (by decide)
  simp only [modelHead, hfile.1, hfile.2, Site.language?_eq htokens, Site.stringBehind?_eq htokens]
  refine alike_bind_to (alike_referTo? id .model
      (h.grandchild? (by decide) (by decide) fun _ hkind =>
        Site.inHead_of_kind (hkind ▸ rfl) (hkind ▸ rfl))) fun translationOf =>
    alike_bind_to (alike_mapM himports fun _ _ hlike => alike_readImport id hlike)
      fun imports => alike_bind_unit (alike_define_model hmodels hheading ?_) <|
        alike_addModel hmodels id
  simp only [DefinitionData.seen, DefinitionData.renumber, List.map_flatten]

theorem alike_defineBelow (owner : Nat) (h : site.Alike view.keep other) :
    Drafting.Alike like Eq (defineBelow file owner site)
      (defineBelow file' (like.definition owner) other) := by
  rw [defineBelow, defineBelow, h.kind_eq]
  split
  · exact alike_defineTopic owner h
  · exact alike_defineMember owner h

theorem alike_defineModel (hmodels : like.KeepsModels) (hfile : file.Alike file')
    (h : site.Alike view.keep other) :
    Drafting.Alike like Eq (defineModel file site) (defineModel file' other) := by
  rcases rel_cases (heading?_alike file file' h) with
    ⟨hleft, hright⟩ | ⟨heading, heading', hleft, hright, hheading⟩
  · simp only [defineModel, hleft, hright]
    exact alike_pure rfl
  rw [defineModel_of_heading hleft, defineModel_of_heading hright]
  exact alike_bind_to alike_nextDefinition fun id =>
    alike_bind_unit (alike_modelHead hmodels hfile id hheading h.head) <|
      alike_forM h.members fun _ _ hlike => alike_defineBelow id hlike

theorem contentOf_map_seen (definitions : List Definition) (parent : Nat) :
    contentOf (definitions.map (Definition.seen view)) parent = contentOf definitions parent := by
  rw [contentOf, contentOf, List.zipIdx_map, List.flatMap_map]
  refine congrArg Dict.ofList (congrArg (List.flatMap · _) (funext fun entry => ?_))
  obtain ⟨definition, id⟩ := entry
  simp only [Prod.map_apply, id_eq, Definition.names_seen]
  rfl

def finished (definitions : Array Definition) : Array Definition :=
  definitions.mapIdx fun id definition =>
    { definition with content := contentOf definitions.toList id }

theorem map_seen_finished (definitions : Array Definition) :
    (finished definitions).map (Definition.seen view) =
      finished (definitions.map (Definition.seen view)) := by
  apply Array.ext
  · simp [finished]
  · intro i hleft hright
    simp only [finished, Array.getElem_map, Array.getElem_mapIdx, Array.toList_map,
      contentOf_map_seen]
    rfl

def draftOf (file : FileContext) (root : Site) : Draft :=
  ((root.models.forM (defineModel file)).run Draft.empty).2

theorem seen_draftOf (file file' : FileContext) (hfile : file.Alike file')
    (h : site.Alike view.keep other) :
    (draftOf file site).seen view = (draftOf file' other).seen view :=
  (alike_forM (h.childrenOf (show Kind.model.isTrivia = false from rfl))
    (fun _ _ hlike => alike_defineModel (Congruence.keepsModels_saying view) hfile hlike)
    Draft.empty Draft.empty rfl).2

/-- Catalogs of trees that look alike say the same. -/
theorem seen_ofTree {text text' : String} {tree tree' : Tree} (uri : Option String)
    (h : (Site.root tree).Alike view.keep (Site.root tree')) :
    (ofTree text tree uri).seen view = (ofTree text' tree' uri).seen view := by
  have hofTree (text : String) (tree : Tree) :
      let root := Site.root tree
      let draft := draftOf ⟨.ofText text, uri, root.schemaVersion?⟩ root
      (ofTree text tree uri).seen view =
        ⟨uri, root.schemaVersion?, finished (draft.seen view).definitions,
          (draft.seen view).references, (draft.seen view).models⟩ := by
    simp only [Draft.seen, ← map_seen_finished]
    rfl
  have hversion := h.schemaVersion?_eq
  have hdraft := seen_draftOf ⟨.ofText text, uri, (Site.root tree).schemaVersion?⟩
    ⟨.ofText text', uri, (Site.root tree').schemaVersion?⟩ ⟨rfl, hversion⟩ h
  rw [hofTree, hofTree, hdraft, hversion]

theorem stripped_ofText {text other : String} (uri : Option String)
    (h : (parse other).tree.solid = (parse text).tree.solid) :
    (ofText other uri).stripped = (ofText text uri).stripped := by
  rw [← seen_solid, ← seen_solid]
  exact seen_ofTree uri (Site.alike_root h (neat_parse other) (neat_parse text))

end Catalog

open Layout

/-- The layout of a text without errors has its tree but for blanks just when it is legible. Then it
has no errors either and declares what the text declares. -/
theorem formatText_preserves (text : String) (options : LayoutOptions) (uri : Option String)
    (hok : (parse text).errors = []) :
    (legible options (slotsOf (parse text).tree) = true ↔
        (parse (formatText text options)).tree.solid = (parse text).tree.solid) ∧
      (legible options (slotsOf (parse text).tree) = true →
        (parse (formatText text options)).errors = [] ∧
          (Catalog.ofText (formatText text options) uri).stripped =
            (Catalog.ofText text uri).stripped) := by
  refine ⟨(tree_formatText_iff hok options).symm, fun h => ?_⟩
  obtain ⟨htree, herrors⟩ := tree_formatText hok h
  exact ⟨herrors, Catalog.stripped_ofText uri htree⟩

theorem formatText_preserves_class :
    (parse "INTERLIS 2.4; MODEL M = CLASS A = x: 1 .. 5; END A; END M.").errors = [] ∧
      (Catalog.ofText (formatText "INTERLIS 2.4; MODEL M = CLASS A = x: 1 .. 5; END A; END M."
          LayoutOptions.standard) none).stripped =
        (Catalog.ofText "INTERLIS 2.4; MODEL M = CLASS A = x: 1 .. 5; END A; END M."
          none).stripped := by
  have hok : (parse "INTERLIS 2.4; MODEL M = CLASS A = x: 1 .. 5; END A; END M.").errors = [] := by
    decide +kernel
  have hpreserves := formatText_preserves
    "INTERLIS 2.4; MODEL M = CLASS A = x: 1 .. 5; END A; END M." LayoutOptions.standard none hok
  exact ⟨hok, (hpreserves.2 (by decide +kernel)).2⟩

end Ili
