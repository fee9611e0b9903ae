import Ili.Proofs.Catalog.Exchanged
import Ili.Proofs.Catalog.ImportOrder

/-!
# Cardinalities as they are displayed

Written as the cardinality of a role or of a list attribute, what a cardinality is displayed as is
read as the same cardinality again, whatever stands around it in the text. One comes to it through
the frames of the cardinality that stood there, and as a child is found by its kind, and the frames
say which kinds stand in front of it, the walk finds it where it found the other one.
-/

namespace Ili

theorem Grammar.exists_name_of_member {kind : Kind} {trees : List Tree}
    (hkind : kind ∈ [Kind.role, .attributeDef])
    (h : trees ∈ (production kind).relaxed.language) : ∃ tree ∈ trees, tree.kind = .name := by
  obtain ⟨behind, hshape⟩ :
      ∃ behind, (production kind).relaxed = .seq (Shape.single .name) behind := by
    simp only [List.mem_cons, List.not_mem_nil, or_false] at hkind
    rcases hkind with rfl | rfl <;> exact ⟨_, rfl⟩
  rw [hshape] at h
  obtain ⟨first, hfirst, rest, -, rfl⟩ := h
  obtain ⟨tree, rfl, hname⟩ := Shape.mem_single_iff.mp hfirst
  exact ⟨tree, List.mem_cons_self, hname⟩

namespace Site

def cardinalitySite? (member : Site) : Option Site :=
  match member.kind with
  | .role => member.child? .cardinality
  | .attributeDef =>
    (member.type?.filter fun type => type.kind == .listType).bind fun type =>
      type.child? .cardinality
  | _ => none

/-- The walk notes what is in it: a class, or an association that is named or has roles. -/
def HoldsMembers (owner : Site) : Prop :=
  owner.kind = .classDef ∨
    owner.kind = .association ∧ (owner.has .name = true ∨ owner.has .role = true)

instance (owner : Site) : Decidable owner.HoldsMembers :=
  inferInstanceAs (Decidable (_ ∨ _))

variable {site member owner : Site}

/-! ### The way to a cardinality -/

theorem isType_of_isTrivia (kind : Kind) (h : kind.isTrivia = true) : kind.isType = false := by
  revert h
  cases kind <;> decide

theorem ne_cardinality_of_isTrivia (kind : Kind) (h : kind.isTrivia = true) :
    (kind == .cardinality) = false := by
  revert h
  cases kind <;> decide

theorem Passes.child?_eq {frame : Frame} (h : owner.Passes frame member)
    (hleft : ∀ tree ∈ frame.left, (tree.kind == .cardinality) = false)
    (hkind : member.kind = .cardinality) : owner.child? .cardinality = some member :=
  h.find?_eq (p := (· == .cardinality)) hleft ne_cardinality_of_isTrivia (beq_iff_eq.mpr hkind)

theorem Within.plain {outer : Site} (h : outer.Within site) (houter : outer.Plain) :
    site.Plain := by
  induction h with
  | refl => exact houter
  | child _ hchild ih => exact ih.child hchild

theorem Passes.children_visible {frame : Frame} (h : owner.Passes frame member)
    (hkind : member.kind.isTrivia = false) :
    owner.tree.visible.children = frame.left ++ member.tree.visible :: frame.right := by
  have hkept : member.tree.isDropped Kind.isNothing = false := by
    have hsolid : member.isSolid Kind.isNothing = true := isSolid_of_visible hkind
    rwa [isSolid, Bool.not_eq_true'] at hsolid
  rw [Tree.visible, h.bare_eq hkept]
  rfl

theorem Passes.name?_eq {frame : Frame} {other child : Site} (h : owner.Passes frame member)
    (hother : other.Passes frame child) (hplain : owner.Plain) (hplain' : other.Plain)
    (hkind : child.kind = member.kind) (hvisible : member.kind.isTrivia = false)
    (hname : member.kind ≠ .name) : other.name? = owner.name? := by
  have hsame : owner.tree.visible.SameBut member.kind other.tree.visible := by
    rw [Tree.SameBut, h.children_visible hvisible, hother.children_visible (hkind ▸ hvisible)]
    refine List.rel_append (List.forall₂_same.mpr fun _ _ => .inl rfl)
      (.cons (.inr ?_) (List.forall₂_same.mpr fun _ _ => .inl rfl))
    rw [Tree.kind_visible, Tree.kind_visible]
    exact ⟨rfl, hkind⟩
  have hlike := (hplain.alikeBut hplain' hsame).alikeFor
  have htokens : Option.Rel (fun a b => a.Alike Kind.isNothing b ∧ a.kind = .ident)
      owner.nameToken? other.nameToken? :=
    hlike.grandchild? rfl rfl fun _ hchild => isBut_of_kind hchild (by decide) (Ne.symm hname)
  exact (map_eq_of_rel htokens fun _ _ hident => hident.1.text_eq (by rw [hident.2]; decide)).symm

/-- The frames on the way to the cardinality of a member lead to the cardinality of any member they
start from, and that has the same name. -/
theorem exists_frames_of_cardinalitySite? (h : member.cardinalitySite? = some site) :
    member.kind ∈ [Kind.role, .attributeDef] ∧ site.kind = .cardinality ∧
      ∃ frame frames, member.Leads (frame :: frames) site ∧ ∀ other inner : Site,
        other.Leads (frame :: frames) inner → inner.kind = .cardinality →
          other.cardinalitySite? = some inner ∧
            (member.Plain → other.Plain → other.name? = member.name?) := by
  unfold cardinalitySite? at h
  split at h
  · next hrole =>
    obtain ⟨frame, hpasses, hleft⟩ := exists_passes_of_find? (p := (· == .cardinality)) h
    refine ⟨by rw [hrole]; decide, kind_of_child? h, frame, [], .step hpasses (.refl site),
      fun other inner hleads hinner => ?_⟩
    cases hleads with
    | step hother hrest =>
      cases hrest
      have hkind := kind_of_child? h
      refine ⟨?_, fun hplain hplain' => hpasses.name?_eq hother hplain hplain'
        (hinner.trans hkind.symm) (by rw [hkind]; rfl) (by rw [hkind]; decide)⟩
      rw [cardinalitySite?, hother.1, ← hpasses.1, hrole]
      exact hother.child?_eq hleft hinner
  · next hattribute =>
    obtain ⟨type, htype, hchild⟩ := Option.bind_eq_some_iff.mp h
    obtain ⟨htype, hlist⟩ := Option.filter_eq_some_iff.mp htype
    obtain ⟨frame, hpasses, hleft⟩ := exists_passes_of_find? (p := Kind.isType) htype
    obtain ⟨inside, hinside, hleftInside⟩ :=
      exists_passes_of_find? (p := (· == .cardinality)) hchild
    refine ⟨by rw [hattribute]; decide, kind_of_child? hchild, frame, [inside],
      .step hpasses (.step hinside (.refl site)), fun other inner hleads hinner => ?_⟩
    cases hleads with
    | @step _ otherType _ _ _ hother hrest =>
      cases hrest with
      | step hotherInside hrest =>
        cases hrest
        have hotherKind : otherType.kind = .listType :=
          hotherInside.1.trans (hinside.1.symm.trans (beq_iff_eq.mp hlist))
        have hotherType : other.type? = some otherType :=
          hother.find?_eq (p := Kind.isType) hleft isType_of_isTrivia (by rw [hotherKind]; rfl)
        have hkind : type.kind = .listType := beq_iff_eq.mp hlist
        refine ⟨?_, fun hplain hplain' => hpasses.name?_eq hother hplain hplain'
          (hotherKind.trans hkind.symm) (by rw [hkind]; rfl) (by rw [hkind]; decide)⟩
        rw [cardinalitySite?, hother.1, ← hpasses.1, hattribute]
        dsimp only
        rw [hotherType, Option.filter_some, if_pos (beq_iff_eq.mpr hotherKind), Option.bind_some]
        exact hotherInside.child?_eq hleftInside hinner
  · cases h

theorem exists_kind_bareOf_iff {keep : Kind → Bool} {row : List Tree} {kind : Kind}
    (hkind : kind.isTrivia = false) :
    (∃ tree ∈ Tree.bareOf keep id row, tree.kind = kind) ↔ ∃ tree ∈ row, tree.kind = kind := by
  constructor
  · rintro ⟨tree, htree, rfl⟩
    obtain ⟨left, right, hsplit⟩ := List.append_of_mem htree
    obtain ⟨front, found, back, rfl, -, -, rfl, -⟩ := Tree.exists_of_bareOf_eq hsplit
    exact ⟨found, List.mem_append_right _ List.mem_cons_self, (Tree.kind_bare keep found).symm⟩
  · rintro ⟨tree, htree, rfl⟩
    refine ⟨_, Tree.mem_bareOf htree ?_, Tree.kind_bare keep tree⟩
    cases tree with
    | token t => exact Kind.isDropped_of_visible hkind
    | node kind row => rfl

theorem Passes.has_iff {frame : Frame} (h : owner.Passes frame member) {kind : Kind}
    (hkind : kind.isTrivia = false) :
    owner.has kind = true ↔ (∃ tree ∈ frame.left, tree.kind = kind) ∨ member.kind = kind ∨
      ∃ tree ∈ frame.right, tree.kind = kind := by
  obtain ⟨-, left, right, hchildren, hleft, hright⟩ := h
  rw [← hleft, ← hright, exists_kind_bareOf_iff hkind, exists_kind_bareOf_iff hkind, has,
    hchildren]
  simp [Site.kind]

theorem HoldsMembers.of_passes {other child : Site} {frame : Frame} (h : owner.HoldsMembers)
    (hpasses : owner.Passes frame member) (hother : other.Passes frame child)
    (hkind : child.kind = member.kind) : other.HoldsMembers := by
  have hhas {kind : Kind} (hvisible : kind.isTrivia = false) (howner : owner.has kind = true) :
      other.has kind = true := by
    rw [hpasses.has_iff hvisible] at howner
    rwa [hother.has_iff hvisible, hkind]
  rw [HoldsMembers, hpasses.1, ← hother.1] at h
  exact h.imp id fun ⟨hassociation, hnamed⟩ => ⟨hassociation, hnamed.imp (hhas rfl) (hhas rfl)⟩

/-! ### Roles and attributes become definitions -/

section Parsed

variable {text : String} {file : FileContext}

theorem isSome_nameToken?_of_member (hok : (parse text).errors = [])
    (hsite : (root (parse text).tree).Within member)
    (hkind : member.kind ∈ [Kind.role, .attributeDef]) : member.nameToken?.isSome = true := by
  have hkinds : ∀ kind ∈ [Kind.role, .attributeDef], kind.isNode = true ∧ kind ≠ .error := by
    decide
  obtain ⟨hnode, herror⟩ := hkinds member.kind hkind
  exact isSome_nameToken?_of_name hok hsite (Grammar.exists_name_of_member hkind
    (visibleChildren_mem_relaxed hok hsite hnode herror))

theorem exists_mem_visibleChildren {kind : Kind} (h : site.has kind = true)
    (hkind : kind.isTrivia = false) : ∃ tree ∈ site.tree.visibleChildren, tree.kind = kind := by
  obtain ⟨child, hchild, hchildKind⟩ := List.any_eq_true.mp h
  obtain rfl := beq_iff_eq.mp hchildKind
  refine ⟨child.tree, List.mem_filter.mpr ⟨tree_mem_of_mem_sitesOf hchild, ?_⟩, rfl⟩
  have hvisible : child.tree.isTrivia = false := by
    rw [Site.kind] at hkind
    cases htree : child.tree with
    | token t => rwa [htree] at hkind
    | node kind row => rfl
  rw [hvisible, Bool.not_false]

theorem ne_empty_of_name? (hsite : (root (parse text).tree).Within site) {name : String}
    (h : site.name? = some name) : name ≠ "" := by
  obtain ⟨token, htoken, rfl⟩ := Option.map_eq_some_iff.mp h
  have hwithin := hsite.trans (within_of_nameToken? htoken)
  have hkind : token.kind = .ident := by
    obtain ⟨_, -, hident⟩ := Option.bind_eq_some_iff.mp htoken
    exact kind_of_child? hident
  obtain ⟨t, htree⟩ := exists_token_of_not_isNode hwithin (by rw [hkind]; rfl)
  obtain ⟨left, right, htokens, -⟩ := cutFrom_of_within hwithin
  have hmem : t ∈ Leaf.tokensOf (parse text).tree.leaves := by
    rw [Tree.tokensOf_leaves, htokens, htree]
    simp [Tree.tokens]
  rw [Site.text, htree]
  exact text_ne_of_mem_leaves_parse hmem

theorem isSome_associationHeading? (hok : (parse text).errors = [])
    (hsite : (root (parse text).tree).Within owner)
    (hnamed : owner.has .name = true ∨ owner.has .role = true) :
    (Catalog.associationHeading? file owner).isSome = true := by
  rw [Catalog.associationHeading?, Option.isSome_or, Bool.or_eq_true]
  rcases hnamed with hname | hrole
  · exact .inl (isSome_heading? file
      (isSome_nameToken?_of_name hok hsite (exists_mem_visibleChildren hname rfl)))
  · obtain ⟨role, hrole, hkind⟩ := List.any_eq_true.mp hrole
    have hkind := beq_iff_eq.mp hkind
    have hsome := isSome_nameToken?_of_member hok (hsite.child hrole) (by rw [hkind]; decide)
    obtain ⟨token, htoken⟩ := Option.isSome_iff_exists.mp hsome
    have hname : role.name? = some token.text := by rw [name?, htoken, Option.map_some]
    -- The names of the roles are not all empty.
    have hjoin : (String.join ((owner.childrenOf .role).filterMap name?)).isEmpty = false := by
      rw [← Bool.not_eq_true, String.isEmpty_iff, ← String.toList_eq_nil_iff, String.toList_join,
        List.flatMap_eq_nil_iff]
      intro hempty
      have hmem : token.text ∈ (owner.childrenOf .role).filterMap name? :=
        List.mem_filterMap.mpr ⟨role, List.mem_filter.mpr ⟨hrole, beq_iff_eq.mpr hkind⟩, hname⟩
      exact ne_empty_of_name? (hsite.child hrole) hname
        (String.toList_eq_nil_iff.mp (hempty _ hmem))
    obtain ⟨first, others, hchildren⟩ := List.exists_cons_of_ne_nil (List.ne_nil_of_mem hrole)
    refine .inr ?_
    dsimp only
    rw [hjoin, if_neg Bool.false_ne_true, hchildren]
    rfl

theorem exists_heading_of_cardinalitySite? (file : FileContext) (hok : (parse text).errors = [])
    (howner : (root (parse text).tree).Within owner) (hmember : member ∈ owner.children)
    (h : member.cardinalitySite? = some site) :
    ∃ token, member.nameToken? = some token ∧
      ⟨.attributeLike, member.headingAt file token.text token, some site.cardinality⟩ ∈
        owner.contentNotes file := by
  obtain ⟨hkinds, -⟩ := exists_frames_of_cardinalitySite? h
  have hsome := isSome_nameToken?_of_member hok (howner.child hmember) hkinds
  obtain ⟨token, htoken⟩ := Option.isSome_iff_exists.mp hsome
  have hheading : member.heading? file = some (member.headingAt file token.text token) := by
    rw [heading?, htoken, Option.map_some]
  have hchild {kind : Kind} (hkind : member.kind = kind) : member ∈ owner.childrenOf kind :=
    List.mem_filter.mpr ⟨hmember, beq_iff_eq.mpr hkind⟩
  refine ⟨token, htoken, ?_⟩
  unfold cardinalitySite? at h
  split at h
  · next hrole =>
    refine List.mem_append_left _ (List.mem_flatMap.mpr ⟨member, hchild hrole, ?_⟩)
    rw [roleNotes, cardinality?, h, Option.map_some]
    exact Heading.mem_notes hheading
  · next hattribute =>
    refine List.mem_append_right _ (List.mem_flatMap.mpr ⟨member, hchild hattribute, ?_⟩)
    obtain ⟨type, htype, hsite⟩ := Option.bind_eq_some_iff.mp h
    rw [attributeNotes, htype, Option.bind_some, cardinality?, hsite, Option.map_some]
    exact Heading.mem_notes hheading
  · cases h

theorem mem_notes_of_contentNotes (hok : (parse text).errors = [])
    (howner : (root (parse text).tree).Within owner) (hholds : owner.HoldsMembers) {note : Note}
    (hnote : note ∈ owner.contentNotes file) :
    note ∈ (root (parse text).tree).models.flatMap (modelNotes file) := by
  have hkind : owner.kind ∈ [Kind.classDef, .association] := by
    rcases hholds with hclass | ⟨hassociation, -⟩
    · rw [hclass]
      decide
    · rw [hassociation]
      decide
  have hmember : note ∈ owner.memberNotes file := by
    rcases hholds with hclass | ⟨hassociation, hnamed⟩
    · rw [memberNotes, hclass]
      have hname := isSome_nameToken? hok howner (by rw [hclass]; decide)
      exact Heading.mem_notes_of_mem (isSome_heading? file hname) hnote
    · rw [memberNotes, hassociation]
      exact Heading.mem_notes_of_mem (isSome_associationHeading? hok howner hnamed) hnote
  cases howner with
  | refl =>
    have hroot : (root (parse text).tree).kind = .sourceFile := rfl
    rw [hroot] at hkind
    exact absurd hkind (by decide)
  | child hparent hchild =>
    have hblock := parent_of_member hparent hchild hkind
    have hnamed := named_of_within hok hparent (by
      rcases hblock with hblock | hblock <;> rw [hblock] <;> decide)
    exact hnamed.mem_notes_of_memberNotes hchild hkind hmember

end Parsed

end Site

/-- Without errors a role or a list attribute becomes a definition with the cardinality that is
written in it. -/
theorem Catalog.exists_definition_of_cardinalitySite? {text : String}
    (hok : (parse text).errors = []) {owner member site : Site}
    (howner : (Site.root (parse text).tree).Within owner) (hholds : owner.HoldsMembers)
    (hmember : member ∈ owner.children) (h : member.cardinalitySite? = some site)
    (uri : Option String) :
    ∃ definition ∈ (ofText text uri).definitions, definition.kind = .attributeLike ∧
      member.name? = some definition.name ∧ definition.span = member.span (contextOf text uri) ∧
      definition.data.cardinality? = some site.cardinality := by
  obtain ⟨token, htoken, hcontent⟩ :=
    Site.exists_heading_of_cardinalitySite? (contextOf text uri) hok howner hmember h
  have hnote := Site.mem_notes_of_contentNotes hok howner hholds hcontent
  rw [← notes_ofText] at hnote
  obtain ⟨definition, hmem, heq⟩ := List.mem_map.mp hnote
  obtain ⟨hkind, hheading, hcardinality⟩ := Note.mk.inj heq
  obtain ⟨hname, hspan, -, -⟩ := Heading.mk.inj hheading
  refine ⟨definition, Array.mem_toList_iff.mp hmem, hkind, ?_, hspan, hcardinality⟩
  rw [Site.name?, htoken, Option.map_some, hname]

/-! ### Written and read -/

/-- A text without errors in which the cardinality of a role or of a list attribute is written
between these two parts. -/
structure CardinalityPlace where
  before : String
  written : String
  after : String
  ok : (parse (before ++ written ++ after)).errors = []
  owner : Site
  member : Site
  site : Site
  within : (Site.root (parse (before ++ written ++ after)).tree).Within owner
  member_mem : member ∈ owner.children
  found : member.cardinalitySite? = some site
  start : site.start = utf8Length before.toList
  text_eq : site.text = written

namespace CardinalityPlace

def textWith (place : CardinalityPlace) (cardinality : Cardinality) : String :=
  place.before ++ cardinality.display ++ place.after

theorem exists_of_member {before written after name : String}
    (hok : (parse (before ++ written ++ after)).errors = [])
    (h : ∃ model ∈ (Site.root (parse (before ++ written ++ after)).tree).children,
      ∃ owner ∈ model.children, owner.HoldsMembers ∧ ∃ member ∈ owner.children,
        member.name? = some name ∧ ∃ site ∈ member.cardinalitySite?,
          site.start = utf8Length before.toList ∧ site.text = written) :
    ∃ place : CardinalityPlace, place.before = before ∧ place.written = written ∧
      place.after = after ∧ place.owner.HoldsMembers ∧ place.member.name? = some name := by
  obtain ⟨model, hmodel, owner, howner, hholds, member, hmember, hname, site, hsite, hstart,
    htext⟩ := h
  exact ⟨⟨before, written, after, hok, owner, member, site,
    (Site.Within.refl.child hmodel).child howner, hmember, hsite, hstart, htext⟩, rfl, rfl, rfl,
    hholds, hname⟩

end CardinalityPlace

/-- **Cardinalities are read back from what they are displayed as.** Written as the cardinality of a
role or of a list attribute in a text without errors, the display of a cardinality is cut into
tokens of its own, none of them an error. The text has no errors, and where the display is written
the walk finds the cardinality of a role or an attribute, which is read as the one displayed. It
becomes the cardinality of a definition, as everything does that is in a class or in an association
with a name or roles. -/
theorem cardinality_display (place : CardinalityPlace) {cardinality : Cardinality}
    (hmin : ∀ n ∈ cardinality.min, n < numberLimit)
    (hmax : ∀ n ∈ cardinality.max, n < numberLimit) :
    (∃ front back, spelling front = place.before.toList ∧ spelling back = place.after.toList ∧
      tokenize (place.textWith cardinality) = front ++ tokenize cardinality.display ++ back) ∧
    (∀ t ∈ tokenize cardinality.display, t.kind ≠ .error) ∧
    (parse (place.textWith cardinality)).errors = [] ∧
    ∃ owner member site, (Site.root (parse (place.textWith cardinality)).tree).Within owner ∧
      owner.kind = place.owner.kind ∧ member ∈ owner.children ∧ member.kind = place.member.kind ∧
      member.name? = place.member.name? ∧
      member.cardinalitySite? = some site ∧ site.start = utf8Length place.before.toList ∧
      String.join (site.visibleTokens.map Site.text) = cardinality.display ∧
      site.cardinality = cardinality ∧
      (place.owner.HoldsMembers → ∀ uri,
        ∃ definition ∈ (Catalog.ofText (place.textWith cardinality) uri).definitions,
          definition.kind = .attributeLike ∧ member.name? = some definition.name ∧
          definition.span = member.span (Catalog.contextOf (place.textWith cardinality) uri) ∧
          definition.data.cardinality? = some cardinality) := by
  obtain ⟨-, hsiteKind, frame, frames, hleads, hfinds⟩ :=
    Site.exists_frames_of_cardinalitySite? place.found
  obtain ⟨outer, houter⟩ := Site.exists_leads_of_within place.within
  obtain ⟨around, hpasses⟩ := Site.exists_passes place.member_mem
  have hwritten : Written place.before place.after (outer ++ around :: frame :: frames) cardinality
      (place.textWith cardinality) :=
    written_of_leads place.ok (houter.append (.step hpasses hleads)) hsiteKind place.start
      place.text_eq cardinality
  -- The same frames lead to what is written now.
  obtain ⟨site, hsite, hbare⟩ := hwritten.exists_leads
  obtain ⟨owner, howner, hbelow⟩ := hsite.split
  cases hbelow with
  | @step _ member _ _ _ hmember hrest =>
    have hkind : member.kind = place.member.kind := hrest.kind_eq.trans hleads.kind_eq.symm
    obtain ⟨hfound, hname⟩ := hfinds member site hrest (Site.kind_of_bare_eq hbare)
    have hplain {text : String} {inner : Site} (h : (Site.root (parse text).tree).Within inner) :
        inner.Plain := h.plain (Site.plain_root (neat_parse text))
    have hread := Site.cardinality_of_bare_eq hbare hmin hmax
    refine ⟨?_, ?_, hwritten.ok, owner, member, site, howner.within,
      hmember.1.trans hpasses.1.symm, hmember.mem, hkind,
      hname (hplain (place.within.child place.member_mem))
        (hplain (howner.within.child hmember.mem)), hfound, hwritten.start_eq hsite hbare,
      Site.join_visibleTokens_of_bare_eq hbare, hread, fun hholds uri => ?_⟩
    · obtain ⟨front, back, hfront, hback, -, htokens⟩ := hwritten.tokens
      exact ⟨front, back, hfront, hback, by rw [cardinality.tokenize_display]; exact htokens⟩
    · rw [cardinality.tokenize_display]
      exact cardinality.kind_ne_error
    · have hdefinition := Catalog.exists_definition_of_cardinalitySite? hwritten.ok howner.within
        (hholds.of_passes hpasses hmember hkind) hmember.mem hfound uri
      rwa [hread] at hdefinition

/-- The cardinality of a list attribute is displayed without bounds, and that of a role with the
greatest number there is. -/
theorem cardinality_display_bag_and_role :
    let bag : Cardinality := ⟨none, none⟩
    let role : Cardinality := ⟨some 2, some 18446744073709551615⟩
    let front := "INTERLIS 2.4; MODEL M = "
    (∃ definition ∈ (Catalog.ofText
        (front ++ "CLASS A = b: BAG " ++ bag.display ++ " OF A; END A; END M.") none).definitions,
      definition.kind = .attributeLike ∧ definition.name = "b" ∧
        definition.data.cardinality? = some bag) ∧
    18446744073709551615 < numberLimit ∧
    ∃ definition ∈ (Catalog.ofText (front ++ "ASSOCIATION = r -- " ++ role.display ++
        " A; s -- \x7b1\x7d A; END; END M.") none).definitions,
      definition.kind = .attributeLike ∧ definition.name = "r" ∧
        definition.data.cardinality? = some role := by
  intro bag role front
  have hread {place : CardinalityPlace} {name : String} (hholds : place.owner.HoldsMembers)
      (hname : place.member.name? = some name) {cardinality : Cardinality}
      (hmin : ∀ n ∈ cardinality.min, n < numberLimit)
      (hmax : ∀ n ∈ cardinality.max, n < numberLimit) :
      ∃ definition ∈ (Catalog.ofText (place.textWith cardinality) none).definitions,
        definition.kind = .attributeLike ∧ definition.name = name ∧
          definition.data.cardinality? = some cardinality := by
    obtain ⟨-, -, -, -, member, -, -, -, -, -, hsame, -, -, -, -, hdefinitions⟩ :=
      cardinality_display place hmin hmax
    obtain ⟨definition, hmem, hkind, hdefined, -, hcardinality⟩ := hdefinitions hholds none
    exact ⟨definition, hmem, hkind, Option.some.inj (hdefined.symm.trans (hsame.trans hname)),
      hcardinality⟩
  have hbag : ∃ place : CardinalityPlace, place.before = front ++ "CLASS A = b: BAG " ∧
      place.written = "\x7b1\x7d" ∧ place.after = " OF A; END A; END M." ∧
      place.owner.HoldsMembers ∧ place.member.name? = some "b" :=
    CardinalityPlace.exists_of_member (by decide +kernel) (by decide +kernel)
  have hrole : ∃ place : CardinalityPlace, place.before = front ++ "ASSOCIATION = r -- " ∧
      place.written = "\x7b0..*\x7d" ∧ place.after = " A; s -- \x7b1\x7d A; END; END M." ∧
      place.owner.HoldsMembers ∧ place.member.name? = some "r" :=
    CardinalityPlace.exists_of_member (by decide +kernel) (by decide +kernel)
  refine ⟨?_, by decide, ?_⟩
  · obtain ⟨place, hbefore, -, hafter, hholds, hname⟩ := hbag
    rw [← hbefore, ← hafter]
    exact hread hholds hname nofun nofun
  · obtain ⟨place, hbefore, -, hafter, hholds, hname⟩ := hrole
    rw [← hbefore, ← hafter]
    exact hread hholds hname (by decide) (by decide)

end Ili
