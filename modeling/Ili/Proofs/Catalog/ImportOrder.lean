import Ili.Proofs.Catalog.Meaning
import Ili.Proofs.Catalog.Reordering

/-!
# Texts that differ in the order of imports

Two texts whose models list the same import items in another order declare the same, but for that
order. The walk over the two trees is the same except where it notes a model: there the references
of the imports are the next ones in both drafts, and only these are in another order.
-/

namespace Ili

/-! ### Trees -/

namespace Tree

def visible (tree : Tree) : Tree :=
  tree.bare Kind.isNothing id

def childrenOf (tree : Tree) (kind : Kind) : List Tree :=
  tree.children.filter fun child => child.kind == kind

def importItems (model : Tree) : List Tree :=
  (model.childrenOf .imports).flatMap fun imports => imports.childrenOf .importItem

/-- The children are the same, but for those of one kind, which stand in the same places. -/
def SameBut (kind : Kind) (tree other : Tree) : Prop :=
  List.Forall₂ (fun child child' => child = child' ∨ child.kind = kind ∧ child'.kind = kind)
    tree.children other.children

structure ReordersItems (model other : Tree) : Prop where
  same : model.SameBut .imports other
  items : model.importItems.Perm other.importItems

/-- The files differ in the order of the import items of their models only. -/
def ReordersImports (file other : Tree) : Prop :=
  List.Forall₂ (fun child child' => child = child' ∨
      child.kind = .model ∧ child'.kind = .model ∧ child.ReordersItems child')
    file.children other.children

instance (kind : Kind) (tree other : Tree) : Decidable (tree.SameBut kind other) :=
  inferInstanceAs (Decidable (List.Forall₂ _ _ _))

instance (model other : Tree) : Decidable (model.ReordersItems other) :=
  decidable_of_iff (model.SameBut .imports other ∧ model.importItems.Perm other.importItems)
    ⟨fun h => ⟨h.1, h.2⟩, fun h => ⟨h.same, h.items⟩⟩

instance (file other : Tree) : Decidable (file.ReordersImports other) :=
  inferInstanceAs (Decidable (List.Forall₂ _ _ _))

theorem ReordersItems.refl (model : Tree) : model.ReordersItems model :=
  ⟨List.forall₂_same.mpr fun _ _ => .inl rfl, .refl _⟩

theorem kind_visible (tree : Tree) : tree.visible.kind = tree.kind :=
  kind_bare ..

end Tree

/-- But for blanks and comments, the texts differ in the order of the import items of models only.
-/
def ReordersImports (text other : String) : Prop :=
  (parse text).tree.visible.ReordersImports (parse other).tree.visible

/-! ### Places -/

namespace Site

theorem isTrivia_beforeNext {before : List Token} (h : ∀ t ∈ before, t.kind.isTrivia = true)
    (leaves : List Leaf) : ∀ t ∈ beforeNext before leaves, t.kind.isTrivia = true := by
  induction leaves generalizing before with
  | nil => exact h
  | cons leaf rest ih =>
    cases leaf with
    | gap => exact ih nofun
    | token t =>
      rw [beforeNext]
      split
      · next htrivia => exact ih (List.forall_mem_cons.mpr ⟨htrivia, h⟩)
      · exact ih nofun

/-- Only blanks and comments stand in front of the place, as it is with all places of a text. -/
structure Plain (site : Site) : Prop where
  neat : site.tree.Neat
  before : ∀ t ∈ site.before, t.kind.isTrivia = true

theorem plain_root {tree : Tree} (h : tree.Neat) : (root tree).Plain :=
  ⟨h, nofun⟩

theorem Plain.child {site child : Site} (h : site.Plain) (hmem : child ∈ site.children) :
    child.Plain := by
  have hbefore (start : Nat) (before : List Token) (row : List Tree)
      (htrivia : ∀ t ∈ before, t.kind.isTrivia = true) :
      ∀ child ∈ sitesOf start before row, ∀ t ∈ child.before, t.kind.isTrivia = true := by
    induction row generalizing start before with
    | nil => nofun
    | cons tree rest ih =>
      exact List.forall_mem_cons.mpr ⟨htrivia, ih _ _ (isTrivia_beforeNext htrivia _)⟩
  exact ⟨h.neat.child (tree_mem_of_mem_sitesOf hmem), hbefore _ _ _ h.before child hmem⟩

theorem Plain.alike {site other : Site} (h : site.Plain) (hother : other.Plain)
    (htree : site.tree.visible = other.tree.visible) : site.Alike Kind.isNothing other := by
  have hnone {site : Site} (h : site.Plain) : solidTokens Kind.isNothing site.before = [] := by
    rw [solidTokens_isNothing]
    exact List.filter_eq_nil_iff.mpr fun t ht => by simp [h.before t ht]
  exact ⟨htree, by rw [hnone h, hnone hother], h.neat, hother.neat⟩

theorem Plain.map_visible_children {site : Site} (h : site.Plain) :
    (site.children.filter (isSolid Kind.isNothing)).map (fun child => child.tree.visible) =
      site.tree.visible.children := by
  have hrowOf (before : List Token) (row : List Tree) : (rowOf before row).map Prod.fst = row := by
    induction row generalizing before with
    | nil => rfl
    | cons tree rest ih => rw [rowOf, List.map_cons, ih]
  have hsites : (site.children.filter (isSolid Kind.isNothing)).map
      (fun child => (child.tree.visible, solidTokens Kind.isNothing child.before)) =
        rowOf _ (Tree.bareOf Kind.isNothing id site.tree.children) :=
    map_sitesOf site.start site.before h.neat.tidy
  have hfirst := congrArg (List.map Prod.fst) hsites
  rw [hrowOf, bareOf_children, List.map_map] at hfirst
  exact hfirst

theorem Plain.map_visible_childrenOf {site : Site} (h : site.Plain) {kind : Kind}
    (hkind : kind.isTrivia = false) :
    (site.childrenOf kind).map (fun child => child.tree.visible) =
      site.tree.visible.childrenOf kind := by
  have hasks : Asks Kind.isNothing fun child => child.kind == kind := asks_beq hkind
  rw [childrenOf, hasks.filter_eq, Tree.childrenOf, ← h.map_visible_children, List.filter_map]
  congr 2
  funext child
  rw [Function.comp_apply, Tree.kind_visible]
  rfl

theorem Plain.importItems {site : Site} (h : site.Plain) :
    ∀ item ∈ site.importItems, item.Plain := by
  intro item hitem
  obtain ⟨imports, himports, hitem⟩ := List.mem_flatMap.mp hitem
  exact (h.child (List.mem_filter.mp himports).1).child (List.mem_filter.mp hitem).1

theorem Plain.map_visible_importItems {site : Site} (h : site.Plain) :
    site.importItems.map (fun item => item.tree.visible) = site.tree.visible.importItems := by
  rw [Site.importItems, Tree.importItems, ← h.map_visible_childrenOf (by decide), List.map_flatMap,
    List.flatMap_map]
  apply List.flatMap_congr
  intro imports himports
  exact (h.child (List.mem_filter.mp himports).1).map_visible_childrenOf (by decide)

def AlikeBut (kind : Kind) (site other : Site) : Prop :=
  List.Forall₂ (fun child child' =>
      child.Alike Kind.isNothing child' ∨ child.kind = kind ∧ child'.kind = kind)
    (site.children.filter (isSolid Kind.isNothing)) (other.children.filter (isSolid Kind.isNothing))

theorem AlikeFor.heading? {site other : Site} {asked : Site → Bool}
    (h : AlikeFor Kind.isNothing asked site other) (file file' : FileContext)
    (hasked : ∀ child : Site, child.kind = .name → asked child = true) :
    Option.Rel (SameHeading .visible) (site.heading? file) (other.heading? file') := by
  refine rel_map (h.grandchild? (by decide) (by decide) hasked) fun token token' htoken => ?_
  have htext : token.text = token'.text := htoken.1.text_eq (by rw [htoken.2]; decide)
  rw [SameHeading, htext]
  rfl

section AlikeBut

variable {kind : Kind} {site other : Site}

theorem Plain.forall₂_children (h : site.Plain) (hother : other.Plain) {R : Tree → Tree → Prop}
    (hrow : List.Forall₂ R site.tree.visible.children other.tree.visible.children) :
    List.Forall₂ (fun child child' =>
        child.Plain ∧ child'.Plain ∧ R child.tree.visible child'.tree.visible)
      (site.children.filter (isSolid Kind.isNothing))
      (other.children.filter (isSolid Kind.isNothing)) := by
  rw [← h.map_visible_children, ← hother.map_visible_children, List.forall₂_map_left_iff,
    List.forall₂_map_right_iff] at hrow
  have hplain {site : Site} (h : site.Plain) :
      ∀ child ∈ site.children.filter (isSolid Kind.isNothing), child.Plain :=
    fun child hchild => h.child (List.mem_filter.mp hchild).1
  exact forall₂_and hrow (hplain h) (hplain hother)

theorem Plain.alikeBut (h : site.Plain) (hother : other.Plain)
    (hsame : site.tree.visible.SameBut kind other.tree.visible) : site.AlikeBut kind other := by
  refine (h.forall₂_children hother hsame).imp fun child child' hchild => ?_
  obtain ⟨hplain, hplain', heq | hkinds⟩ := hchild
  · exact .inl (hplain.alike hplain' heq)
  · rw [Tree.kind_visible, Tree.kind_visible] at hkinds
    exact .inr hkinds

variable (h : site.AlikeBut kind other)

include h

theorem AlikeBut.alikeFor : AlikeFor Kind.isNothing
    (fun child => child.isSolid Kind.isNothing && child.kind != kind) site other := by
  have hfilter (sites : List Site) :
      sites.filter (fun child => child.isSolid Kind.isNothing && child.kind != kind) =
        (sites.filter (isSolid Kind.isNothing)).filter fun child => child.kind != kind := by
    rw [List.filter_filter]
    simp only [Bool.and_comm]
  rw [AlikeFor, hfilter, hfilter]
  have hmem : ∀ child ∈ (site.children.filter (isSolid Kind.isNothing)).filter
      (fun child => child.kind != kind), child.kind ≠ kind :=
    fun child hchild => bne_iff_ne.mp (List.mem_filter.mp hchild).2
  have hrow := List.rel_filter (p := fun child : Site => child.kind != kind)
    (q := fun child : Site => child.kind != kind) (fun child child' hchild => ?_) h
  · exact ((List.forall₂_and_left _ _).mpr ⟨hmem, hrow⟩).imp fun child child' hchild =>
      hchild.2.resolve_right fun hkinds => hchild.1 hkinds.1
  · have hkinds : child.kind = child'.kind :=
      hchild.elim Alike.kind_eq fun hkinds => hkinds.1.trans hkinds.2.symm
    exact iff_of_eq (congrArg (fun found => (found != kind) = true) hkinds)

omit h in
theorem isBut_of_kind {child : Site} {wanted : Kind} (hkind : child.kind = wanted)
    (hwanted : wanted.isTrivia = false) (hne : wanted ≠ kind) :
    (child.isSolid Kind.isNothing && child.kind != kind) = true := by
  rw [isSolid_of_visible (hkind ▸ hwanted), hkind, Bool.true_and, bne_iff_ne]
  exact hne

theorem AlikeBut.members :
    List.Forall₂ (fun member member' =>
        member.Alike Kind.isNothing member' ∨ member.kind = kind ∧ member'.kind = kind)
      site.members other.members := by
  have hasks : Asks Kind.isNothing fun site => site.kind.isMember :=
    asks_kind fun _ => isTrivia_of_isMember
  rw [Site.members, Site.members, hasks.filter_eq site.children, hasks.filter_eq other.children]
  refine List.rel_filter (fun child child' hchild => ?_) h
  have hkinds : child.kind = child'.kind :=
    hchild.elim Alike.kind_eq fun hkinds => hkinds.1.trans hkinds.2.symm
  exact iff_of_eq (congrArg (fun kind => Kind.isMember kind = true) hkinds)

end AlikeBut

end Site

/-! ### Drafts -/

/-- Definitions of two drafts with these references that are the same but for the order of imports.
The imports have the same numbers in order; what is written under them is not in the same order. -/
structure Definition.Reordered (references others : Array Reference)
    (definition other : Definition) : Prop where
  skeleton : definition.skeleton = other.skeleton
  names : definition.names = other.names
  numbers : definition.data.imports.map Import.model = other.data.imports.map Import.model
  noted : ∀ item ∈ definition.data.imports, item.model < references.size
  written : ((definition.importsIn references).map Import.written).Perm
    ((other.importsIn others).map Import.written)

theorem Definition.importsIn_append {references : Array Reference} {definition : Definition}
    (h : ∀ item ∈ definition.data.imports, item.model < references.size)
    (more : Array Reference) :
    definition.importsIn (references ++ more) = definition.importsIn references := by
  apply List.filterMap_congr
  intro item hitem
  rw [Array.getElem?_append_left (h item hitem)]

/-- Of definitions other than models it is enough that the same is seen. -/
theorem Definition.Reordered.of_seen {definition other : Definition}
    (h : definition.seen .visible = other.seen .visible) (hplain : definition.kind ≠ .model)
    (references others : Array Reference) : definition.Reordered references others other := by
  have hskeleton (definition : Definition) :
      (definition.seen .visible).skeleton = definition.skeleton := by
    obtain ⟨name, parent, span, nameSpan, metaAttributes, content, data⟩ := definition
    cases data <;> rfl
  have hsame : definition.skeleton = other.skeleton := by rw [← hskeleton, h, hskeleton]
  have hnone {definition : Definition} (hplain : definition.kind ≠ .model) :
      definition.data.imports = [] := by
    obtain ⟨name, parent, span, nameSpan, metaAttributes, content, data⟩ := definition
    cases data <;> first | rfl | exact absurd rfl hplain
  have hkind : definition.kind = other.kind := congrArg (fun skeleton => skeleton.2.2.2) hsame
  have hleft : definition.data.imports = [] := hnone hplain
  have hright : other.data.imports = [] := hnone (hkind ▸ hplain)
  refine ⟨hsame, ?_, ?_, ?_, ?_⟩
  · rw [← Definition.names_seen .visible, h, Definition.names_seen]
  · rw [hleft, hright]
  · rw [hleft]
    nofun
  · rw [importsIn, importsIn, hleft, hright]
    exact .refl _

theorem Definition.Reordered.noted_other {references others : Array Reference}
    {definition other : Definition} (h : definition.Reordered references others other)
    (hsize : references.size = others.size) :
    ∀ item ∈ other.data.imports, item.model < others.size := by
  intro item hitem
  have hnumber : item.model ∈ definition.data.imports.map Import.model :=
    h.numbers ▸ List.mem_map.mpr ⟨item, hitem, rfl⟩
  obtain ⟨found, hfound, heq⟩ := List.mem_map.mp hnumber
  exact heq ▸ hsize ▸ h.noted found hfound

theorem Definition.Reordered.append {references others : Array Reference}
    {definition other : Definition} (h : definition.Reordered references others other)
    (hsize : references.size = others.size) (more more' : Array Reference) :
    definition.Reordered (references ++ more) (others ++ more') other where
  skeleton := h.skeleton
  names := h.names
  numbers := h.numbers
  noted item hitem := by
    have := h.noted item hitem
    rw [Array.size_append]
    omega
  written := by
    rw [importsIn_append h.noted, importsIn_append (h.noted_other hsize)]
    exact h.written

namespace Draft

def imported (draft : Draft) : List Nat :=
  draft.definitions.toList.flatMap fun definition => definition.data.imports.map Import.model

/-- The drafts hold the same but for the order of imports and for places. -/
structure Reordered (draft other : Draft) : Prop where
  definitions : List.Forall₂ (Definition.Reordered draft.references other.references)
    draft.definitions.toList other.definitions.toList
  references : ∀ number ∉ draft.imported,
    (draft.references[number]?).map Reference.stripped =
      (other.references[number]?).map Reference.stripped
  references_perm : (draft.references.toList.map Reference.stripped).Perm
    (other.references.toList.map Reference.stripped)
  models : draft.models = other.models

namespace Reordered

theorem empty : Draft.empty.Reordered Draft.empty :=
  ⟨.nil, fun _ _ => rfl, .refl _, rfl⟩

variable {draft other : Draft} (h : draft.Reordered other)

include h

theorem definitions_size : draft.definitions.size = other.definitions.size :=
  h.definitions.length_eq

theorem references_size : draft.references.size = other.references.size := by
  simpa using h.references_perm.length_eq

theorem push {definition definition' : Definition}
    (hsame : definition.Reordered draft.references other.references definition') :
    Reordered { draft with definitions := draft.definitions.push definition }
      { other with definitions := other.definitions.push definition' } where
  definitions := by
    rw [Array.toList_push, Array.toList_push]
    exact List.rel_append h.definitions (.cons hsame .nil)
  references number hnumber := by
    refine h.references number fun himported => hnumber ?_
    rw [imported, Array.toList_push, List.flatMap_append]
    exact List.mem_append_left _ himported
  references_perm := h.references_perm
  models := h.models

theorem definitions_append (more more' : Array Reference) :
    List.Forall₂ (Definition.Reordered (draft.references ++ more) (other.references ++ more'))
      draft.definitions.toList other.definitions.toList :=
  h.definitions.imp fun _ _ hsame => hsame.append h.references_size more more'

theorem push_reference {reference reference' : Reference}
    (hsame : reference.stripped = reference'.stripped) :
    Reordered { draft with references := draft.references.push reference }
      { other with references := other.references.push reference' } where
  definitions := by
    rw [Array.push_eq_append, Array.push_eq_append]
    exact h.definitions_append _ _
  references number hnumber := by
    rw [Array.getElem?_push, Array.getElem?_push, h.references_size]
    split
    · rw [Option.map_some, Option.map_some, hsame]
    · exact h.references number hnumber
  references_perm := by
    simp only [Array.toList_push, List.map_append, List.map_cons, List.map_nil, hsame]
    exact h.references_perm.append_right _
  models := h.models

theorem push_model {definition definition' : Definition} {more more' : List Reference} (id : Nat)
    (hsame : definition.Reordered (draft.references ++ more.toArray)
      (other.references ++ more'.toArray) definition')
    (hnumbers : definition.data.imports.map Import.model =
      List.range' draft.references.size more.length)
    (hmore : (more.map Reference.stripped).Perm (more'.map Reference.stripped)) :
    Reordered
      ⟨draft.definitions.push definition, draft.references ++ more.toArray, draft.models ++ [id]⟩
      ⟨other.definitions.push definition', other.references ++ more'.toArray,
        other.models ++ [id]⟩ where
  definitions := by
    rw [Array.toList_push, Array.toList_push]
    exact List.rel_append (h.definitions_append _ _) (.cons hsame .nil)
  references number hnumber := by
    rw [imported, Array.toList_push, List.flatMap_append, List.flatMap_singleton, hnumbers,
      List.mem_append, not_or, List.mem_range'_1] at hnumber
    obtain ⟨hold, hblock⟩ := hnumber
    have hsize := h.references_size
    have hlength : more.length = more'.length := by simpa using hmore.length_eq
    -- What is not an import stands in front of the new references, or behind them.
    by_cases hlt : number < draft.references.size
    · rw [Array.getElem?_append_left hlt, Array.getElem?_append_left (hsize ▸ hlt)]
      exact h.references number hold
    · rw [Array.getElem?_eq_none (by simp; omega), Array.getElem?_eq_none (by simp; omega)]
  references_perm := by
    simp only [Array.toList_append, List.map_append]
    exact h.references_perm.append hmore
  models := congrArg (· ++ [id]) h.models

end Reordered

end Draft

def Congruence.reordering : Congruence .visible where
  rel := Draft.Reordered
  definition := id
  reference := id
  definitions_size h := h.definitions_size.symm
  references_size h := h.references_size.symm
  define h _ _ _ _ parent hheading hdata hplain := by
    refine h.push (.of_seen ?_ ?_ _ _)
    · rw [DefinitionData.renumber_id] at hdata
      simp only [Heading.seen, Heading.mk.injEq] at hheading
      simp only [Definition.seen, hheading, hdata, id_eq]
    · exact hplain
  addReference h _ _ hsame := h.push_reference (Eq.symm hsame)

/-! ### Models -/

namespace Catalog

open Drafting

def importReads (file : FileContext) (id : Nat) (items : List Site) : List (Reference × Bool) :=
  items.filterMap fun item =>
    (item.child? .path).map fun path =>
      (⟨path.segments, path.span file, id, .model, .unbound⟩, item.isUnqualified)

def importsFrom (number : Nat) (reads : List (Reference × Bool)) : List Import :=
  (reads.zipIdx number).map fun read => ⟨read.2, read.1.2⟩

theorem mapM_readImport (file : FileContext) (id : Nat) (items : List Site) (draft : Draft) :
    let reads := importReads file id items
    ((items.mapM (readImport file id)) draft).1.flatten =
        importsFrom draft.references.size reads ∧
      ((items.mapM (readImport file id)) draft).2 =
        { draft with references := draft.references ++ (reads.map Prod.fst).toArray } := by
  induction items generalizing draft with
  | nil => exact ⟨rfl, by simp [importReads]; rfl⟩
  | cons item rest ih =>
    rw [List.mapM_cons]
    cases hpath : item.child? .path with
    | none =>
      have hread : readImport file id item = pure [] := by rw [readImport, hpath]
      obtain ⟨hflatten, hdraft⟩ := ih draft
      have hreads : importReads file id (item :: rest) = importReads file id rest := by
        rw [importReads, List.filterMap_cons, hpath]
        rfl
      rw [hread]
      exact ⟨by rw [hreads]; exact hflatten, by rw [hreads]; exact hdraft⟩
    | some path =>
      set reference : Reference := ⟨path.segments, path.span file, id, .model, .unbound⟩
      have hread : readImport file id item draft =
          ([⟨draft.references.size, item.isUnqualified⟩],
            { draft with references := draft.references.push reference }) := by
        rw [readImport, hpath]
        rfl
      have hreads : importReads file id (item :: rest) =
          (reference, item.isUnqualified) :: importReads file id rest := by
        rw [importReads, List.filterMap_cons, hpath]
        rfl
      obtain ⟨hflatten, hdraft⟩ :=
        ih { draft with references := draft.references.push reference }
      rw [hreads]
      change (((readImport file id item draft).1 ::
          (rest.mapM (readImport file id) (readImport file id item draft).2).1).flatten = _) ∧
        (rest.mapM (readImport file id) (readImport file id item draft).2).2 = _
      rw [hread, List.flatten_cons, hflatten, hdraft]
      refine ⟨?_, ?_⟩
      · simp [importsFrom]
      · simp

theorem map_model_importsFrom (number : Nat) (reads : List (Reference × Bool)) :
    (importsFrom number reads).map Import.model = List.range' number reads.length := by
  rw [importsFrom, List.map_map, ← List.zipIdx_map_snd number reads]
  rfl

theorem importsIn_importsFrom {definition : Definition} {references : Array Reference}
    {reads : List (Reference × Bool)}
    (h : definition.data.imports = importsFrom references.size reads) :
    ((definition.importsIn (references ++ (reads.map Prod.fst).toArray)).map Import.written) =
      reads.map fun read => (read.1.path, read.2) := by
  rw [Definition.importsIn, h, importsFrom, List.filterMap_map]
  have hfound : ∀ read ∈ reads.zipIdx references.size,
      (references ++ (reads.map Prod.fst).toArray)[read.2]? = some read.1.1 := by
    rintro ⟨read, number⟩ hread
    obtain ⟨hle, hget⟩ := List.mk_mem_zipIdx_iff_le_and_getElem?_sub.mp hread
    rw [Array.getElem?_append_right hle, List.getElem?_toArray, List.getElem?_map, hget]
    rfl
  rw [List.map_filterMap]
  conv_rhs =>
    rw [← List.zipIdx_map_fst references.size reads, List.map_map, ← List.filterMap_eq_map]
  apply List.filterMap_congr
  intro read hread
  simp only [Function.comp_apply, hfound read hread]
  rfl

theorem reordered_of_reads {definition other : Definition} {references others : Array Reference}
    {reads reads' : List (Reference × Bool)} (hskeleton : definition.skeleton = other.skeleton)
    (hnames : definition.names = other.names) (hsize : references.size = others.size)
    (himports : definition.data.imports = importsFrom references.size reads)
    (himports' : other.data.imports = importsFrom others.size reads')
    (hreads : (reads.map fun read => (read.1.stripped, read.2)).Perm
      (reads'.map fun read => (read.1.stripped, read.2))) :
    definition.Reordered (references ++ (reads.map Prod.fst).toArray)
      (others ++ (reads'.map Prod.fst).toArray) other where
  skeleton := hskeleton
  names := hnames
  numbers := by
    have hlength : reads.length = reads'.length := by simpa using hreads.length_eq
    rw [himports, himports', map_model_importsFrom, map_model_importsFrom, hsize, hlength]
  noted item hitem := by
    have hnumber : item.model ∈ List.range' references.size reads.length := by
      rw [← map_model_importsFrom, ← himports]
      exact List.mem_map.mpr ⟨item, hitem, rfl⟩
    simpa using (List.mem_range'_1.mp hnumber).2
  written := by
    have hwritten := hreads.map fun read => (read.1.path, read.2)
    rw [List.map_map, List.map_map] at hwritten
    rw [importsIn_importsFrom himports, importsIn_importsFrom himports']
    exact hwritten

def noteModel (file : FileContext) (id : Nat) (heading : Heading)
    (data : List Import → ModelData) (items : List Site) : Drafting Unit := do
  let imports ← items.mapM (readImport file id)
  define heading none (.model (data imports.flatten))
  addModel id

theorem alike_noteModel {file file' : FileContext} {heading heading' : Heading}
    {data data' : List Import → ModelData} {items items' : List Site} (id : Nat)
    (hheading : SameHeading .visible heading heading')
    (hdata : ∀ imports, (data imports).imports = imports)
    (hdata' : ∀ imports, (data' imports).imports = imports)
    (hreads : ((importReads file id items).map fun read => (read.1.stripped, read.2)).Perm
      ((importReads file' id items').map fun read => (read.1.stripped, read.2))) :
    Drafting.Alike .reordering Eq (noteModel file id heading data items)
      (noteModel file' id heading' data' items') := by
  intro draft draft' hdraft
  refine ⟨rfl, ?_⟩
  obtain ⟨hflatten, hnoted⟩ := mapM_readImport file id items draft
  obtain ⟨hflatten', hnoted'⟩ := mapM_readImport file' id items' draft'
  set reads := importReads file id items
  set reads' := importReads file' id items'
  have hnotes {file : FileContext} {heading : Heading} {data : List Import → ModelData}
      {items : List Site} {draft : Draft} :
      (noteModel file id heading data items draft).2 =
        let noted := items.mapM (readImport file id) draft
        ⟨noted.2.definitions.push ⟨heading.name, none, heading.span, heading.nameSpan,
          heading.metaAttributes, .empty, .model (data noted.1.flatten)⟩,
          noted.2.references, noted.2.models ++ [id]⟩ := rfl
  rw [hnotes, hnotes]
  dsimp only
  rw [hflatten, hflatten', hnoted, hnoted']
  have hname : heading.name = heading'.name := by
    rw [SameHeading, Heading.seen, Heading.seen, Heading.mk.injEq] at hheading
    exact hheading.1
  refine Draft.Reordered.push_model hdraft id (reordered_of_reads ?_ ?_
    (Draft.Reordered.references_size hdraft) (hdata _) (hdata' _) hreads) ?_ ?_
  · simp only [Definition.skeleton, hname]
    rfl
  · exact congrArg (fun name => [name]) hname
  · rw [List.length_map]
    exact (congrArg (List.map Import.model) (hdata _)).trans (map_model_importsFrom ..)
  · have hstripped := hreads.map Prod.fst
    rw [List.map_map, List.map_map] at hstripped ⊢
    exact hstripped

/-- Items that look alike are read alike, in whatever order they stand. -/
theorem importReads_perm (file file' : FileContext) (id : Nat) {items items' : List Site}
    (hplain : ∀ item ∈ items, item.Plain) (hplain' : ∀ item ∈ items', item.Plain)
    (h : (items.map fun item => item.tree.visible).Perm
      (items'.map fun item => item.tree.visible)) :
    ((importReads file id items).map fun read => (read.1.stripped, read.2)).Perm
      ((importReads file' id items').map fun read => (read.1.stripped, read.2)) := by
  -- First the items are put in the order of the others, then each is read like its counterpart.
  have hcounterparts : List.Forall₂ (fun tree (item : Site) => tree = item.tree.visible)
      (items'.map fun item => item.tree.visible) items' :=
    List.forall₂_map_left_iff.mpr (List.forall₂_same.mpr fun _ _ => rfl)
  obtain ⟨sorted, hsorted, hperm⟩ := List.perm_comp_forall₂ h hcounterparts
  rw [List.forall₂_map_left_iff] at hsorted
  have hplain := forall₂_and hsorted hplain fun item hitem =>
    hplain' item (hperm.mem_iff.mp hitem)
  have hread (file : FileContext) (items : List Site) :
      (importReads file id items).map (fun read => (read.1.stripped, read.2)) =
        items.filterMap fun item => (item.child? .path).map fun path =>
          ((⟨path.segments, default, id, .model, .unbound⟩ : Reference), item.isUnqualified) := by
    rw [importReads, List.map_filterMap]
    apply List.filterMap_congr
    intro item _
    rw [Option.map_map]
    rfl
  rw [hread, hread]
  refine (List.Perm.of_eq (filterMap_eq_of_forall₂ hplain fun item item' hitem => ?_)).trans
    (hperm.filterMap _)
  obtain ⟨hitem, hitem', htree⟩ := hitem
  have halike : item.Alike Kind.isNothing item' := hitem.alike hitem' htree
  refine map_eq_of_rel (halike.child? (by decide)) fun path path' hpath => ?_
  rw [hpath.1.segments_eq, halike.isUnqualified_eq]

theorem defineModel_eq_noteModel {file : FileContext} {site : Site} {heading : Heading}
    (h : site.heading? file = some heading) :
    defineModel file site = (do
      let id ← nextDefinition
      let translationOf ← referTo? file id .model site.translated?
      noteModel file id heading (fun imports => ⟨file.schemaVersion, site.language?,
        site.stringBehind? .atKw, site.stringBehind? .versionKw, translationOf, imports,
        file.uri⟩) site.importItems
      site.members.forM (defineBelow file id)) := by
  rw [defineModel, h]
  rfl

theorem alike_defineModel_reordering {file file' : FileContext} {site other : Site}
    (h : site.Plain) (hother : other.Plain)
    (hmodel : site.tree.visible.ReordersItems other.tree.visible) :
    Drafting.Alike .reordering Eq (defineModel file site) (defineModel file' other) := by
  have hbut : site.AlikeBut .imports other := h.alikeBut hother hmodel.same
  rcases rel_cases (hbut.alikeFor.heading? file file' fun _ hkind =>
      Site.isBut_of_kind hkind (by decide) (by decide)) with
    ⟨hleft, hright⟩ | ⟨heading, heading', hleft, hright, hsame⟩
  · simp only [defineModel, hleft, hright]
    exact alike_pure rfl
  have hreads (id : Nat) := importReads_perm file file' id h.importItems hother.importItems (by
    rw [h.map_visible_importItems, hother.map_visible_importItems]
    exact hmodel.items)
  rw [defineModel_eq_noteModel hleft, defineModel_eq_noteModel hright]
  refine alike_bind_to alike_nextDefinition fun id =>
    alike_bind_to (alike_referTo? id .model
      (hbut.alikeFor.grandchild? (by decide) (by decide) fun _ hkind =>
        Site.isBut_of_kind hkind (by decide) (by decide))) fun translationOf =>
      alike_bind_unit (alike_noteModel id hsame (fun _ => rfl) (fun _ => rfl) (hreads id)) <|
        alike_forM hbut.members fun member member' hmember => ?_
  rcases hmember with hlike | ⟨hkind, hkind'⟩
  · exact alike_defineBelow id hlike
  · simp only [defineBelow, hkind, hkind', defineMember]
    exact alike_pure rfl

/-! ### Catalogs -/

theorem contentOf_eq_of_forall₂ {definitions others : List Definition}
    (h : List.Forall₂ (fun definition other => definition.parent = other.parent ∧
      definition.names = other.names) definitions others) (parent : Nat) :
    contentOf definitions parent = contentOf others parent := by
  set place : Definition → Option Nat × List String := fun definition =>
    (definition.parent, definition.names)
  have hcontent (definitions : List Definition) : contentOf definitions parent =
      .ofList ((definitions.map place).zipIdx.flatMap fun entry =>
        if entry.1.1 = some parent then entry.1.2.map fun name => (name, entry.2) else []) := by
    rw [contentOf, List.zipIdx_map, List.flatMap_map]
    rfl
  have hplaces : definitions.map place = others.map place :=
    map_eq_of_forall₂ h fun _ _ hsame => Prod.ext hsame.1 hsame.2
  rw [hcontent, hcontent, hplaces]

def ofDraft (uri version : Option String) (draft : Draft) : Catalog :=
  ⟨uri, version, finished draft.definitions, draft.references, draft.models⟩

theorem definition?_ofDraft (uri version : Option String) (draft : Draft) (index : Nat) :
    (ofDraft uri version draft).definition? index =
      (draft.definitions[index]?).map fun definition =>
        { definition with content := contentOf draft.definitions.toList index } :=
  Array.getElem?_mapIdx

theorem importsAt_ofDraft (uri version : Option String) (draft : Draft) (index : Nat) :
    (ofDraft uri version draft).importsAt index =
      match draft.definitions[index]? with
      | none => []
      | some definition => definition.importsIn draft.references := by
  rw [importsAt, definition?_ofDraft]
  cases draft.definitions[index]? <;> rfl

theorem isImport_ofDraft {draft : Draft} (uri version : Option String)
    (hnoted : ∀ definition ∈ draft.definitions.toList, ∀ item ∈ definition.data.imports,
      item.model < draft.references.size) (number : Nat) :
    (ofDraft uri version draft).IsImport number ↔ number ∈ draft.imported := by
  simp only [IsImport, importsAt_ofDraft, Draft.imported, List.mem_flatMap, List.mem_map]
  constructor
  · rintro ⟨index, entry, hentry, rfl⟩
    cases hfound : draft.definitions[index]? with
    | none => rw [hfound] at hentry; cases hentry
    | some definition =>
      rw [hfound] at hentry
      obtain ⟨item, hitem, hreference⟩ := List.mem_filterMap.mp hentry
      obtain ⟨reference, -, rfl⟩ := Option.map_eq_some_iff.mp hreference
      exact ⟨definition, (Array.mem_of_getElem? hfound).val, item, hitem, rfl⟩
  · rintro ⟨definition, hdefinition, item, hitem, rfl⟩
    obtain ⟨index, hindex⟩ := List.mem_iff_getElem?.mp hdefinition
    have hlt := hnoted definition hdefinition item hitem
    refine ⟨index, (item, draft.references[item.model]), ?_, rfl⟩
    rw [show draft.definitions[index]? = some definition by simpa using hindex]
    exact List.mem_filterMap.mpr ⟨item, hitem, by rw [Array.getElem?_eq_getElem hlt]; rfl⟩

theorem reordered_ofDraft {draft other : Draft} (h : draft.Reordered other)
    (uri version : Option String) :
    (ofDraft uri version draft).Reordered (ofDraft uri version other) := by
  have hat (index : Nat) : Option.Rel (Definition.Reordered draft.references other.references)
      draft.definitions[index]? other.definitions[index]? := by
    simpa using rel_getElem? h.definitions index
  have hcontent (index : Nat) : contentOf draft.definitions.toList index =
      contentOf other.definitions.toList index :=
    contentOf_eq_of_forall₂ (h.definitions.imp fun _ _ hsame =>
      ⟨congrArg (fun skeleton => skeleton.2.1) hsame.skeleton, hsame.names⟩) index
  have himported : draft.imported = other.imported := by
    rw [Draft.imported, Draft.imported, List.flatMap_def, List.flatMap_def,
      map_eq_of_forall₂ h.definitions fun _ _ hsame => hsame.numbers]
  have hnoted : ∀ definition ∈ draft.definitions.toList, ∀ item ∈ definition.data.imports,
      item.model < draft.references.size :=
    forall_mem_of_forall₂ h.definitions fun _ _ hsame => hsame.noted
  have hnoted' : ∀ definition ∈ other.definitions.toList, ∀ item ∈ definition.data.imports,
      item.model < other.references.size :=
    forall_mem_of_forall₂ h.definitions.flip fun _ _ hsame =>
      Definition.Reordered.noted_other hsame h.references_size
  refine ⟨rfl, rfl, h.models, fun index => ?_, fun index => ?_, fun number => ?_,
    fun number hnumber => ?_, h.references_perm⟩
  · rw [definition?_ofDraft, definition?_ofDraft, Option.map_map, Option.map_map]
    refine map_eq_of_rel (hat index) fun definition definition' hsame => ?_
    have hskeleton := hsame.skeleton
    simp only [Definition.skeleton, Prod.mk.injEq] at hskeleton
    obtain ⟨hname, hparent, -, hkind⟩ := hskeleton
    simp only [Function.comp_apply, Definition.skeleton, hname, hparent, hcontent index]
    exact congrArg (fun kind => (definition'.name, definition'.parent, _, kind)) hkind
  · rw [importsAt_ofDraft, importsAt_ofDraft]
    rcases rel_cases (hat index) with ⟨hnone, hnone'⟩ | ⟨_, _, hfound, hfound', hsame⟩
    · rw [hnone, hnone']
    · rw [hfound, hfound']
      exact hsame.written
  · rw [isImport_ofDraft uri version hnoted, isImport_ofDraft uri version hnoted', himported]
  · exact h.references number fun himport =>
      hnumber ((isImport_ofDraft uri version hnoted number).mpr himport)

theorem reordered_draftOf {site other : Site} (file file' : FileContext) (h : site.Plain)
    (hother : other.Plain) (hfile : site.tree.visible.ReordersImports other.tree.visible) :
    (draftOf file site).Reordered (draftOf file' other) := by
  have hasks : Site.Asks Kind.isNothing fun child => child.kind == .model :=
    Site.asks_beq (by decide)
  have hmodels : List.Forall₂ (fun model model' : Site => model.Plain ∧ model'.Plain ∧
      model.tree.visible.ReordersItems model'.tree.visible) site.models other.models := by
    rw [Site.models, Site.models, Site.childrenOf, Site.childrenOf, hasks.filter_eq site.children,
      hasks.filter_eq other.children]
    have hrow := List.rel_filter (p := fun child : Site => child.kind == .model)
      (q := fun child : Site => child.kind == .model) (fun child child' hchild => ?_)
      (h.forall₂_children hother hfile)
    · refine hrow.imp fun model model' hmodel => ⟨hmodel.1, hmodel.2.1, ?_⟩
      exact hmodel.2.2.elim (fun heq => heq ▸ .refl _) fun hmodels => hmodels.2.2
    · obtain ⟨-, -, htree⟩ := hchild
      have hkinds : child.tree.visible.kind = child'.tree.visible.kind :=
        htree.elim (congrArg Tree.kind) fun hmodels => hmodels.1.trans hmodels.2.1.symm
      rw [Tree.kind_visible, Tree.kind_visible] at hkinds
      exact iff_of_eq (congrArg (fun kind => (kind == Kind.model) = true) hkinds)
  exact (alike_forM hmodels (fun model model' hmodel =>
    alike_defineModel_reordering hmodel.1 hmodel.2.1 hmodel.2.2) Draft.empty Draft.empty
      Draft.Reordered.empty).2

/-- Texts that differ in the order of imports declare the same but for that order. -/
theorem reordered_ofText {text other : String} (h : ReordersImports text other)
    (uri : Option String) : (ofText text uri).Reordered (ofText other uri) := by
  have hplain (text : String) : (Site.root (parse text).tree).Plain :=
    Site.plain_root (neat_parse text)
  have hbut : (Site.root (parse text).tree).AlikeBut .model (Site.root (parse other).tree) :=
    (hplain text).alikeBut (hplain other) (h.imp fun _ _ hchild =>
      hchild.imp_right fun hmodels => ⟨hmodels.1, hmodels.2.1⟩)
  have hversion : (Site.root (parse text).tree).schemaVersion? =
      (Site.root (parse other).tree).schemaVersion? :=
    hbut.alikeFor.schemaVersion?_eq fun _ hkind => Site.isBut_of_kind hkind (by decide) (by decide)
  have hdraft := reordered_draftOf ⟨.ofText text, uri, (Site.root (parse text).tree).schemaVersion?⟩
    ⟨.ofText other, uri, (Site.root (parse other).tree).schemaVersion?⟩ (hplain text)
    (hplain other) h
  change (ofDraft uri _ _).Reordered (ofDraft uri _ _)
  rw [hversion] at hdraft ⊢
  exact reordered_ofDraft hdraft uri _

end Catalog

end Ili
