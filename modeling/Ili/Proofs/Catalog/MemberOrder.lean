import Ili.Proofs.Catalog.BlockOrder
import Ili.Proofs.Catalog.ImportOrder

/-!
# Texts that differ in the order of declarations

Two texts in which the declarations of a model or a topic stand in another order declare the same
under other numbers, as long as no two of these declarations share a name. The walk over the two
trees is the same up to the members of that scope. There each declaration is a block, and the blocks
are put in another order; what comes later has the same numbers again.
-/

namespace Ili

/-! ### Trees -/

namespace Tree

def declarations (scope : Tree) : List Tree :=
  scope.children.filter isDeclaration

/-- What stands in a model or a topic beside its declarations. -/
def head (scope : Tree) : List Tree :=
  scope.children.filter fun child => !child.isDeclaration

/-- The names that a declaration brings into the scope it stands in, those of units and their short
names among them. -/
def declaredNames (declaration : Tree) : List String :=
  (Drafting.block .visible fun owner =>
    Catalog.defineBelow ⟨.ofText "", none, none⟩ owner (.root declaration)).names

/-- The scopes differ in the order of their declarations only, and no two of these share a name. -/
structure PermutesDeclarations (scope other : Tree) : Prop where
  head : scope.head = other.head
  declarations : scope.declarations.Perm other.declarations
  apart : scope.declarations.Pairwise fun first second =>
    ∀ name ∈ first.declaredNames, name ∉ second.declaredNames

def isNodeOf (kind : Kind) : Tree → Bool
  | token _ => false
  | node found _ => found == kind

def DiffersIn (kind : Kind) (R : Tree → Tree → Prop) (tree other : Tree) : Prop :=
  List.Forall₂ (fun child child' =>
      child = child' ∨ child.isNodeOf kind = true ∧ child'.isNodeOf kind = true ∧ R child child')
    tree.children other.children

/-- The models differ in the order of their declarations, or in that of declarations in their
topics. -/
def PermutesScopes (model other : Tree) : Prop :=
  model.PermutesDeclarations other ∨ model.DiffersIn .topic PermutesDeclarations other

instance (scope other : Tree) : Decidable (scope.PermutesDeclarations other) :=
  decidable_of_iff (scope.head = other.head ∧ scope.declarations.Perm other.declarations ∧
      scope.declarations.Pairwise fun first second =>
        ∀ name ∈ first.declaredNames, name ∉ second.declaredNames)
    ⟨fun h => ⟨h.1, h.2.1, h.2.2⟩, fun h => ⟨h.head, h.declarations, h.apart⟩⟩

instance (kind : Kind) (R : Tree → Tree → Prop) [DecidableRel R] (tree other : Tree) :
    Decidable (tree.DiffersIn kind R other) :=
  inferInstanceAs (Decidable (List.Forall₂ _ _ _))

instance : DecidableRel PermutesScopes := fun model other =>
  inferInstanceAs (Decidable
    (model.PermutesDeclarations other ∨ model.DiffersIn .topic PermutesDeclarations other))

theorem visible_visible (tree : Tree) : tree.visible.visible = tree.visible :=
  bare_bare ..

theorem isNodeOf_visible (kind : Kind) (tree : Tree) :
    tree.visible.isNodeOf kind = tree.isNodeOf kind := by
  cases tree <;> rfl

theorem kind_of_isNodeOf {kind : Kind} {tree : Tree} (h : tree.isNodeOf kind = true) :
    tree.kind = kind := by
  cases tree with
  | token t => cases h
  | node found children => exact beq_iff_eq.mp h

theorem isDeclaration_of_isNodeOf {kind : Kind} {tree : Tree} (h : tree.isNodeOf kind = true)
    (hkind : kind.isDeclaration = true) : tree.isDeclaration = true := by
  cases tree with
  | token t => cases h
  | node found children =>
    obtain rfl := beq_iff_eq.mp h
    exact hkind

theorem isMember_of_isDeclaration {tree : Tree} (h : tree.isDeclaration = true) :
    tree.kind.isMember = true := by
  cases tree with
  | token t => cases h
  | node kind children => cases kind <;> first | rfl | cases h

theorem DiffersIn.filter_eq {kind : Kind} {R : Tree → Tree → Prop} {tree other : Tree}
    (h : tree.DiffersIn kind R other) {p : Tree → Bool}
    (hp : ∀ child : Tree, child.isNodeOf kind = true → p child = false) :
    tree.children.filter p = other.children.filter p := by
  rw [DiffersIn] at h
  generalize tree.children = row at h ⊢
  generalize other.children = row' at h ⊢
  induction h with
  | nil => rfl
  | cons hfirst _ ih =>
    rcases hfirst with rfl | ⟨hkind, hkind', -⟩
    · rw [List.filter_cons, List.filter_cons, ih]
    · rw [List.filter_cons_of_neg (by rw [hp _ hkind]; exact Bool.false_ne_true),
        List.filter_cons_of_neg (by rw [hp _ hkind']; exact Bool.false_ne_true), ih]

theorem PermutesScopes.head_eq {model other : Tree} (h : model.PermutesScopes other) :
    model.head = other.head :=
  h.elim PermutesDeclarations.head fun htopics => htopics.filter_eq fun _ hkind => by
    rw [isDeclaration_of_isNodeOf hkind rfl]
    rfl

theorem PermutesScopes.refl (model : Tree) : model.PermutesScopes model :=
  .inr (List.forall₂_same.mpr fun _ _ => .inl rfl)

end Tree

/-- But for blanks and comments, the texts differ in the order of the declarations of models or
topics only. -/
def PermutesDeclarations (text other : String) : Prop :=
  (parse text).tree.visible.DiffersIn .model Tree.PermutesScopes (parse other).tree.visible

/-! ### Places -/

namespace Site

variable {site other : Site}

def declarations (site : Site) : List Site :=
  site.children.filter fun child => child.tree.isDeclaration

theorem isSolid_of_isDeclaration {keep : Kind → Bool} (h : site.tree.isDeclaration = true) :
    site.isSolid keep = true :=
  isSolid_of_visible (isTrivia_of_isMember (Tree.isMember_of_isDeclaration h))

theorem Plain.alike_root (h : site.Plain) : site.Alike Kind.isNothing (root site.tree.visible) :=
  h.alike (plain_root h.neat.bare) site.tree.visible_visible.symm

theorem Plain.map_visible_filter (h : site.Plain) {p : Tree → Bool}
    (hp : ∀ tree : Tree, p tree.visible = p tree) :
    (site.children.filter fun child => child.isSolid Kind.isNothing && p child.tree).map
      (fun child => child.tree.visible) = site.tree.visible.children.filter p := by
  rw [← h.map_visible_children, List.filter_map, List.filter_filter]
  congr 1
  apply List.filter_congr
  intro child _
  rw [Bool.and_comm, Function.comp_apply, hp]

theorem Plain.map_visible_declarations (h : site.Plain) :
    site.declarations.map (fun child => child.tree.visible) = site.tree.visible.declarations := by
  rw [Tree.declarations, ← h.map_visible_filter (Tree.isDeclaration_bare _), declarations]
  congr 1
  apply List.filter_congr
  intro child _
  cases hchild : child.tree.isDeclaration with
  | false => rw [Bool.and_false]
  | true => rw [isSolid_of_isDeclaration hchild, Bool.and_true]

theorem Plain.alikeFor (h : site.Plain) (hother : other.Plain) {p : Tree → Bool}
    (hp : ∀ tree : Tree, p tree.visible = p tree)
    (hrow : site.tree.visible.children.filter p = other.tree.visible.children.filter p) :
    AlikeFor Kind.isNothing (fun child => child.isSolid Kind.isNothing && p child.tree)
      site other := by
  rw [← h.map_visible_filter hp, ← hother.map_visible_filter hp, ← List.forall₂_eq_eq_eq,
    List.forall₂_map_left_iff, List.forall₂_map_right_iff] at hrow
  have hplain {site : Site} (h : site.Plain) : ∀ child ∈ site.children.filter
      (fun child => child.isSolid Kind.isNothing && p child.tree), child.Plain :=
    fun child hchild => h.child (List.mem_filter.mp hchild).1
  exact (forall₂_and hrow (hplain h) (hplain hother)).imp fun child child' hchild =>
    hchild.1.alike hchild.2.1 hchild.2.2

theorem Plain.forall₂_filter (h : site.Plain) (hother : other.Plain) {kind : Kind}
    {R : Tree → Tree → Prop} (hrow : site.tree.visible.DiffersIn kind R other.tree.visible)
    {p : Kind → Bool} (hp : ∀ kind, p kind = true → kind.isTrivia = false) :
    List.Forall₂ (fun child child' : Site => child.Plain ∧ child'.Plain ∧
        (child.tree.visible = child'.tree.visible ∨ child.tree.isNodeOf kind = true ∧
          child'.tree.isNodeOf kind = true ∧ R child.tree.visible child'.tree.visible))
      (site.children.filter fun child => p child.kind)
      (other.children.filter fun child => p child.kind) := by
  have hasks : Asks Kind.isNothing fun child => p child.kind := asks_kind hp
  have hchildren := h.forall₂_children hother hrow
  simp only [Tree.isNodeOf_visible] at hchildren
  rw [hasks.filter_eq site.children, hasks.filter_eq other.children]
  refine List.rel_filter (fun child child' hchild => ?_) hchildren
  have hkinds : child.kind = child'.kind := by
    rcases hchild.2.2 with heq | ⟨hkind, hkind', -⟩
    · rw [Site.kind, Site.kind, ← Tree.kind_visible, heq, Tree.kind_visible]
    · exact (Tree.kind_of_isNodeOf hkind).trans (Tree.kind_of_isNodeOf hkind').symm
  exact iff_of_eq (congrArg (fun kind => p kind = true) hkinds)

theorem Plain.alikeFor_inHead (h : site.Plain) (hother : other.Plain)
    (hhead : site.tree.visible.head = other.tree.visible.head) :
    AlikeFor Kind.isNothing (inHead Kind.isNothing) site other :=
  h.alikeFor hother (fun tree => congrArg (!·) (tree.isDeclaration_bare _)) hhead

theorem forM_members {note : Site → Drafting Unit}
    (hidle : ∀ member : Site, member.tree.isDeclaration = false → note member = pure ()) :
    site.members.forM note = site.declarations.forM note := by
  have hfilter (row : List Site) :
      row.forM note = (row.filter fun member => member.tree.isDeclaration).forM note := by
    induction row with
    | nil => rfl
    | cons member rest ih =>
      rw [List.forM_eq_forM] at ih ⊢
      rw [List.filter_cons, List.forM_cons, ih]
      split
      · rw [List.forM_cons]
      · next hno => rw [hidle member (Bool.eq_false_iff.mpr hno), pure_bind]
  rw [hfilter, members, List.filter_filter, declarations]
  congr 1
  apply List.filter_congr
  intro member _
  cases hmember : member.tree.isDeclaration with
  | false => rfl
  | true => exact Tree.isMember_of_isDeclaration hmember

end Site

/-! ### Members -/

namespace Catalog

open Drafting

variable {file file' : FileContext} {site other : Site} {owner : Nat} {scopes : List Nat}

theorem heading?_of_leaf (h : site.children = []) : site.heading? file = none := by
  simp [Site.heading?, Site.nameToken?, Site.child?, h]

theorem defineMember_of_leaf (h : site.children = []) :
    defineMember file owner site = pure () := by
  have hrow (kind : Kind) : site.childrenOf kind = [] := by rw [Site.childrenOf, h, List.filter_nil]
  have hassociation : associationHeading? file site = none := by
    rw [associationHeading?, heading?_of_leaf h, hrow]
    rfl
  rw [defineMember.eq_def]
  cases site.kind
  case unitSection => simp only [hrow]; rfl
  case domainSection => simp only [hrow]; rfl
  case classDef => simp only [defineClass, heading?_of_leaf h]
  case association => simp only [defineAssociation, hassociation]
  all_goals rfl

theorem defineMember_of_not_isDeclaration (h : site.tree.isDeclaration = false) :
    defineMember file owner site = pure () := by
  cases htree : site.tree with
  | token t => exact defineMember_of_leaf (by rw [Site.children, htree]; rfl)
  | node kind children =>
    have hkind : site.kind = kind := by rw [Site.kind, htree]; rfl
    rw [htree] at h
    rw [defineMember.eq_def, hkind]
    cases kind <;> first | rfl | cases h

theorem walks_defineBelow : Walks owner .model (defineBelow file owner site) := by
  rw [defineBelow]
  split
  · exact walks_defineTopic site
  · exact walks_defineMember site (.inl rfl)

structure Notes (note : FileContext → Nat → Site → Drafting Unit) : Prop where
  alike : ∀ {like : Congruence .visible} {file file' : FileContext} {site other : Site}
    (owner : Nat), site.Alike Kind.isNothing other →
      Drafting.Alike like Eq (note file owner site) (note file' (like.definition owner) other)
  walks : ∀ (file : FileContext) (site : Site), Walks 0 .model (note file 0 site)
  idle : ∀ (file : FileContext) (owner : Nat) (site : Site), site.tree.isDeclaration = false →
    note file owner site = pure ()
  names : ∀ (file : FileContext) (site : Site),
    (block .visible (note file · site)).names ⊆
      (block .visible (defineBelow file · site)).names

theorem notes_defineBelow : Notes defineBelow where
  alike owner h := alike_defineBelow owner h
  walks _ _ := walks_defineBelow
  idle file owner site h := by
    rw [defineBelow]
    split
    · next hkind =>
      cases htree : site.tree with
      | token t =>
        rw [defineTopic, heading?_of_leaf (by rw [Site.children, htree]; rfl)]
      | node kind children =>
        rw [Site.kind, htree] at hkind
        rw [htree, Tree.isDeclaration, show kind = .topic from hkind] at h
        cases h
    · exact defineMember_of_not_isDeclaration h
  names _ _ := List.Subset.refl _

theorem notes_defineMember : Notes defineMember where
  alike owner h := alike_defineMember owner h
  walks _ site := walks_defineMember site (.inl rfl)
  idle _ _ _ h := defineMember_of_not_isDeclaration h
  names file site := by
    by_cases hkind : site.kind = .topic
    · have hnone : block .visible (defineMember file · site) = ⟨[], []⟩ := by
        simp only [defineMember, hkind]
        change Draft.below (Draft.holder.seen .visible) = _
        simp [Draft.below, Draft.seen, Draft.holder]
      rw [hnone]
      exact List.nil_subset _
    · have hsame : (defineBelow file · site) = (defineMember file · site) :=
        funext fun owner => if_neg hkind
      rw [hsame]
      exact List.Subset.refl _

section Notes

variable {note : FileContext → Nat → Site → Drafting Unit} (hnote : Notes note)

include hnote

theorem Notes.block_eq (h : site.Plain) : block .visible (note file · site) =
    block .visible (note ⟨.ofText "", none, none⟩ · (.root site.tree.visible)) :=
  block_congr (hnote.alike 0 h.alike_root)

/-- Noting the members of a scope puts a block for each declaration. -/
theorem Notes.seen_forM_members (h : site.Plain) (draft : Draft) :
    ((site.members.forM (note file owner)) draft).2.seen .visible =
      (draft.seen .visible).putAll owner (site.tree.visible.declarations.map fun declaration =>
        block .visible (note ⟨.ofText "", none, none⟩ · (.root declaration))) := by
  have hplain : ∀ member ∈ site.declarations, member.Plain :=
    fun member hmember => h.child (List.mem_filter.mp hmember).1
  have hlike : ∀ member ∈ site.declarations, ∀ start : Draft,
      Drafting.Alike (.putting .visible start owner) Eq (note file 0 member)
        (note file owner member) := fun member hmember start =>
    hnote.alike 0 ((hplain member hmember).alike (hplain member hmember) rfl)
  rw [Site.forM_members (hnote.idle file owner),
    seen_forM_eq_putAll (fun member owner => note file owner member) hlike,
    ← h.map_visible_declarations, List.map_map]
  exact congrArg _ (List.map_congr_left fun member hmember =>
    hnote.block_eq (hplain member hmember))

end Notes

/-! ### Walks over two trees -/

/-- The steps lead from drafts that are the same but for the order of blocks to such drafts. -/
def Shuffles (scopes : List Nat) (step other : Drafting Unit) : Prop :=
  ∀ draft draft' : Draft, (draft.seen .visible).Shuffled scopes (draft'.seen .visible) →
    ((step draft).2.seen .visible).Shuffled scopes ((other draft').2.seen .visible)

theorem shuffles_forM {R : Site → Site → Prop} {row others : List Site}
    {f g : Site → Drafting Unit} (h : List.Forall₂ R row others)
    (hf : ∀ site other, R site other → Shuffles scopes (f site) (g other)) :
    Shuffles scopes (row.forM f) (others.forM g) := by
  induction h with
  | nil => exact fun _ _ h => h
  | cons hfirst _ ih =>
    rw [List.forM_eq_forM] at ih ⊢
    rw [List.forM_cons, List.forM_cons]
    exact fun draft draft' h => ih _ _ (hf _ _ hfirst draft draft' h)

/-- The members of a scope may be noted in another order. -/
theorem Notes.shuffles_members {note : FileContext → Nat → Site → Drafting Unit}
    (hnote : Notes note) (howner : owner ∈ scopes) (h : site.Plain) (hother : other.Plain)
    (hscope : site.tree.visible.PermutesDeclarations other.tree.visible) :
    Shuffles scopes (site.members.forM (note file owner))
      (other.members.forM (note file' owner)) := by
  intro draft draft' hdraft
  rw [hnote.seen_forM_members h, hnote.seen_forM_members hother]
  refine hdraft.putAll howner (hscope.declarations.map _) (fun block hblock => ?_) ?_
  · obtain ⟨declaration, -, rfl⟩ := List.mem_map.mp hblock
    exact closed_block (hnote.walks _ _)
  · refine List.pairwise_map.mpr (hscope.apart.imp fun {first second} happart => ?_)
    exact fun name hname hname' =>
      happart name (hnote.names _ _ hname) (hnote.names _ _ hname')

theorem shuffles_defineBelow (howner : owner ∈ scopes) (h : site.Alike Kind.isNothing other) :
    Shuffles scopes (defineBelow file owner site) (defineBelow file' owner other) := by
  intro draft draft' hdraft
  have hself : site.Alike Kind.isNothing site := ⟨rfl, rfl, h.neat, h.neat⟩
  have hput {file' : FileContext} {other : Site} (h : site.Alike Kind.isNothing other)
      (start : Draft) : (defineBelow file' owner other start).2.seen .visible =
        (start.seen .visible).put owner (block .visible (defineBelow file · site)) := by
    have hlike : Drafting.Alike (.putting .visible start owner) Eq (defineBelow file 0 site)
        (defineBelow file' owner other) := alike_defineBelow 0 h
    exact seen_eq_put_block (defineBelow file · site) hlike
  rw [hput hself, hput h]
  exact hdraft.putAll howner (.refl [block .visible (defineBelow file · site)])
    (List.forall_mem_singleton.mpr (closed_block walks_defineBelow)) (List.pairwise_singleton ..)

theorem shuffles_scope {head head' members members' : Nat → Drafting Unit}
    (hclosed : ∀ draft : Draft, draft.Closed → (∀ scope ∈ scopes, scope < draft.definitions.size) →
      let noted := (head draft.definitions.size draft).2
      noted.Closed ∧ noted.definitions.size = draft.definitions.size + 1)
    (hhead : ∀ (number reference : Equiv.Perm Nat) (id : Nat),
      (∀ scope ∈ id :: scopes, number scope = scope) →
      Drafting.Alike (.renumbering .visible number reference) Eq (head id) (head' id))
    (hmembers : ∀ id : Nat, Shuffles (id :: scopes) (members id) (members' id)) :
    Shuffles scopes (nextDefinition >>= fun id => head id >>= fun _ => members id)
      (nextDefinition >>= fun id => head' id >>= fun _ => members' id) := by
  intro draft draft' h
  have hsize : draft'.definitions.size = draft.definitions.size := by
    rw [← Draft.size_seen .visible draft', h.size_eq, Draft.size_seen]
  have hlt := h.scope_lt
  simp only [Draft.size_seen] at hlt
  obtain ⟨number, reference, hfixes, hsame⟩ := h.renumbered
  have hid : ∀ scope ∈ draft.definitions.size :: scopes, number scope = scope :=
    List.forall_mem_cons.mpr ⟨hsame.fixes _ (Draft.size_seen .visible draft).le, hfixes⟩
  obtain ⟨hnoted, hnext⟩ := hclosed draft (Draft.closed_seen_iff.mp h.closed) hlt
  have hopened : ((head draft.definitions.size draft).2.seen .visible).Shuffled
      (draft.definitions.size :: scopes)
      ((head' draft.definitions.size draft').2.seen .visible) := by
    refine ⟨Draft.closed_seen_iff.mpr hnoted, fun scope hscope => ?_, number, reference, hid,
      (hhead number reference _ hid draft draft' hsame).2⟩
    rw [Draft.size_seen, hnext, Nat.lt_succ_iff_lt_or_eq]
    exact (List.mem_cons.mp hscope).symm.imp (hlt scope) id
  have hnoted := hmembers draft.definitions.size _ _ hopened
  change ((members draft.definitions.size (head draft.definitions.size draft).2).2.seen
    .visible).Shuffled scopes ((members' draft'.definitions.size
      (head' draft'.definitions.size draft').2).2.seen .visible)
  rw [hsize]
  exact hnoted.close (List.subset_cons_self ..)

theorem closed_topicHead {heading : Heading} {draft : Draft} (h : draft.Closed)
    (howner : owner < draft.definitions.size) :
    let noted := (topicHead file owner heading site draft.definitions.size draft).2
    noted.Closed ∧ noted.definitions.size = draft.definitions.size + 1 := by
  have hrefers : Refers draft.definitions.size []
      (fun data => (DefinitionData.topic data).references)
      (do
        let base ← referTo? file draft.definitions.size .topic site.extended?
        site.members.foldlM (readTopicHead file draft.definitions.size)
          ⟨site.modifiers, base, [], none, none⟩) :=
    refers_bind (refers_referTo? .topic _) fun base =>
      (refers_foldlM refers_readTopicHead _).weaken <| by
        simpa only [DefinitionData.references, Option.toList_none, List.append_nil] using
          List.Subperm.refl _
  exact h.note hrefers heading fun parent hparent => Option.some.inj hparent ▸ howner

theorem closed_modelHead {heading : Heading} {draft : Draft} (h : draft.Closed) :
    let noted := (modelHead file heading site draft.definitions.size draft).2
    noted.Closed ∧ noted.definitions.size = draft.definitions.size + 1 := by
  let data (read : Option Nat × List (List Import)) : DefinitionData := .model
    ⟨file.schemaVersion, site.language?, site.stringBehind? .atKw, site.stringBehind? .versionKw,
      read.1, read.2.flatten, file.uri⟩
  have hrefers : Refers draft.definitions.size [] (fun read => (data read).references)
      (do
        let translationOf ← referTo? file draft.definitions.size .model site.translated?
        let imports ← site.importItems.mapM (readImport file draft.definitions.size)
        return (translationOf, imports)) :=
    refers_bind (refers_referTo? .model _) fun translationOf =>
      refers_bind (refers_mapM fun item _ => refers_readImport item) fun imports =>
        refers_pure <| by
          simpa only [data, DefinitionData.references, List.map_flatten, ← List.flatMap_def,
            List.append_nil] using List.perm_append_comm.subperm
  have hparent : ∀ parent ∈ (none : Option Nat), parent < draft.definitions.size :=
    fun parent hparent => absurd hparent (Option.not_mem_none parent)
  obtain ⟨hclosed, hsize⟩ := h.note hrefers heading hparent
  exact ⟨hclosed.addModel (hsize ▸ Nat.lt_succ_self _), hsize⟩

theorem shuffles_defineTopic (howner : owner ∈ scopes) (h : site.Plain) (hother : other.Plain)
    (hscope : site.tree.visible.PermutesDeclarations other.tree.visible) :
    Shuffles scopes (defineTopic file owner site) (defineTopic file' owner other) := by
  have hhead := h.alikeFor_inHead hother hscope.head
  rcases rel_cases (hhead.heading? file file' fun _ hkind =>
      Site.inHead_of_kind (hkind ▸ rfl) (hkind ▸ rfl)) with
    ⟨hleft, hright⟩ | ⟨heading, heading', hleft, hright, hsame⟩
  · simp only [defineTopic, hleft, hright]
    exact fun _ _ hdraft => hdraft
  rw [defineTopic_of_heading hleft, defineTopic_of_heading hright]
  refine shuffles_scope (fun draft hdraft hlt => ?_) (fun number reference id hfixes => ?_)
    fun id => notes_defineMember.shuffles_members List.mem_cons_self h hother hscope
  · exact closed_topicHead hdraft (hlt owner howner)
  · have hid : number id = id := hfixes id List.mem_cons_self
    have hparent : number owner = owner := hfixes owner (List.mem_cons_of_mem _ howner)
    have hnoted : Drafting.Alike (.renumbering .visible number reference) Eq
        (topicHead file owner heading site id)
        (topicHead file' (number owner) heading' other (number id)) :=
      alike_topicHead owner id hsame hhead
    rwa [hid, hparent] at hnoted

theorem shuffles_defineModel (hfile : file.Alike file') (h : site.Plain) (hother : other.Plain)
    (hscopes : site.tree.visible.PermutesScopes other.tree.visible) :
    Shuffles scopes (defineModel file site) (defineModel file' other) := by
  have hhead := h.alikeFor_inHead hother hscopes.head_eq
  rcases rel_cases (hhead.heading? file file' fun _ hkind =>
      Site.inHead_of_kind (hkind ▸ rfl) (hkind ▸ rfl)) with
    ⟨hleft, hright⟩ | ⟨heading, heading', hleft, hright, hsame⟩
  · simp only [defineModel, hleft, hright]
    exact fun _ _ hdraft => hdraft
  rw [defineModel_of_heading hleft, defineModel_of_heading hright]
  refine shuffles_scope (fun draft hdraft _ => closed_modelHead hdraft)
    (fun number reference id hfixes => ?_) fun id => ?_
  · have hid : number id = id := hfixes id List.mem_cons_self
    have hnoted : Drafting.Alike (.renumbering .visible number reference) Eq
        (modelHead file heading site id) (modelHead file' heading' other (number id)) :=
      alike_modelHead Congruence.keepsModels_renumbering hfile id hsame hhead
    rwa [hid] at hnoted
  · rcases hscopes with hscope | htopics
    · exact notes_defineBelow.shuffles_members List.mem_cons_self h hother hscope
    · refine shuffles_forM (h.forall₂_filter hother htopics fun _ =>
        Site.isTrivia_of_isMember) ?_
      rintro member member' ⟨hplain, hplain', heq | ⟨hkind, hkind', hscope⟩⟩
      · exact shuffles_defineBelow List.mem_cons_self (hplain.alike hplain' heq)
      · have htopic : member.kind = .topic := Tree.kind_of_isNodeOf hkind
        have htopic' : member'.kind = .topic := Tree.kind_of_isNodeOf hkind'
        rw [defineBelow, defineBelow, if_pos htopic, if_pos htopic']
        exact shuffles_defineTopic List.mem_cons_self hplain hplain' hscope

/-! ### Catalogs -/

theorem shuffled_draftOf (hfile : file.Alike file') (h : site.Plain) (hother : other.Plain)
    (hscopes : site.tree.visible.DiffersIn .model Tree.PermutesScopes other.tree.visible) :
    ((draftOf file site).seen .visible).Shuffled [] ((draftOf file' other).seen .visible) := by
  have hvisible (kind : Kind) (hkind : (kind == .model) = true) : kind.isTrivia = false := by
    rw [beq_iff_eq.mp hkind]
    rfl
  have hstart : (Draft.empty.seen .visible).Shuffled [] (Draft.empty.seen .visible) := by
    simpa [Draft.seen, Draft.empty] using Draft.Shuffled.empty
  refine shuffles_forM (h.forall₂_filter hother hscopes hvisible) (fun model model' hmodel => ?_)
    Draft.empty Draft.empty hstart
  obtain ⟨hplain, hplain', hsame⟩ := hmodel
  refine shuffles_defineModel hfile hplain hplain' ?_
  exact hsame.elim (fun heq => heq ▸ .refl _) fun hdiffer => hdiffer.2.2

theorem renumbered_ofDraft {draft other : Draft} {number reference : Equiv.Perm Nat}
    (h : (draft.seen .visible).Renumbered number reference (other.seen .visible))
    (uri version : Option String) :
    (ofDraft uri version draft).Renumbered number reference (ofDraft uri version other) := by
  have hcontent (index : Nat) (name : String) :
      (contentOf other.definitions.toList (number index)).get? name =
        ((contentOf draft.definitions.toList index).get? name).map number := by
    have hlist (draft : Draft) (parent : Nat) : contentOf draft.definitions.toList parent =
        contentOf (draft.seen .visible).definitions.toList parent := by
      rw [Draft.seen, Array.toList_map, contentOf_map_seen]
    rw [hlist other, hlist draft]
    refine get?_contentOf_renumbered (fun index => ?_) h.keeps index name
    rw [Array.getElem?_toList, Array.getElem?_toList, h.definitions]
    cases (draft.seen .visible).definitions[index]? with
    | none => exact .none
    | some definition => exact .some ⟨rfl, definition.names_renumber⟩
  refine ⟨rfl, rfl, h.models, fun index => ?_, fun index => ?_⟩
  · have hseen := h.definitions index
    simp only [Draft.seen, Array.getElem?_map, Option.map_map] at hseen
    rw [definition?_ofDraft, definition?_ofDraft]
    refine rel_map (rel_of_map_eq hseen fun _ _ hsame => hsame) fun first second hsame => ?_
    refine ⟨?_, hcontent index⟩
    exact congrArg (fun definition : Definition => { definition with content := .empty }) hsame
  · have hseen := h.references index
    simp only [Draft.seen, Array.getElem?_map, Option.map_map] at hseen
    refine rel_of_map_eq hseen fun first second hsame => ?_
    exact congrArg (fun reference : Reference => { reference with state := .unbound }) hsame

/-- Texts that differ in the order of declarations declare the same under other numbers. -/
theorem exists_renumbered_ofText {text other : String} (h : PermutesDeclarations text other)
    (uri : Option String) : ∃ number reference : Equiv.Perm Nat,
      (ofText text uri).Renumbered number reference (ofText other uri) := by
  have hplain (text : String) : (Site.root (parse text).tree).Plain :=
    Site.plain_root (neat_parse text)
  have hnode (tree : Tree) : (!tree.visible.isNodeOf .model) = !tree.isNodeOf .model :=
    congrArg (!·) (tree.isNodeOf_visible .model)
  have hbut : Site.AlikeFor Kind.isNothing
      (fun child => child.isSolid Kind.isNothing && !child.tree.isNodeOf .model)
      (Site.root (parse text).tree) (Site.root (parse other).tree) :=
    (hplain text).alikeFor (hplain other) hnode <|
      h.filter_eq fun child hchild => congrArg (!·) hchild
  have hversion : (Site.root (parse text).tree).schemaVersion? =
      (Site.root (parse other).tree).schemaVersion? := by
    refine hbut.schemaVersion?_eq fun child hkind => ?_
    have hnode : child.tree.isNodeOf .model = false := by
      rw [Bool.eq_false_iff]
      intro hmodel
      rw [Site.kind, Tree.kind_of_isNodeOf hmodel] at hkind
      cases hkind
    rw [Site.isSolid_of_visible (hkind ▸ rfl), hnode]
    rfl
  have hdraft := shuffled_draftOf
    (show FileContext.Alike ⟨.ofText text, uri, (Site.root (parse text).tree).schemaVersion?⟩
      ⟨.ofText other, uri, (Site.root (parse other).tree).schemaVersion?⟩ from ⟨rfl, hversion⟩)
    (hplain text) (hplain other) h
  obtain ⟨number, reference, -, hsame⟩ := hdraft.renumbered
  refine ⟨number, reference, ?_⟩
  change (ofDraft uri _ _).Renumbered number reference (ofDraft uri _ _)
  rw [hversion] at hsame ⊢
  exact renumbered_ofDraft hsame uri _

end Catalog

end Ili
