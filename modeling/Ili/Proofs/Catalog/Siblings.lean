import Ili.Proofs.Catalog.Meaning
import Ili.Proofs.Catalog.Outlines
import Ili.Proofs.Catalog.WellFormed
import Ili.Proofs.Tree.Sites

/-!
# Siblings in the order of the text

The walk over the tree of a file notes what stands directly below a definition in the order of the
text, with one exception: in a class or an association it goes over the roles first and then over
the attributes. So the content of a definition is in the order of the text unless an attribute
stands in front of a role.
-/

namespace Ili

open scoped List

namespace Site

def Apart (site next : Site) : Prop :=
  site.stop ≤ next.start ∨ next.stop ≤ site.start

instance : Std.Symm Apart :=
  ⟨fun _ _ => Or.symm⟩

/-- The walk comes to the first site before the other one: roles come first, and what is of the same
sort comes in the order of the text. -/
structure Precedes (site next : Site) : Prop where
  role : next.kind = .role → site.kind = .role
  inOrder : (site.kind = .role ↔ next.kind = .role) → site.stop ≤ next.start
  apart : site.Apart next

theorem precedes_of_le {site next : Site} (hrole : next.kind = .role → site.kind = .role)
    (hle : site.stop ≤ next.start) : site.Precedes next :=
  ⟨hrole, fun _ => hle, .inl hle⟩

/-- The sites stand below the outer one, and the walk comes to them one after the other. -/
structure Row (outer : Site) (sites : List Site) : Prop where
  within : ∀ site ∈ sites, outer.Within site
  precedes : sites.Pairwise Precedes

theorem row_nil (outer : Site) : outer.Row [] :=
  ⟨nofun, .nil⟩

theorem Row.of_child {site child : Site} {sites : List Site} (h : child.Row sites)
    (hchild : child ∈ site.children) : site.Row sites :=
  ⟨fun inner hinner => (Within.of_child hchild).trans (h.within inner hinner), h.precedes⟩

theorem row_childrenOf (site : Site) (kind : Kind) : site.Row (site.childrenOf kind) := by
  refine ⟨fun child hchild => Within.of_child (mem_children_of_childrenOf hchild), ?_⟩
  refine (site.pairwise_children.filter _).imp_of_mem fun {child next} hchild hnext hle => ?_
  have hkind : child.kind = next.kind :=
    (kind_of_mem_childrenOf hchild).trans (kind_of_mem_childrenOf hnext).symm
  exact precedes_of_le (fun hrole => hkind.trans hrole) hle

theorem apart_of_mem_children {site child next : Site} (hchild : child ∈ site.children)
    (hnext : next ∈ site.children) (hne : child ≠ next) : child.Apart next := by
  have hapart : site.children.Pairwise Apart := site.pairwise_children.imp fun hle => .inl hle
  exact hapart.forall hchild hnext hne

theorem ne_role_of_mem_childrenOf {site child : Site} {kind : Kind}
    (h : child ∈ site.childrenOf kind) (hkind : kind ≠ .role) : child.kind ≠ .role := by
  rwa [kind_of_mem_childrenOf h]

def rolesFirst (site : Site) : List Site :=
  site.childrenOf .role ++ site.childrenOf .attributeDef

theorem row_rolesFirst (site : Site) : site.Row site.rolesFirst := by
  have hroles := site.row_childrenOf .role
  have hattributes := site.row_childrenOf .attributeDef
  refine ⟨fun child hchild => ?_, List.pairwise_append.mpr
    ⟨hroles.precedes, hattributes.precedes, fun role hrole other hother => ?_⟩⟩
  · exact (List.mem_append.mp hchild).elim (hroles.within child) (hattributes.within child)
  · have hkind : role.kind = .role := kind_of_mem_childrenOf hrole
    have hotherKind : other.kind = .attributeDef := kind_of_mem_childrenOf hother
    refine ⟨fun _ => hkind, fun hiff => ?_, ?_⟩
    · rw [hkind, hotherKind] at hiff
      cases hiff.mp rfl
    · apply apart_of_mem_children (mem_children_of_childrenOf hrole)
        (mem_children_of_childrenOf hother)
      rintro rfl
      cases hkind.symm.trans hotherKind

def values (site : Site) : List Site :=
  match site.type? with
  | none => []
  | some type => if type.kind = .enumType then type.childrenOf .enumElement else []

theorem row_values (site : Site) : site.Row site.values := by
  rw [values]
  split
  · exact row_nil site
  · next type htype =>
    split
    · exact (type.row_childrenOf .enumElement).of_child (List.mem_of_find?_eq_some htype)
    · exact row_nil site

def declared (member : Site) : List Site :=
  match member.kind with
  | .unitSection => member.childrenOf .unitDef
  | .domainSection => member.childrenOf .domainDef
  | .classDef | .association | .topic => [member]
  | _ => []

theorem row_singleton (site : Site) : site.Row [site] :=
  ⟨fun _ hother => List.mem_singleton.mp hother ▸ .refl, List.pairwise_singleton _ _⟩

theorem row_declared (member : Site) :
    member.Row member.declared ∧ ∀ site ∈ member.declared, site.kind ≠ .role := by
  have hchildren {kind : Kind} (hkind : kind ≠ .role) :
      member.Row (member.childrenOf kind) ∧ ∀ site ∈ member.childrenOf kind, site.kind ≠ .role :=
    ⟨member.row_childrenOf kind, fun site hsite => ne_role_of_mem_childrenOf hsite hkind⟩
  have hself (hkind : member.kind ≠ .role) :
      member.Row [member] ∧ ∀ site ∈ [member], site.kind ≠ .role :=
    ⟨member.row_singleton, fun site hsite => List.mem_singleton.mp hsite ▸ hkind⟩
  rw [declared]
  cases hkind : member.kind
  case unitSection => exact hchildren (by decide)
  case domainSection => exact hchildren (by decide)
  case classDef | association | topic => exact hself (by rw [hkind]; decide)
  all_goals exact ⟨member.row_nil, nofun⟩

theorem row_members (site : Site) : site.Row (site.members.flatMap declared) := by
  have hchild {member : Site} (hmember : member ∈ site.members) : member ∈ site.children :=
    (List.mem_filter.mp hmember).1
  constructor
  · intro inner hinner
    obtain ⟨member, hmember, hinner⟩ := List.mem_flatMap.mp hinner
    exact (Within.of_child (hchild hmember)).trans (member.row_declared.1.within inner hinner)
  · refine List.pairwise_flatMap.mpr ⟨fun member _ => member.row_declared.1.precedes, ?_⟩
    refine (site.pairwise_children.filter _).imp
      fun {member next} hle inner hinner other hother => ?_
    have hinside := (member.row_declared.1.within inner hinner).bounds
    have hinside' := (next.row_declared.1.within other hother).bounds
    refine precedes_of_le (fun hrole => absurd hrole (next.row_declared.2 other hother)) ?_
    omega

end Site

/-! ### What the walk notes -/

def TypeDef.isRole : TypeDef → Bool
  | .role _ _ _ => true
  | _ => false

def DefinitionData.isRole : DefinitionData → Bool
  | .attributeLike data => data.type.isRole
  | _ => false

/-- The heading is that of the site, with a name made of words that stand in it. -/
structure Heading.IsOf (file : FileContext) (heading : Heading) (site : Site) : Prop where
  span : heading.span = site.span file
  named : ∃ token, site.Within token ∧ heading.nameSpan = token.span file
  spelled : ∃ words : List Site, heading.name = String.join (words.map Site.text) ∧
    ∀ word ∈ words, site.Within word ∧ word.kind = .ident

structure Definition.StandsAt (file : FileContext) (definition : Definition) (site : Site) :
    Prop where
  span : definition.span = site.span file
  named : ∃ token, site.Within token ∧ definition.nameSpan = token.span file
  spelled : ∃ words : List Site, definition.name = String.join (words.map Site.text) ∧
    ∀ word ∈ words, site.Within word ∧ word.kind = .ident
  isRole_iff : definition.data.isRole = true ↔ site.kind = .role

/-- Definitions noted from the number `first` on, each with its site. Directly below the owner
stands what is declared at the given sites, in their order; the others stand below definitions noted
here, and inside their sites, and below each of these the walk comes to one after the other. The
values of an enumeration are noted behind it. -/
structure Portion (file : FileContext) (first : Nat) (owner : Option Nat) (sites : List Site)
    (noted : List (Definition × Site)) : Prop where
  stands : ∀ entry ∈ noted, entry.1.StandsAt file entry.2
  within : ∀ entry ∈ noted, ∃ site ∈ sites, site.Within entry.2
  parent : ∀ entry ∈ noted, entry.1.parent = owner ∨ ∃ index above,
    entry.1.parent = some (first + index) ∧ noted[index]? = some above ∧ above.2.Within entry.2
  direct : (noted.filter fun entry => entry.1.parent = owner).map Prod.snd <+ sites
  precedes : noted.Pairwise fun entry next =>
    entry.1.parent ≠ owner → entry.1.parent = next.1.parent → entry.2.Precedes next.2
  values : ∀ {index : Nat} {entry : Definition × Site} {values : List EnumValue} {isFinal : Bool},
    noted[index]? = some entry → entry.1.data.type? = some (.enumeration values isFinal) →
    SpellsBehind (first + index) values
      ((noted.drop (index + 1)).map fun entry => entry.1.outline)

namespace Portion

variable {file : FileContext} {first : Nat} {owner : Option Nat} {sites more : List Site}
  {noted others : List (Definition × Site)}

theorem nil : Portion file first owner [] [] :=
  ⟨List.forall_mem_nil _, List.forall_mem_nil _, List.forall_mem_nil _, .refl [], .nil, nofun⟩

theorem weaken (h : Portion file first owner sites noted) (hsites : sites <+ more) :
    Portion file first owner more noted where
  stands := h.stands
  within entry hentry := by
    obtain ⟨site, hsite, hwithin⟩ := h.within entry hentry
    exact ⟨site, hsites.subset hsite, hwithin⟩
  parent := h.parent
  direct := h.direct.trans hsites
  precedes := h.precedes
  values := h.values

theorem le_parent (h : Portion file first owner sites noted) :
    ∀ entry ∈ noted, ∀ parent ∈ entry.1.parent, parent ∈ owner ∨ first ≤ parent := by
  intro entry hentry parent hparent
  rcases h.parent entry hentry with howner | ⟨index, above, habove, -⟩
  · exact .inl (howner ▸ hparent)
  · obtain rfl := Option.some.inj (hparent.symm.trans habove)
    exact .inr (Nat.le_add_right ..)

theorem append (h : Portion file first owner sites noted)
    (howner : ∀ parent ∈ owner, parent < first)
    (h' : Portion file (first + noted.length) owner more others) :
    Portion file first owner (sites ++ more) (noted ++ others) where
  stands entry hentry := (List.mem_append.mp hentry).elim (h.stands entry) (h'.stands entry)
  within entry hentry := by
    rcases List.mem_append.mp hentry with hentry | hentry
    · obtain ⟨site, hsite, hwithin⟩ := h.within entry hentry
      exact ⟨site, List.mem_append_left _ hsite, hwithin⟩
    · obtain ⟨site, hsite, hwithin⟩ := h'.within entry hentry
      exact ⟨site, List.mem_append_right _ hsite, hwithin⟩
  parent entry hentry := by
    rcases List.mem_append.mp hentry with hentry | hentry
    · refine (h.parent entry hentry).imp_right fun ⟨index, above, hparent, habove, hwithin⟩ => ?_
      have hlt : index < noted.length := (List.getElem?_eq_some_iff.mp habove).1
      exact ⟨index, above, hparent, (List.getElem?_append_left hlt).trans habove, hwithin⟩
    · refine (h'.parent entry hentry).imp_right fun ⟨index, above, hparent, habove, hwithin⟩ => ?_
      refine ⟨noted.length + index, above, ?_, ?_, hwithin⟩
      · rw [hparent, Nat.add_assoc]
      · rw [List.getElem?_append_right (Nat.le_add_right ..), Nat.add_sub_cancel_left, habove]
  direct := by
    rw [List.filter_append, List.map_append]
    exact h.direct.append h'.direct
  precedes := by
    refine List.pairwise_append.mpr
      ⟨h.precedes, h'.precedes, fun entry hentry next hnext hne heq => ?_⟩
    -- A definition noted later that does not stand below the owner stands below one noted later.
    obtain ⟨index, above, hparent, habove, -⟩ := (h.parent entry hentry).resolve_left hne
    obtain ⟨index', -, hparent', -⟩ := (h'.parent next hnext).resolve_left (heq ▸ hne)
    have hlt : index < noted.length := (List.getElem?_eq_some_iff.mp habove).1
    have hsame : first + index = first + noted.length + index' :=
      Option.some.inj (hparent.symm.trans (heq.trans hparent'))
    omega
  values {index entry values isFinal} hentry htype := by
    rw [List.getElem?_append] at hentry
    split at hentry
    · next hlt =>
      have hspells := h.values hentry htype
      have hcount : first + index + 1 + EnumValue.countOf values ≤ first + noted.length := by
        have hle := hspells.countOf_le
        rw [List.length_map, List.length_drop] at hle
        omega
      rw [List.drop_append_of_le_length (by omega), List.map_append]
      -- What the second portion notes stands below the owner or in that portion.
      refine hspells.append fun row hrow parent hparent => ?_
      obtain ⟨other, hother, rfl⟩ := List.mem_map.mp hrow
      rcases h'.le_parent other hother parent hparent with hbelow | hle
      · exact .inl (Nat.lt_of_lt_of_le (howner parent hbelow) (Nat.le_add_right ..))
      · exact .inr (hcount.trans hle)
    · next hge =>
      have hspells := h'.values hentry htype
      have hnumber : first + noted.length + (index - noted.length) = first + index := by omega
      rw [hnumber] at hspells
      rw [List.drop_append, List.drop_eq_nil_of_le (by omega), List.nil_append,
        show index + 1 - noted.length = index - noted.length + 1 by omega]
      exact hspells

/-- In the whole portion siblings come one after the other, where the sites do. -/
theorem pairwise (h : Portion file first owner sites noted)
    (hsites : sites.Pairwise Site.Precedes) :
    noted.Pairwise fun entry next =>
      entry.1.parent = next.1.parent → entry.2.Precedes next.2 := by
  have hdirect : noted.Pairwise fun entry next => entry.1.parent = owner →
      next.1.parent = owner → entry.2.Precedes next.2 := by
    have hsorted := hsites.sublist h.direct
    rw [List.pairwise_map, List.pairwise_filter] at hsorted
    simpa using hsorted
  refine (hdirect.and h.precedes).imp fun {entry next} ⟨hself, hother⟩ heq => ?_
  by_cases hbelow : entry.1.parent = owner
  · exact hself hbelow (heq ▸ hbelow)
  · exact hother hbelow heq

theorem close {definition : Definition} {site : Site} (hstands : definition.StandsAt file site)
    (hparent : definition.parent = owner) (howner : ∀ parent ∈ owner, parent < first)
    (hsites : site.Row sites)
    (hvalues : ∀ {values : List EnumValue} {isFinal : Bool},
      definition.data.type? = some (.enumeration values isFinal) →
      (noted.map fun entry => entry.1.outline) =
        EnumValue.outlineOf first (first + 1) values)
    (h : Portion file (first + 1) (some first) sites noted) :
    Portion file first owner [site] ((definition, site) :: noted) := by
  have hwithin : ∀ entry ∈ noted, site.Within entry.2 := by
    intro entry hentry
    obtain ⟨inner, hinner, hbelow⟩ := h.within entry hentry
    exact (hsites.within inner hinner).trans hbelow
  have hbelow : ∀ entry ∈ noted, ∃ index above, entry.1.parent = some (first + index) ∧
      ((definition, site) :: noted)[index]? = some above ∧ above.2.Within entry.2 := by
    intro entry hentry
    rcases h.parent entry hentry with hself | ⟨index, above, hparent, habove, hinside⟩
    · exact ⟨0, (definition, site), hself, rfl, hwithin entry hentry⟩
    · refine ⟨index + 1, above, ?_, habove, hinside⟩
      rw [hparent, Nat.add_assoc, Nat.add_comm 1]
  have hne : ∀ entry ∈ noted, entry.1.parent ≠ owner := by
    intro entry hentry heq
    obtain ⟨index, above, hparent, -⟩ := hbelow entry hentry
    have hlt : first + index < first := howner _ (heq ▸ hparent)
    omega
  constructor
  case stands => exact List.forall_mem_cons.mpr ⟨hstands, h.stands⟩
  case within =>
    exact List.forall_mem_cons.mpr ⟨⟨site, .head _, .refl⟩,
      fun entry hentry => ⟨site, .head _, hwithin entry hentry⟩⟩
  case parent =>
    exact List.forall_mem_cons.mpr
      ⟨.inl hparent, fun entry hentry => .inr (hbelow entry hentry)⟩
  case direct =>
    rw [List.filter_cons_of_pos (by simpa using hparent), List.filter_eq_nil_iff.mpr]
    · exact .refl _
    · exact fun entry hentry => by simpa using hne entry hentry
  case precedes =>
    refine .cons (fun entry _ hnot => absurd hparent hnot) ?_
    exact (h.pairwise hsites.precedes).imp fun {entry next} hbelow _ heq => hbelow heq
  case values =>
    intro index entry values isFinal hentry htype
    cases index with
    | zero =>
      obtain rfl := Option.some.inj hentry
      have hspells := spellsBehind_outlineOf first values
      rw [← hvalues htype] at hspells
      exact hspells
    | succ index =>
      have hspells := h.values hentry htype
      rw [Nat.add_assoc, Nat.add_comm 1] at hspells
      exact hspells

theorem within_root {tree : Tree} (h : Portion file first owner (Site.root tree).models noted) :
    ∀ entry ∈ noted, (Site.root tree).Within entry.2 := by
  intro entry hentry
  obtain ⟨model, hmodel, hbelow⟩ := h.within entry hentry
  exact (Site.Within.of_child (Site.mem_children_of_childrenOf hmodel)).trans hbelow

end Portion

namespace Drafting

open Draft

variable {α β : Type} {file : FileContext} {owner : Option Nat} {sites more : List Site}
  {site : Site} {start : Draft} {before : List Nat}

/-- Below the owner the step notes what is declared at these sites. -/
def Declares (file : FileContext) (owner : Option Nat) (sites : List Site) (step : Drafting α) :
    Prop :=
  ∀ draft : Draft, (∀ parent ∈ owner, parent < draft.definitions.size) →
    ∃ noted, (step draft).2.definitions.toList = draft.definitions.toList ++ noted.map Prod.fst ∧
      Portion file draft.definitions.size owner sites noted

/-- Once the references are noted that stand before a definition, the step notes the definition that
is declared at the site, and what stands below it. -/
def Opens (file : FileContext) (owner : Option Nat) (site : Site) (start : Draft)
    (before : List Nat) (step : Drafting α) : Prop :=
  ∀ draft : Draft, start.Pending before draft →
    ∃ noted, (step draft).2.definitions.toList = start.definitions.toList ++ noted.map Prod.fst ∧
      Portion file start.definitions.size owner [site] noted

theorem declares_of_definitions_eq {step : Drafting α}
    (h : ∀ draft : Draft, (step draft).2.definitions = draft.definitions) :
    Declares file owner sites step := by
  intro draft _
  refine ⟨[], ?_, Portion.nil.weaken (List.nil_sublist sites)⟩
  rw [h, List.map_nil, List.append_nil]

theorem declares_pure (a : α) : Declares file owner sites (pure a) :=
  declares_of_definitions_eq fun _ => rfl

theorem declares_addModel (id : Nat) : Declares file owner [] (addModel id) :=
  declares_of_definitions_eq fun _ => rfl

theorem declares_bind {step : Drafting α} {f : α → Drafting β} (h : Declares file owner sites step)
    (hf : ∀ a, Declares file owner more (f a)) :
    Declares file owner (sites ++ more) (step >>= f) := by
  intro draft howner
  obtain ⟨noted, hnoted, hportion⟩ := h draft howner
  have hsize : (step draft).2.definitions.size = draft.definitions.size + noted.length := by
    rw [← Array.length_toList, hnoted, List.length_append, List.length_map, Array.length_toList]
  obtain ⟨others, hothers, hportion'⟩ := hf (step draft).1 (step draft).2 fun parent hparent =>
    (howner parent hparent).trans_le (hsize ▸ Nat.le_add_right ..)
  rw [hsize] at hportion'
  refine ⟨noted ++ others, ?_, hportion.append howner hportion'⟩
  rw [List.map_append, ← List.append_assoc, ← hnoted]
  exact hothers

theorem declares_forM {row : List β} {f : β → Drafting Unit} {declared : β → List Site}
    (hf : ∀ b ∈ row, Declares file owner (declared b) (f b)) :
    Declares file owner (row.flatMap declared) (row.forM f) := by
  induction row with
  | nil => exact declares_pure ()
  | cons b rest ih =>
    rw [List.forM_eq_forM] at ih ⊢
    rw [List.forM_cons]
    exact declares_bind (hf b List.mem_cons_self) fun _ =>
      ih fun other hother => hf other (List.mem_cons_of_mem b hother)

theorem declares_forM_self {row : List Site} {f : Site → Drafting Unit}
    (hf : ∀ site ∈ row, Declares file owner [site] (f site)) :
    Declares file owner row (row.forM f) := by
  have hrow := declares_forM hf
  rwa [List.flatMap_singleton'] at hrow

theorem declares_nextDefinition {f : Nat → Drafting α}
    (hf : ∀ start : Draft, (∀ parent ∈ owner, parent < start.definitions.size) →
      Opens file owner site start [] (f start.definitions.size)) :
    Declares file owner [site] (nextDefinition >>= f) :=
  fun start howner => hf start howner start start.pending_self

theorem opens_bind {held : α → List Nat} {step : Drafting α} {f : α → Drafting β}
    (P : α → Prop) (h : Refers start.definitions.size before held step)
    (hresult : ∀ draft, P (step draft).1)
    (hf : ∀ a, P a → Opens file owner site start (held a) (f a)) :
    Opens file owner site start before (step >>= f) :=
  fun draft hpending => hf _ (hresult draft) _ (h start draft rfl hpending)

theorem opens_refers {held : α → List Nat} {step : Drafting α} {f : α → Drafting β}
    (h : Refers start.definitions.size before held step)
    (hf : ∀ a, Opens file owner site start (held a) (f a)) :
    Opens file owner site start before (step >>= f) :=
  opens_bind (fun _ => True) h (fun _ => trivial) fun a _ => hf a

theorem opens_define {heading : Heading} {data : DefinitionData} {f : Unit → Drafting Unit}
    (howner : ∀ parent ∈ owner, parent < start.definitions.size)
    (hheading : heading.IsOf file site) (hrole : data.isRole = true ↔ site.kind = .role)
    (hvalues : ∀ {values : List EnumValue} {isFinal : Bool},
      data.type? = some (.enumeration values isFinal) →
      Spells start.definitions.size values (f ()))
    (hsites : site.Row sites) (hf : Declares file (some start.definitions.size) sites (f ())) :
    Opens file owner site start before (define heading owner data >>= f) := by
  rintro _ ⟨references, -, -, rfl⟩
  set definition : Definition :=
    ⟨heading.name, owner, heading.span, heading.nameSpan, heading.metaAttributes, .empty, data⟩
  have hstands : definition.StandsAt file site :=
    ⟨hheading.span, hheading.named, hheading.spelled, hrole⟩
  obtain ⟨noted, hnoted, hportion⟩ :=
    hf ⟨start.definitions.push definition, start.references ++ references, start.models⟩ (by simp)
  rw [Array.size_push] at hportion
  have hspells {values : List EnumValue} {isFinal : Bool}
      (htype : data.type? = some (.enumeration values isFinal)) :
      (noted.map fun entry => entry.1.outline) =
        EnumValue.outlineOf start.definitions.size (start.definitions.size + 1) values := by
    obtain ⟨added, hadded, houtline⟩ := hvalues htype
      ⟨start.definitions.push definition, start.references ++ references, start.models⟩
    have hsame : noted.map Prod.fst = added :=
      List.append_cancel_left (hnoted.symm.trans hadded)
    rw [Array.size_push, ← hsame, List.map_map] at houtline
    exact houtline
  refine ⟨(definition, site) :: noted, ?_, .close hstands rfl howner hsites hspells hportion⟩
  rw [Array.toList_push, List.append_assoc] at hnoted
  exact hnoted

theorem opens_define_last {heading : Heading} {data : DefinitionData}
    (howner : ∀ parent ∈ owner, parent < start.definitions.size)
    (hheading : heading.IsOf file site) (hrole : data.isRole = true ↔ site.kind = .role)
    (hvalues : ∀ {values : List EnumValue} {isFinal : Bool},
      data.type? ≠ some (.enumeration values isFinal)) :
    Opens file owner site start before (define heading owner data) :=
  opens_define howner hheading hrole (fun htype => absurd htype hvalues) site.row_nil
    (declares_pure ())

end Drafting

open Drafting

theorem Site.kind_of_nameToken? {site token : Site} (h : site.nameToken? = some token) :
    token.kind = .ident := by
  obtain ⟨name, -, htoken⟩ := Option.bind_eq_some_iff.mp h
  exact kind_of_child? htoken

theorem isOf_heading? {file : FileContext} {site : Site} {heading : Heading}
    (h : site.heading? file = some heading) : heading.IsOf file site := by
  obtain ⟨token, htoken, rfl⟩ := Option.map_eq_some_iff.mp h
  have hwithin : site.Within token := Site.within_of_nameToken? htoken
  refine ⟨rfl, ⟨token, hwithin, rfl⟩, [token], ?_, ?_⟩
  · rw [List.map_singleton, String.join_cons, String.join_nil, String.append_empty]
    rfl
  · intro word hword
    obtain rfl := List.mem_singleton.mp hword
    exact ⟨hwithin, Site.kind_of_nameToken? htoken⟩

theorem isRole_iff_of_ne {site : Site} (h : site.kind ≠ .role) :
    false = true ↔ site.kind = .role :=
  ⟨nofun, fun hrole => absurd hrole h⟩

namespace Catalog

variable {file : FileContext} {owner : Nat} {site : Site}

theorem isOf_associationHeading? {heading : Heading}
    (h : associationHeading? file site = some heading) : heading.IsOf file site := by
  rcases Option.or_eq_some_iff.mp h with h | ⟨-, h⟩
  · exact isOf_heading? h
  · dsimp only at h
    split at h
    · cases h
    · obtain ⟨token, htoken, rfl⟩ := Option.map_eq_some_iff.mp h
      refine ⟨rfl, ⟨token, .of_child (List.mem_of_head? htoken), rfl⟩,
        (site.childrenOf .role).filterMap Site.nameToken?, ?_, ?_⟩
      · rw [List.map_filterMap]
        rfl
      · intro word hword
        obtain ⟨role, hrole, hword⟩ := List.mem_filterMap.mp hword
        have hchild : role ∈ site.children := Site.mem_children_of_childrenOf hrole
        exact ⟨(Site.Within.of_child hchild).trans (Site.within_of_nameToken? hword),
          Site.kind_of_nameToken? hword⟩

theorem isRole_typeOf (id : Nat) (site : Site) (draft : Draft) :
    (typeOf file id site draft).1.isRole = false := by
  rw [typeOf.eq_def]
  cases site.kind
  case listType | typeRef => cases site.child? .path <;> rfl
  all_goals rfl

theorem isRole_typeBelow (id : Nat) (site : Site) (draft : Draft) :
    (typeBelow file id site draft).1.isRole = false := by
  rw [typeBelow.eq_def]
  cases site.type? with
  | none => rfl
  | some type => exact isRole_typeOf id type draft

/-- If the type is an enumeration, what is noted below the site are its values. -/
def SpelledBelow (file : FileContext) (site : Site) (type : TypeDef) : Prop :=
  ∀ {values : List EnumValue} {isFinal : Bool} (owner : Nat),
    type = .enumeration values isFinal → Spells owner values (defineValues file owner site)

theorem values_of_typeOf {id : Nat} {site : Site} {draft : Draft} {values : List EnumValue}
    {isFinal : Bool} (h : (typeOf file id site draft).1 = .enumeration values isFinal) :
    site.kind = .enumType ∧ values = enumValues site := by
  rw [typeOf.eq_def] at h
  cases hkind : site.kind <;> rw [hkind] at h
  case enumType => exact ⟨rfl, (TypeDef.enumeration.inj h).1.symm⟩
  case listType | typeRef => cases hpath : site.child? .path <;> rw [hpath] at h <;> cases h
  all_goals cases h

theorem spelledBelow_typeBelow (id : Nat) (site : Site) (draft : Draft) :
    SpelledBelow file site (typeBelow file id site draft).1 := by
  intro values isFinal owner h
  rw [typeBelow.eq_def] at h
  rw [defineValues.eq_def]
  cases htype : site.type? with
  | none =>
    rw [htype] at h
    cases h
  | some type =>
    rw [htype] at h
    obtain ⟨hkind, rfl⟩ := values_of_typeOf h
    dsimp only
    rw [if_pos hkind]
    exact spells_defineElements file type owner

theorem declares_defineElements (enumeration : Site) :
    Declares file (some owner) (enumeration.childrenOf .enumElement)
      (defineElements file owner enumeration) := by
  induction enumeration using Site.elements_induction generalizing owner with
  | step enumeration ih =>
    rw [defineElements_eq]
    refine declares_forM_self fun element helement => ?_
    have hkind := Site.ne_role_of_mem_childrenOf helement (by decide)
    rw [defineElement]
    cases hheading : element.heading? file with
    | none => exact declares_pure ()
    | some heading =>
      refine declares_nextDefinition fun start howner => ?_
      have hnamed := isOf_heading? hheading
      cases hinner : element.child? .enumType with
      | none =>
        exact opens_define howner hnamed (isRole_iff_of_ne hkind) (fun htype => by cases htype)
          element.row_nil (declares_pure ())
      | some inner =>
        have hrow : element.Row (inner.childrenOf .enumElement) :=
          (inner.row_childrenOf .enumElement).of_child (Site.mem_children_of_child? hinner)
        exact opens_define howner hnamed (isRole_iff_of_ne hkind) (fun htype => by cases htype)
          hrow (ih element helement inner hinner)

theorem declares_defineValues (site : Site) :
    Declares file (some owner) site.values (defineValues file owner site) := by
  rw [defineValues.eq_def, Site.values]
  cases site.type? with
  | none => exact declares_pure ()
  | some type =>
    dsimp only
    split
    · exact declares_defineElements type
    · exact declares_pure ()

theorem declares_defineUnit (hsite : site.kind ≠ .role) :
    Declares file (some owner) [site] (defineUnit file owner site) := by
  rw [defineUnit.eq_def]
  cases hheading : site.heading? file with
  | none => exact declares_pure ()
  | some heading =>
    exact declares_nextDefinition fun start howner =>
      opens_refers (refers_referTo? .unit _) fun base =>
        opens_define_last howner (isOf_heading? hheading) (isRole_iff_of_ne hsite)
          (by rintro _ _ ⟨⟩)

theorem declares_defineDomain (hsite : site.kind ≠ .role) :
    Declares file (some owner) [site] (defineDomain file owner site) := by
  rw [defineDomain.eq_def]
  cases hheading : site.heading? file with
  | none => exact declares_pure ()
  | some heading =>
    exact declares_nextDefinition fun start howner =>
      opens_refers (refers_referTo? .domain _) fun base =>
        opens_bind (SpelledBelow file site) (refers_typeBelow site) (spelledBelow_typeBelow _ site)
          fun type htype =>
            opens_define howner (isOf_heading? hheading) (isRole_iff_of_ne hsite)
              (fun heq => htype _ (Option.some.inj heq)) site.row_values
              (declares_defineValues site)

theorem declares_defineRole (hsite : site.kind = .role) :
    Declares file (some owner) [site] (defineRole file owner site) := by
  rw [defineRole.eq_def]
  cases hheading : site.heading? file with
  | none => exact declares_pure ()
  | some heading =>
    exact declares_nextDefinition fun start howner =>
      opens_refers (refers_mapM_refer .classLike _) fun targets =>
        opens_define_last howner (isOf_heading? hheading) (iff_of_true rfl hsite) (by rintro _ _ ⟨⟩)

theorem declares_defineAttribute (hsite : site.kind ≠ .role) :
    Declares file (some owner) [site] (defineAttribute file owner site) := by
  rw [defineAttribute.eq_def]
  cases hheading : site.heading? file with
  | none => exact declares_pure ()
  | some heading =>
    exact declares_nextDefinition fun start howner =>
      opens_bind (fun type => type.isRole = false ∧ SpelledBelow file site type)
        (refers_typeBelow site)
        (fun draft => ⟨isRole_typeBelow _ site draft, spelledBelow_typeBelow _ site draft⟩)
        fun type htype =>
          opens_define howner (isOf_heading? hheading) (by
            rw [← isRole_iff_of_ne hsite, DefinitionData.isRole, htype.1])
            (fun heq => htype.2 _ (Option.some.inj heq)) site.row_values
            (declares_defineValues site)

theorem declares_defineMembers (site : Site) :
    Declares file (some owner) site.rolesFirst (defineMembers file owner site) := by
  refine declares_bind (declares_forM_self fun role hrole => ?_) fun _ =>
    declares_forM_self fun child hchild => ?_
  · exact declares_defineRole (Site.kind_of_mem_childrenOf hrole)
  · exact declares_defineAttribute (Site.ne_role_of_mem_childrenOf hchild (by decide))

theorem declares_defineClass (hsite : site.kind ≠ .role) :
    Declares file (some owner) [site] (defineClass file owner site) := by
  rw [defineClass.eq_def]
  cases hheading : site.heading? file with
  | none => exact declares_pure ()
  | some heading =>
    exact declares_nextDefinition fun start howner =>
      opens_refers (refers_referTo? .classLike _) fun base =>
        opens_refers (refers_referTo? .domain _) fun oid =>
          opens_define howner (isOf_heading? hheading) (isRole_iff_of_ne hsite) (by rintro _ _ ⟨⟩)
            site.row_rolesFirst (declares_defineMembers site)

theorem declares_defineAssociation (hsite : site.kind ≠ .role) :
    Declares file (some owner) [site] (defineAssociation file owner site) := by
  rw [defineAssociation.eq_def]
  cases hheading : associationHeading? file site with
  | none => exact declares_pure ()
  | some heading =>
    exact declares_nextDefinition fun start howner =>
      opens_refers (refers_referTo? .association _) fun base =>
        opens_define howner (isOf_associationHeading? hheading) (isRole_iff_of_ne hsite)
          (by rintro _ _ ⟨⟩) site.row_rolesFirst (declares_defineMembers site)

theorem declares_defineMember (member : Site) :
    Declares file (some owner) member.declared (defineMember file owner member) := by
  rw [defineMember.eq_def, Site.declared]
  cases hkind : member.kind
  case unitSection =>
    exact declares_forM_self fun child hchild =>
      declares_defineUnit (Site.ne_role_of_mem_childrenOf hchild (by decide))
  case domainSection =>
    exact declares_forM_self fun child hchild =>
      declares_defineDomain (Site.ne_role_of_mem_childrenOf hchild (by decide))
  case classDef => exact declares_defineClass (by rw [hkind]; decide)
  case association => exact declares_defineAssociation (by rw [hkind]; decide)
  all_goals exact declares_pure ()

theorem declares_defineTopic (hsite : site.kind ≠ .role) :
    Declares file (some owner) [site] (defineTopic file owner site) := by
  rw [defineTopic.eq_def]
  cases hheading : site.heading? file with
  | none => exact declares_pure ()
  | some heading =>
    exact declares_nextDefinition fun start howner =>
      opens_refers (refers_referTo? .topic _) fun base =>
        opens_refers
          ((refers_foldlM refers_readTopicHead _).weaken (by
            simpa only [DefinitionData.references, Option.toList_none, List.append_nil] using
              List.Subperm.refl _))
          fun data => opens_define howner (isOf_heading? hheading) (isRole_iff_of_ne hsite)
            (by rintro _ _ ⟨⟩) site.row_members
            (declares_forM fun member _ => declares_defineMember member)

theorem declares_defineModel (hsite : site.kind ≠ .role) :
    Declares file none [site] (defineModel file site) := by
  rw [defineModel.eq_def]
  cases hheading : site.heading? file with
  | none => exact declares_pure ()
  | some heading =>
    refine declares_nextDefinition fun start howner => ?_
    refine opens_refers (refers_referTo? .model _) fun translationOf => ?_
    refine opens_refers (refers_mapM fun item _ => refers_readImport item) fun imports => ?_
    refine opens_define howner (isOf_heading? hheading) (isRole_iff_of_ne hsite) (by rintro _ _ ⟨⟩)
      site.row_members
      (declares_bind (declares_addModel _) fun _ => declares_forM fun member _ => ?_)
    by_cases htopic : member.kind = .topic
    · rw [if_pos htopic, Site.declared, htopic]
      exact declares_defineTopic (by rw [htopic]; decide)
    · rw [if_neg htopic]
      exact declares_defineMember member

/-- The definitions of a text, each with the site that declares it. -/
theorem exists_portion_ofText (text : String) (uri : Option String) :
    ∃ (file : FileContext) (noted : List (Definition × Site)), file.index = .ofText text ∧
      Portion file 0 none (Site.root (parse text).tree).models noted ∧
      ∀ index, (ofText text uri).definition? index = noted[index]?.map fun entry =>
        { entry.1 with content := contentOf (noted.map Prod.fst) index } := by
  let root := Site.root (parse text).tree
  let file : FileContext := ⟨.ofText text, uri, root.schemaVersion?⟩
  have hdeclares : Declares file none root.models (root.models.forM (defineModel file)) :=
    declares_forM_self fun model hmodel =>
      declares_defineModel (Site.ne_role_of_mem_childrenOf hmodel (by decide))
  obtain ⟨noted, hnoted, hportion⟩ := hdeclares .empty nofun
  set draft : Draft := (root.models.forM (defineModel file) .empty).2
  have hdefinitions : draft.definitions.toList = noted.map Prod.fst := hnoted
  refine ⟨file, noted, rfl, hportion, fun index => ?_⟩
  have hdefinition : (ofText text uri).definition? index =
      draft.definitions[index]?.map fun definition =>
        { definition with content := contentOf draft.definitions.toList index } :=
    definition?_ofTree text (parse text).tree uri index
  rw [hdefinition, ← Array.getElem?_toList, hdefinitions, List.getElem?_map, Option.map_map]
  rfl

end Catalog

end Ili
