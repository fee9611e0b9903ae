import Ili.Proofs.Catalog.Siblings

/-!
# The order of the content

The content of a definition names what stands directly below it in the order in which the walk notes
it. That is the order of the text, but for classes and associations, where the roles come before the
attributes wherever they stand.
-/

namespace Ili

open scoped List

/-- In the order of the walk no attribute comes before a role, and what is of the same sort comes in
the order of the names in the text. -/
def Definition.Precedes (definition next : Definition) : Prop :=
  (next.data.isRole = true → definition.data.isRole = true) ∧
    (definition.data.isRole = next.data.isRole →
      definition.nameSpan.start ≤ next.nameSpan.start)

theorem Definition.precedes_refl (definition : Definition) : definition.Precedes definition :=
  ⟨id, fun _ => Position.le_refl _⟩

theorem Definition.StandsAt.precedes {text : String} {file : FileContext}
    (hindex : file.index = .ofText text) {definition other : Definition} {site next : Site}
    (h : definition.StandsAt file site) (hnext : other.StandsAt file next)
    (hsite : (Site.root (parse text).tree).Within site)
    (hnextSite : (Site.root (parse text).tree).Within next) (hprecedes : site.Precedes next) :
    definition.Precedes other := by
  obtain ⟨token, htoken, hname⟩ := h.named
  obtain ⟨token', htoken', hname'⟩ := hnext.named
  refine ⟨fun hrole => h.isRole_iff.mpr (hprecedes.role (hnext.isRole_iff.mp hrole)),
    fun hsame => ?_⟩
  have hstop : site.stop ≤ next.start := by
    apply hprecedes.inOrder
    rw [← h.isRole_iff, ← hnext.isRole_iff, hsame]
  have hle : token.start ≤ token'.start :=
    calc token.start
        _ ≤ token.stop := token.start_le_stop
        _ ≤ site.stop := htoken.bounds.2
        _ ≤ next.start := hstop
        _ ≤ token'.start := htoken'.bounds.1
  rw [hname, hname', Site.span, Site.span, hindex]
  exact LineIndex.position_le (Site.isBoundary_of_within (hsite.trans htoken)).1
    (Site.isBoundary_of_within (hnextSite.trans htoken')).1 hle

namespace Catalog

/-- Siblings of a text precede one another in the order of their numbers. -/
theorem precedes_ofText {text : String} {uri : Option String} {first second : Nat}
    {definition next : Definition} (hle : first ≤ second)
    (hfirst : (ofText text uri).definition? first = some definition)
    (hsecond : (ofText text uri).definition? second = some next)
    (hparent : definition.parent = next.parent) : definition.Precedes next := by
  obtain ⟨file, noted, hindex, hportion, hdefinition⟩ := exists_portion_ofText text uri
  have hmodels : (Site.root (parse text).tree).Row (Site.root (parse text).tree).models :=
    Site.row_childrenOf ..
  rw [hdefinition, Option.map_eq_some_iff] at hfirst hsecond
  obtain ⟨entry, hentry, rfl⟩ := hfirst
  obtain ⟨other, hother, rfl⟩ := hsecond
  have hwithin := hportion.within_root
  rcases Nat.eq_or_lt_of_le hle with rfl | hlt
  · obtain rfl := Option.some.inj (hentry.symm.trans hother)
    exact Definition.precedes_refl _
  · have hpairwise := List.pairwise_iff_getElem.mp (hportion.pairwise hmodels.precedes)
    obtain ⟨hfirst, rfl⟩ := List.getElem?_eq_some_iff.mp hentry
    obtain ⟨hsecond, rfl⟩ := List.getElem?_eq_some_iff.mp hother
    have hsites := hpairwise first second hfirst hsecond hlt hparent
    have hprecedes := (hportion.stands _ (List.getElem_mem hfirst)).precedes hindex
      (hportion.stands _ (List.getElem_mem hsecond)) (hwithin _ (List.getElem_mem hfirst))
      (hwithin _ (List.getElem_mem hsecond)) hsites
    exact hprecedes

/-- No two definitions directly below the one with this number share a name. -/
def DistinctBelow (catalog : Catalog) (id : Nat) : Prop :=
  catalog.definitions.toList.Pairwise fun definition next =>
    definition.parent = some id → next.parent = some id →
      ∀ name ∈ definition.names, name ∉ next.names

instance (catalog : Catalog) (id : Nat) : Decidable (catalog.DistinctBelow id) :=
  inferInstanceAs (Decidable (List.Pairwise _ _))

theorem DistinctBelow.eq {catalog : Catalog} {id child other : Nat} {name : String}
    (h : catalog.DistinctBelow id) (hchild : catalog.IsBelow id name child)
    (hother : catalog.IsBelow id name other) : child = other := by
  have hnot {first second : Nat} (hlt : first < second) (hfirst : catalog.IsBelow id name first)
      (hsecond : catalog.IsBelow id name second) : False := by
    obtain ⟨definition, hfound, hparent, hname⟩ := hfirst
    obtain ⟨next, hfound', hparent', hname'⟩ := hsecond
    rw [definition?, ← Array.getElem?_toList] at hfound hfound'
    obtain ⟨hbound, rfl⟩ := List.getElem?_eq_some_iff.mp hfound
    obtain ⟨hbound', rfl⟩ := List.getElem?_eq_some_iff.mp hfound'
    exact List.pairwise_iff_getElem.mp h first second hbound hbound' hlt hparent hparent' name
      hname hname'
  rcases Nat.lt_trichotomy child other with hlt | heq | hlt
  · exact (hnot hlt hchild hother).elim
  · exact heq
  · exact (hnot hlt hother hchild).elim

/-- Where no two children share a name, the content is in the order of the numbers. -/
theorem pairwise_content {text : String} {uri : Option String} {id : Nat} {definition : Definition}
    (hfound : (ofText text uri).definition? id = some definition)
    (hnames : (ofText text uri).DistinctBelow id) :
    definition.content.entries.Pairwise fun entry next => ∃ first second,
      (ofText text uri).definition? entry.2 = some first ∧
        (ofText text uri).definition? next.2 = some second ∧ first.Precedes second := by
  obtain ⟨file, noted, -, -, hdefinition⟩ := exists_portion_ofText text uri
  have hbelow {name : String} {child : Nat}
      (h : ∃ below, (noted.map Prod.fst)[child]? = some below ∧ below.parent = some id ∧
        name ∈ below.names) : (ofText text uri).IsBelow id name child := by
    obtain ⟨below, hbelow, hparent, hname⟩ := h
    rw [List.getElem?_map, Option.map_eq_some_iff] at hbelow
    obtain ⟨entry, hentry, rfl⟩ := hbelow
    exact ⟨_, (hdefinition child).trans (congrArg _ hentry), hparent, hname⟩
  have hcontent := hfound
  rw [hdefinition, Option.map_eq_some_iff] at hcontent
  obtain ⟨entry, -, rfl⟩ := hcontent
  have hsublist := Dict.entries_ofList_sublist fun name child other hchild hother =>
    hnames.eq (hbelow (mem_contentOf_pairs.mp hchild)) (hbelow (mem_contentOf_pairs.mp hother))
  refine ((pairwise_contentOf_pairs _ id).sublist hsublist).imp_of_mem
    fun {first second} hfirst hsecond hle => ?_
  obtain ⟨below, hlookup, hparent, -⟩ := hbelow (mem_contentOf_pairs.mp (hsublist.subset hfirst))
  obtain ⟨other, hlookup', hparent', -⟩ := hbelow (mem_contentOf_pairs.mp (hsublist.subset hsecond))
  exact ⟨below, other, hlookup, hlookup',
    precedes_ofText hle hlookup hlookup' (hparent.trans hparent'.symm)⟩

def IsRole (catalog : Catalog) (id : Nat) : Prop :=
  ∃ definition, catalog.definition? id = some definition ∧ definition.data.isRole = true

/-- The name of the first definition starts no later in the text than that of the second one. -/
def NamedBefore (catalog : Catalog) (first second : Nat) : Prop :=
  ∃ definition next, catalog.definition? first = some definition ∧
    catalog.definition? second = some next ∧ definition.nameSpan.start ≤ next.nameSpan.start

theorem isRole_iff {catalog : Catalog} {id : Nat} {definition : Definition}
    (h : catalog.definition? id = some definition) :
    catalog.IsRole id ↔ definition.data.isRole = true := by
  constructor
  · rintro ⟨other, hother, hrole⟩
    obtain rfl := Option.some.inj (h.symm.trans hother)
    exact hrole
  · exact fun hrole => ⟨definition, h, hrole⟩

/-- Where one sort comes before the other, and each is in order, the row is in order just when the
first sort stands before the second one. -/
theorem pairwise_iff_of_sorted {α : Type} {P : α → Prop} {R : α → α → Prop} {row : List α}
    (h : row.Pairwise fun a b => (P b → P a) ∧ ((P a ↔ P b) → R a b)) :
    row.Pairwise R ↔ ∀ a ∈ row, ∀ b ∈ row, P a → ¬P b → R a b := by
  constructor
  · intro hrow a ha b hb hfirst hnot
    obtain ⟨front, back, rfl⟩ := List.append_of_mem ha
    rcases List.mem_append.mp hb with hfront | hback
    · exact absurd (((List.pairwise_append.mp h).2.2 b hfront a (.head _)).1 hfirst) hnot
    · rcases List.mem_cons.mp hback with rfl | hback
      · exact absurd hfirst hnot
      · exact (List.pairwise_cons.mp (List.pairwise_append.mp hrow).2.1).1 b hback
  · intro hsorts
    refine h.imp_of_mem fun {a b} ha hb ⟨hfirst, hsame⟩ => ?_
    by_cases hpa : P a
    · by_cases hpb : P b
      · exact hsame (iff_of_true hpa hpb)
      · exact hsorts a ha b hb hpa hpb
    · exact hsame (iff_of_false hpa (mt hfirst hpa))

theorem kind_of_isRole {text : String} {uri : Option String} {id : Nat} {definition : Definition}
    (hfound : (ofText text uri).definition? id = some definition) {entry : String × Nat}
    (hentry : entry ∈ definition.content.entries) (hrole : (ofText text uri).IsRole entry.2) :
    definition.kind = .classLike ∨ definition.kind = .association := by
  obtain ⟨below, hbelow, hparent, -⟩ :=
    (rooted_ofText text uri).content hfound (Dict.mem_entries_iff.mp hentry)
  obtain ⟨above, habove, hholds⟩ := (wellFormed_ofText text uri).parent_mayHold hbelow hparent
  obtain rfl := Option.some.inj (hfound.symm.trans habove)
  have hdata := (isRole_iff hbelow).mp hrole
  have hkind : below.kind = .attributeLike := by
    rw [Definition.kind]
    cases hcase : below.data with
    | attributeLike data => rfl
    | _ => rw [hcase] at hdata; cases hdata
  rw [hkind] at hholds
  cases hcase : definition.kind with
  | classLike => exact .inl rfl
  | association => exact .inr rfl
  | _ => rw [hcase] at hholds; cases hholds

/-- In the content of a definition no two of whose children share a name, the roles come before the
attributes, and what is of the same sort comes in the order of the text. So the content is in the
order of the text just when no attribute is named in front of a role, and it always is where the
definition is neither a class nor an association. -/
theorem content_in_order (text : String) (uri : Option String) {id : Nat} {definition : Definition}
    (hfound : (ofText text uri).definition? id = some definition)
    (hnames : (ofText text uri).DistinctBelow id) :
    (definition.content.entries.Pairwise fun entry next =>
      ((ofText text uri).IsRole next.2 → (ofText text uri).IsRole entry.2) ∧
      (((ofText text uri).IsRole entry.2 ↔ (ofText text uri).IsRole next.2) →
        (ofText text uri).NamedBefore entry.2 next.2)) ∧
    ((definition.content.entries.Pairwise fun entry next =>
        (ofText text uri).NamedBefore entry.2 next.2) ↔
      ∀ entry ∈ definition.content.entries, ∀ next ∈ definition.content.entries,
        (ofText text uri).IsRole entry.2 → ¬(ofText text uri).IsRole next.2 →
        (ofText text uri).NamedBefore entry.2 next.2) ∧
    (definition.kind ≠ .classLike → definition.kind ≠ .association →
      definition.content.entries.Pairwise fun entry next =>
        (ofText text uri).NamedBefore entry.2 next.2) := by
  have horder : definition.content.entries.Pairwise fun entry next =>
      ((ofText text uri).IsRole next.2 → (ofText text uri).IsRole entry.2) ∧
      (((ofText text uri).IsRole entry.2 ↔ (ofText text uri).IsRole next.2) →
        (ofText text uri).NamedBefore entry.2 next.2) := by
    refine (pairwise_content hfound hnames).imp
      fun ⟨first, second, hfirst, hsecond, hprecedes⟩ => ?_
    rw [isRole_iff hfirst, isRole_iff hsecond, ← Bool.eq_iff_iff]
    exact ⟨hprecedes.1, fun hsame => ⟨first, second, hfirst, hsecond, hprecedes.2 hsame⟩⟩
  have hiff := pairwise_iff_of_sorted
    (P := fun entry : String × Nat => (ofText text uri).IsRole entry.2) horder
  refine ⟨horder, hiff, fun hclass hassociation => hiff.mpr fun entry hentry _ _ hrole => ?_⟩
  exact ((kind_of_isRole hfound hentry hrole).elim hclass hassociation).elim

def lateRoleText : String :=
  "INTERLIS 2.4; MODEL M = ASSOCIATION AB = Weight: 0 .. 10; a -- A; END AB; END M."

/-- The content of the association has the role in front of the attribute. -/
def HasLateRole (catalog : Catalog) : Prop :=
  catalog.DistinctBelow 1 ∧
    ∃ holder ∈ catalog.definition? 1, ∃ role ∈ catalog.definition? 2,
      ∃ other ∈ catalog.definition? 3,
        holder.content.entries = [("a", 2), ("Weight", 3)] ∧ role.data.isRole = true ∧
          other.data.isRole = false ∧ ¬role.nameSpan.start ≤ other.nameSpan.start

instance (catalog : Catalog) : Decidable catalog.HasLateRole :=
  inferInstanceAs (Decidable (_ ∧ _))

theorem hasLateRole_lateRoleText : (ofText lateRoleText none).HasLateRole := by
  decide +kernel

/-- A role behind an attribute puts the content out of the order of the text. -/
theorem content_in_order_lateRole :
    (ofText lateRoleText none).DistinctBelow 1 ∧
      ∃ holder, (ofText lateRoleText none).definition? 1 = some holder ∧
        ¬holder.content.entries.Pairwise fun entry next =>
          (ofText lateRoleText none).NamedBefore entry.2 next.2 := by
  obtain ⟨hnames, holder, hholder, role, hrole, other, hother, hentries, hisRole, hnot, hlate⟩ :=
    hasLateRole_lateRoleText
  refine ⟨hnames, holder, hholder, fun hordered => hlate ?_⟩
  obtain ⟨first, second, hfirst, hsecond, hle⟩ :=
    (content_in_order lateRoleText none hholder hnames).2.1.mp hordered ("a", 2)
      (by simp [hentries]) ("Weight", 3) (by simp [hentries]) ((isRole_iff hrole).mpr hisRole)
      (by rw [isRole_iff hother, hnot]; nofun)
  obtain rfl := Option.some.inj (hrole.symm.trans hfirst)
  obtain rfl := Option.some.inj (hother.symm.trans hsecond)
  exact hle

end Catalog

end Ili
