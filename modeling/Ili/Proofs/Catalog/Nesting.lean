import Ili.Proofs.Catalog.ContentOrder
import Ili.Proofs.Catalog.References

/-!
# The spans of a catalog nest

A definition is named inside its span, and what stands below it and what is written in it has its
span inside that of the definition. Spans of definitions below the same one do not overlap, whatever
was left out between them and however deep in the tree they were found.
-/

namespace Ili

namespace Span

structure Inside (span outer : Span) : Prop where
  start : outer.start ≤ span.start
  forward : span.start ≤ span.stop
  stop : span.stop ≤ outer.stop

def Beside (span other : Span) : Prop :=
  span.stop ≤ other.start ∨ other.stop ≤ span.start

theorem Beside.symm {span other : Span} (h : span.Beside other) : other.Beside span :=
  Or.symm h

end Span

section Sites

variable {text : String} {file : FileContext} {site other : Site}

theorem Site.Within.span_inside (h : site.Within other) (hindex : file.index = .ofText text)
    (hsite : (root (parse text).tree).Within site) :
    (other.span file).Inside (site.span file) := by
  have hother : (root (parse text).tree).Within other := hsite.trans h
  rw [span, span, hindex]
  constructor
  · apply LineIndex.position_le (isBoundary_of_within hsite).1 (isBoundary_of_within hother).1
    exact h.bounds.1
  · apply LineIndex.position_le (isBoundary_of_within hother).1 (isBoundary_of_within hother).2
    exact other.start_le_stop
  · apply LineIndex.position_le (isBoundary_of_within hother).2 (isBoundary_of_within hsite).2
    exact h.bounds.2

theorem Site.Apart.span_beside (h : site.Apart other) (hindex : file.index = .ofText text)
    (hsite : (root (parse text).tree).Within site)
    (hother : (root (parse text).tree).Within other) :
    (site.span file).Beside (other.span file) := by
  have hbounds := isBoundary_of_within hsite
  have hbounds' := isBoundary_of_within hother
  rw [span, span, hindex]
  exact h.imp (LineIndex.position_le hbounds.2 hbounds'.1)
    (LineIndex.position_le hbounds'.2 hbounds.1)

end Sites

namespace Portion

variable {text : String} {file : FileContext} {noted : List (Definition × Site)}

theorem nameSpan_inside (hindex : file.index = .ofText text)
    (h : Portion file 0 none (Site.root (parse text).tree).models noted) :
    ∀ entry ∈ noted, entry.1.nameSpan.Inside entry.1.span := by
  intro entry hentry
  obtain ⟨token, htoken, hname⟩ := (h.stands entry hentry).named
  rw [hname, (h.stands entry hentry).span]
  exact htoken.span_inside hindex (h.within_root entry hentry)

theorem span_inside (hindex : file.index = .ofText text)
    (h : Portion file 0 none (Site.root (parse text).tree).models noted) :
    ∀ entry ∈ noted, ∀ parent, entry.1.parent = some parent →
      ∃ above, noted[parent]? = some above ∧ entry.1.span.Inside above.1.span := by
  intro entry hentry parent hparent
  rcases h.parent entry hentry with hnone | ⟨index, above, hindexed, habove, hwithin⟩
  · cases hparent.symm.trans hnone
  · have hnumber : parent = 0 + index := Option.some.inj (hparent.symm.trans hindexed)
    rw [Nat.zero_add] at hnumber
    subst hnumber
    have hmem : above ∈ noted := List.mem_of_getElem? habove
    refine ⟨above, habove, ?_⟩
    rw [(h.stands entry hentry).span, (h.stands above hmem).span]
    exact hwithin.span_inside hindex (h.within_root above hmem)

theorem pairwise_beside (hindex : file.index = .ofText text)
    (h : Portion file 0 none (Site.root (parse text).tree).models noted) :
    noted.Pairwise fun entry next =>
      entry.1.parent = next.1.parent → entry.1.span.Beside next.1.span := by
  have hmodels := (Site.row_childrenOf (Site.root (parse text).tree) .model).precedes
  apply (h.pairwise hmodels).imp_of_mem
  intro entry next hentry hnext hprecedes hparent
  rw [(h.stands entry hentry).span, (h.stands next hnext).span]
  exact (hprecedes hparent).apart.span_beside hindex (h.within_root entry hentry)
    (h.within_root next hnext)

end Portion

namespace Catalog

/-- Spans of a catalog lie inside one another or beside one another, as the definitions do. -/
structure Nested (catalog : Catalog) : Prop where
  name : ∀ {index : Nat} {definition : Definition},
    catalog.definition? index = some definition → definition.nameSpan.Inside definition.span
  parent : ∀ {index parent : Nat} {definition : Definition},
    catalog.definition? index = some definition → definition.parent = some parent →
    ∃ above, catalog.definition? parent = some above ∧ definition.span.Inside above.span
  reference : ∀ {number : Nat} {reference : Reference},
    catalog.references[number]? = some reference →
    ∃ source, catalog.definition? reference.source = some source ∧
      reference.span.Inside source.span
  siblings : ∀ {index other parent : Nat} {definition next : Definition}, index ≠ other →
    catalog.definition? index = some definition → catalog.definition? other = some next →
    definition.parent = some parent → next.parent = some parent →
    definition.span.Beside next.span
  models : ∀ {index other : Nat} {definition next : Definition}, index ≠ other →
    catalog.definition? index = some definition → catalog.definition? other = some next →
    definition.kind = .model → next.kind = .model → definition.span.Beside next.span

theorem beside_ofText {text : String} {uri : Option String} {index other : Nat}
    {definition next : Definition} (hne : index ≠ other)
    (hfound : (ofText text uri).definition? index = some definition)
    (hother : (ofText text uri).definition? other = some next)
    (hparent : definition.parent = next.parent) : definition.span.Beside next.span := by
  obtain ⟨file, noted, hindex, hportion, hdefinition⟩ := exists_portion_ofText text uri
  have hpairwise := List.pairwise_iff_getElem.mp (hportion.pairwise_beside hindex)
  rw [hdefinition, Option.map_eq_some_iff] at hfound hother
  obtain ⟨entry, hentry, rfl⟩ := hfound
  obtain ⟨entry', hentry', rfl⟩ := hother
  obtain ⟨hlt, rfl⟩ := List.getElem?_eq_some_iff.mp hentry
  obtain ⟨hlt', rfl⟩ := List.getElem?_eq_some_iff.mp hentry'
  rcases Nat.lt_or_gt_of_ne hne with hbefore | hbehind
  · have hbeside := hpairwise index other hlt hlt' hbefore hparent
    exact hbeside
  · have hbeside := hpairwise other index hlt' hlt hbehind hparent.symm
    exact hbeside.symm

theorem reference_inside_ofText {text : String} {uri : Option String} {number : Nat}
    {reference : Reference} (h : (ofText text uri).references[number]? = some reference) :
    ∃ source, (ofText text uri).definition? reference.source = some source ∧
      reference.span.Inside source.span := by
  obtain ⟨source, hsource⟩ := exists_source_ofText h
  obtain ⟨file, hindex, first, paths, hlists, hwritten, hspans⟩ := exists_lists_ofText hsource
  have hmem : number ∈ List.range' first paths.length := by
    rw [← hwritten, mem_writtenIn]
    exact ⟨reference, h, rfl⟩
  obtain ⟨hle, hlt⟩ := List.mem_range'_1.mp hmem
  have hin : number - first < paths.length := by omega
  have hnumber : number = first + (number - first) := by omega
  obtain ⟨found, hfound, hspan⟩ :=
    hspans ⟨number - first, hnumber, List.getElem?_eq_getElem hin⟩
  obtain rfl : reference = found := Option.some.inj (h.symm.trans hfound)
  obtain ⟨site, hsite, hwithin, hsourceSpan⟩ := hlists.inside _ (List.getElem_mem hin)
  refine ⟨source, hsource, ?_⟩
  rw [hspan, hsourceSpan]
  exact hwithin.span_inside hindex hsite

/-- **The spans of every text nest.** -/
theorem nested_ofText (text : String) (uri : Option String) : (ofText text uri).Nested := by
  obtain ⟨file, noted, hindex, hportion, hdefinition⟩ := exists_portion_ofText text uri
  have hwellFormed := wellFormed_ofText text uri
  constructor
  case name =>
    intro index definition hfound
    rw [hdefinition, Option.map_eq_some_iff] at hfound
    obtain ⟨entry, hentry, rfl⟩ := hfound
    have hinside := hportion.nameSpan_inside hindex entry (List.mem_of_getElem? hentry)
    exact hinside
  case parent =>
    intro index parent definition hfound hparent
    rw [hdefinition, Option.map_eq_some_iff] at hfound
    obtain ⟨entry, hentry, rfl⟩ := hfound
    obtain ⟨above, habove, hinside⟩ :=
      hportion.span_inside hindex entry (List.mem_of_getElem? hentry) parent hparent
    exact ⟨_, (hdefinition parent).trans (congrArg _ habove), hinside⟩
  case reference =>
    intro number reference
    exact reference_inside_ofText
  case siblings =>
    intro index other parent definition next hne hfound hother hparent hparent'
    exact beside_ofText hne hfound hother (hparent.trans hparent'.symm)
  case models =>
    intro index other definition next hne hfound hother hkind hkind'
    have hparent : definition.parent = none := (hwellFormed.parent_eq_none_iff hfound).mpr hkind
    have hparent' : next.parent = none := (hwellFormed.parent_eq_none_iff hother).mpr hkind'
    exact beside_ofText hne hfound hother (hparent.trans hparent'.symm)

end Catalog

end Ili
