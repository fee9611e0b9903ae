import Ili.Proofs.Catalog.Notes
import Ili.Proofs.Tree.Kinds
import Mathlib.Data.Nat.Digits.Defs

/-!
# Cardinalities

In a text without errors a cardinality holds one bound or two between braces, each a star or a run
of digits. It is read as what is written, with one exception: a number that does not fit into
sixty-four bits is open, as if a star stood there.
-/

namespace Ili

/-! ### Runs of digits -/

theorem digitsValue_eq_ofDigits (digits : List Char) :
    digitsValue digits =
      Nat.ofDigits 10 (digits.reverse.map fun c => c.toNat - '0'.toNat) := by
  induction digits using List.reverseRecOn with
  | nil => rfl
  | append_singleton digits c ih =>
    rw [digitsValue] at ih ⊢
    rw [List.foldl_concat, ih, List.reverse_concat, List.map_cons, Nat.ofDigits_cons]
    omega

theorem Token.Heads.isDigit_of_integer {token : Token} {rest : List Char} (h : token.Heads rest)
    (hkind : token.kind = .integer) :
    token.text.toList ≠ [] ∧ ∀ c ∈ token.text.toList, c.isDigit = true := by
  obtain ⟨d, ds, hchars, hbegin⟩ := h.mayBegin
  obtain ⟨c, cs, htext, hmunch⟩ := h
  rw [hchars] at htext
  obtain ⟨rfl, rfl⟩ := List.cons.inj htext
  rw [hkind] at hbegin
  rw [munch_of_digit hbegin, Lexer.number_eq, hkind] at hmunch
  rw [hchars]
  refine ⟨List.cons_ne_nil _ _, List.forall_mem_cons.mpr ⟨hbegin, ?_⟩⟩
  split at hmunch
  · cases (Prod.mk.inj hmunch).1
  · exact (Lexer.count_eq_length_iff.mp (Prod.mk.inj hmunch).2).1

/-! ### Bounds as they are written -/

inductive WrittenBound where
  | star
  | number (digits : List Char) (nonempty : digits ≠ [])
    (decimal : ∀ c ∈ digits, c.isDigit = true)

namespace WrittenBound

def text : WrittenBound → String
  | star => "*"
  | number digits _ _ => String.ofList digits

def value? : WrittenBound → Option Nat
  | star => none
  | number digits _ _ => some (Nat.ofDigits 10 (digits.reverse.map fun c => c.toNat - '0'.toNat))

/-- The number that is written, if any, is one of sixty-four bits. -/
def Fits (bound : WrittenBound) : Prop :=
  ∀ n ∈ bound.value?, n < numberLimit

/-- What a bound is read as: it is open where a star stands and where a number does not fit, and is
the number that is written otherwise. -/
structure ReadAs (bound : WrittenBound) (lowered : Option Nat) : Prop where
  exact : bound.Fits → lowered = bound.value?
  open_iff : lowered = none ↔ bound = star ∨ ¬bound.Fits

theorem readAs_parseNumber? (bound : WrittenBound) : bound.ReadAs (parseNumber? bound.text) := by
  cases bound with
  | star =>
    have hnone : parseNumber? "*" = none := by decide
    exact ⟨fun _ => hnone, iff_of_true hnone (.inl rfl)⟩
  | number digits nonempty decimal =>
    have hplus : dropPlus digits = digits := by
      unfold dropPlus
      split
      · cases decimal _ List.mem_cons_self
      · rfl
    have hparse : parseNumber? (String.ofList digits) =
        if digitsValue digits < numberLimit then some (digitsValue digits) else none := by
      have hall : digits.all Char.isDigit = true := List.all_eq_true.mpr decimal
      simp only [parseNumber?, String.toList_ofList, hplus, hall, true_and, ne_eq, nonempty,
        not_false_eq_true]
    have hfits : (number digits nonempty decimal).Fits ↔ digitsValue digits < numberLimit := by
      rw [digitsValue_eq_ofDigits]
      exact ⟨fun h => h _ rfl, fun h n hn => Option.some.inj hn ▸ h⟩
    constructor
    · intro h
      rw [text, hparse, if_pos (hfits.mp h), digitsValue_eq_ofDigits, value?]
    · rw [text, hparse, hfits]
      split
      · next hlt => exact iff_of_false (Option.some_ne_none _) (by simp [hlt])
      · next hlt => exact iff_of_true rfl (.inr hlt)

end WrittenBound

/-! ### What stands in a cardinality -/

namespace Grammar

theorem kinds_of_cardinality {row : List Tree} (h : row ∈ (production .cardinality).language) :
    ∃ lower ∈ [Kind.integer, .star], row.map Tree.kind = [.lBrace, lower, .rBrace] ∨
      ∃ upper ∈ [Kind.integer, .star],
        row.map Tree.kind = [.lBrace, lower, .dotDot, upper, .rBrace] := by
  obtain ⟨_, ⟨opening, rfl, hopening, -⟩, _, ⟨_, ⟨lower, rfl, hlower, -⟩, _,
    ⟨_, hrange, _, ⟨closing, rfl, hclosing, -⟩, rfl⟩, rfl⟩, rfl⟩ := h
  have hopening : opening.kind = .lBrace := List.mem_singleton.mp hopening
  have hclosing : closing.kind = .rBrace := List.mem_singleton.mp hclosing
  refine ⟨lower.kind, hlower, ?_⟩
  rcases hrange with ⟨_, ⟨dots, rfl, hdots, -⟩, _, ⟨upper, rfl, hupper, -⟩, rfl⟩ | rfl
  · have hdots : dots.kind = .dotDot := List.mem_singleton.mp hdots
    exact .inr ⟨upper.kind, hupper, by simp [hopening, hclosing, hdots]⟩
  · exact .inl (by simp [hopening, hclosing])

end Grammar

namespace Site

variable {text : String} {site : Site}

theorem exists_writtenBound (hsite : (root (parse text).tree).Within site)
    (hkind : site.kind ∈ [Kind.integer, .star]) :
    ∃ bound : WrittenBound, site.text = bound.text := by
  simp only [List.mem_cons, List.not_mem_nil, or_false] at hkind
  rcases hkind with hinteger | hstar
  · obtain ⟨token, htree⟩ := exists_token_of_not_isNode hsite (by rw [hinteger]; rfl)
    obtain ⟨rest, hheads⟩ := heads_of_within hsite htree (by rw [hinteger]; decide)
    rw [Site.kind, htree] at hinteger
    obtain ⟨hne, hdigits⟩ := hheads.isDigit_of_integer hinteger
    refine ⟨.number token.text.toList hne hdigits, ?_⟩
    rw [Site.text, htree, WrittenBound.text, String.ofList_toList]
    rfl
  · exact ⟨.star, text_eq_mark hsite (by rw [hstar]; rfl) (by rw [hstar]; rfl)⟩

/-- The bounds are written in the cardinality; a single one counts for both. -/
def Writes (site : Site) (lower upper : WrittenBound) : Prop :=
  site.visibleTokens.map Site.text = ["\x7b", lower.text, "\x7d"] ∧ lower = upper ∨
    site.visibleTokens.map Site.text = ["\x7b", lower.text, "..", upper.text, "\x7d"]

/-- What is written in a cardinality is what is read, bound by bound. -/
theorem readAs_of_kinds (hsite : (root (parse text).tree).Within site) {first second : Kind}
    (hfirst : first ∈ [Kind.integer, .star]) (hsecond : second ∈ [Kind.integer, .star])
    (hkinds : site.visibleTokens.map kind = [.lBrace, first, .rBrace] ∨
      site.visibleTokens.map kind = [.lBrace, first, .dotDot, second, .rBrace]) :
    ∃ lower upper, site.Writes lower upper ∧ lower.ReadAs site.cardinality.min ∧
      upper.ReadAs site.cardinality.max := by
  have hwithin : ∀ child ∈ site.visibleTokens, (root (parse text).tree).Within child :=
    fun child hchild => hsite.child (List.mem_filter.mp hchild).1
  have hmarked (mark : Kind) (hnode : mark.isNode = false) {spelled : String}
      (hspelled : mark.mark? = some spelled) :
      ∀ child ∈ site.visibleTokens, child.kind = mark → child.text = spelled := by
    rintro child hchild rfl
    exact text_eq_mark (hwithin child hchild) hnode hspelled
  have hopens := hmarked .lBrace rfl rfl
  have hcloses := hmarked .rBrace rfl rfl
  have hdots := hmarked .dotDot rfl rfl
  have hbound {kind : Kind} (hkind : kind ∈ [Kind.integer, .star]) :
      (kind == .integer || kind == .star) = true := by
    simpa using hkind
  rcases hkinds with hkinds | hkinds
  · simp only [List.map_eq_cons_iff, List.map_eq_nil_iff] at hkinds
    obtain ⟨opening, _, htokens, hopening, bound, _, rfl, rfl, closing, _, rfl, hclosing, rfl⟩ :=
      hkinds
    rw [htokens] at hwithin hopens hcloses
    obtain ⟨written, hwritten⟩ := exists_writtenBound (hwithin bound (by simp)) hfirst
    have hread : site.cardinality = ⟨parseNumber? written.text, parseNumber? written.text⟩ := by
      simp [Site.cardinality, htokens, hopening, hclosing, hbound hfirst, hwritten]
    refine ⟨written, written, .inl ⟨?_, rfl⟩, ?_⟩
    · simp [htokens, hopens opening (by simp) hopening, hcloses closing (by simp) hclosing,
        hwritten]
    · rw [hread]
      exact ⟨written.readAs_parseNumber?, written.readAs_parseNumber?⟩
  · simp only [List.map_eq_cons_iff, List.map_eq_nil_iff] at hkinds
    obtain ⟨opening, _, htokens, hopening, low, _, rfl, rfl, dots, _, rfl, hdot, high, _, rfl, rfl,
      closing, _, rfl, hclosing, rfl⟩ := hkinds
    rw [htokens] at hwithin hopens hcloses hdots
    obtain ⟨lower, hlower⟩ := exists_writtenBound (hwithin low (by simp)) hfirst
    obtain ⟨upper, hupper⟩ := exists_writtenBound (hwithin high (by simp)) hsecond
    have hread : site.cardinality = ⟨parseNumber? lower.text, parseNumber? upper.text⟩ := by
      simp [Site.cardinality, htokens, hopening, hclosing, hdot, hbound hfirst, hbound hsecond,
        hlower, hupper]
    refine ⟨lower, upper, .inr ?_, ?_⟩
    · simp [htokens, hopens opening (by simp) hopening, hcloses closing (by simp) hclosing,
        hdots dots (by simp) hdot, hlower, hupper]
    · rw [hread]
      exact ⟨lower.readAs_parseNumber?, upper.readAs_parseNumber?⟩

end Site

/-! ### Cardinalities in a text -/

variable {text : String}

theorem readAs_of_cardinality (hok : (parse text).errors = []) {site : Site}
    (hsite : (Site.root (parse text).tree).Within site) (hkind : site.kind = .cardinality) :
    ∃ lower upper, site.Writes lower upper ∧ lower.ReadAs site.cardinality.min ∧
      upper.ReadAs site.cardinality.max := by
  have hshape := Site.visibleChildren_mem_production hok hsite hkind rfl (by decide) (by decide)
  obtain ⟨first, hfirst, hkinds⟩ := Grammar.kinds_of_cardinality hshape
  have hsame : site.visibleTokens.map Site.kind = site.tree.visibleChildren.map Tree.kind := by
    apply Site.kinds_visibleTokens hsite
    simp only [List.mem_cons, List.not_mem_nil, or_false] at hfirst
    rcases hkinds with hkinds | ⟨second, hsecond, hkinds⟩
    · rw [hkinds]
      rcases hfirst with rfl | rfl <;> decide
    · rw [hkinds]
      simp only [List.mem_cons, List.not_mem_nil, or_false] at hsecond
      rcases hfirst with rfl | rfl <;> rcases hsecond with rfl | rfl <;> decide
  rw [← hsame] at hkinds
  rcases hkinds with hkinds | ⟨second, hsecond, hkinds⟩
  · exact Site.readAs_of_kinds hsite hfirst hfirst (.inl hkinds)
  · exact Site.readAs_of_kinds hsite hfirst hsecond (.inr hkinds)

namespace Site

def Holds (site : Site) (notes : List Note) : Prop :=
  ∀ note ∈ notes, ∀ cardinality ∈ note.cardinality,
    ∃ node, site.Within node ∧ node.kind = .cardinality ∧ cardinality = node.cardinality

variable {site : Site} {file : FileContext} {notes more : List Note}

theorem holds_nil (site : Site) : site.Holds [] :=
  List.forall_mem_nil _

theorem Holds.append (h : site.Holds notes) (hmore : site.Holds more) :
    site.Holds (notes ++ more) :=
  List.forall_mem_append.mpr ⟨h, hmore⟩

theorem Holds.of_within {inner : Site} (h : inner.Holds notes) (hinner : site.Within inner) :
    site.Holds notes := by
  intro note hnote cardinality hcardinality
  obtain ⟨node, hnode, hrest⟩ := h note hnote cardinality hcardinality
  exact ⟨node, hinner.trans hnode, hrest⟩

theorem holds_flatMap {sites : List Site} {f : Site → List Note}
    (hsites : ∀ inner ∈ sites, site.Within inner) (hf : ∀ inner ∈ sites, inner.Holds (f inner)) :
    site.Holds (sites.flatMap f) := by
  intro note hnote
  obtain ⟨inner, hinner, hnote⟩ := List.mem_flatMap.mp hnote
  exact (hf inner hinner).of_within (hsites inner hinner) note hnote

theorem holds_notes {heading : Option Heading} {kind : DefinitionKind}
    {cardinality : Option Cardinality} (hbelow : site.Holds notes)
    (hread : ∀ read ∈ cardinality,
      ∃ node, site.Within node ∧ node.kind = .cardinality ∧ read = node.cardinality) :
    site.Holds (Heading.notes heading kind cardinality notes) := by
  cases heading with
  | none => exact site.holds_nil
  | some heading => exact List.forall_mem_cons.mpr ⟨hread, hbelow⟩

theorem Holds.notes_none {heading : Option Heading} {kind : DefinitionKind}
    (hbelow : site.Holds notes) : site.Holds (Heading.notes heading kind none notes) :=
  holds_notes hbelow fun _ hnone => absurd hnone (Option.not_mem_none _)

theorem exists_node_of_cardinality? {inner : Site} (hinner : site.Within inner) :
    ∀ cardinality ∈ inner.cardinality?,
      ∃ node, site.Within node ∧ node.kind = .cardinality ∧ cardinality = node.cardinality := by
  intro cardinality hcardinality
  obtain ⟨node, hnode, rfl⟩ := Option.map_eq_some_iff.mp hcardinality
  exact ⟨node, hinner.child (mem_children_of_child? hnode), kind_of_child? hnode, rfl⟩

theorem holds_elementNotes (enumeration : Site) :
    enumeration.Holds (enumeration.elementNotes file) := by
  induction enumeration using elements_induction with
  | step enumeration ih =>
    rw [elementNotes_eq]
    refine holds_flatMap (fun element helement => .of_child (mem_children_of_childrenOf helement))
      fun element helement => Holds.notes_none ?_
    cases hinner : element.child? .enumType with
    | none => exact element.holds_nil
    | some inner =>
      exact (ih element helement inner hinner).of_within (.of_child (mem_children_of_child? hinner))

theorem holds_valueNotes (site : Site) : site.Holds (site.valueNotes file) := by
  rw [valueNotes]
  split
  · exact site.holds_nil
  · next type htype =>
    split
    · exact type.holds_elementNotes.of_within (.of_child (List.mem_of_find?_eq_some htype))
    · exact site.holds_nil

theorem holds_attributeNotes (site : Site) : site.Holds (site.attributeNotes file) := by
  refine holds_notes site.holds_valueNotes fun cardinality hcardinality => ?_
  obtain ⟨type, htype, hcardinality⟩ := Option.bind_eq_some_iff.mp hcardinality
  have hmem : type ∈ site.children :=
    List.mem_of_find?_eq_some (Option.filter_eq_some_iff.mp htype).1
  exact exists_node_of_cardinality? (.of_child hmem) cardinality hcardinality

theorem holds_contentNotes (site : Site) : site.Holds (site.contentNotes file) := by
  refine Holds.append (holds_flatMap (fun role hrole => ?_) fun role _ => ?_)
    (holds_flatMap (fun child hchild => ?_) fun child _ => child.holds_attributeNotes)
  · exact .of_child (mem_children_of_childrenOf hrole)
  · exact holds_notes role.holds_nil (exists_node_of_cardinality? .refl)
  · exact .of_child (mem_children_of_childrenOf hchild)

theorem holds_associationNotes (site : Site) : site.Holds (site.associationNotes file) := by
  refine holds_notes site.holds_contentNotes fun cardinality hcardinality => ?_
  obtain ⟨clause, hclause, hcardinality⟩ := Option.bind_eq_some_iff.mp hcardinality
  exact exists_node_of_cardinality? (.of_child (mem_children_of_child? hclause)) cardinality
    hcardinality

theorem holds_memberNotes (member : Site) : member.Holds (member.memberNotes file) := by
  have hchild {kind : Kind} : ∀ child ∈ member.childrenOf kind, member.Within child :=
    fun child hchild => .of_child (mem_children_of_childrenOf hchild)
  rw [memberNotes]
  split
  · exact holds_flatMap hchild fun child _ => child.holds_nil.notes_none
  · exact holds_flatMap hchild fun child _ => child.holds_valueNotes.notes_none
  · exact member.holds_contentNotes.notes_none
  · exact member.holds_associationNotes
  · exact member.holds_nil

theorem holds_topicNotes (site : Site) : site.Holds (site.topicNotes file) := by
  refine Holds.notes_none (holds_flatMap (fun member hmember => ?_) fun member _ => ?_)
  · exact .of_child (List.mem_filter.mp hmember).1
  · exact member.holds_memberNotes

theorem holds_modelNotes (site : Site) : site.Holds (site.modelNotes file) := by
  refine Holds.notes_none (holds_flatMap (fun member hmember => ?_) fun member _ => ?_)
  · exact .of_child (List.mem_filter.mp hmember).1
  · split
    · exact member.holds_topicNotes
    · exact member.holds_memberNotes

end Site

theorem Catalog.exists_node_of_cardinality {uri : Option String} {definition : Definition}
    (hmem : definition ∈ (ofText text uri).definitions) :
    ∀ cardinality ∈ definition.data.cardinality?, ∃ site,
      (Site.root (parse text).tree).Within site ∧ site.kind = .cardinality ∧
        cardinality = site.cardinality := by
  have hnote : definition.note ∈ (ofText text uri).definitions.toList.map Definition.note :=
    List.mem_map_of_mem (Array.mem_toList_iff.mpr hmem)
  rw [notes_ofText] at hnote
  exact Site.holds_flatMap
    (fun model hmodel => .of_child (Site.mem_children_of_childrenOf hmodel))
    (fun model _ => model.holds_modelNotes) definition.note hnote

/-- **Cardinalities are read as written, as long as their numbers fit.** In a text without errors a
cardinality writes two bounds, or one for both. A bound that fits is read as the number written, and
as open if it is a star; a number that does not fit is read as if a star were written. What the
definitions of the text hold are these cardinalities. -/
theorem cardinality_of_parse (hok : (parse text).errors = []) :
    (∀ site, (Site.root (parse text).tree).Within site → site.kind = .cardinality →
      ∃ lower upper, site.Writes lower upper ∧ lower.ReadAs site.cardinality.min ∧
        upper.ReadAs site.cardinality.max ∧
        (site.cardinality.isUnbounded = true ↔ upper = .star ∨ ¬upper.Fits)) ∧
      ∀ uri, ∀ definition ∈ (Catalog.ofText text uri).definitions,
        ∀ cardinality ∈ definition.data.cardinality?, ∃ site,
          (Site.root (parse text).tree).Within site ∧ site.kind = .cardinality ∧
            cardinality = site.cardinality := by
  refine ⟨fun site hsite hkind => ?_, fun uri definition hmem =>
    Catalog.exists_node_of_cardinality hmem⟩
  obtain ⟨lower, upper, hwrites, hlower, hupper⟩ := readAs_of_cardinality hok hsite hkind
  refine ⟨lower, upper, hwrites, hlower, hupper, ?_⟩
  rw [Cardinality.isUnbounded, Option.isNone_iff_eq_none, hupper.open_iff]

/-- The first number that does not fit is taken for a star. -/
theorem cardinality_of_parse_numberLimit :
    let text :=
      "INTERLIS 2.4; MODEL M = ASSOCIATION A = a -- \x7b0..18446744073709551616\x7d B; " ++
        "END A; END M."
    (parse text).errors = [] ∧ ∃ site, (Site.root (parse text).tree).Within site ∧
      site.kind = .cardinality ∧ ∃ lower upper, site.Writes lower upper ∧
        upper.text = "18446744073709551616" ∧ ¬upper.Fits ∧
        site.cardinality.isUnbounded = true := by
  intro text
  have hok : (parse text).errors = [] := by decide +kernel
  have hsite : ∃ model ∈ (Site.root (parse text).tree).children, ∃ association ∈ model.children,
      ∃ role ∈ association.children, ∃ site ∈ role.children, site.kind = .cardinality ∧
        site.visibleTokens.map Site.text =
          ["\x7b", "0", "..", "18446744073709551616", "\x7d"] ∧
        site.cardinality.isUnbounded = true := by
    decide +kernel
  obtain ⟨model, hmodel, association, hassociation, role, hrole, site, hsite, hkind, htexts,
    hopen⟩ := hsite
  have hwithin : (Site.root (parse text).tree).Within site :=
    (((Site.Within.of_child hmodel).child hassociation).child hrole).child hsite
  obtain ⟨lower, upper, hwrites, -, -, hunbounded⟩ :=
    (cardinality_of_parse hok).1 site hwithin hkind
  have hupper : upper.text = "18446744073709551616" := by
    rcases hwrites with ⟨hwrites, -⟩ | hwrites
    · rw [htexts] at hwrites
      simp at hwrites
    · rw [htexts] at hwrites
      simp only [List.cons.injEq] at hwrites
      exact hwrites.2.2.2.1.symm
  refine ⟨hok, site, hwithin, hkind, lower, upper, hwrites, hupper, ?_, hopen⟩
  refine (hunbounded.mp hopen).resolve_left ?_
  rintro rfl
  exact absurd hupper (by decide)

end Ili
