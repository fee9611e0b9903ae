import Ili.Proofs.Catalog.Siblings

/-!
# Enumerations and their values

The type of a domain or an attribute holds the values of an enumeration as a tree, and the catalog
holds them once more as definitions below it. Both trees are the same: a value and the definition
that stands for it have the same name, and what is below them comes in the same order, whether or
not it is found by name.
-/

namespace Ili

open EnumValue

namespace Catalog

def outlines (catalog : Catalog) : List Outline :=
  catalog.definitions.toList.map Definition.outline

def below (catalog : Catalog) (id : Nat) : List Nat :=
  (catalog.definitions.toList.zipIdx.filter fun entry => entry.1.parent == some id).map Prod.snd

/-- The definitions with these numbers stand for the values: they have the same names, and what is
below them stands for the values below. -/
inductive Mirrors (catalog : Catalog) : List EnumValue → List Nat → Prop
  | nil : Mirrors catalog [] []
  | cons {name : String} {isFinal : Bool} {children rest : List EnumValue} {id : Nat}
      {ids : List Nat} {definition : Definition}
      (hfound : catalog.definition? id = some definition) (hkind : definition.kind = .enumValue)
      (hname : definition.name = name) (hbelow : Mirrors catalog children (catalog.below id))
      (hrest : Mirrors catalog rest ids) :
      Mirrors catalog (.mk name isFinal children :: rest) (id :: ids)

def isChildless (catalog : Catalog) (id : Nat) : Bool :=
  (catalog.below id).isEmpty

/-- The values of enumerations below a definition, however deep, in order. -/
def valuesBelow (catalog : Catalog) (id : Nat) : List Nat :=
  (List.range catalog.definitions.size).filter fun index =>
    (catalog.definition? index).any (fun definition => definition.kind == .enumValue) &&
      (catalog.chain index).contains id

/-- Those of the values below a definition that have nothing below them. -/
def leavesBelow (catalog : Catalog) (id : Nat) : List Nat :=
  (catalog.valuesBelow id).filter catalog.isChildless

end Catalog

/-! ### Below in a row of outlines -/

/-- The numbers of what stands directly below a definition in a row numbered from `first` on. -/
def numbersBelow (first : Nat) (rows : List Outline) (id : Nat) : List Nat :=
  ((rows.zipIdx first).filter fun entry => entry.1.2.1 == some id).map Prod.snd

theorem Catalog.below_eq (catalog : Catalog) (id : Nat) :
    catalog.below id = numbersBelow 0 catalog.outlines id := by
  rw [below, numbersBelow, outlines, List.zipIdx_map, List.filter_map, List.map_map]
  rfl

theorem Catalog.getElem?_outlines (catalog : Catalog) (index : Nat) :
    catalog.outlines[index]? = (catalog.definition? index).map Definition.outline := by
  rw [outlines, List.getElem?_map, Array.getElem?_toList]
  rfl

section Rows

variable {first parent id : Nat} {rows more : List Outline} {row : Outline}

theorem numbersBelow_append :
    numbersBelow first (rows ++ more) id =
      numbersBelow first rows id ++ numbersBelow (first + rows.length) more id := by
  rw [numbersBelow, List.zipIdx_append, List.filter_append, List.map_append]
  rfl

theorem numbersBelow_of_none (h : ∀ row ∈ rows, row.2.1 ≠ some id) :
    numbersBelow first rows id = [] := by
  rw [numbersBelow, List.map_eq_nil_iff, List.filter_eq_nil_iff]
  intro entry hentry
  rw [beq_iff_eq]
  exact h entry.1 (List.fst_mem_of_mem_zipIdx hentry)

theorem numbersBelow_cons_of_ne (h : row.2.1 ≠ some id) :
    numbersBelow first (row :: rows) id = numbersBelow (first + 1) rows id := by
  rw [numbersBelow, List.zipIdx_cons, List.filter_cons_of_neg (by simpa using h)]
  rfl

theorem numbersBelow_cons_of_eq (h : row.2.1 = some id) :
    numbersBelow first (row :: rows) id = first :: numbersBelow (first + 1) rows id := by
  rw [numbersBelow, List.zipIdx_cons, List.filter_cons_of_pos (by simpa using h), List.map_cons]
  rfl

end Rows

theorem filter_range_eq_range' {p : Nat → Bool} {first count size : Nat}
    (hsize : first + count ≤ size)
    (hp : ∀ index < size, p index = true ↔ first ≤ index ∧ index < first + count) :
    (List.range size).filter p = List.range' first count := by
  obtain ⟨rest, rfl⟩ := Nat.exists_eq_add_of_le hsize
  have hsplit : List.range (first + count + rest) =
      List.range' 0 first ++ (List.range' first count ++ List.range' (first + count) rest) := by
    have hwhole : List.range' 0 first ++ List.range' (0 + first) (count + rest) =
        List.range' 0 (first + (count + rest)) := List.range'_append_1
    rw [List.range'_append_1, List.range_eq_range', Nat.add_assoc, ← hwhole, Nat.zero_add]
  have houtside {start length : Nat} (hlt : start + length ≤ first + count + rest)
      (hout : start + length ≤ first ∨ first + count ≤ start) :
      (List.range' start length).filter p = [] := by
    rw [List.filter_eq_nil_iff]
    intro index hindex
    rw [List.mem_range'_1] at hindex
    rw [hp index (by omega)]
    omega
  have hinside : (List.range' first count).filter p = List.range' first count := by
    rw [List.filter_eq_self]
    intro index hindex
    rw [List.mem_range'_1] at hindex
    exact (hp index (by omega)).mpr hindex
  rw [hsplit, List.filter_append, List.filter_append, houtside (by omega) (by omega), hinside,
    houtside (by omega) (by omega), List.nil_append, List.append_nil]

namespace EnumValue

/-- The numbers of the values that are not below others, where the first one has the number
`first`. -/
def heads (first : Nat) : List EnumValue → List Nat
  | [] => []
  | mk _ _ children :: rest => first :: heads (first + 1 + countOf children) rest

variable {parent first id : Nat} {values : List EnumValue}

theorem numbersBelow_outlineOf_of_outside (hne : id ≠ parent)
    (hout : id < first ∨ first + countOf values ≤ id) :
    numbersBelow first (outlineOf parent first values) id = [] := by
  apply numbersBelow_of_none
  intro row hrow
  obtain ⟨index, hindex⟩ := List.mem_iff_getElem?.mp hrow
  have hlt : index < countOf values := by
    rw [← length_outlineOf parent first values]
    exact (List.getElem?_eq_some_iff.mp hindex).1
  rcases (parent_of_outlineOf hindex).2 with hparent | ⟨above, hparent, hle, habove⟩
  · rw [hparent]
    exact fun heq => hne (Option.some.inj heq).symm
  · rw [hparent]
    intro heq
    obtain rfl := Option.some.inj heq
    omega

theorem numbersBelow_outlineOf (hlt : parent < first) :
    numbersBelow first (outlineOf parent first values) parent = heads first values := by
  induction parent, first, values using outlineOf.induct with
  | case1 parent first =>
    rw [outlineOf, heads]
    rfl
  | case2 parent first name isFinal children rest ih ih' =>
    have hbelow : numbersBelow (first + 1) (outlineOf first (first + 1) children) parent = [] :=
      numbersBelow_outlineOf_of_outside (Nat.ne_of_lt hlt) (.inl (by omega))
    have hlength : first + 1 + (outlineOf first (first + 1) children).length =
        first + 1 + countOf children := by rw [length_outlineOf]
    rw [outlineOf, heads, List.cons_append, numbersBelow_cons_of_eq rfl, numbersBelow_append,
      hbelow, List.nil_append, hlength, ih' (by omega)]

theorem numbersBelow_outlineOf_cons {name : String} {isFinal : Bool}
    {children rest : List EnumValue} (hne : parent ≠ id) :
    numbersBelow first (outlineOf parent first (mk name isFinal children :: rest)) id =
      numbersBelow (first + 1) (outlineOf first (first + 1) children) id ++
        numbersBelow (first + 1 + countOf children)
          (outlineOf parent (first + 1 + countOf children) rest) id := by
  rw [outlineOf, List.cons_append, numbersBelow_cons_of_ne (fun heq => hne (Option.some.inj heq)),
    numbersBelow_append, length_outlineOf]

theorem heads_ne_nil (h : values ≠ []) : heads first values ≠ [] := by
  obtain ⟨⟨name, isFinal, children⟩, rest, rfl⟩ := List.exists_cons_of_ne_nil h
  rw [heads]
  exact List.cons_ne_nil _ _

theorem leaves_of_ne_nil {name : String} {isFinal : Bool} {children : List EnumValue}
    (h : children ≠ []) :
    leaves (mk name isFinal children) =
      (leavesOf children).map fun leaf => name ++ "." ++ leaf := by
  obtain ⟨child, rest, rfl⟩ := List.exists_cons_of_ne_nil h
  rw [leaves, leavesOf]

theorem range'_countOf_cons {name : String} {isFinal : Bool} {children rest : List EnumValue} :
    List.range' first (countOf (mk name isFinal children :: rest)) =
      first :: List.range' (first + 1) (countOf children) ++
        List.range' (first + 1 + countOf children) (countOf rest) := by
  rw [countOf, List.cons_append, List.range'_append_1, ← List.range'_succ]
  congr 1
  omega

end EnumValue

namespace Catalog

open EnumValue

/-- From the number `first` on the catalog holds the values as definitions, and below each of them
there is nothing but values below it. -/
structure Spelled (catalog : Catalog) (parent first : Nat) (values : List EnumValue) : Prop where
  found : ∀ {index : Nat} {row : Outline}, (outlineOf parent first values)[index]? = some row →
    ∃ definition, catalog.definition? (first + index) = some definition ∧ definition.outline = row
  below : ∀ {id : Nat}, first ≤ id → id < first + countOf values →
    catalog.below id = numbersBelow first (outlineOf parent first values) id

namespace Spelled

variable {catalog : Catalog} {parent first : Nat} {name : String} {isFinal : Bool}
  {values children rest : List EnumValue}

theorem first_found (h : catalog.Spelled parent first (.mk name isFinal children :: rest)) :
    ∃ definition, catalog.definition? first = some definition ∧
      definition.outline = (name, some parent, .enumValue) := by
  have hrow : (outlineOf parent first (.mk name isFinal children :: rest))[0]? =
      some (name, some parent, .enumValue) := by
    rw [outlineOf]
    rfl
  exact h.found hrow

theorem below_first (h : catalog.Spelled parent first (.mk name isFinal children :: rest))
    (hlt : parent < first) : catalog.below first = heads (first + 1) children := by
  have hbehind : numbersBelow (first + 1 + countOf children)
      (outlineOf parent (first + 1 + countOf children) rest) first = [] :=
    numbersBelow_outlineOf_of_outside (Nat.ne_of_gt hlt) (.inl (by omega))
  rw [h.below (Nat.le_refl first) (by rw [countOf]; omega),
    numbersBelow_outlineOf_cons (Nat.ne_of_lt hlt), numbersBelow_outlineOf (Nat.lt_succ_self first),
    hbehind, List.append_nil]

theorem inner (h : catalog.Spelled parent first (.mk name isFinal children :: rest))
    (hlt : parent < first) : catalog.Spelled first (first + 1) children where
  found {index row} hrow := by
    have hindex : (outlineOf parent first (.mk name isFinal children :: rest))[index + 1]? =
        some row := by
      rw [outlineOf, List.cons_append, List.getElem?_cons_succ,
        List.getElem?_append_left (List.getElem?_eq_some_iff.mp hrow).1, hrow]
    obtain ⟨definition, hfound, houtline⟩ := h.found hindex
    exact ⟨definition, by rwa [Nat.add_assoc, Nat.add_comm 1], houtline⟩
  below {id} hle hid := by
    have hbehind : numbersBelow (first + 1 + countOf children)
        (outlineOf parent (first + 1 + countOf children) rest) id = [] :=
      numbersBelow_outlineOf_of_outside (by omega) (.inl hid)
    rw [h.below (by omega) (by rw [countOf]; omega), numbersBelow_outlineOf_cons (by omega),
      hbehind, List.append_nil]

theorem behind (h : catalog.Spelled parent first (.mk name isFinal children :: rest))
    (hlt : parent < first) :
    catalog.Spelled parent (first + 1 + countOf children) rest where
  found {index row} hrow := by
    have hindex : (outlineOf parent first (.mk name isFinal children :: rest))[
        countOf children + index + 1]? = some row := by
      rw [outlineOf, List.cons_append, List.getElem?_cons_succ,
        List.getElem?_append_right (by rw [length_outlineOf]; omega), length_outlineOf,
        Nat.add_sub_cancel_left, hrow]
    obtain ⟨definition, hfound, houtline⟩ := h.found hindex
    refine ⟨definition, ?_, houtline⟩
    rwa [show first + 1 + countOf children + index = first + (countOf children + index + 1) by
      omega]
  below {id} hle hid := by
    have hbefore : numbersBelow (first + 1) (outlineOf first (first + 1) children) id = [] :=
      numbersBelow_outlineOf_of_outside (by omega) (.inr hle)
    rw [h.below (by omega) (by rw [countOf]; omega), numbersBelow_outlineOf_cons (by omega),
      hbefore, List.nil_append]

/-- The two trees of an enumeration are the same. -/
theorem mirrors (h : catalog.Spelled parent first values) (hlt : parent < first) :
    catalog.Mirrors values (heads first values) := by
  induction parent, first, values using outlineOf.induct with
  | case1 =>
    rw [heads]
    exact .nil
  | case2 parent first name isFinal children rest ih ih' =>
    obtain ⟨definition, hfound, houtline⟩ := h.first_found
    obtain ⟨hname, hrow⟩ := Prod.mk.inj houtline
    have hkind : definition.kind = .enumValue := (Prod.mk.inj hrow).2
    have hbelow : catalog.Mirrors children (catalog.below first) := by
      rw [h.below_first hlt]
      exact ih (h.inner hlt) (Nat.lt_succ_self first)
    rw [heads]
    exact .cons hfound hkind hname hbelow (ih' (h.behind hlt) (by omega))

/-- The dotted paths of the leaves, behind the path of the owner, are the paths of the definitions
that stand for values and have nothing below them. -/
theorem map_leavesOf (h : catalog.Spelled parent first values) (hlt : parent < first)
    {path : Nat → String}
    (hpath : ∀ {index above : Nat} {definition : Definition},
      catalog.definition? index = some definition → definition.parent = some above →
      path index = path above ++ "." ++ definition.name) :
    (leavesOf values).map (fun leaf => path parent ++ "." ++ leaf) =
      ((List.range' first (countOf values)).filter catalog.isChildless).map path := by
  induction parent, first, values using outlineOf.induct with
  | case1 parent first =>
    rw [leavesOf, countOf]
    rfl
  | case2 parent first name isFinal children rest ih ih' =>
    obtain ⟨definition, hfound, houtline⟩ := h.first_found
    obtain ⟨hname, hrow⟩ := Prod.mk.inj houtline
    have hfirst : path first = path parent ++ "." ++ name := by
      rw [hpath hfound (Prod.mk.inj hrow).1, hname]
    have hchildren := ih (h.inner hlt) (Nat.lt_succ_self first)
    have hrest := ih' (h.behind hlt) (by omega)
    rw [leavesOf, range'_countOf_cons, List.map_append, List.filter_append, List.map_append, hrest]
    congr 1
    -- A value with none below it is a leaf itself; otherwise its name goes in front of theirs.
    by_cases hempty : children = []
    · have hchildless : catalog.isChildless first = true := by
        rw [isChildless, h.below_first hlt, hempty, heads]
        rfl
      rw [hempty, leaves, countOf, List.filter_cons_of_pos hchildless, List.map_singleton, ← hfirst]
      rfl
    · have hchildless : ¬catalog.isChildless first = true := by
        rw [isChildless, h.below_first hlt, List.isEmpty_iff]
        exact heads_ne_nil hempty
      rw [leaves_of_ne_nil hempty, List.filter_cons_of_neg hchildless, ← hchildren, List.map_map]
      apply List.map_congr_left
      intro leaf _
      simp only [Function.comp_apply, hfirst, String.append_assoc]

end Spelled

/-! ### The values behind their owner -/

section Behind

variable {catalog : Catalog} {owner id index : Nat} {values : List EnumValue}
  {definition : Definition}

theorem length_take_outlines (howner : owner < catalog.definitions.size) :
    (catalog.outlines.take (owner + 1)).length = owner + 1 := by
  rw [List.length_take, outlines, List.length_map, Array.length_toList]
  exact Nat.min_eq_left howner

theorem Rooted.parent_ne_of_mem_take (hrooted : catalog.Rooted) (hid : owner ≤ id) :
    ∀ row ∈ catalog.outlines.take (owner + 1), row.2.1 ≠ some id := by
  intro row hrow hparent
  obtain ⟨index, hindex⟩ := List.mem_iff_getElem?.mp hrow
  have hlt : index < owner + 1 := by
    by_contra hle
    rw [List.getElem?_take_eq_none (Nat.le_of_not_lt hle)] at hindex
    cases hindex
  rw [List.getElem?_take_of_lt hlt, getElem?_outlines, Option.map_eq_some_iff] at hindex
  obtain ⟨definition, hfound, rfl⟩ := hindex
  have hbefore : id < index := hrooted.parent_lt hfound hparent
  omega

variable (hrooted : catalog.Rooted) (howner : owner < catalog.definitions.size)
  (h : SpellsBehind owner values (catalog.outlines.drop (owner + 1)))

include h

theorem found_of_spellsBehind {row : Outline}
    (hrow : (outlineOf owner (owner + 1) values)[index]? = some row) :
    ∃ definition, catalog.definition? (owner + 1 + index) = some definition ∧
      definition.outline = row := by
  obtain ⟨later, hbehind, -⟩ := h
  have hindex : catalog.outlines[owner + 1 + index]? = some row := by
    rw [← List.getElem?_drop, hbehind,
      List.getElem?_append_left (List.getElem?_eq_some_iff.mp hrow).1, hrow]
  rw [getElem?_outlines, Option.map_eq_some_iff] at hindex
  exact hindex

theorem parent_of_spellsBehind (hle : owner + 1 + countOf values ≤ index)
    (hfound : catalog.definition? index = some definition) :
    ∀ parent ∈ definition.parent, parent < owner ∨ owner + 1 + countOf values ≤ parent := by
  obtain ⟨later, hbehind, hlater⟩ := h
  refine hlater definition.outline ?_
  have hindex : (catalog.outlines.drop (owner + 1))[index - (owner + 1)]? =
      some definition.outline := by
    rw [List.getElem?_drop, Nat.add_sub_cancel' (by omega), getElem?_outlines, hfound]
    rfl
  rw [hbehind, List.getElem?_append_right (by rw [length_outlineOf]; omega)] at hindex
  exact List.mem_of_getElem? hindex

include hrooted howner

theorem below_of_spellsBehind (hle : owner ≤ id) (hid : id < owner + 1 + countOf values) :
    catalog.below id = numbersBelow (owner + 1) (outlineOf owner (owner + 1) values) id := by
  obtain ⟨later, hbehind, hlater⟩ := h
  have hbefore : numbersBelow 0 (catalog.outlines.take (owner + 1)) id = [] :=
    numbersBelow_of_none (hrooted.parent_ne_of_mem_take hle)
  have hafter (first : Nat) : numbersBelow first later id = [] := by
    apply numbersBelow_of_none
    intro row hrow hparent
    have hout := hlater row hrow id hparent
    omega
  rw [below_eq, ← List.take_append_drop (owner + 1) catalog.outlines, numbersBelow_append,
    hbefore, List.nil_append, length_take_outlines howner, hbehind, numbersBelow_append, hafter,
    List.append_nil, Nat.zero_add]

theorem spelled_of_spellsBehind : catalog.Spelled owner (owner + 1) values where
  found hrow := found_of_spellsBehind h hrow
  below hle hid := below_of_spellsBehind hrooted howner h (by omega) hid

theorem below_owner_of_spellsBehind : catalog.below owner = heads (owner + 1) values := by
  rw [below_of_spellsBehind hrooted howner h (Nat.le_refl owner) (by omega),
    numbersBelow_outlineOf (Nat.lt_succ_self owner)]

omit hrooted howner

theorem value_of_spellsBehind (hle : owner + 1 ≤ index)
    (hlt : index < owner + 1 + countOf values) :
    ∃ definition, catalog.definition? index = some definition ∧ definition.kind = .enumValue ∧
      ∃ parent, definition.parent = some parent ∧ owner ≤ parent ∧ parent < index := by
  have hin : index - (owner + 1) < (outlineOf owner (owner + 1) values).length := by
    rw [length_outlineOf]
    omega
  have hrow := List.getElem?_eq_getElem hin
  obtain ⟨definition, hfound, houtline⟩ := found_of_spellsBehind h hrow
  obtain ⟨hkind, hparent⟩ := parent_of_outlineOf hrow
  rw [Nat.add_sub_cancel' hle] at hfound hparent
  rw [← houtline] at hkind hparent
  refine ⟨definition, hfound, hkind, ?_⟩
  rcases hparent with hparent | ⟨above, hparent, habove, hbefore⟩
  · exact ⟨owner, hparent, Nat.le_refl _, hle⟩
  · exact ⟨above, hparent, by omega, hbefore⟩

include hrooted

theorem mem_chain_of_spellsBehind (hle : owner + 1 ≤ index)
    (hlt : index < owner + 1 + countOf values) : owner ∈ catalog.chain index := by
  induction index using Nat.strongRecOn with
  | ind index ih =>
    obtain ⟨definition, hfound, -, parent, hparent, habove, hbefore⟩ :=
      value_of_spellsBehind h hle hlt
    rw [hrooted.chain_of_parent hfound hparent]
    apply List.mem_cons_of_mem
    rcases Nat.eq_or_lt_of_le habove with rfl | habove
    · rw [hrooted.chain_eq]
      exact List.mem_cons_self
    · exact ih parent hbefore habove (by omega)

theorem notMem_chain_of_spellsBehind (hle : owner + 1 + countOf values ≤ index) :
    owner ∉ catalog.chain index := by
  induction index using Nat.strongRecOn with
  | ind index ih =>
    intro hmem
    rw [hrooted.chain_eq, List.mem_cons] at hmem
    rcases hmem with rfl | hmem
    · omega
    · cases hparent : (catalog.definition? index).bind Definition.parent with
      | none =>
        rw [hparent] at hmem
        cases hmem
      | some parent =>
        rw [hparent] at hmem
        obtain ⟨definition, hfound, habove⟩ := Option.bind_eq_some_iff.mp hparent
        -- It stands below what is older than the owner, or below what was noted later too.
        rcases parent_of_spellsBehind h hle hfound parent habove with hbefore | hbehind
        · exact absurd (hrooted.le_of_mem_chain hmem) (by omega)
        · exact ih parent (hrooted.parent_lt hfound habove) hbehind hmem

theorem valuesBelow_of_spellsBehind (hfound : catalog.definition? owner = some definition)
    (hkind : definition.kind ≠ .enumValue) :
    catalog.valuesBelow owner = List.range' (owner + 1) (countOf values) := by
  have hsize : owner + 1 + countOf values ≤ catalog.definitions.size := by
    have hle := h.countOf_le
    have howner : owner < catalog.definitions.size := (Array.getElem?_eq_some_iff.mp hfound).1
    rw [List.length_drop, outlines, List.length_map, Array.length_toList] at hle
    omega
  rw [valuesBelow]
  apply filter_range_eq_range' hsize
  intro index hindex
  rw [Bool.and_eq_true, List.contains_iff_mem]
  constructor
  · rintro ⟨hvalue, hmem⟩
    have hle : owner ≤ index := hrooted.le_of_mem_chain hmem
    have hne : index ≠ owner := by
      rintro rfl
      rw [hfound, Option.any_some, beq_iff_eq] at hvalue
      exact hkind hvalue
    have hlt : index < owner + 1 + countOf values := by
      by_contra hout
      exact notMem_chain_of_spellsBehind hrooted h (Nat.le_of_not_lt hout) hmem
    exact ⟨by omega, hlt⟩
  · rintro ⟨hle, hlt⟩
    obtain ⟨value, hvalue, hkind, -⟩ := value_of_spellsBehind h hle hlt
    refine ⟨?_, mem_chain_of_spellsBehind hrooted h hle hlt⟩
    rw [hvalue, Option.any_some, beq_iff_eq]
    exact hkind

end Behind

/-! ### In the catalog of a text -/

section OfText

variable {text : String} {uri : Option String} {owner : Nat} {definition : Definition}
  {values : List EnumValue} {isFinal : Bool}

theorem spellsBehind_ofText (hfound : (ofText text uri).definition? owner = some definition)
    (htype : definition.data.type? = some (.enumeration values isFinal)) :
    SpellsBehind owner values ((ofText text uri).outlines.drop (owner + 1)) := by
  obtain ⟨file, noted, -, hportion, hdefinition⟩ := exists_portion_ofText text uri
  have houtlines : (ofText text uri).outlines = noted.map fun entry => entry.1.outline := by
    apply List.ext_getElem?
    intro index
    rw [getElem?_outlines, hdefinition, Option.map_map, List.getElem?_map]
    rfl
  rw [hdefinition, Option.map_eq_some_iff] at hfound
  obtain ⟨entry, hentry, rfl⟩ := hfound
  have hspells := hportion.values hentry htype
  rw [Nat.zero_add, List.map_drop, ← houtlines] at hspells
  exact hspells

end OfText

end Catalog

end Ili
