import Ili.Proofs.Catalog.Likeness

/-!
# What is read off places that look alike

Children are chosen by their kind, and blanks and comments are never asked for. Texts are read off
single tokens; only a type that is kept as it is written has the text of a whole node, and meta
attributes are the one thing that is read off comments. If comments are kept, the blanks in the text
are all that may differ.
-/

namespace Ili

def unspaced (text : String) : String :=
  String.ofList (text.toList.filter fun c => !isWhiteSpace c)

theorem flatten_splitWhere (p : Char → Bool) (chars : List Char) :
    (splitWhere p chars).flatten = chars.filter fun c => !p c := by
  induction chars with
  | nil => rfl
  | cons c cs ih =>
    rw [splitWhere]
    by_cases hc : p c = true
    · simp [hc, ih]
    · rw [if_neg hc]
      cases hpieces : splitWhere p cs with
      | nil => rw [hpieces] at ih; simp [hc, ← ih]
      | cons piece pieces => rw [hpieces] at ih; simp [hc, ← ih]

theorem flatten_wordsOf (chars : List Char) :
    (wordsOf chars).flatten = chars.filter fun c => !isWhiteSpace c := by
  rw [← flatten_splitWhere, wordsOf]
  induction splitWhere isWhiteSpace chars with
  | nil => rfl
  | cons piece pieces ih => cases piece <;> simp [ih]

theorem unspaced_collapseBlanks (text : String) :
    unspaced (collapseBlanks text) = unspaced text := by
  have hjoined (words : List (List Char)) :
      (List.intercalate [' '] words).filter (fun c => !isWhiteSpace c) =
        words.flatten.filter fun c => !isWhiteSpace c := by
    induction words with
    | nil => rfl
    | cons word rest ih =>
      cases rest with
      | nil => simp
      | cons next others =>
        have hspace : [' '].filter (fun c => !isWhiteSpace c) = [] := by decide
        rw [List.intercalate_cons_cons, List.filter_append, List.filter_append, ih, hspace,
          List.append_nil]
        simp only [List.flatten_cons, List.filter_append]
  have hwords : ((wordsOf text.toList).map String.ofList).map String.toList =
      wordsOf text.toList := by
    rw [List.map_map]
    exact (List.map_congr_left fun word _ => String.toList_ofList).trans (List.map_id _)
  rw [unspaced, unspaced, collapseBlanks, String.toList_intercalate, hwords]
  refine congrArg String.ofList ((hjoined _).trans ?_)
  rw [flatten_wordsOf, List.filter_filter]
  simp

theorem rel_bind {α β : Type} {R : α → α → Prop} {S : β → β → Prop} {first second : Option α}
    {f g : α → Option β} (h : Option.Rel R first second)
    (hf : ∀ a b, R a b → Option.Rel S (f a) (g b)) :
    Option.Rel S (first.bind f) (second.bind g) := by
  cases h with
  | none => exact .none
  | some h => exact hf _ _ h

theorem map_eq_of_rel {α β : Type} {R : α → α → Prop} {first second : Option α} {f g : α → β}
    (h : Option.Rel R first second) (hf : ∀ a b, R a b → f a = g b) :
    first.map f = second.map g := by
  cases h with
  | none => rfl
  | some h => exact congrArg some (hf _ _ h)

theorem bind_eq_of_rel {α β : Type} {R : α → α → Prop} {first second : Option α}
    {f g : α → Option β} (h : Option.Rel R first second) (hf : ∀ a b, R a b → f a = g b) :
    first.bind f = second.bind g := by
  cases h with
  | none => rfl
  | some h => exact hf _ _ h

theorem rel_map {α β : Type} {R : α → α → Prop} {S : β → β → Prop} {first second : Option α}
    {f g : α → β} (h : Option.Rel R first second) (hf : ∀ a b, R a b → S (f a) (g b)) :
    Option.Rel S (first.map f) (second.map g) := by
  cases h with
  | none => exact .none
  | some h => exact .some (hf _ _ h)

theorem rel_filter {α : Type} {R : α → α → Prop} {first second : Option α} {p : α → Bool}
    (h : Option.Rel R first second) (hp : ∀ a b, R a b → p a = p b) :
    Option.Rel R (first.filter p) (second.filter p) := by
  cases h with
  | none => exact .none
  | @some a b h =>
    rw [Option.filter, Option.filter, hp a b h]
    split
    · exact .some h
    · exact .none

theorem rel_getElem? {α : Type} {R : α → α → Prop} {first second : List α}
    (h : List.Forall₂ R first second) (i : Nat) : Option.Rel R first[i]? second[i]? := by
  induction h generalizing i with
  | nil => exact .none
  | cons hfirst _ ih =>
    cases i with
    | zero => exact .some hfirst
    | succ i => exact ih i

theorem rel_find? {α : Type} {R : α → α → Prop} {first second : List α} {p : α → Bool}
    (h : List.Forall₂ R (first.filter p) (second.filter p)) :
    Option.Rel (fun a b => R a b ∧ p a = true) (first.find? p) (second.find? p) := by
  rw [← List.head?_filter, ← List.head?_filter]
  cases hleft : first.filter p with
  | nil =>
    rw [hleft, List.forall₂_nil_left_iff] at h
    rw [h]
    exact .none
  | cons a rest =>
    rw [hleft, List.forall₂_cons_left_iff] at h
    obtain ⟨b, others, hlike, -, hright⟩ := h
    rw [hright]
    have hmem : a ∈ first.filter p := by rw [hleft]; exact List.mem_cons_self
    exact .some ⟨hlike, (List.mem_filter.mp hmem).2⟩

theorem rel_cases {α : Type} {R : α → α → Prop} {first second : Option α}
    (h : Option.Rel R first second) :
    first = none ∧ second = none ∨ ∃ a b, first = some a ∧ second = some b ∧ R a b := by
  cases h with
  | none => exact .inl ⟨rfl, rfl⟩
  | some h => exact .inr ⟨_, _, rfl, rfl, h⟩

theorem rel_of_map_eq {α β γ : Type} {R : α → β → Prop} {first : Option α} {second : Option β}
    {f : α → γ} {g : β → γ} (h : second.map g = first.map f) (hf : ∀ a b, g b = f a → R a b) :
    Option.Rel R first second := by
  cases first with
  | none =>
    rw [Option.map_none, Option.map_eq_none_iff] at h
    rw [h]
    exact .none
  | some a =>
    obtain ⟨b, rfl, hsame⟩ := Option.map_eq_some_iff.mp h
    exact .some (hf a b hsame)

theorem isSome_eq_of_rel {α : Type} {R : α → α → Prop} {first second : Option α}
    (h : Option.Rel R first second) : first.isSome = second.isSome := by
  cases h <;> rfl

theorem map_eq_of_forall₂ {α β : Type} {R : α → α → Prop} {first second : List α} {f g : α → β}
    (h : List.Forall₂ R first second) (hf : ∀ a b, R a b → f a = g b) :
    first.map f = second.map g := by
  induction h with
  | nil => rfl
  | cons hfirst _ ih => rw [List.map_cons, List.map_cons, hf _ _ hfirst, ih]

theorem forall_mem_of_forall₂ {α β : Type} {R : α → β → Prop} {p : α → Prop} {first : List α}
    {second : List β} (h : List.Forall₂ R first second) (hp : ∀ a b, R a b → p a) :
    ∀ a ∈ first, p a := by
  induction h with
  | nil => nofun
  | cons hfirst _ ih => exact List.forall_mem_cons.mpr ⟨hp _ _ hfirst, ih⟩

theorem filterMap_eq_of_forall₂ {α β : Type} {R : α → α → Prop} {first second : List α}
    {f g : α → Option β} (h : List.Forall₂ R first second) (hf : ∀ a b, R a b → f a = g b) :
    first.filterMap f = second.filterMap g := by
  induction h with
  | nil => rfl
  | cons hfirst _ ih => rw [List.filterMap_cons, List.filterMap_cons, hf _ _ hfirst, ih]

def Kind.isDeclaration : Kind → Bool
  | .topic | .classDef | .association | .domainSection | .unitSection => true
  | _ => false

namespace Tree

def isDeclaration : Tree → Bool
  | token _ => false
  | node kind _ => kind.isDeclaration

theorem isDeclaration_bare (keep : Kind → Bool) (tree : Tree) :
    (tree.bare keep id).isDeclaration = tree.isDeclaration := by
  cases tree <;> rfl

end Tree

namespace Site

variable {keep : Kind → Bool} {site other : Site}

/-- A question about places that blanks and comments do not answer and alike places answer alike. -/
structure Asks (keep : Kind → Bool) (p : Site → Bool) : Prop where
  congr : ∀ site other : Site, site.Alike keep other → p site = p other
  solid : ∀ site : Site, p site = true → site.isSolid keep = true

theorem Alike.kind_eq (h : site.Alike keep other) : site.kind = other.kind := by
  rw [kind, kind, ← Tree.kind_bare keep, h.tree, Tree.kind_bare]

theorem isSolid_of_visible (h : site.kind.isTrivia = false) : site.isSolid keep = true := by
  have hkept : site.tree.isDropped keep = false := by
    cases htree : site.tree with
    | token t =>
      rw [kind, htree] at h
      exact Kind.isDropped_of_visible h
    | node kind children => rfl
  rw [isSolid, hkept]
  rfl

theorem asks_kind {q : Kind → Bool} (hq : ∀ kind, q kind = true → kind.isTrivia = false) :
    Asks keep fun site => q site.kind where
  congr _ _ h := congrArg q h.kind_eq
  solid _ h := isSolid_of_visible (hq _ h)

theorem asks_beq {kind : Kind} (hkind : kind.isTrivia = false) :
    Asks keep fun site => site.kind == kind :=
  asks_kind (q := fun k => k == kind) fun _ heq => beq_iff_eq.mp heq ▸ hkind

theorem isTrivia_of_isType {kind : Kind} (h : kind.isType = true) : kind.isTrivia = false := by
  cases kind <;> first | rfl | cases h

theorem isTrivia_of_isMember {kind : Kind} (h : kind.isMember = true) : kind.isTrivia = false := by
  cases kind <;> first | rfl | cases h

theorem isTrivia_of_isNode {kind : Kind} (h : kind.isNode = true) : kind.isTrivia = false := by
  cases kind <;> first | rfl | cases h

theorem Asks.filter_eq {p : Site → Bool} (hp : Asks keep p) (sites : List Site) :
    sites.filter p = (sites.filter (isSolid keep)).filter p := by
  rw [List.filter_filter]
  apply List.filter_congr
  intro site _
  cases hsite : p site with
  | false => rfl
  | true => rw [hp.solid site hsite, Bool.and_true]

def AlikeFor (keep : Kind → Bool) (asked : Site → Bool) (site other : Site) : Prop :=
  List.Forall₂ (Alike keep) (site.children.filter asked) (other.children.filter asked)

theorem AlikeFor.filter {asked p : Site → Bool} (h : AlikeFor keep asked site other)
    (hp : Asks keep p) (hasked : ∀ child : Site, p child = true → asked child = true) :
    List.Forall₂ (Alike keep) (site.children.filter p) (other.children.filter p) := by
  have hfilter (sites : List Site) : sites.filter p = (sites.filter asked).filter p := by
    rw [List.filter_filter]
    apply List.filter_congr
    intro child _
    cases hchild : p child with
    | false => rfl
    | true => rw [hasked child hchild, Bool.and_true]
  rw [hfilter site.children, hfilter other.children]
  exact List.rel_filter (fun a b hlike => iff_of_eq (congrArg (· = true) (hp.congr a b hlike))) h

theorem Alike.filter (h : site.Alike keep other) {p : Site → Bool} (hp : Asks keep p) :
    List.Forall₂ (Alike keep) (site.children.filter p) (other.children.filter p) :=
  AlikeFor.filter h.solidChildren hp hp.solid

theorem Alike.find? (h : site.Alike keep other) {p : Site → Bool} (hp : Asks keep p) :
    Option.Rel (fun a b => a.Alike keep b ∧ p a = true) (site.children.find? p)
      (other.children.find? p) :=
  rel_find? (h.filter hp)

theorem Alike.any (h : site.Alike keep other) {p : Site → Bool} (hp : Asks keep p) :
    site.children.any p = other.children.any p := by
  have hany (sites : List Site) : sites.any p = (sites.find? p).isSome := by
    rw [Bool.eq_iff_iff, List.any_eq_true, List.find?_isSome]
  rw [hany, hany, isSome_eq_of_rel (h.find? hp)]

theorem AlikeFor.child? {asked : Site → Bool} (h : AlikeFor keep asked site other) {kind : Kind}
    (hkind : kind.isTrivia = false)
    (hasked : ∀ child : Site, child.kind = kind → asked child = true) :
    Option.Rel (fun a b => a.Alike keep b ∧ a.kind = kind) (site.child? kind)
      (other.child? kind) := by
  have hfind := rel_find? <| h.filter (asks_beq hkind) fun child hchild =>
    hasked child (beq_iff_eq.mp hchild)
  simp only [beq_iff_eq] at hfind
  exact hfind

theorem Alike.child? (h : site.Alike keep other) {kind : Kind} (hkind : kind.isTrivia = false) :
    Option.Rel (fun a b => a.Alike keep b ∧ a.kind = kind) (site.child? kind)
      (other.child? kind) :=
  AlikeFor.child? h.solidChildren hkind fun _ heq => isSolid_of_visible (heq ▸ hkind)

theorem Alike.childrenOf (h : site.Alike keep other) {kind : Kind} (hkind : kind.isTrivia = false) :
    List.Forall₂ (Alike keep) (site.childrenOf kind) (other.childrenOf kind) :=
  h.filter (asks_beq hkind)

theorem Alike.has_eq (h : site.Alike keep other) {kind : Kind} (hkind : kind.isTrivia = false) :
    site.has kind = other.has kind :=
  h.any (asks_beq hkind)

theorem Alike.tree_eq (h : site.Alike keep other) (hkind : site.kind.isNode = false) :
    site.tree = other.tree := by
  cases htree : site.tree with
  | token t =>
    have hsolid := h.tree
    rw [htree] at hsolid
    exact (Tree.eq_of_bare_eq_token hsolid.symm).symm
  | node nodeKind children =>
    have hregular := h.neat.regular
    rw [htree] at hregular
    have hnode : site.kind.isNode = true := by
      rw [kind, htree]
      exact hregular.1
    rw [hnode] at hkind
    cases hkind

theorem Alike.text_eq (h : site.Alike keep other) (hkind : site.kind.isNode = false) :
    site.text = other.text :=
  congrArg Tree.text (h.tree_eq hkind)

theorem toList_text (tree : Tree) : tree.text.toList = spelling tree.tokens := by
  cases tree with
  | token t => simp [Tree.text, Tree.tokens, spelling]
  | node kind children =>
    rw [Tree.text, Tree.tokens, String.toList_join, spelling, List.flatMap, List.map_map]
    rfl

theorem filter_spelling_solidTokens {tokens : List Token}
    (h : ∀ t ∈ tokens, t.kind = .whitespace → ∀ c ∈ t.text.toList, isWhiteSpace c = true) :
    (spelling (solidTokens Kind.isComment tokens)).filter (fun c => !isWhiteSpace c) =
      (spelling tokens).filter fun c => !isWhiteSpace c := by
  induction tokens with
  | nil => rfl
  | cons t rest ih =>
    have hrest := ih fun other hother => h other (List.mem_cons_of_mem _ hother)
    rw [solidTokens_cons, spelling_cons, List.filter_append]
    split
    · next hwhite =>
      have hblank : t.text.toList.filter (fun c => !isWhiteSpace c) = [] := by
        rw [List.filter_eq_nil_iff]
        intro c hc
        rw [h t List.mem_cons_self hwhite c hc]
        decide
      rw [hrest, hblank, List.nil_append]
    · rw [spelling_cons, List.filter_append, hrest]

theorem Alike.unspaced_text (h : site.Alike Kind.isComment other) :
    unspaced site.text = unspaced other.text := by
  cases hnode : site.kind.isNode with
  | false => rw [h.text_eq hnode]
  | true =>
    have hnode' : other.kind.isNode = true := by rw [← h.kind_eq, hnode]
    have hsolid {site : Site} (hneat : site.tree.Neat) (hnode : site.kind.isNode = true) :
        (spelling site.tree.tokens).filter (fun c => !isWhiteSpace c) =
          (spelling (site.tree.bare Kind.isComment id).tokens).filter fun c => !isWhiteSpace c := by
      have hdropped : site.tree.isDropped Kind.isComment = false := by
        rw [← Bool.not_eq_true']
        exact isSolid_of_visible (isTrivia_of_isNode hnode)
      rw [Tree.tokens_bare _ _ hdropped, ← filter_spelling_solidTokens hneat.blank]
      exact congrArg _ (congrArg spelling (List.map_id _).symm)
    rw [unspaced, unspaced, text, text, toList_text, toList_text, hsolid h.neat hnode,
      hsolid h.neat_other hnode', h.tree]

/-! ### Visible tokens -/

theorem asks_visible : Asks keep fun c => !c.kind.isTrivia && c.tree matches .token _ where
  congr site other h := by
    have htoken : (site.tree matches .token _) = (other.tree matches .token _) := by
      have hsolid := h.tree
      cases hleft : site.tree with
      | token t =>
        rw [hleft] at hsolid
        rw [Tree.eq_of_bare_eq_token hsolid.symm]
      | node kind children =>
        cases hright : other.tree with
        | token t =>
          rw [hleft, hright] at hsolid
          cases hsolid
        | node kind children => rfl
    rw [h.kind_eq, htoken]
  solid site h := by
    rw [Bool.and_eq_true, Bool.not_eq_true'] at h
    exact isSolid_of_visible h.1

theorem AlikeFor.visibleTokens {asked : Site → Bool} (h : AlikeFor keep asked site other)
    (hasked : ∀ (child : Site) (t : Token), child.tree = .token t → child.kind.isTrivia = false →
      asked child = true) :
    site.visibleTokens.map Site.tree = other.visibleTokens.map Site.tree := by
  have htoken {c : Site} (hmatches : (!c.kind.isTrivia && c.tree matches .token _) = true) :
      c.kind.isTrivia = false ∧ ∃ t, c.tree = .token t := by
    rw [Bool.and_eq_true, Bool.not_eq_true'] at hmatches
    refine ⟨hmatches.1, ?_⟩
    cases htree : c.tree with
    | token t => exact ⟨t, rfl⟩
    | node kind children =>
      rw [htree] at hmatches
      cases hmatches.2
  have hfilter := h.filter asks_visible fun c hc =>
    let ⟨hkind, t, htree⟩ := htoken hc
    hasked c t htree hkind
  refine map_eq_of_forall₂ ((List.forall₂_and_left _ _).mpr
    ⟨fun c hc => (htoken (List.mem_filter.mp hc).2).2, hfilter⟩) ?_
  rintro a b ⟨⟨t, htree⟩, hlike⟩
  have hsolid := hlike.tree
  rw [htree] at hsolid ⊢
  exact (Tree.eq_of_bare_eq_token hsolid.symm).symm

theorem Alike.visibleTokens (h : site.Alike keep other) :
    site.visibleTokens.map Site.tree = other.visibleTokens.map Site.tree :=
  AlikeFor.visibleTokens h.solidChildren fun _ _ _ hkind => isSolid_of_visible hkind

theorem Alike.texts_eq (h : site.Alike keep other) (q : Kind → Bool) :
    (site.visibleTokens.filter fun c => q c.kind).map text =
      (other.visibleTokens.filter fun c => q c.kind).map text := by
  have htexts (site : Site) : (site.visibleTokens.filter fun c => q c.kind).map text =
      ((site.visibleTokens.map Site.tree).filter fun tree => q tree.kind).map Tree.text := by
    rw [List.filter_map, List.map_map]
    rfl
  rw [htexts, htexts, h.visibleTokens]

theorem Alike.firstKind_eq (h : site.Alike keep other) (q : Kind → Bool) :
    (site.visibleTokens.find? fun c => q c.kind).map kind =
      (other.visibleTokens.find? fun c => q c.kind).map kind := by
  have hfirst (site : Site) : (site.visibleTokens.find? fun c => q c.kind).map kind =
      ((site.visibleTokens.map Site.tree).find? fun tree => q tree.kind).map Tree.kind := by
    rw [List.find?_map, Option.map_map]
    rfl
  rw [hfirst, hfirst, h.visibleTokens]

theorem tokenBehind?_eq
    (h : site.visibleTokens.map Site.tree = other.visibleTokens.map Site.tree)
    (kind wanted : Kind) :
    (site.tokenBehind? kind wanted).map text = (other.tokenBehind? kind wanted).map text := by
  have hbehind (site : Site) : (site.tokenBehind? kind wanted).map text =
      (((((site.visibleTokens.map Site.tree).dropWhile
        fun tree => tree.kind != kind).drop 1).head?.filter
        fun tree => tree.kind == wanted)).map Tree.text := by
    rw [tokenBehind?, List.dropWhile_map, ← List.map_drop, List.head?_map, Option.filter_map,
      Option.map_map]
    rfl
  rw [hbehind, hbehind, h]

theorem Alike.segments_eq (h : site.Alike keep other) : site.segments = other.segments :=
  h.texts_eq fun kind => kind != .dot

theorem Alike.words_eq (h : site.Alike keep other) : site.words = other.words :=
  h.texts_eq fun kind => kind.isKeyword || kind == .ident

theorem Alike.cardinality_eq (h : site.Alike keep other) :
    site.cardinality = other.cardinality := by
  have hbounds (site : Site) :
      ((site.visibleTokens.filter fun c => c.kind == .integer || c.kind == .star).map
        fun c => parseNumber? c.text) =
      ((site.visibleTokens.filter fun c => c.kind == .integer || c.kind == .star).map text).map
        parseNumber? := by
    rw [List.map_map]
    rfl
  rw [cardinality, cardinality, hbounds site, hbounds other,
    h.texts_eq fun kind => kind == .integer || kind == .star]

theorem Alike.numericBounds_eq (h : site.Alike keep other) :
    site.numericBounds = other.numericBounds := by
  obtain ⟨step, hbounds⟩ : ∃ step : List String × String → Tree → List String × String,
      ∀ site : Site, site.numericBounds =
        ((site.visibleTokens.map Site.tree).foldl step ([], "")).1 := by
    refine ⟨fun read tree =>
      if tree.kind == .minus then (read.1, "-")
      else if tree.kind == .integer || tree.kind == .decimal then
        (read.1 ++ [read.2 ++ tree.text], "")
      else read, fun site => ?_⟩
    rw [List.foldl_map]
    rfl
  rw [hbounds, hbounds, h.visibleTokens]

theorem Alike.textKind_eq (h : site.Alike keep other) : site.textKind = other.textKind := by
  rw [textKind, textKind, h.firstKind_eq fun kind => kind.isKeyword]

theorem Alike.roleKind_eq (h : site.Alike keep other) : site.roleKind = other.roleKind := by
  rw [roleKind, roleKind, h.firstKind_eq fun kind => Grammar.roleOperators.contains kind]

/-! ### Children -/

theorem Alike.cardinality?_eq (h : site.Alike keep other) :
    site.cardinality? = other.cardinality? :=
  map_eq_of_rel (h.child? (by decide)) fun _ _ hlike => hlike.1.cardinality_eq

theorem Alike.properties?_eq (h : site.Alike keep other) : site.properties? = other.properties? :=
  map_eq_of_rel (h.child? (by decide)) fun _ _ hlike => hlike.1.words_eq

theorem Alike.hasProperty_eq (h : site.Alike keep other) (word : String) :
    site.hasProperty word = other.hasProperty word := by
  rw [hasProperty, hasProperty, h.properties?_eq]

theorem modifiers_eq (h : site.properties? = other.properties?) :
    site.modifiers = other.modifiers := by
  simp only [modifiers, hasProperty, h]

theorem Alike.modifiers_eq (h : site.Alike keep other) : site.modifiers = other.modifiers :=
  Site.modifiers_eq h.properties?_eq

theorem Alike.anyProperty_eq (h : site.Alike keep other) (word : String) :
    site.anyProperty word = other.anyProperty word := by
  have hany (site : Site) : site.anyProperty word =
      ((site.childrenOf .properties).map words).any fun words => words.contains word := by
    rw [List.any_map]
    rfl
  rw [hany, hany, map_eq_of_forall₂ (h.childrenOf (by decide)) fun _ _ hlike => hlike.words_eq]

theorem AlikeFor.grandchild? {asked : Site → Bool} (h : AlikeFor keep asked site other)
    {first second : Kind} (hfirst : first.isTrivia = false) (hsecond : second.isTrivia = false)
    (hasked : ∀ child : Site, child.kind = first → asked child = true) :
    Option.Rel (fun a b => a.Alike keep b ∧ a.kind = second)
      ((site.child? first).bind fun c => c.child? second)
      ((other.child? first).bind fun c => c.child? second) :=
  rel_bind (h.child? hfirst hasked) fun _ _ hlike => hlike.1.child? hsecond

theorem Alike.grandchild? (h : site.Alike keep other) {first second : Kind}
    (hfirst : first.isTrivia = false) (hsecond : second.isTrivia = false) :
    Option.Rel (fun a b => a.Alike keep b ∧ a.kind = second)
      ((site.child? first).bind fun c => c.child? second)
      ((other.child? first).bind fun c => c.child? second) :=
  rel_bind (h.child? hfirst) fun _ _ hlike => hlike.1.child? hsecond

theorem Alike.nameToken? (h : site.Alike keep other) :
    Option.Rel (fun a b => a.Alike keep b ∧ a.kind = .ident) site.nameToken? other.nameToken? :=
  h.grandchild? (by decide) (by decide)

theorem Alike.name?_eq (h : site.Alike keep other) : site.name? = other.name? :=
  map_eq_of_rel h.nameToken? fun _ _ hlike => hlike.1.text_eq (by rw [hlike.2]; decide)

theorem Alike.extended? (h : site.Alike keep other) :
    Option.Rel (fun a b => a.Alike keep b ∧ a.kind = .path) site.extended? other.extended? :=
  h.grandchild? (by decide) (by decide)

theorem Alike.type? (h : site.Alike keep other) :
    Option.Rel (fun a b => a.Alike keep b ∧ a.kind.isType = true) site.type? other.type? :=
  h.find? (asks_kind (q := Kind.isType) fun _ => isTrivia_of_isType)

theorem Alike.members (h : site.Alike keep other) :
    List.Forall₂ (Alike keep) site.members other.members :=
  h.filter (asks_kind (q := Kind.isMember) fun _ => isTrivia_of_isMember)

theorem Alike.isUnqualified_eq (h : site.Alike keep other) :
    site.isUnqualified = other.isUnqualified :=
  h.has_eq (by decide)

theorem language?_eq
    (h : site.visibleTokens.map Site.tree = other.visibleTokens.map Site.tree) :
    site.language? = other.language? :=
  tokenBehind?_eq h .lParen .ident

theorem stringBehind?_eq
    (h : site.visibleTokens.map Site.tree = other.visibleTokens.map Site.tree) (keyword : Kind) :
    site.stringBehind? keyword = other.stringBehind? keyword := by
  have hstring (site : Site) : site.stringBehind? keyword =
      ((site.tokenBehind? keyword .string).map text).map
        fun text => String.ofList (unquote text.toList) := by
    rw [Option.map_map]
    rfl
  rw [hstring, hstring, tokenBehind?_eq h]

theorem schemaVersion?_eq_map (site : Site) : site.schemaVersion? =
    ((site.child? .header).bind fun header => header.child? .decimal).map text := by
  rw [Option.map_bind]
  rfl

theorem AlikeFor.schemaVersion?_eq {asked : Site → Bool} (h : AlikeFor keep asked site other)
    (hasked : ∀ child : Site, child.kind = .header → asked child = true) :
    site.schemaVersion? = other.schemaVersion? := by
  rw [schemaVersion?_eq_map, schemaVersion?_eq_map]
  exact map_eq_of_rel (h.grandchild? (by decide) (by decide) hasked) fun _ _ hlike =>
    hlike.1.text_eq (by rw [hlike.2]; decide)

theorem Alike.schemaVersion?_eq (h : site.Alike keep other) :
    site.schemaVersion? = other.schemaVersion? :=
  AlikeFor.schemaVersion?_eq h.solidChildren fun _ hkind => isSolid_of_visible (hkind ▸ rfl)

/-! ### Heads of models and topics -/

def inHead (keep : Kind → Bool) (child : Site) : Bool :=
  child.isSolid keep && !child.tree.isDeclaration

theorem inHead_of_kind {child : Site} (hkind : child.kind.isTrivia = false)
    (hdeclares : child.kind.isDeclaration = false) : child.inHead keep = true := by
  have htree : child.tree.isDeclaration = false := by
    rw [kind] at hdeclares
    cases htree : child.tree with
    | token t => rfl
    | node kind children => rwa [htree] at hdeclares
  rw [inHead, isSolid_of_visible hkind, htree]
  rfl

theorem asks_inHead : Asks keep (inHead keep) where
  congr site other h := by
    have hsolid (site : Site) : site.inHead keep =
        (!(site.tree.bare keep id).isDropped keep && !(site.tree.bare keep id).isDeclaration) := by
      rw [Tree.isDropped_bare, Tree.isDeclaration_bare]
      rfl
    rw [hsolid, hsolid, h.tree]
  solid site h := ((Bool.and_eq_true _ _).mp h).1

theorem Alike.head (h : site.Alike keep other) : AlikeFor keep (inHead keep) site other :=
  h.filter asks_inHead

/-- Comments are read for meta attributes, so these are the same if comments are kept. -/
theorem Alike.metaAttributes_eq (h : site.Alike Kind.isComment other) :
    site.metaAttributes = other.metaAttributes := by
  have hmeta (site : Site) : (site.before.filter fun t => t.kind == .metaComment) =
      (solidTokens Kind.isComment site.before).filter fun t => t.kind == .metaComment := by
    rw [solidTokens, List.filter_filter]
    apply List.filter_congr
    intro t _
    rw [Kind.isDropped_isComment]
    cases t.kind <;> rfl
  rw [metaAttributes, metaAttributes, hmeta site, hmeta other, h.before]

end Site

end Ili
