import Ili.Proofs.Catalog.Attributed
import Ili.Proofs.Catalog.Readings
import Ili.Proofs.Token.Braces
import Ili.Proofs.Tree.Descent

/-!
# A cardinality exchanged in a text

Where a cardinality stands in a text without errors, any other can be written as it is displayed.
The text is cut as before around it and has no errors either, and going down through the same frames
one comes to the place where it is written, and finds the tokens it is displayed with.
-/

namespace Ili

theorem visible_map_restore (tokens : List Token) :
    visible (tokens.map Token.restore) = (visible tokens).map Token.restore := by
  rw [visible, visible, List.filter_map]
  exact congrArg (List.map Token.restore)
    (List.filter_congr fun t _ => congrArg not (Token.isTrivia_restore t))

theorem front_eq_of_length_visible {front front' rest rest' : List Token} {t t' : Token}
    (h : front ++ t :: rest = front' ++ t' :: rest') (ht : t.kind.isTrivia = false)
    (ht' : t'.kind.isTrivia = false) (hlength : (visible front).length = (visible front').length) :
    front = front' := by
  have hone {t : Token} (ht : t.kind.isTrivia = false) (others : List Token) :
      (visible (t :: others)).length = (visible others).length + 1 := by
    simp [visible, ht]
  rcases append_eq_append_cons h.symm with ⟨others, rfl, -⟩ | ⟨others, rfl, hothers⟩
  · rw [visible_append, List.length_append, hone ht] at hlength
    omega
  · cases others with
    | nil => exact List.append_nil front'
    | cons first others =>
      obtain rfl := (List.cons.inj hothers).1
      rw [visible_append, List.length_append, hone ht'] at hlength
      omega

namespace Site

variable {text : String} {site : Site}

theorem Within.neat {outer : Site} (h : outer.Within site) (houter : outer.tree.Neat) :
    site.tree.Neat := by
  induction h with
  | refl => exact houter
  | child _ hchild ih => exact ih.child (tree_mem_of_mem_sitesOf hchild)

theorem tidy_of_within (hsite : (root (parse text).tree).Within site)
    (hkind : site.kind ≠ .sourceFile) : site.tree.Tidy := by
  cases hsite with
  | refl => exact absurd rfl hkind
  | child hparent hchild =>
    exact (hparent.neat (neat_parse text)).tidy.of_mem (tree_mem_of_mem_sitesOf hchild)

theorem tokens_of_bare_eq (htidy : site.tree.Tidy) {kind : Kind} {t : Token} {others : List Token}
    (h : site.tree.bare Kind.isNothing id = .node kind ((t :: others).map .token)) :
    ∃ rest, site.tree.tokens = t :: rest ∧ visible rest = others := by
  cases htree : site.tree with
  | token other => rw [htree] at h; cases h
  | node nodeKind row =>
    rw [htree] at h htidy
    have hrow := (Tree.node.inj h).2
    cases row with
    | nil => cases hrow
    | cons first rest =>
      have hfirst : first.isDropped Kind.isNothing = false :=
        Tree.isDropped_of_visible (htidy.1 first rfl)
      rw [Tree.bareOf, if_neg (Bool.eq_false_iff.mp hfirst), List.map_cons] at hrow
      obtain ⟨htoken, hothers⟩ := List.cons.inj hrow
      obtain rfl := Tree.eq_of_bare_eq_token htoken
      refine ⟨Tree.tokensOf rest, rfl, ?_⟩
      rw [← solidTokens_isNothing, ← Tree.tokensOf_bareOf_id, hothers, Tree.tokensOf_map_token]

end Site

namespace Cardinality

theorem isBounds_inside (cardinality : Cardinality) : IsBounds cardinality.inside := by
  refine ⟨_, kind_boundToken cardinality.min, ?_⟩
  rw [inside]
  split
  · exact .inl rfl
  · exact .inr ⟨_, kind_boundToken cardinality.max, rfl⟩

theorem visible_tokens (cardinality : Cardinality) :
    visible cardinality.tokens = cardinality.tokens := by
  have hshown : ∀ kind ∈ [Kind.integer, .star, .dotDot, .rBrace], (!kind.isTrivia) = true := by
    decide
  refine List.filter_eq_self.mpr (List.forall_mem_cons.mpr ⟨rfl, fun t ht => ?_⟩)
  exact hshown t.kind (cardinality.isBounds_inside.kind_mem t ht)

theorem kind_ne_error (cardinality : Cardinality) : ∀ t ∈ cardinality.tokens, t.kind ≠ .error := by
  have hsound : ∀ kind ∈ [Kind.integer, .star, .dotDot, .rBrace], kind ≠ .error := by decide
  refine List.forall_mem_cons.mpr ⟨nofun, fun t ht => ?_⟩
  exact hsound t.kind (cardinality.isBounds_inside.kind_mem t ht)

def node (cardinality : Cardinality) : Tree :=
  .node .cardinality (cardinality.tokens.map .token)

end Cardinality

theorem Site.kind_of_bare_eq {site : Site} {cardinality : Cardinality}
    (h : site.tree.bare Kind.isNothing id = cardinality.node) : site.kind = .cardinality := by
  rw [Site.kind, ← Tree.kind_bare Kind.isNothing, h]
  rfl

/-- Between these two texts the cardinality is written as it is displayed, without errors, and one
comes to it through these frames. -/
structure Written (before after : String) (frames : List Frame) (cardinality : Cardinality)
    (text : String) : Prop where
  tokens : ∃ front back, spelling front = before.toList ∧ spelling back = after.toList ∧
    (visible front).length = Frame.countBefore frames ∧
    tokenize text = front ++ cardinality.tokens ++ back
  ok : (parse text).errors = []
  tree : (parse text).tree.bare Kind.isNothing id = Frame.fillAll frames cardinality.node

section

variable {before written after : String} {frames : List Frame} {site : Site}

/-- The tokens in front of a place and those behind it spell what stands there. -/
theorem exists_tokens_around
    (hleads : (Site.root (parse (before ++ written ++ after)).tree).Leads frames site)
    (hstart : site.start = utf8Length before.toList) (htext : site.text = written) :
    ∃ front back, spelling front = before.toList ∧ spelling back = after.toList ∧
      (visible front).length = Frame.countBefore frames ∧
      tokenize (before ++ written ++ after) =
        front ++ site.tree.tokens.map Token.restore ++ back := by
  obtain ⟨front, back, htokens, hoffset, hcount⟩ := hleads.tokens_eq
  change (parse (before ++ written ++ after)).tree.tokens = _ at htokens
  have hspelling := spelling_tokens_parse (before ++ written ++ after)
  rw [htokens, spelling_append, spelling_append, String.toList_append, String.toList_append,
    ← Site.toList_text, List.append_assoc, List.append_assoc] at hspelling
  have hfront : spelling front = before.toList := by
    refine eq_of_utf8Length_eq hspelling ?_
    rw [← hstart, hoffset]
    exact (Nat.zero_add _).symm
  rw [hfront] at hspelling
  have hwritten : site.tree.text = written := htext
  rw [hwritten] at hspelling
  refine ⟨front.map Token.restore, back.map Token.restore, ?_, ?_, ?_, ?_⟩
  · rw [spelling_map_restore, hfront]
  · rw [spelling_map_restore]
    exact List.append_cancel_left (List.append_cancel_left hspelling)
  · rw [visible_map_restore, List.length_map, hcount]
  · rw [← map_restore_tokens_parse, htokens, List.map_append, List.map_append]

/-- A cardinality is what a brace opens, and with other bounds behind this brace the text is read as
before around them. -/
theorem exists_opening (hok : (parse (before ++ written ++ after)).errors = [])
    (hleads : (Site.root (parse (before ++ written ++ after)).tree).Leads frames site)
    (hkind : site.kind = .cardinality) (hstart : site.start = utf8Length before.toList)
    (htext : site.text = written) :
    ∃ front inside back, spelling front = before.toList ∧ spelling back = after.toList ∧
      (visible front).length = Frame.countBefore frames ∧
      tokenize (before ++ written ++ after) =
        front ++ Cardinality.openingBrace :: (inside ++ back) ∧
      ∀ other bounds, IsBounds bounds →
        visible (tokenize other) =
          visible front ++ Cardinality.openingBrace :: (bounds ++ visible back) →
        (parse other).errors = [] ∧ (parse other).tree.bare Kind.isNothing id =
          Frame.fillAll frames
            (.node .cardinality ((Cardinality.openingBrace :: bounds).map .token)) := by
  obtain ⟨front, back, hfront, hback, hcount, htokens⟩ :=
    exists_tokens_around hleads hstart htext
  obtain ⟨row, htree⟩ := Site.exists_node_of_isNode hleads.within
    (by rw [hkind]; rfl) (by rw [hkind]; decide)
  rw [hkind] at htree
  have hbare : site.tree.bare Kind.isNothing id =
      .node .cardinality (Tree.bareOf Kind.isNothing id row) := by
    rw [htree, Tree.bare]
  have hroot := hleads.bare_eq (by rw [htree]; rfl)
  rw [hbare] at hroot
  obtain ⟨place, inside, -, hvisible, hnode, hbrace, hlength, hexchange⟩ :=
    exists_bracedPlace hok hroot
  -- The site opens with the brace, so that it is cut off in front of it.
  have htidy := Site.tidy_of_within hleads.within (by rw [hkind]; decide)
  obtain ⟨others, hsite, hothers⟩ := Site.tokens_of_bare_eq htidy (hbare.trans hnode)
  rw [hsite, List.map_cons, Token.restore_of_ne (by rw [hbrace]; decide), List.append_assoc,
    List.cons_append] at htokens
  have htiled := tiled_tokenize (before ++ written ++ after)
  rw [htokens] at htiled
  obtain ⟨front', brace, behind⟩ := place
  obtain rfl : brace = Cardinality.openingBrace := by
    obtain ⟨kind, text⟩ := brace
    obtain rfl : kind = .lBrace := hbrace
    exact congrArg (Token.mk .lBrace) (htiled.append_right.1.text_eq_mark "\x7b" rfl)
  have haround : visible front = front' ∧ visible back = behind := by
    have hopening (row : List Token) :
        visible (Cardinality.openingBrace :: row) = Cardinality.openingBrace :: visible row := rfl
    rw [htokens, visible_append, hopening, visible_append, visible_map_restore, hothers] at hvisible
    obtain ⟨hsame, hbehind⟩ := List.append_inj hvisible (hcount.trans hlength.symm)
    exact ⟨hsame, (List.append_inj (List.cons.inj hbehind).2 (List.length_map _)).2⟩
  obtain ⟨rfl, rfl⟩ := haround
  exact ⟨front, _, back, hfront, hback, hcount, htokens, hexchange⟩

/-- **Any cardinality can be written in place of another.** -/
theorem written_of_leads (hok : (parse (before ++ written ++ after)).errors = [])
    (hleads : (Site.root (parse (before ++ written ++ after)).tree).Leads frames site)
    (hkind : site.kind = .cardinality) (hstart : site.start = utf8Length before.toList)
    (htext : site.text = written) (cardinality : Cardinality) :
    Written before after frames cardinality (before ++ cardinality.display ++ after) := by
  obtain ⟨front, inside, back, hfront, hback, hcount, htokens, hexchange⟩ :=
    exists_opening hok hleads hkind hstart htext
  have htiled := tiled_tokenize (before ++ written ++ after)
  rw [htokens] at htiled
  have hnew : tokenize (before ++ cardinality.display ++ after) =
      front ++ cardinality.tokens ++ back :=
    cardinality.tokenize_exchange htiled
      (by rw [hfront, hback, String.toList_append, String.toList_append])
  have hvisible : visible (tokenize (before ++ cardinality.display ++ after)) =
      visible front ++ Cardinality.openingBrace :: (cardinality.inside ++ visible back) := by
    rw [hnew, visible_append, visible_append, cardinality.visible_tokens, List.append_assoc]
    rfl
  obtain ⟨hok', htree⟩ := hexchange _ cardinality.inside cardinality.isBounds_inside hvisible
  exact ⟨⟨front, back, hfront, hback, hcount, hnew⟩, hok', htree⟩

end

namespace Written

variable {before after text : String} {frames : List Frame} {cardinality : Cardinality}
  {site : Site}

theorem exists_leads (h : Written before after frames cardinality text) :
    ∃ site, (Site.root (parse text).tree).Leads frames site ∧
      site.tree.bare Kind.isNothing id = cardinality.node :=
  Site.exists_leads_of_bare_eq h.tree

theorem start_eq (h : Written before after frames cardinality text)
    (hleads : (Site.root (parse text).tree).Leads frames site)
    (hsite : site.tree.bare Kind.isNothing id = cardinality.node) :
    site.start = utf8Length before.toList := by
  obtain ⟨front, back, hfront, -, hcount, hnew⟩ := h.tokens
  obtain ⟨left, right, htokens, hstart, hleft⟩ := hleads.tokens_eq
  change (parse text).tree.tokens = _ at htokens
  have htidy := Site.tidy_of_within hleads.within (by rw [Site.kind_of_bare_eq hsite]; decide)
  obtain ⟨rest, hrest, -⟩ := Site.tokens_of_bare_eq htidy hsite
  have hopening : Cardinality.openingBrace.restore = Cardinality.openingBrace := rfl
  rw [← map_restore_tokens_parse, htokens, hrest, List.map_append, List.map_append, List.map_cons,
    hopening, List.append_assoc, List.append_assoc] at hnew
  have hsame := front_eq_of_length_visible hnew rfl rfl (by
    rw [visible_map_restore, List.length_map, hleft, hcount])
  rw [hstart, ← spelling_map_restore, hsame, hfront]
  exact Nat.zero_add _

end Written

namespace Site

variable {site : Site} {cardinality : Cardinality}

theorem isDropped_isNothing (tree : Tree) : tree.isDropped Kind.isNothing = tree.isTrivia := by
  cases tree with
  | token t => exact Bool.and_true _
  | node kind row => rfl

theorem shown_of_bareOf_eq {row : List Tree} {tokens : List Token}
    (h : Tree.bareOf Kind.isNothing id row = tokens.map .token) :
    Tree.shown row = tokens.map .token := by
  induction row generalizing tokens with
  | nil => exact h
  | cons tree rest ih =>
    rw [Tree.bareOf, isDropped_isNothing] at h
    rw [Tree.shown, List.filter_cons]
    cases htrivia : tree.isTrivia with
    | true =>
      rw [htrivia, if_pos rfl] at h
      exact ih h
    | false =>
      rw [htrivia, if_neg Bool.false_ne_true] at h
      obtain ⟨t, others, rfl, htoken, hothers⟩ := List.map_eq_cons_iff.mp h.symm
      obtain rfl := Tree.eq_of_bare_eq_token htoken.symm
      exact congrArg (Tree.token t :: ·) (ih hothers.symm)

theorem map_tree_visibleTokens_of_bare_eq {kind : Kind} {tokens : List Token}
    (h : site.tree.bare Kind.isNothing id = .node kind (tokens.map .token)) :
    site.visibleTokens.map tree = tokens.map .token := by
  have hrow : Tree.bareOf Kind.isNothing id site.tree.children = tokens.map .token := by
    rw [bareOf_children, h]
    rfl
  rw [map_tree_visibleTokens, Tree.visibleChildren, shown_of_bareOf_eq hrow]
  refine List.filter_eq_self.mpr fun tree htree => ?_
  obtain ⟨t, -, rfl⟩ := List.mem_map.mp htree
  rfl

theorem join_visibleTokens_of_bare_eq (h : site.tree.bare Kind.isNothing id = cardinality.node) :
    String.join (site.visibleTokens.map Site.text) = cardinality.display := by
  have htexts : site.visibleTokens.map Site.text = cardinality.tokens.map Token.text := by
    have hmap := congrArg (List.map Tree.text) (map_tree_visibleTokens_of_bare_eq h)
    rwa [List.map_map, List.map_map] at hmap
  rw [htexts, ← String.toList_inj, ← spelling_eq_join, cardinality.spelling_tokens]

theorem cardinality_of_bare_eq (h : site.tree.bare Kind.isNothing id = cardinality.node)
    (hmin : ∀ n ∈ cardinality.min, n < numberLimit)
    (hmax : ∀ n ∈ cardinality.max, n < numberLimit) : site.cardinality = cardinality := by
  have hbounds : (site.visibleTokens.filter fun c => c.kind == .integer || c.kind == .star).map
      (fun c => parseNumber? c.text) =
      if cardinality.min = cardinality.max then [cardinality.min]
      else [cardinality.min, cardinality.max] :=
    calc
      _ = ((site.visibleTokens.map tree).filter fun tree : Tree =>
            tree.kind == .integer || tree.kind == .star).map
            fun tree : Tree => parseNumber? tree.text := by
          rw [List.filter_map, List.map_map]
          rfl
      _ = (cardinality.tokens.filter fun t => t.kind == .integer || t.kind == .star).map
            fun t => parseNumber? t.text := by
          rw [map_tree_visibleTokens_of_bare_eq h, List.filter_map, List.map_map]
          rfl
      _ = _ := Cardinality.map_parseNumber?_tokens hmin hmax
  rw [Site.cardinality, hbounds]
  obtain ⟨min, max⟩ := cardinality
  by_cases hsame : min = max <;> simp [hsame]

end Site

end Ili
