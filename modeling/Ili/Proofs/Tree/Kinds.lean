import Ili.Proofs.Grammar.Productions
import Ili.Proofs.Token.Spelling
import Ili.Proofs.Tree.Sequence

/-!
# What a site is by its kind

In the tree of a text the kind of a site tells a node from a token, but for what is erroneous. Marks
are spelled as their kind says, and in a text without errors the children of a node are what the
production of its kind says.
-/

namespace Ili

theorem Token.Heads.error_of_isNode {token : Token} {rest : List Char} (h : token.Heads rest)
    (hnode : token.kind.isNode = true) : token.kind = .error := by
  obtain ⟨kind, text⟩ := token
  obtain ⟨c, cs, -, hmunch⟩ := h
  simp only at hmunch hnode ⊢
  unfold Lexer.munch at hmunch
  split at hmunch
  · obtain ⟨rfl, -⟩ := Prod.mk.inj hmunch
    cases hnode
  · split at hmunch
    · obtain ⟨rfl, -⟩ := Prod.mk.inj hmunch
      have hword (kind : Kind) : (kind == .ident || kind.isKeyword) = true →
          kind.isNode = false := by cases kind <;> decide
      rw [hword _ (isWord_ofWord _)] at hnode
      cases hnode
    · split at hmunch
      · rcases kind_of_number hmunch with rfl | rfl <;> cases hnode
      · split at hmunch
        · exact (kind_of_quoted hmunch).resolve_left (by rintro rfl; cases hnode)
        · split at hmunch
          · rcases Token.kind_of_slash hmunch with rfl | rfl | hcomment
            · cases hnode
            · rfl
            · have hnot (kind : Kind) : kind.isComment = true → kind.isNode = false := by
                cases kind <;> decide
              rw [hnot kind hcomment] at hnode
              cases hnode
          · split at hmunch
            · rcases kind_of_bang hmunch with rfl | rfl | rfl | rfl
              all_goals first | rfl | cases hnode
            · unfold Lexer.punctuation at hmunch
              split at hmunch
              all_goals
                obtain ⟨rfl, -⟩ := Prod.mk.inj hmunch
                first | rfl | cases hnode

namespace Tree

theorem RegularAll.regular {row : List Tree} (h : RegularAll row) : ∀ tree ∈ row, tree.Regular := by
  induction row with
  | nil => nofun
  | cons first rest ih =>
    intro tree htree
    rcases List.mem_cons.mp htree with rfl | htree
    · exact h.1
    · exact ih h.2 tree htree

theorem Regular.child {tree child : Tree} (h : tree.Regular) (hchild : child ∈ tree.children) :
    child.Regular := by
  cases tree with
  | token t => cases hchild
  | node kind children => exact RegularAll.regular h.2.2 child hchild

end Tree

namespace Site

theorem Within.regular {outer site : Site} (h : outer.Within site) (houter : outer.tree.Regular) :
    site.tree.Regular := by
  induction h with
  | refl => exact houter
  | child _ hchild ih => exact ih.child (tree_mem_of_mem_sitesOf hchild)

variable {text : String} {site : Site}

theorem heads_of_within (hsite : (root (parse text).tree).Within site) {token : Token}
    (htree : site.tree = .token token) (hkind : site.kind ≠ .ident) :
    ∃ rest, token.Heads rest := by
  have hident : token.kind ≠ .ident := by rwa [kind, htree] at hkind
  obtain ⟨left, right, htokens, -⟩ := cutFrom_of_within hsite
  have hmem : token ∈ (parse text).tree.tokens := by
    change token ∈ (root (parse text).tree).tree.tokens
    simp [root, htokens, htree, Tree.tokens]
  rw [← Token.restore_of_ne hident]
  apply (tiled_tokenize text).heads_of_mem
  rw [← map_restore_tokens_parse]
  exact List.mem_map_of_mem hmem

theorem exists_token_of_not_isNode (hsite : (root (parse text).tree).Within site)
    (hkind : site.kind.isNode = false) : ∃ token, site.tree = .token token := by
  have hregular := hsite.regular (regular_parse text)
  cases htree : site.tree with
  | token token => exact ⟨token, rfl⟩
  | node kind row =>
    rw [htree] at hregular
    rw [Site.kind, htree] at hkind
    exact absurd hregular.1 (Bool.eq_false_iff.mp hkind)

theorem exists_node_of_isNode (hsite : (root (parse text).tree).Within site)
    (hkind : site.kind.isNode = true) (herror : site.kind ≠ .error) :
    ∃ row, site.tree = .node site.kind row := by
  cases htree : site.tree with
  | node kind row => exact ⟨row, by rw [Site.kind, htree]; rfl⟩
  | token token =>
    have hident : site.kind ≠ .ident := by
      intro hident
      rw [hident] at hkind
      cases hkind
    obtain ⟨rest, hheads⟩ := heads_of_within hsite htree hident
    rw [Site.kind, htree] at hkind herror
    exact absurd (hheads.error_of_isNode hkind) herror

theorem text_eq_mark (hsite : (root (parse text).tree).Within site)
    (hnode : site.kind.isNode = false) {mark : String} (hmark : mark ∈ site.kind.mark?) :
    site.text = mark := by
  obtain ⟨token, htree⟩ := exists_token_of_not_isNode hsite hnode
  have hident : site.kind ≠ .ident := by
    intro hident
    rw [hident] at hmark
    cases hmark
  obtain ⟨rest, hheads⟩ := heads_of_within hsite htree hident
  rw [Site.kind, htree] at hmark
  rw [Site.text, htree]
  exact hheads.text_eq_mark mark hmark

theorem map_tree_visibleTokens (site : Site) :
    site.visibleTokens.map tree = site.tree.visibleChildren.filter (· matches .token _) := by
  rw [Tree.visibleChildren, Tree.shown, List.filter_filter,
    ← map_tree_sitesOf site.start site.before site.tree.children, List.filter_map]
  refine congrArg (List.map tree) (List.filter_congr fun child _ => ?_)
  obtain ⟨tree, start, before⟩ := child
  cases tree <;> simp [Site.kind, Tree.kind, Tree.isTrivia]

theorem kinds_visibleTokens (hsite : (root (parse text).tree).Within site)
    (hkinds : ∀ kind ∈ site.tree.visibleChildren.map Tree.kind, kind.isNode = false) :
    site.visibleTokens.map kind = site.tree.visibleChildren.map Tree.kind := by
  have hregular := hsite.regular (regular_parse text)
  have htokens : site.tree.visibleChildren.filter (· matches .token _) =
      site.tree.visibleChildren := by
    refine List.filter_eq_self.mpr fun child hchild => ?_
    have hkind := hkinds _ (List.mem_map_of_mem hchild)
    have hchild := hregular.child (List.mem_filter.mp hchild).1
    cases child with
    | token token => rfl
    | node kind row => exact absurd hchild.1 (Bool.eq_false_iff.mp hkind)
  rw [← htokens, ← map_tree_visibleTokens, List.map_map]
  rfl

/-- In a text without errors a node holds what is taken for its kind. -/
theorem visibleChildren_mem_relaxed (hok : (parse text).errors = [])
    (hsite : (root (parse text).tree).Within site) (hnode : site.kind.isNode = true)
    (herror : site.kind ≠ .error) :
    site.tree.visibleChildren ∈ (Grammar.production site.kind).relaxed.language := by
  obtain ⟨row, htree⟩ := exists_node_of_isNode hsite hnode herror
  have hnode : site.tree ∈ (parse text).tree.nodes :=
    hsite.nodes_subset (htree ▸ List.mem_cons_self)
  exact conforms_parse hok site.tree (List.mem_append_left _ hnode)

/-- Where nothing else is taken for its kind, a node holds what is documented. -/
theorem visibleChildren_mem_production (hok : (parse text).errors = [])
    (hsite : (root (parse text).tree).Within site) {kind : Kind} (hkind : site.kind = kind)
    (hnode : kind.isNode = true) (herror : kind ≠ .error) (hstrict : kind ∉ Grammar.lenientKinds) :
    site.tree.visibleChildren ∈ (Grammar.production kind).language := by
  subst hkind
  rw [← Shape.relaxed_of_isExact (Grammar.isExact_production hstrict)]
  exact visibleChildren_mem_relaxed hok hsite hnode herror

end Site

end Ili
