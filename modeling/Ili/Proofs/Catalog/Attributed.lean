import Ili.Proofs.Catalog.MetaLines
import Ili.Proofs.Catalog.Notes
import Ili.Proofs.Grammar.BlockForm
import Ili.Proofs.Layout.Conservation
import Ili.Proofs.Tree.Fronts
import Ili.Proofs.Tree.Kinds

/-!
# Attributes in front of a class

A class opens with a token, so what is written in front of it is looked for from there. Where a line
of attributes is all that is written there, the class has the attributes of the line, unless a gap
stands between the line and the class: nothing is seen across it, and the class has none. Without
errors there is no gap.
-/

namespace Ili

variable {text : String}

/-! ### What is seen in front of a class -/

theorem snug_leaves_parse (text : String) : Leaf.Snug (parse text).tree.leaves := by
  rcases leaves_parse text with hleaves | ⟨hleaves, -⟩
  · rw [hleaves]
    exact (places_parse text).1
  · rw [hleaves]
    exact .singleton _

theorem text_ne_of_mem_leaves_parse {token : Token}
    (h : token ∈ Leaf.tokensOf (parse text).tree.leaves) : token.text ≠ "" := by
  rw [Tree.tokensOf_leaves] at h
  obtain ⟨inText, hmem, hstands⟩ := exists_standsFor h
  obtain ⟨rest, c, cs, htext, -⟩ := (tiled_tokenize text).heads_of_mem hmem
  rw [hstands.text_eq]
  intro hempty
  rw [hempty] at htext
  cases htext

theorem spelling_map_restore (tokens : List Token) :
    spelling (tokens.map Token.restore) = spelling tokens := by
  simp only [spelling, List.flatMap_map, Token.text_restore]

theorem map_restore_of_trivia {row : List Token} (h : ∀ t ∈ row, t.kind.isTrivia = true) :
    row.map Token.restore = row := by
  refine (List.map_congr_left fun t ht => Token.restore_of_ne ?_).trans (List.map_id row)
  rintro hident
  have htrivia := h t ht
  rw [hident] at htrivia
  cases htrivia

theorem takeWhile_map_restore (tokens : List Token) :
    (tokens.map Token.restore).takeWhile (fun t => t.kind.isTrivia) =
      tokens.takeWhile fun t => t.kind.isTrivia := by
  have hsame : (fun t : Token => t.kind.isTrivia) ∘ Token.restore = fun t => t.kind.isTrivia :=
    funext Token.isTrivia_restore
  rw [List.takeWhile_map, hsame]
  exact map_restore_of_trivia fun t ht =>
    List.mem_takeWhile_imp (p := fun t : Token => t.kind.isTrivia) ht

namespace Site

variable {site : Site}

theorem tree_mem_nodesOf (hsite : (root (parse text).tree).Within site)
    (hkind : site.kind = .classDef) : site.tree ∈ Tree.nodesOf (parse text).tree.children := by
  obtain ⟨row, htree⟩ :=
    exists_node_of_isNode hsite (by rw [hkind]; rfl) (by rw [hkind]; decide)
  have hnode : site.tree ∈ (parse text).tree.nodes :=
    hsite.nodes_subset (htree ▸ List.mem_cons_self)
  have hroot : (parse text).tree = .node .sourceFile (parse text).tree.children := rfl
  rw [hroot, Tree.nodes] at hnode
  refine (List.mem_cons.mp hnode).resolve_left fun heq => ?_
  rw [Site.kind, heq] at hkind
  cases hkind

theorem opensWithToken_of_class (hsite : (root (parse text).tree).Within site)
    (hkind : site.kind = .classDef) : site.tree.OpensWithToken :=
  open_parse text _ (tree_mem_nodesOf hsite hkind)
    (by rw [show site.tree.kind = .classDef from hkind]; decide)

theorem gap_notMem_leaves (hok : (parse text).errors = [])
    (hsite : (root (parse text).tree).Within site) (hkind : site.kind = .classDef) :
    .gap ∉ (parse text).tree.leaves := by
  rcases leaves_parse text with hleaves | ⟨-, hnone⟩
  · rw [hleaves]
    exact (allFull_parse hok).no_gap
  · have hempty : (parse text).tree.children = [] :=
      Decidable.not_not.mp fun hne => Tree.leavesOf_ne_nil hne hnone
    have hmem := tree_mem_nodesOf hsite hkind
    rw [hempty] at hmem
    cases hmem

theorem entries_ofList_comments {attributes : List (String × String)} {comment : Token}
    {row further : List Token} (hcomment : comment.kind = .metaComment)
    (hread : parseMetaComment comment.text = attributes)
    (hrow : ∀ t ∈ row, t.kind = .whitespace) (hfurther : ∀ t ∈ further, t.kind ≠ .metaComment)
    (hbefore : site.before = (comment :: row).reverse ++ further)
    (hkeys : (attributes.map Prod.fst).Nodup) : site.metaAttributes.entries = attributes := by
  have hnone : row.reverse.filter (fun t => t.kind == .metaComment) = [] := by
    refine List.filter_eq_nil_iff.mpr fun t ht => ?_
    rw [hrow t (List.mem_reverse.mp ht)]
    decide
  have hnothing : further.filter (fun t => t.kind == .metaComment) = [] :=
    List.filter_eq_nil_iff.mpr fun t ht => by simpa using hfurther t ht
  have hcomments : (site.before.filter fun t => t.kind == .metaComment).reverse = [comment] := by
    rw [hbefore, List.filter_append, hnothing, List.reverse_cons, List.filter_append, hnone]
    simp [hcomment]
  rw [metaAttributes, hcomments, List.flatMap_singleton, hread, Dict.entries_ofList hkeys]

/-- Behind a line of attributes a class has these, unless a gap stands there. -/
theorem entries_metaAttributes (line : MetaLine text)
    (hsite : (root (parse text).tree).Within site) (hkind : site.kind = .classDef)
    (hstart : site.start = line.stop) :
    (Leaf.HasGapAt (parse text).tree.leaves line.stop → site.metaAttributes.entries = []) ∧
      (¬Leaf.HasGapAt (parse text).tree.leaves line.stop →
        site.metaAttributes.entries = line.attributes.map WrittenAttribute.pair) := by
  obtain ⟨left, hleft⟩ := exists_standsBehind hsite
  obtain ⟨back, hback⟩ := hleft.among
  rw [← hstart, hleft.hasGapAt_iff (opensWithToken_of_class hsite hkind) fun _ =>
    text_ne_of_mem_leaves_parse]
  have hsnug : Leaf.Snug left := by
    have hsnug := snug_leaves_parse text
    rw [← hback, List.append_assoc] at hsnug
    exact hsnug.left_of_append
  -- The tokens in front are those of the text.
  have htokens : tokenize text = (Leaf.tokensOf left).map Token.restore ++
      (Leaf.tokensOf (site.tree.leaves ++ back)).map Token.restore := by
    rw [← map_restore_tokens_parse, ← Tree.tokensOf_leaves, ← hback, List.append_assoc,
      Leaf.tokensOf_append, List.map_append]
  have hstop : utf8Length (spelling ((Leaf.tokensOf left).map Token.restore)) = line.stop := by
    rw [spelling_map_restore, ← hleft.start, hstart]
  obtain ⟨comment, row, hfront, hcomment, hread, hblank⟩ := line.exists_row htokens hstop
  obtain ⟨front, behind, hsplit, hbefore, hbehind⟩ := List.map_eq_append_iff.mp hfront
  have htrivia : ∀ t ∈ comment :: row, t.kind.isTrivia = true := by
    refine List.forall_mem_cons.mpr ⟨by rw [hcomment]; rfl, fun t ht => ?_⟩
    rw [hblank t ht]
    rfl
  have hsame : behind = comment :: row := by
    rw [← hbehind]
    refine (map_restore_of_trivia fun t ht => ?_).symm
    have hmem : t.restore ∈ comment :: row := hbehind ▸ List.mem_map_of_mem ht
    rw [← Token.isTrivia_restore]
    exact htrivia _ hmem
  subst hsame
  have hseen := beforeNext_eq hsnug hsplit htrivia
  constructor
  · intro hgap
    rw [if_pos hgap, ← hleft.before] at hseen
    rw [metaAttributes, hseen]
    rfl
  · intro hgap
    rw [if_neg hgap, ← hleft.before] at hseen
    obtain ⟨further, hseen, hfront⟩ := hseen
    refine entries_ofList_comments hcomment hread hblank (fun t ht => ?_) hseen ?_
    · rw [← takeWhile_map_restore, List.map_reverse, hbefore] at hfront
      exact line.single t (hfront.subset ht)
    · rw [List.map_map]
      exact line.distinct

end Site

/-! ### Named places -/

theorem Shape.exists_of_mem_row {kind : Kind} (before after : List Shape) {trees : List Tree}
    (h : trees ∈ (row (before ++ [single kind] ++ after)).language) :
    ∃ tree ∈ trees, tree.kind = kind := by
  have hone : (row [single kind]).language = (single kind).language :=
    (language_andThen (single kind) empty).trans (mul_one _)
  rw [language_row_append, language_row_append, hone] at h
  obtain ⟨_, ⟨left, -, middle, hmiddle, rfl⟩, right, -, rfl⟩ := h
  obtain ⟨tree, rfl, hkind⟩ := mem_single_iff.mp hmiddle
  exact ⟨tree, by simp, hkind⟩

theorem Grammar.exists_name_of_block {kind : Kind} {trees : List Tree}
    (hkind : kind ∈ [Kind.model, .topic, .classDef])
    (h : trees ∈ (production kind).language) : ∃ tree ∈ trees, tree.kind = .name := by
  simp only [List.mem_cons, List.not_mem_nil, or_false] at hkind
  rcases hkind with rfl | rfl | rfl
  · exact Shape.exists_of_mem_row ((blockHead .model).take 3) _ h
  · exact Shape.exists_of_mem_row [.single .topicKw] _ h
  · exact Shape.exists_of_mem_row [.one [.classKw, .structureKw] none] _ h

namespace Site

/-- The site stands in the file, and it has a name as has everything around it but the file. -/
inductive Named (file : Site) : Site → Prop
  | file : Named file file
  | child {site child : Site} (h : Named file site) (hchild : child ∈ site.children)
      (hname : child.nameToken?.isSome = true) : Named file child

theorem Named.within {file site : Site} (h : file.Named site) : file.Within site := by
  induction h with
  | file => exact .refl
  | child _ hchild _ ih => exact ih.child hchild

section Parsed

variable {site child : Site}

theorem below_of_child (hsite : (root (parse text).tree).Within site)
    (hchild : child ∈ site.children) {kind : Kind} (hkind : child.kind = kind)
    (hnode : kind.isNode = true) (herror : kind ≠ .error) :
    Grammar.arrangement.below site.kind kind = true := by
  subst hkind
  obtain ⟨row, htree⟩ := exists_node_of_isNode (hsite.child hchild) hnode herror
  have hmem := tree_mem_of_mem_sitesOf hchild
  have hkind : child.kind ∈ Tree.nodeKinds site.tree.children := by
    refine List.mem_filterMap.mpr ⟨child.tree, hmem, ?_⟩
    rw [htree]
    rfl
  cases hsiteTree : site.tree with
  | token t => rw [hsiteTree] at hmem; cases hmem
  | node kind children =>
    have hin : site.tree ∈ (parse text).tree.nodes :=
      hsite.nodes_subset (hsiteTree ▸ List.mem_cons_self)
    exact (arranged_parse text _ hin).below child.kind hkind

theorem isSome_child?_of_visible {tree : Tree} (h : tree ∈ site.tree.visibleChildren) :
    (site.child? tree.kind).isSome = true := by
  have hmem : tree ∈ site.children.map Site.tree := by
    rw [children, map_tree_sitesOf]
    exact (List.mem_filter.mp h).1
  obtain ⟨child, hchild, rfl⟩ := List.mem_map.mp hmem
  exact List.find?_isSome.mpr ⟨child, hchild, beq_self_eq_true _⟩

/-- Without errors what has a name node has a name. -/
theorem isSome_nameToken?_of_name (hok : (parse text).errors = [])
    (hsite : (root (parse text).tree).Within site)
    (hname : ∃ tree ∈ site.tree.visibleChildren, tree.kind = .name) :
    site.nameToken?.isSome = true := by
  obtain ⟨name, hname, hnameKind⟩ := hname
  have hsome := isSome_child?_of_visible hname
  rw [hnameKind] at hsome
  obtain ⟨child, hchild⟩ := Option.isSome_iff_exists.mp hsome
  have hident := visibleChildren_mem_production hok (hsite.child (mem_children_of_child? hchild))
    (kind_of_child? hchild) rfl (by decide) (by decide)
  obtain ⟨token, htokens, htokenKind⟩ := Shape.mem_single_iff.mp hident
  have htoken : (child.child? token.kind).isSome = true :=
    isSome_child?_of_visible (by simp [htokens])
  rw [nameToken?, hchild, Option.bind_some, ← htokenKind]
  exact htoken

theorem isSome_nameToken? (hok : (parse text).errors = [])
    (hsite : (root (parse text).tree).Within site)
    (hkind : site.kind ∈ [Kind.model, .topic, .classDef]) : site.nameToken?.isSome = true := by
  have hkinds : ∀ kind ∈ [Kind.model, .topic, .classDef], kind.isNode = true ∧ kind ≠ .error ∧
      kind ∉ Grammar.lenientKinds := by decide
  obtain ⟨hnode, herror, hstrict⟩ := hkinds site.kind hkind
  exact isSome_nameToken?_of_name hok hsite (Grammar.exists_name_of_block hkind
    (visibleChildren_mem_production hok hsite rfl hnode herror hstrict))

theorem parent_of_below {kind inner : Kind}
    (hinner : inner ∈ [Kind.sourceFile, .model, .topic, .classDef])
    (hbelow : Grammar.arrangement.below kind inner = true) :
    kind ∈ [Kind.sourceFile, .model, .topic, .classDef] ∧
      inner ∈ [Kind.model, .topic, .classDef] := by
  simp only [List.mem_cons, List.not_mem_nil, or_false] at hinner
  rcases hinner with rfl | rfl | rfl | rfl
  · cases hbelow
  · obtain rfl := beq_iff_eq.mp hbelow
    decide
  · obtain rfl := beq_iff_eq.mp hbelow
    decide
  · rcases Bool.or_eq_true_iff.mp hbelow with hbelow | hbelow
    · obtain rfl := beq_iff_eq.mp hbelow
      decide
    · obtain rfl := beq_iff_eq.mp hbelow
      decide

theorem parent_of_member (hsite : (root (parse text).tree).Within site)
    (hchild : child ∈ site.children) (hkind : child.kind ∈ [Kind.classDef, .association]) :
    site.kind = .model ∨ site.kind = .topic := by
  have hkinds : ∀ kind ∈ [Kind.classDef, .association], kind.isNode = true ∧ kind ≠ .error := by
    decide
  obtain ⟨hnode, herror⟩ := hkinds child.kind hkind
  have hbelow := below_of_child hsite hchild rfl hnode herror
  simp only [List.mem_cons, List.not_mem_nil, or_false] at hkind
  rcases hkind with hkind | hkind
  all_goals
    rw [hkind] at hbelow
    exact (Bool.or_eq_true_iff.mp hbelow).imp beq_iff_eq.mp beq_iff_eq.mp

theorem named_of_within (hok : (parse text).errors = [])
    (hsite : (root (parse text).tree).Within site)
    (hkind : site.kind ∈ [Kind.sourceFile, .model, .topic, .classDef]) :
    (root (parse text).tree).Named site := by
  induction hsite with
  | refl => exact .file
  | @child site child hsite hchild ih =>
    have hkinds : ∀ kind ∈ [Kind.sourceFile, .model, .topic, .classDef], kind.isNode = true ∧
        kind ≠ .error := by decide
    obtain ⟨hnode, herror⟩ := hkinds child.kind hkind
    obtain ⟨hparent, hblock⟩ :=
      parent_of_below hkind (below_of_child hsite hchild rfl hnode herror)
    exact (ih hparent).child hchild (isSome_nameToken? hok (hsite.child hchild) hblock)

end Parsed

end Site

/-! ### Named classes become definitions -/

theorem Heading.mem_notes {heading : Heading} {optional : Option Heading} {kind : DefinitionKind}
    {cardinality : Option Cardinality} {below : List Note} (h : optional = some heading) :
    ⟨kind, heading, cardinality⟩ ∈ notes optional kind cardinality below := by
  rw [h]
  exact List.mem_cons_self

theorem Heading.mem_notes_of_mem {optional : Option Heading} {kind : DefinitionKind}
    {cardinality : Option Cardinality} {below : List Note} {note : Note}
    (hsome : optional.isSome = true) (h : note ∈ below) :
    note ∈ notes optional kind cardinality below := by
  obtain ⟨heading, rfl⟩ := Option.isSome_iff_exists.mp hsome
  exact List.mem_cons_of_mem _ h

namespace Site

variable {site : Site} (file : FileContext)

theorem isSome_heading? (hname : site.nameToken?.isSome = true) :
    (site.heading? file).isSome = true := by
  rwa [heading?, Option.isSome_map]

section Parsed

variable {file : FileContext}

theorem Named.eq_root (h : (root (parse text).tree).Named site) (hkind : site.kind = .sourceFile) :
    site = root (parse text).tree := by
  cases h with
  | file => rfl
  | child hparent hchild _ =>
    cases below_of_child hparent.within hchild hkind rfl (by decide)

theorem Named.mem_models (h : (root (parse text).tree).Named site) (hkind : site.kind = .model) :
    site ∈ (root (parse text).tree).models ∧ site.nameToken?.isSome = true := by
  cases h with
  | file => cases hkind
  | child hparent hchild hname =>
    have hbelow := below_of_child hparent.within hchild hkind rfl (by decide)
    obtain rfl := hparent.eq_root (beq_iff_eq.mp hbelow)
    exact ⟨List.mem_filter.mpr ⟨hchild, beq_iff_eq.mpr hkind⟩, hname⟩

theorem Named.mem_notes_of_member {model member : Site} {note : Note}
    (h : (root (parse text).tree).Named model) (hkind : model.kind = .model)
    (hmember : member ∈ model.members)
    (hnote : note ∈ if member.kind = .topic then member.topicNotes file
      else member.memberNotes file) :
    note ∈ (root (parse text).tree).models.flatMap (modelNotes file) := by
  obtain ⟨hmodel, hname⟩ := h.mem_models hkind
  exact List.mem_flatMap.mpr ⟨model, hmodel,
    Heading.mem_notes_of_mem (isSome_heading? file hname)
      (List.mem_flatMap.mpr ⟨member, hmember, hnote⟩)⟩

theorem Named.mem_notes_of_memberNotes {parent : Site} {note : Note}
    (hparent : (root (parse text).tree).Named parent) (hchild : site ∈ parent.children)
    (hkind : site.kind ∈ [Kind.classDef, .association]) (hnote : note ∈ site.memberNotes file) :
    note ∈ (root (parse text).tree).models.flatMap (modelNotes file) := by
  have hkinds : ∀ kind ∈ [Kind.classDef, .association], kind.isMember = true ∧ kind ≠ .topic := by
    decide
  obtain ⟨hisMember, htopic⟩ := hkinds site.kind hkind
  have hmember : site ∈ parent.members := List.mem_filter.mpr ⟨hchild, hisMember⟩
  rcases parent_of_member hparent.within hchild hkind with hmodel | hinTopic
  · refine hparent.mem_notes_of_member hmodel hmember ?_
    rwa [if_neg htopic]
  · cases hparent with
    | file => cases hinTopic
    | @child model _ hmodel hinner hname =>
      have hbelow := below_of_child hmodel.within hinner hinTopic rfl (by decide)
      refine hmodel.mem_notes_of_member (beq_iff_eq.mp hbelow)
        (List.mem_filter.mpr ⟨hinner, by rw [hinTopic]; rfl⟩) ?_
      rw [if_pos hinTopic]
      exact Heading.mem_notes_of_mem (isSome_heading? file hname)
        (List.mem_flatMap.mpr ⟨site, hmember, hnote⟩)

/-- A class in a named place stands in a model or in a topic of one. -/
theorem Named.mem_notes {heading : Heading} (h : (root (parse text).tree).Named site)
    (hkind : site.kind = .classDef) (hheading : site.heading? file = some heading) :
    ⟨.classLike, heading, none⟩ ∈
      (root (parse text).tree).models.flatMap (modelNotes file) := by
  have hnote : ⟨.classLike, heading, none⟩ ∈ site.memberNotes file := by
    rw [memberNotes, hkind]
    exact Heading.mem_notes hheading
  cases h with
  | file => cases hkind
  | child hparent hchild _ =>
    exact hparent.mem_notes_of_memberNotes hchild (by rw [hkind]; decide) hnote

end Parsed

end Site

/-- A class in a named place becomes a definition, with what is written in front of it. -/
theorem Catalog.exists_definition_of_class {site : Site}
    (hnamed : (Site.root (parse text).tree).Named site) (hkind : site.kind = .classDef)
    (uri : Option String) :
    ∃ definition ∈ (ofText text uri).definitions, definition.kind = .classLike ∧
      site.name? = some definition.name ∧ definition.span = site.span (contextOf text uri) ∧
      definition.metaAttributes = site.metaAttributes := by
  have hname : site.nameToken?.isSome = true := by
    cases hnamed with
    | file => cases hkind
    | child _ _ hname => exact hname
  obtain ⟨token, htoken⟩ := Option.isSome_iff_exists.mp hname
  have hheading : site.heading? (contextOf text uri) =
      some (site.headingAt (contextOf text uri) token.text token) := by
    rw [Site.heading?, htoken, Option.map_some]
  have hnote := hnamed.mem_notes hkind hheading
  rw [← notes_ofText] at hnote
  obtain ⟨definition, hmem, heq⟩ := List.mem_map.mp hnote
  obtain ⟨hclass, hsame, -⟩ := Note.mk.inj heq
  obtain ⟨hsameName, hspan, -, hmeta⟩ := Heading.mk.inj hsame
  refine ⟨definition, Array.mem_toList_iff.mp hmem, hclass, ?_, hspan, hmeta⟩
  rw [Site.name?, htoken, Option.map_some, hsameName]

/-- **A class has the attributes of the line in front of it, unless a gap stands between them.**
Wherever a line of attributes ends and a class in a named place begins, the class becomes a
definition; its attributes are those of the line, in their order, or none if a gap stands there. In
a text without errors every class stands in a named place and there is no gap. -/
theorem metaAttributes_of_line (line : MetaLine text) {site : Site}
    (hsite : (Site.root (parse text).tree).Within site) (hkind : site.kind = .classDef)
    (hstart : site.start = line.stop) :
    ((Site.root (parse text).tree).Named site → ∀ uri,
      ∃ definition ∈ (Catalog.ofText text uri).definitions, definition.kind = .classLike ∧
        site.name? = some definition.name ∧
        definition.span = site.span (Catalog.contextOf text uri) ∧
        (Leaf.HasGapAt (parse text).tree.leaves line.stop →
          definition.metaAttributes.entries = []) ∧
        (¬Leaf.HasGapAt (parse text).tree.leaves line.stop →
          definition.metaAttributes.entries = line.attributes.map WrittenAttribute.pair)) ∧
      ((parse text).errors = [] → (Site.root (parse text).tree).Named site ∧
        ¬Leaf.HasGapAt (parse text).tree.leaves line.stop) := by
  obtain ⟨hgap, hnone⟩ := Site.entries_metaAttributes line hsite hkind hstart
  refine ⟨fun hnamed uri => ?_, fun hok => ⟨?_, ?_⟩⟩
  · obtain ⟨definition, hmem, hclass, hname, hspan, hmeta⟩ :=
      Catalog.exists_definition_of_class hnamed hkind uri
    rw [← hmeta] at hgap hnone
    exact ⟨definition, hmem, hclass, hname, hspan, hgap, hnone⟩
  · exact Site.named_of_within hok hsite (by rw [hkind]; decide)
  · rintro ⟨left, right, hleaves, -⟩
    refine Site.gap_notMem_leaves hok hsite hkind ?_
    rw [hleaves]
    exact List.mem_append_right _ List.mem_cons_self

/-- A text in which the name of an import is missing. -/
def importless : String :=
  "INTERLIS 2.4; MODEL M = IMPORTS\n!!@ a = \"b\"\nCLASS B = END B; END M."

def importlessLine : MetaLine importless where
  attributes := [⟨"a", "b", by decide, by decide, List.all_iff_forall_prop.mp (by decide),
    List.all_iff_forall_prop.mp (by decide)⟩]
  nonempty := List.cons_ne_nil _ _
  distinct := by decide
  before := (tokenize importless).take 13
  behind := (tokenize importless).drop 13
  tokens := (List.take_append_drop ..).symm
  blanks := ['\n']
  rest := "CLASS B = END B; END M.".toList
  written := by decide +kernel
  blank := List.all_eq_true.mp rfl
  ended := by decide
  single := by decide +kernel

/-- Behind an import without a name the class has no attributes. -/
theorem metaAttributes_of_line_importless :
    ∃ definition ∈ (Catalog.ofText importless none).definitions,
      definition.kind = .classLike ∧ definition.name = "B" ∧
        importlessLine.attributes.map WrittenAttribute.pair = [("a", "b")] ∧
        definition.metaAttributes.entries = [] := by
  have hsite : ∃ model ∈ (Site.root (parse importless).tree).children,
      ∃ site ∈ model.children, site.kind = .classDef ∧ site.start = importlessLine.stop ∧
        model.nameToken?.isSome = true ∧ site.nameToken?.isSome = true ∧
        site.name? = some "B" := by
    decide +kernel
  obtain ⟨model, hmodel, site, hsite, hkind, hstart, hmodelName, hsiteName, hname⟩ := hsite
  have hgap : Leaf.HasGapAt (parse importless).tree.leaves importlessLine.stop :=
    ⟨(parse importless).tree.leaves.take 15, (parse importless).tree.leaves.drop 16,
      by decide +kernel, by decide +kernel⟩
  have hnamed : (Site.root (parse importless).tree).Named site :=
    (Site.Named.file.child hmodel hmodelName).child hsite hsiteName
  obtain ⟨definition, hmem, hclass, hdefined, -, hnone, -⟩ :=
    (metaAttributes_of_line importlessLine hnamed.within hkind hstart).1 hnamed none
  refine ⟨definition, hmem, hclass, ?_, rfl, hnone hgap⟩
  exact (Option.some.inj (hname.symm.trans hdefined)).symm

end Ili
