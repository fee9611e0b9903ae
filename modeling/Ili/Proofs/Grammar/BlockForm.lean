import Ili.Proofs.Grammar.Productions

/-!
# The form of blocks

Models, topics, classes and associations are built alike: a head, an equals sign, the members of the
body, an `END` and what closes the block. Without errors no member stands in front of the equals
sign and none behind the `END`.
-/

namespace Ili

open Computability

namespace Shape

def kinds : Shape → List Kind
  | empty => []
  | one kinds _ => kinds
  | seq first second => first.kinds ++ second.kinds
  | alt left right => left.kinds ++ right.kinds
  | many body => body.kinds
  | tokens | anything => Kind.all
  | lenient documented _ => documented.kinds

theorem kind_mem_kinds {shape : Shape} {row : List Tree} (h : row ∈ shape.language) :
    ∀ tree ∈ row, tree.kind ∈ shape.kinds := by
  induction shape generalizing row with
  | empty =>
    intro tree htree
    rw [Set.mem_singleton_iff.mp h] at htree
    cases htree
  | one kinds words =>
    obtain ⟨tree, rfl, hkind, -⟩ := h
    intro other hother
    rw [List.mem_singleton.mp hother]
    exact hkind
  | seq first second ihFirst ihSecond =>
    obtain ⟨left, hleft, right, hright, rfl⟩ := h
    intro tree htree
    exact List.mem_append.mpr ((List.mem_append.mp htree).imp (ihFirst hleft tree)
      (ihSecond hright tree))
  | alt left right ihLeft ihRight =>
    intro tree htree
    exact List.mem_append.mpr (h.imp (fun h => ihLeft h tree htree) fun h => ihRight h tree htree)
  | many body ih =>
    obtain ⟨parts, rfl, hparts⟩ := Language.mem_kstar.mp h
    intro tree htree
    obtain ⟨part, hpart, htree⟩ := List.mem_flatten.mp htree
    exact ih (hparts part hpart) tree htree
  | tokens | anything => exact fun tree _ => Kind.mem_all _
  | lenient documented taken ih => exact ih h

theorem language_row_append (shapes others : List Shape) :
    (row (shapes ++ others)).language = (row shapes).language * (row others).language := by
  induction shapes with
  | nil => exact (one_mul _).symm
  | cons shape rest ih =>
    have hcons (shape : Shape) (rest : List Shape) :
        (row (shape :: rest)).language = shape.language * (row rest).language :=
      language_andThen shape (row rest)
    rw [List.cons_append, hcons, hcons, ih, mul_assoc]

theorem mem_single_iff {kind : Kind} {row : List Tree} :
    row ∈ (single kind).language ↔ ∃ tree : Tree, row = [tree] ∧ tree.kind = kind := by
  constructor
  · rintro ⟨tree, rfl, hkind, -⟩
    exact ⟨tree, rfl, List.mem_singleton.mp hkind⟩
  · rintro ⟨tree, rfl, hkind⟩
    exact ⟨tree, rfl, List.mem_singleton.mpr hkind, nofun⟩

end Shape

namespace Grammar

open Shape

def blocks : List Kind :=
  [.model, .topic, .classDef, .association]

def blockHead : Kind → List Shape
  | .model =>
    [optional (single .contractedKw),
      optional (one [.typeKw, .refsystemKw, .symbologyKw] none),
      single .modelKw, single .name,
      optional (row [single .lParen, single .ident, single .rParen]),
      optional (row [single .atKw, single .string]),
      optional (row [single .versionKw, single .string]),
      optional (single .translationOf)]
  | .topic => [single .topicKw, single .name] ++ propertiesAndExtends
  | .classDef => [one [.classKw, .structureKw] none, single .name] ++ propertiesAndExtends
  | .association => [single .associationKw, optional (single .name)] ++ propertiesAndExtends
  | _ => []

def bodyNodes : Kind → List Kind
  | .model =>
    [.imports, .unitSection, .domainSection, .topic, .classDef, .association, .rawBlock,
      .rawStatement]
  | .topic =>
    [.oidDecl, .dependsOn, .classDef, .association, .domainSection, .rawBlock, .rawStatement]
  | .classDef | .association => [.oidDecl, .cardinalityDecl, .constraint, .role, .attributeDef]
  | _ => []

def bodyWords : Kind → List Kind
  | .classDef | .association => [.attributeKw, .parameterKw]
  | _ => []

def blockTail : Kind → List Shape
  | .model => [single .ident, single .dot]
  | .topic => [single .ident, single .semicolon]
  | _ => [optional (single .ident), single .semicolon]

theorem production_block {kind : Kind} (h : kind ∈ blocks) :
    production kind = row (blockHead kind ++ (single .eq ::
      many (one (bodyWords kind ++ bodyNodes kind) none) :: single .endKw :: blockTail kind)) := by
  revert kind
  decide +kernel

/-- A row built as a block of this kind is built. -/
structure BlockForm (kind : Kind) (head : List Tree) (sign : Tree) (body : List Tree)
    (closing : Tree) (tail : List Tree) : Prop where
  head : ∀ tree ∈ head, tree.kind ∈ (row (blockHead kind)).kinds
  sign : sign.kind = .eq
  body : ∀ tree ∈ body, tree.kind ∈ bodyWords kind ++ bodyNodes kind
  closing : closing.kind = .endKw
  tail : ∀ tree ∈ tail, tree.kind ∈ (row (blockTail kind)).kinds

theorem BlockForm.mem_bodyNodes {kind : Kind} {head body tail left right : List Tree}
    {sign closing child : Tree} (hkind : kind ∈ blocks)
    (h : BlockForm kind head sign body closing tail)
    (hrow : left ++ child :: right = head ++ sign :: body ++ closing :: tail)
    (hsign : ∃ tree ∈ left, tree.kind = .eq) (hnode : child.kind.isNode = true) :
    child.kind ∈ bodyNodes kind := by
  have hhead : ∀ kind ∈ blocks, .eq ∉ (row (blockHead kind)).kinds := by decide
  have hwords : ∀ kind ∈ blocks, ∀ word ∈ .eq :: .endKw :: bodyWords kind ++
      (row (blockTail kind)).kinds, word.isNode = false := by decide
  have hword (hmem : child.kind ∈ .eq :: .endKw :: bodyWords kind ++
      (row (blockTail kind)).kinds) : child.kind ∈ bodyNodes kind := by
    rw [hwords kind hkind child.kind hmem] at hnode
    cases hnode
  rw [List.append_assoc] at hrow
  rcases List.append_eq_append_iff.mp hrow with ⟨rest, rfl, -⟩ | ⟨rest, -, hrest⟩
  · -- In front of the end of the head there is no equals sign yet.
    obtain ⟨tree, htree, heq⟩ := hsign
    have hin := h.head tree (List.mem_append_left _ htree)
    rw [heq] at hin
    exact absurd hin (hhead kind hkind)
  · have hmem : child ∈ sign :: body ++ closing :: tail := by
      rw [hrest]
      exact List.mem_append_right _ List.mem_cons_self
    rcases List.mem_append.mp hmem with hfront | hback
    · rcases List.mem_cons.mp hfront with rfl | hbody
      · exact hword (by simp [h.sign])
      · exact (List.mem_append.mp (h.body child hbody)).elim
          (fun hin => hword (by simp [hin])) id
    · rcases List.mem_cons.mp hback with rfl | htail
      · exact hword (by simp [h.closing])
      · exact hword (by simp [h.tail child htail])

theorem exists_blockForm {kind : Kind} (hkind : kind ∈ blocks) {trees : List Tree}
    (h : trees ∈ (production kind).language) :
    ∃ head sign body closing tail, trees = head ++ sign :: body ++ closing :: tail ∧
      BlockForm kind head sign body closing tail := by
  have hsplit (shape : Shape) (rest : List Shape) : shape :: rest = [shape] ++ rest := rfl
  have hone (shape : Shape) : (row [shape]).language = shape.language :=
    (language_andThen shape empty).trans (mul_one _)
  rw [production_block hkind, language_row_append, hsplit (single .eq), language_row_append, hone,
    hsplit (many _), language_row_append, hone, hsplit (single .endKw), language_row_append, hone]
    at h
  obtain ⟨head, hhead, _, ⟨_, hsign, _, ⟨body, hbody, _, ⟨_, hclosing, tail, htail, rfl⟩, rfl⟩,
    rfl⟩, rfl⟩ := h
  obtain ⟨sign, rfl, heq⟩ := mem_single_iff.mp hsign
  obtain ⟨closing, rfl, hend⟩ := mem_single_iff.mp hclosing
  exact ⟨head, sign, body, closing, tail, by simp, kind_mem_kinds hhead, heq,
    kind_mem_kinds hbody, hend, kind_mem_kinds htail⟩

/-- The children of a block without errors. -/
theorem exists_blockForm_parse {text : String} (hok : (parse text).errors = []) {block : Tree}
    (hblock : block ∈ (parse text).tree.nodes) (hkind : block.kind ∈ blocks) :
    ∃ head sign body closing tail,
      block.visibleChildren = head ++ sign :: body ++ closing :: tail ∧
        BlockForm block.kind head sign body closing tail := by
  have hlenient : block.kind ∉ lenientKinds := by
    revert hkind
    generalize block.kind = kind
    revert kind
    decide
  have hrow : block.visibleChildren ∈ (production block.kind).relaxed.language :=
    conforms_parse hok block (List.mem_append_left _ hblock)
  rw [relaxed_of_isExact (isExact_production hlenient)] at hrow
  exact exists_blockForm hkind hrow

end Grammar

end Ili
