import Ili.Proofs.Grammar.Scan

/-!
# Texts without errors conform to the grammar

The grammar is documented by a production for each kind of node. Here the productions stand as
shapes, and the rules are compared with them: in the tree of a text without errors every node holds
what its production says, or something that the production marks as passing all the same. Where a
type, a value, an expression or a property that is due is missing, nothing is reported. A role may
be given a value, and where its production and that of a reference ask for the word `EXTERNAL`, any
property list passes.
-/

namespace Ili

namespace Grammar

open Shape

def word : Shape :=
  one (.ident :: Kind.all.filter Kind.isKeyword) none

def types : List Kind :=
  Kind.all.filter Kind.isType

/-- [Properties] [Extends] -/
def propertiesAndExtends : List Shape :=
  [optional (single .properties), optional (single .extendsClause)]

/-- [Properties] [Extends] '=' {Member} 'END' [Name] ';' -/
def classRestProduction : List Shape :=
  propertiesAndExtends ++
    [single .eq,
      many (one [.attributeKw, .parameterKw, .oidDecl, .cardinalityDecl, .constraint, .role,
        .attributeDef] none),
      single .endKw, optional (single .ident), single .semicolon]

/-- Path {'OR' Path} -/
def pathsProduction : Shape :=
  separated .orKw (single .path)

/-- ['(' 'EXTERNAL' ')'], though any property list passes. -/
def externalProduction : Shape :=
  lenient (optional (one [.properties] (some ["(EXTERNAL)"]))) (optional (single .properties))

/-- ['-'] (Integer | Decimal) -/
def numberProduction : Shape :=
  row [optional (single .minus), one [.integer, .decimal] none]

/-- What a node holds, blanks and comments aside. Anything goes for the kinds without a documented
production. -/
def production : Kind → Shape
  | .sourceFile => row [single .header, many (single .model)]
  | .header => row [single .interlisKw, single .decimal, single .semicolon]
  | .model => row
    [optional (single .contractedKw),
      optional (one [.typeKw, .refsystemKw, .symbologyKw] none),
      single .modelKw, single .name,
      optional (row [single .lParen, single .ident, single .rParen]),
      optional (row [single .atKw, single .string]),
      optional (row [single .versionKw, single .string]),
      optional (single .translationOf),
      single .eq,
      many (one [.imports, .unitSection, .domainSection, .topic, .classDef, .association,
        .rawBlock, .rawStatement] none),
      single .endKw, single .ident, single .dot]
  | .translationOf => row
    [single .translationKw, single .ofKw, single .path,
      optional (row [single .lBracket, single .string, single .rBracket])]
  | .imports => row
    [single .importsKw, separated .comma (single .importItem), single .semicolon]
  | .importItem => row [optional (single .unqualifiedKw), single .path]
  | .unitSection => row [single .unitKw, many (single .unitDef)]
  | .unitDef => row
    [single .name, optional (single .properties),
      optional (row [single .lBracket, single .name, single .rBracket]),
      optional (single .extendsClause), optional (row [single .eq, due tokens]),
      single .semicolon]
  | .domainSection => row [single .domainKw, many (single .domainDef)]
  | .domainDef => row <|
    [single .name] ++ propertiesAndExtends ++
      [single .eq, optional (single .mandatoryKw), due (one types none),
        optional (single .domainConstraints), single .semicolon]
  | .domainConstraints => row
    [single .constraintsKw, separated .comma (single .domainConstraint)]
  | .domainConstraint => row [single .name, single .colon, due tokens]
  | .topic => row <|
    [single .topicKw, single .name] ++ propertiesAndExtends ++
      [single .eq,
        many (one [.oidDecl, .dependsOn, .classDef, .association, .domainSection, .rawBlock,
          .rawStatement] none),
        single .endKw, single .ident, single .semicolon]
  -- The semicolon is common to the two forms.
  | .oidDecl => row
    [alt (row [optional (single .basketKw), single .oidKw, single .asKw, single .path])
        (row [single .noKw, single .oidKw]),
      single .semicolon]
  | .dependsOn => row
    [single .dependsKw, single .onKw, separated .comma (single .path), single .semicolon]
  | .classDef => row <| [one [.classKw, .structureKw] none, single .name] ++ classRestProduction
  | .association => row <|
    [single .associationKw, optional (single .name)] ++ classRestProduction
  | .attributeDef => row
    [single .name, optional (single .properties), single .colon,
      optional (single .mandatoryKw), due (one types none),
      optional (row [single .colonEq, due tokens]), single .semicolon]
  -- A value is not documented for roles.
  | .role => row
    [single .name, optional (single .properties), one roleOperators none,
      optional (single .cardinality), externalProduction, pathsProduction,
      lenient empty (optional (row [single .colonEq, optional tokens])), single .semicolon]
  | .cardinality => row
    [single .lBrace, one [.integer, .star] none,
      optional (row [single .dotDot, one [.integer, .star] none]), single .rBrace]
  | .cardinalityDecl => row
    [single .cardinalityKw, single .eq, single .cardinality, single .semicolon]
  | .constraint => row [one constraintStarts none, due tokens, single .semicolon]
  -- The list may be empty, and its last comma may have nothing behind it.
  | .properties => row
    [single .lParen,
      lenient (separated .comma word)
        (optional (row [word, many (row [single .comma, word]), optional (single .comma)])),
      single .rParen]
  | .extendsClause => row [single .extendsKw, single .path]
  | .name => single .ident
  | .path => row [one pathStarts none, many (row [single .dot, word])]
  | .numericType => row
    [numberProduction, single .dotDot, numberProduction,
      optional (row [single .lBracket, single .path, single .rBracket])]
  | .enumType => row
    [single .lParen,
      alt (single .finalKw)
        (row [separated .comma (single .enumElement),
          optional (row [single .colon, single .finalKw])]),
      single .rParen, optional (one [.ident] (some ["ORDERED", "CIRCULAR"]))]
  | .enumElement => row [single .name, optional (one [.enumType, .finalKw] none)]
  | .referenceType => row
    [single .referenceKw, single .toKw, externalProduction, pathsProduction]
  | .listType => row
    [one [.bagKw, .listKw] none, optional (single .cardinality), single .ofKw, single .path]
  | .blackboxType => row [single .blackboxKw, one [.binaryKw, .xmlKw] none]
  | _ => anything

/-- Kinds of nodes that may hold what is not documented. -/
def lenientKinds : List Kind :=
  [.unitDef, .domainDef, .domainConstraint, .attributeDef, .role, .constraint, .properties,
    .referenceType]

theorem isExact_production {kind : Kind} (h : kind ∉ lenientKinds) :
    (production kind).isExact = true := by
  have hall : ∀ kind ∈ Kind.all, kind ∉ lenientKinds → (production kind).isExact = true := by
    decide +kernel
  exact hall kind (Kind.mem_all kind) h

theorem conforms_enumType :
    enumType.conforms (fun kind => (production kind).relaxed) .nothing = true := by
  decide +kernel

theorem conforms_file :
    (Rule.node .sourceFile file).conforms (fun kind => (production kind).relaxed) .nothing =
      true := by
  decide +kernel

end Grammar

theorem conforms_parse {text : String} (hok : (parse text).errors = []) :
    Tree.Conforms (fun kind => (Grammar.production kind).relaxed) [(parse text).tree] := by
  obtain ⟨last, hruns, -, herrors, -, htree⟩ := runs_parse text
  obtain ⟨trees, shape, after, hscan, hfits, hpart⟩ := hruns.foreseen (by decide)
    Grammar.conforms_enumType (herrors.trans hok) (Input.sorted_ofText text)
    (Outlook.holds_nothing _)
  have hfile := Grammar.conforms_file
  simp only [Rule.conforms, hscan, Option.all_some, Bool.and_eq_true] at hfile
  rw [htree, hpart.builder]
  exact (hfits hfile.1).node (Shape.language_le_of_within hfile.2 hpart.shape)

/-- **Without errors a node holds what its production says or lapses where the production is
lenient.** Blanks and comments aside, the children of a node are those documented for its kind; for
the kinds that are lenient they can also be the documented ones but for the places marked so. -/
theorem parse_follows_productions {text : String} (hok : (parse text).errors = []) {node : Tree}
    (hnode : node ∈ (parse text).tree.nodes) :
    node.visibleChildren ∈ (Grammar.production node.kind).language ∨
      node.kind ∈ Grammar.lenientKinds ∧
        node.visibleChildren ∈ (Grammar.production node.kind).lapses := by
  have hrelaxed : node.visibleChildren ∈ (Grammar.production node.kind).relaxed.language :=
    conforms_parse hok node (List.mem_append_left _ hnode)
  by_cases hlenient : node.kind ∈ Grammar.lenientKinds
  · exact (Shape.language_relaxed_le _ hrelaxed).imp id (⟨hlenient, ·⟩)
  · rw [Shape.relaxed_of_isExact (Grammar.isExact_production hlenient)] at hrelaxed
    exact .inl hrelaxed

/-- In this text nothing is reported, and still every kind that is lenient lapses. -/
theorem parse_follows_productions_lapsing :
    let text := "INTERLIS 2.4; MODEL M = UNIT u = ; DOMAIN D = CONSTRAINTS c: ; " ++
      "CLASS A () = x: ; r: REFERENCE TO (FINAL) A; UNIQUE ; END A; " ++
      "ASSOCIATION AB = a -- A := 1; END AB; END M."
    (parse text).errors = [] ∧ ∀ kind ∈ Grammar.lenientKinds,
      ∃ node ∈ (parse text).tree.nodes, node.kind = kind ∧
        node.visibleChildren ∉ (Grammar.production kind).language ∧
        node.visibleChildren ∈ (Grammar.production kind).lapses := by
  intro text
  have hok : (parse text).errors = [] := by decide +kernel
  have hlapses : ∀ kind ∈ Grammar.lenientKinds, ∃ node ∈ (parse text).tree.nodes,
      node.kind = kind ∧ node.visibleChildren ∉ (Grammar.production kind).language := by
    decide +kernel
  refine ⟨hok, fun kind hkind => ?_⟩
  obtain ⟨node, hnode, rfl, hother⟩ := hlapses kind hkind
  exact ⟨node, hnode, rfl, hother, ((parse_follows_productions hok hnode).resolve_left hother).2⟩

end Ili
