/-!
# Kinds of tokens and of tree nodes

One closed list names everything that can stand in the tree of a model file: blanks and comments,
literals, punctuation, reserved words, and the composite nodes built from them. The list is ordered;
the number of a kind is its place in it, and the classes of kinds below are runs of that order.
-/

namespace Ili

inductive Kind where
  -- Blanks and comments.
  | whitespace | lineComment | metaComment | blockComment | docComment
  -- Literals.
  | ident | integer | decimal | string
  -- Punctuation.
  | lParen | rParen | lBracket | rBracket | lBrace | rBrace | semicolon | colon | comma | dot
  | dotDot | eq | eqEq | bangEq | ltGt | lt | gt | ltEq | gtEq | colonEq | arrow | assocRole
  | aggregationRole | compositionRole | star | plus | minus | slash | percent | hash | tilde
  | atSign | backslash
  -- Reserved words, upper case in the text.
  | interlisKw | modelKw | typeKw | refsystemKw | symbologyKw | contractedKw | translationKw
  | endKw | atKw | versionKw | importsKw | unqualifiedKw | topicKw | classKw | structureKw
  | associationKw | attributeKw | parameterKw | domainKw | unitKw | extendsKw | extendedKw
  | abstractKw | finalKw | externalKw | genericKw | concreteKw | oidKw | basketKw | noKw | asKw
  | dependsKw | onKw | textKw | mtextKw | nameKw | uriKw | booleanKw | referenceKw | toKw | bagKw
  | listKw | ofKw | blackboxKw | binaryKw | xmlKw | mandatoryKw | constraintKw | constraintsKw
  | uniqueKw | existenceKw | setKw | cardinalityKw | orKw | viewKw | graphicKw | functionKw
  | lineKw | formKw | contextKw | parentKw | thisKw
  -- Composite nodes; the last one holds what no rule could place.
  | sourceFile | header | model | translationOf | imports | importItem | path | name | properties
  | extendsClause | unitSection | unitDef | domainSection | domainDef | domainConstraints
  | domainConstraint | topic | oidDecl | dependsOn | classDef | association | attributeDef | role
  | cardinality | cardinalityDecl | constraint | textType | numericType | booleanType | enumType
  | enumElement | referenceType | listType | blackboxType | typeRef | rawType | rawStatement
  | rawBlock | error
  deriving DecidableEq, Repr, Inhabited

namespace Kind

def all : List Kind :=
  [.whitespace, .lineComment, .metaComment, .blockComment, .docComment, .ident, .integer,
  .decimal, .string, .lParen, .rParen, .lBracket, .rBracket, .lBrace, .rBrace, .semicolon,
  .colon, .comma, .dot, .dotDot, .eq, .eqEq, .bangEq, .ltGt, .lt, .gt, .ltEq, .gtEq, .colonEq,
  .arrow, .assocRole, .aggregationRole, .compositionRole, .star, .plus, .minus, .slash, .percent,
  .hash, .tilde, .atSign, .backslash, .interlisKw, .modelKw, .typeKw, .refsystemKw, .symbologyKw,
  .contractedKw, .translationKw, .endKw, .atKw, .versionKw, .importsKw, .unqualifiedKw, .topicKw,
  .classKw, .structureKw, .associationKw, .attributeKw, .parameterKw, .domainKw, .unitKw,
  .extendsKw, .extendedKw, .abstractKw, .finalKw, .externalKw, .genericKw, .concreteKw, .oidKw,
  .basketKw, .noKw, .asKw, .dependsKw, .onKw, .textKw, .mtextKw, .nameKw, .uriKw, .booleanKw,
  .referenceKw, .toKw, .bagKw, .listKw, .ofKw, .blackboxKw, .binaryKw, .xmlKw, .mandatoryKw,
  .constraintKw, .constraintsKw, .uniqueKw, .existenceKw, .setKw, .cardinalityKw, .orKw, .viewKw,
  .graphicKw, .functionKw, .lineKw, .formKw, .contextKw, .parentKw, .thisKw, .sourceFile,
  .header, .model, .translationOf, .imports, .importItem, .path, .name, .properties,
  .extendsClause, .unitSection, .unitDef, .domainSection, .domainDef, .domainConstraints,
  .domainConstraint, .topic, .oidDecl, .dependsOn, .classDef, .association, .attributeDef, .role,
  .cardinality, .cardinalityDecl, .constraint, .textType, .numericType, .booleanType, .enumType,
  .enumElement, .referenceType, .listType, .blackboxType, .typeRef, .rawType, .rawStatement,
  .rawBlock, .error]

def number (kind : Kind) : Nat :=
  kind.ctorIdx

def ofNumber? (number : Nat) : Option Kind :=
  all[number]?

/-- Upper-case label of a kind, as it appears in messages and dumps. -/
def label : Kind → String
  | .whitespace => "WHITESPACE"
  | .lineComment => "LINE_COMMENT"
  | .metaComment => "META_COMMENT"
  | .blockComment => "BLOCK_COMMENT"
  | .docComment => "DOC_COMMENT"
  | .ident => "IDENT"
  | .integer => "INTEGER"
  | .decimal => "DECIMAL"
  | .string => "STRING"
  | .lParen => "L_PAREN"
  | .rParen => "R_PAREN"
  | .lBracket => "L_BRACKET"
  | .rBracket => "R_BRACKET"
  | .lBrace => "L_BRACE"
  | .rBrace => "R_BRACE"
  | .semicolon => "SEMICOLON"
  | .colon => "COLON"
  | .comma => "COMMA"
  | .dot => "DOT"
  | .dotDot => "DOT_DOT"
  | .eq => "EQ"
  | .eqEq => "EQ_EQ"
  | .bangEq => "BANG_EQ"
  | .ltGt => "LT_GT"
  | .lt => "LT"
  | .gt => "GT"
  | .ltEq => "LT_EQ"
  | .gtEq => "GT_EQ"
  | .colonEq => "COLON_EQ"
  | .arrow => "ARROW"
  | .assocRole => "ASSOC_ROLE"
  | .aggregationRole => "AGGREGATION_ROLE"
  | .compositionRole => "COMPOSITION_ROLE"
  | .star => "STAR"
  | .plus => "PLUS"
  | .minus => "MINUS"
  | .slash => "SLASH"
  | .percent => "PERCENT"
  | .hash => "HASH"
  | .tilde => "TILDE"
  | .atSign => "AT"
  | .backslash => "BACKSLASH"
  | .interlisKw => "INTERLIS_KW"
  | .modelKw => "MODEL_KW"
  | .typeKw => "TYPE_KW"
  | .refsystemKw => "REFSYSTEM_KW"
  | .symbologyKw => "SYMBOLOGY_KW"
  | .contractedKw => "CONTRACTED_KW"
  | .translationKw => "TRANSLATION_KW"
  | .endKw => "END_KW"
  | .atKw => "AT_KW"
  | .versionKw => "VERSION_KW"
  | .importsKw => "IMPORTS_KW"
  | .unqualifiedKw => "UNQUALIFIED_KW"
  | .topicKw => "TOPIC_KW"
  | .classKw => "CLASS_KW"
  | .structureKw => "STRUCTURE_KW"
  | .associationKw => "ASSOCIATION_KW"
  | .attributeKw => "ATTRIBUTE_KW"
  | .parameterKw => "PARAMETER_KW"
  | .domainKw => "DOMAIN_KW"
  | .unitKw => "UNIT_KW"
  | .extendsKw => "EXTENDS_KW"
  | .extendedKw => "EXTENDED_KW"
  | .abstractKw => "ABSTRACT_KW"
  | .finalKw => "FINAL_KW"
  | .externalKw => "EXTERNAL_KW"
  | .genericKw => "GENERIC_KW"
  | .concreteKw => "CONCRETE_KW"
  | .oidKw => "OID_KW"
  | .basketKw => "BASKET_KW"
  | .noKw => "NO_KW"
  | .asKw => "AS_KW"
  | .dependsKw => "DEPENDS_KW"
  | .onKw => "ON_KW"
  | .textKw => "TEXT_KW"
  | .mtextKw => "MTEXT_KW"
  | .nameKw => "NAME_KW"
  | .uriKw => "URI_KW"
  | .booleanKw => "BOOLEAN_KW"
  | .referenceKw => "REFERENCE_KW"
  | .toKw => "TO_KW"
  | .bagKw => "BAG_KW"
  | .listKw => "LIST_KW"
  | .ofKw => "OF_KW"
  | .blackboxKw => "BLACKBOX_KW"
  | .binaryKw => "BINARY_KW"
  | .xmlKw => "XML_KW"
  | .mandatoryKw => "MANDATORY_KW"
  | .constraintKw => "CONSTRAINT_KW"
  | .constraintsKw => "CONSTRAINTS_KW"
  | .uniqueKw => "UNIQUE_KW"
  | .existenceKw => "EXISTENCE_KW"
  | .setKw => "SET_KW"
  | .cardinalityKw => "CARDINALITY_KW"
  | .orKw => "OR_KW"
  | .viewKw => "VIEW_KW"
  | .graphicKw => "GRAPHIC_KW"
  | .functionKw => "FUNCTION_KW"
  | .lineKw => "LINE_KW"
  | .formKw => "FORM_KW"
  | .contextKw => "CONTEXT_KW"
  | .parentKw => "PARENT_KW"
  | .thisKw => "THIS_KW"
  | .sourceFile => "SOURCE_FILE"
  | .header => "HEADER"
  | .model => "MODEL"
  | .translationOf => "TRANSLATION_OF"
  | .imports => "IMPORTS"
  | .importItem => "IMPORT_ITEM"
  | .path => "PATH"
  | .name => "NAME"
  | .properties => "PROPERTIES"
  | .extendsClause => "EXTENDS_CLAUSE"
  | .unitSection => "UNIT_SECTION"
  | .unitDef => "UNIT_DEF"
  | .domainSection => "DOMAIN_SECTION"
  | .domainDef => "DOMAIN_DEF"
  | .domainConstraints => "DOMAIN_CONSTRAINTS"
  | .domainConstraint => "DOMAIN_CONSTRAINT"
  | .topic => "TOPIC"
  | .oidDecl => "OID_DECL"
  | .dependsOn => "DEPENDS_ON"
  | .classDef => "CLASS"
  | .association => "ASSOCIATION"
  | .attributeDef => "ATTRIBUTE"
  | .role => "ROLE"
  | .cardinality => "CARDINALITY"
  | .cardinalityDecl => "CARDINALITY_DECL"
  | .constraint => "CONSTRAINT"
  | .textType => "TEXT_TYPE"
  | .numericType => "NUMERIC_TYPE"
  | .booleanType => "BOOLEAN_TYPE"
  | .enumType => "ENUM_TYPE"
  | .enumElement => "ENUM_ELEMENT"
  | .referenceType => "REFERENCE_TYPE"
  | .listType => "LIST_TYPE"
  | .blackboxType => "BLACKBOX_TYPE"
  | .typeRef => "TYPE_REF"
  | .rawType => "OPAQUE_TYPE"
  | .rawStatement => "OPAQUE_STATEMENT"
  | .rawBlock => "OPAQUE_BLOCK"
  | .error => "ERROR"

def isComment : Kind → Bool
  | .lineComment | .metaComment | .blockComment | .docComment => true
  | _ => false

/-- Blanks and comments: kept in the tree, never looked at by the grammar. -/
def isTrivia (kind : Kind) : Bool :=
  kind == .whitespace || kind.isComment

def isKeyword (kind : Kind) : Bool :=
  interlisKw.number ≤ kind.number && kind.number ≤ thisKw.number

def isPunctuation (kind : Kind) : Bool :=
  lParen.number ≤ kind.number && kind.number ≤ backslash.number

def isNode (kind : Kind) : Bool :=
  sourceFile.number ≤ kind.number && kind.number ≤ error.number

/-- Nodes that stand in the body of a model or a topic and declare something there. -/
def isMember : Kind → Bool
  | .imports | .unitSection | .domainSection | .topic | .classDef | .association | .oidDecl
  | .dependsOn => true
  | _ => false

def isType : Kind → Bool
  | .textType | .numericType | .booleanType | .enumType | .referenceType | .listType
  | .blackboxType | .typeRef | .rawType => true
  | _ => false

def keywords : List (String × Kind) :=
  [("INTERLIS", .interlisKw), ("MODEL", .modelKw), ("TYPE", .typeKw),
  ("REFSYSTEM", .refsystemKw), ("SYMBOLOGY", .symbologyKw), ("CONTRACTED", .contractedKw),
  ("TRANSLATION", .translationKw), ("END", .endKw), ("AT", .atKw), ("VERSION", .versionKw),
  ("IMPORTS", .importsKw), ("UNQUALIFIED", .unqualifiedKw), ("TOPIC", .topicKw),
  ("CLASS", .classKw), ("STRUCTURE", .structureKw), ("ASSOCIATION", .associationKw),
  ("ATTRIBUTE", .attributeKw), ("PARAMETER", .parameterKw), ("DOMAIN", .domainKw),
  ("UNIT", .unitKw), ("EXTENDS", .extendsKw), ("EXTENDED", .extendedKw),
  ("ABSTRACT", .abstractKw), ("FINAL", .finalKw), ("EXTERNAL", .externalKw),
  ("GENERIC", .genericKw), ("CONCRETE", .concreteKw), ("OID", .oidKw), ("BASKET", .basketKw),
  ("NO", .noKw), ("AS", .asKw), ("DEPENDS", .dependsKw), ("ON", .onKw), ("TEXT", .textKw),
  ("MTEXT", .mtextKw), ("NAME", .nameKw), ("URI", .uriKw), ("BOOLEAN", .booleanKw),
  ("REFERENCE", .referenceKw), ("TO", .toKw), ("BAG", .bagKw), ("LIST", .listKw), ("OF", .ofKw),
  ("BLACKBOX", .blackboxKw), ("BINARY", .binaryKw), ("XML", .xmlKw), ("MANDATORY", .mandatoryKw),
  ("CONSTRAINT", .constraintKw), ("CONSTRAINTS", .constraintsKw), ("UNIQUE", .uniqueKw),
  ("EXISTENCE", .existenceKw), ("SET", .setKw), ("CARDINALITY", .cardinalityKw), ("OR", .orKw),
  ("VIEW", .viewKw), ("GRAPHIC", .graphicKw), ("FUNCTION", .functionKw), ("LINE", .lineKw),
  ("FORM", .formKw), ("CONTEXT", .contextKw), ("PARENT", .parentKw), ("THIS", .thisKw)]

/-- The kind of a word: a reserved word only in exactly its spelling, else an identifier. -/
def ofWord (word : String) : Kind :=
  (keywords.lookup word).getD .ident

theorem all_getElem?_number (kind : Kind) : all[kind.number]? = some kind := by
  cases kind <;> rfl

theorem ofNumber?_number (kind : Kind) : ofNumber? kind.number = some kind :=
  all_getElem?_number kind

theorem mem_all (kind : Kind) : kind ∈ all :=
  List.mem_of_getElem? (all_getElem?_number kind)

end Kind

end Ili
