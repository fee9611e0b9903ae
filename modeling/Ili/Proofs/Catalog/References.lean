import Ili.Proofs.Catalog.Siblings
import Ili.Proofs.Tree.Sequence
import Mathlib.Data.List.Nodup

/-!
# References in the order of the text

The references of a definition are noted in the order of the text, right before the definition, and
it lists them in that order. Only a topic does not: it lists its base, the identifier domains of its
baskets and of its objects, and the topics it depends on, in whatever order they are declared, and
of several declarations of an identifier domain the last one only. So its list is what is written in
it as long as listing the paths in that way does not change them.
-/

namespace Ili

open scoped List

namespace Site

def typePaths (type : Site) : List Site :=
  match type.kind with
  | .numericType | .listType | .typeRef => (type.child? .path).toList
  | .referenceType => type.childrenOf .path
  | _ => []

def headPaths (member : Site) : List Site :=
  match member.kind with
  | .oidDecl => (member.child? .path).toList
  | .dependsOn => member.childrenOf .path
  | _ => []

def dependsPaths (member : Site) : List Site :=
  if member.kind = .dependsOn then member.childrenOf .path else []

def declaresOid (basket : Bool) (member : Site) : Bool :=
  member.kind == .oidDecl && member.has .basketKw == basket

/-- The path in the last declaration of such an identifier domain. -/
def oidPath? (basket : Bool) (members : List Site) : Option Site :=
  (members.filter (declaresOid basket)).getLast?.bind fun member => member.child? .path

/-- The paths in the head of a topic, as they are written. -/
def writtenPaths (topic : Site) : List Site :=
  topic.extended?.toList ++ topic.members.flatMap headPaths

/-- The paths in the head of a topic, by what they are for. -/
def listedPaths (topic : Site) : List Site :=
  topic.extended?.toList ++ (oidPath? true topic.members).toList ++
    (oidPath? false topic.members).toList ++ topic.members.flatMap dependsPaths

/-! ### In the order of the text -/

theorem typePaths_sublist (type : Site) : type.typePaths <+ type.children := by
  rw [typePaths]
  cases type.kind
  case numericType | listType | typeRef => exact find?_sublist _ _
  case referenceType => exact List.filter_sublist
  all_goals exact List.nil_sublist _

theorem headPaths_sublist (member : Site) : member.headPaths <+ member.children := by
  rw [headPaths]
  cases member.kind
  case oidDecl => exact find?_sublist _ _
  case dependsOn => exact List.filter_sublist
  all_goals exact List.nil_sublist _

/-- Paths taken from children come behind a clause that comes before these children. -/
theorem comesBehind_flatMap {site : Site} {clause : Kind} {children : List Site}
    {f : Site → List Site} (hchildren : children <+ site.children)
    (hf : ∀ child ∈ children, f child <+ child.children)
    (hkind : ∀ child ∈ children, f child ≠ [] → clause ≠ child.kind ∧
      Grammar.arrangement.before child.kind clause = false) :
    ∀ path ∈ children.flatMap f, site.ComesBehind clause path := by
  intro path hpath
  obtain ⟨child, hchild, hpath⟩ := List.mem_flatMap.mp hpath
  obtain ⟨hne, hnot⟩ := hkind child hchild (List.ne_nil_of_mem hpath)
  exact ⟨child, hchildren.subset hchild, hne, hnot, path, (hf child hchild).subset hpath, .refl⟩

theorem sequence_flatMap {site : Site} {children : List Site} {f : Site → List Site}
    (hchildren : children <+ site.children) (hf : ∀ child ∈ children, f child <+ child.children) :
    site.Sequence (children.flatMap f) :=
  (site.sequence_children.sublist hchildren).flatMap fun child hchild =>
    child.sequence_children.sublist (hf child hchild)

theorem sequence_typePaths (site : Site) :
    site.Sequence (site.type?.toList.flatMap typePaths) :=
  sequence_flatMap (find?_sublist _ _) fun type _ => type.typePaths_sublist

variable {text : String} {site : Site}

theorem sequence_extended?_typePaths (hsite : (root (parse text).tree).Within site) :
    site.Sequence (site.extended?.toList ++ site.type?.toList.flatMap typePaths) := by
  refine site.sequence_typePaths.clausePath?_append hsite ?_
  refine comesBehind_flatMap (find?_sublist _ _) (fun type _ => type.typePaths_sublist) ?_
  intro type htype _
  have hkind : type.kind.isType = true := by
    have hfind := List.find?_some (Option.mem_toList.mp htype)
    exact hfind
  refine ⟨?_, by simp [Grammar.arrangement, hkind]⟩
  intro heq
  rw [← heq] at hkind
  cases hkind

theorem sequence_extended?_oidPath (hsite : (root (parse text).tree).Within site) :
    site.Sequence (site.extended?.toList ++
      ((site.child? .oidDecl).bind fun oid => oid.child? .path).toList) := by
  refine (site.sequence_clausePath? .oidDecl).clausePath?_append hsite fun path hpath => ?_
  obtain ⟨oid, hoid, hpath⟩ := Option.bind_eq_some_iff.mp (Option.mem_toList.mp hpath)
  refine ⟨oid, mem_children_of_child? hoid, ?_, ?_, path, mem_children_of_child? hpath, .refl⟩ <;>
    rw [kind_of_child? hoid]
  · nofun
  · rfl

theorem sequence_writtenPaths (hsite : (root (parse text).tree).Within site) :
    site.Sequence site.writtenPaths := by
  have hmembers : site.members <+ site.children := List.filter_sublist
  have hhead (member : Site) (_ : member ∈ site.members) : member.headPaths <+ member.children :=
    member.headPaths_sublist
  refine (sequence_flatMap hmembers hhead).clausePath?_append hsite
    (comesBehind_flatMap hmembers hhead fun member _ hne => ?_)
  rw [headPaths] at hne
  split at hne
  · next hkind => rw [hkind]; exact ⟨nofun, rfl⟩
  · next hkind => rw [hkind]; exact ⟨nofun, rfl⟩
  · exact absurd rfl hne

theorem sequence_translated?_imports (hsite : (root (parse text).tree).Within site) :
    site.Sequence (site.translated?.toList ++
      site.importItems.flatMap fun item => (item.child? .path).toList) := by
  have hitems : site.Sequence site.importItems :=
    (site.sequence_childrenOf .imports).flatMap fun statement _ =>
      statement.sequence_childrenOf .importItem
  refine (hitems.flatMap fun item _ => item.sequence_child? .path).clausePath?_append hsite ?_
  intro path hpath
  obtain ⟨item, hitem, hpath⟩ := List.mem_flatMap.mp hpath
  obtain ⟨statement, hstatement, hitem⟩ := List.mem_flatMap.mp hitem
  refine ⟨statement, mem_children_of_childrenOf hstatement, ?_, ?_, item,
    mem_children_of_childrenOf hitem,
    .of_child (mem_children_of_child? (Option.mem_toList.mp hpath))⟩ <;>
    rw [kind_of_mem_childrenOf hstatement]
  · nofun
  · rfl

end Site

/-- The reference is written in the definition with this number, where the path stands. -/
structure Reference.IsAt (file : FileContext) (id : Nat) (reference : Reference) (path : Site) :
    Prop where
  source : reference.source = id
  span : reference.span = path.span file

/-- The number is that of the path, where the paths are numbered from `first` on. -/
def IsNumberOf (first : Nat) (paths : List Site) (number : Nat) (path : Site) : Prop :=
  ∃ index, number = first + index ∧ paths[index]? = some path

theorem IsNumberOf.append {first number : Nat} {paths : List Site} {path : Site}
    (h : IsNumberOf first paths number path) (others : List Site) :
    IsNumberOf first (paths ++ others) number path := by
  obtain ⟨index, rfl, hpath⟩ := h
  have hlt := (List.getElem?_eq_some_iff.mp hpath).1
  exact ⟨index, rfl, by rw [List.getElem?_append_left hlt, hpath]⟩

theorem isNumberOf_range' (first : Nat) (before paths : List Site) :
    List.Forall₂ (IsNumberOf first (before ++ paths))
      (List.range' (first + before.length) paths.length) paths := by
  rw [List.forall₂_iff_get]
  refine ⟨List.length_range', fun index hindex hpath => ?_⟩
  refine ⟨before.length + index, ?_, ?_⟩
  · simp [Nat.add_assoc]
  · rw [List.getElem?_append_right (Nat.le_add_right _ _), Nat.add_sub_cancel_left]
    simp

/-- How a definition lists the paths written in it, whose references are numbered from `first`
on. -/
structure DefinitionData.Lists (file : FileContext) (root : Site) (first : Nat) (span : Span)
    (data : DefinitionData) (paths : List Site) : Prop where
  sequence : root.Sequence paths
  inside : ∀ path ∈ paths, ∃ site : Site, root.Within site ∧ site.Within path ∧
    span = site.span file
  inTurn : data.kind ≠ .topic → data.references = List.range' first paths.length
  topic : data.kind = .topic → ∃ topic : Site, root.Within topic ∧ topic.kind = .topic ∧
    span = topic.span file ∧ paths = topic.writtenPaths ∧
    List.Forall₂ (IsNumberOf first paths) data.references topic.listedPaths

/-- One definition is noted, right behind the references that are written in it. -/
inductive Draft.Grows (file : FileContext) (root : Site) (draft : Draft) : Draft → Prop
  | define {references : Array Reference} {definition : Definition} {paths : List Site}
      {models : List Nat}
      (hreferences : List.Forall₂ (Reference.IsAt file draft.definitions.size)
        references.toList paths)
      (hlists : definition.data.Lists file root draft.references.size definition.span paths) :
      Grows file root draft
        ⟨draft.definitions.push definition, draft.references ++ references, models⟩

namespace Drafting

open Draft

variable {α β : Type} {file : FileContext} {root : Site} {id : Nat} {start : Draft}
  {before paths others : List Site}

/-- The step notes references that stand for the paths, one after the other, and nothing else. Of
what it yields `result` holds, with the number of the first of them. -/
def NotesPaths (file : FileContext) (id : Nat) (paths : List Site) (result : Nat → α → Prop)
    (step : Drafting α) : Prop :=
  ∀ draft : Draft, ∃ references : Array Reference,
    List.Forall₂ (Reference.IsAt file id) references.toList paths ∧
    result draft.references.size (step draft).1 ∧
    (step draft).2 = ⟨draft.definitions, draft.references ++ references, draft.models⟩

/-- The step notes references that stand for the paths and yields their numbers in the same
order. -/
def NotesInTurn (file : FileContext) (id : Nat) (paths : List Site) (held : α → List Nat)
    (step : Drafting α) : Prop :=
  NotesPaths file id paths (fun first a => held a = List.range' first paths.length) step

/-- The step goes on from references that stand for the paths, with the definition they are
written in. -/
def Defines (file : FileContext) (root : Site) (start : Draft) (paths : List Site)
    (step : Drafting α) : Prop :=
  ∀ references : Array Reference,
    List.Forall₂ (Reference.IsAt file start.definitions.size) references.toList paths →
      Relation.ReflTransGen (Grows file root) start
        (step ⟨start.definitions, start.references ++ references, start.models⟩).2

def Proceeds (file : FileContext) (root : Site) (step : Drafting α) : Prop :=
  ∀ draft : Draft, Relation.ReflTransGen (Grows file root) draft (step draft).2

section Rules

variable {result : Nat → α → Prop} {held : α → List Nat} {step : Drafting α}

theorem notesPaths_pure {a : α} (h : ∀ first, result first a) :
    NotesPaths file id [] result (pure a) :=
  fun draft => ⟨#[], .nil, h _, by rw [Array.append_empty]; rfl⟩

theorem notesPaths_bind {f : α → Drafting β} {next : α → Nat → β → Prop} {after : Nat → β → Prop}
    (h : NotesPaths file id paths result step) (hf : ∀ a, NotesPaths file id others (next a) (f a))
    (hafter : ∀ first a b, result first a → next a (first + paths.length) b → after first b) :
    NotesPaths file id (paths ++ others) after (step >>= f) := by
  intro draft
  obtain ⟨references, hat, hresult, hdraft⟩ := h draft
  obtain ⟨more, hatMore, hnext, hdraftMore⟩ := hf (step draft).1 (step draft).2
  have hsize : references.size = paths.length := hat.length_eq
  refine ⟨references ++ more, ?_, hafter _ _ _ hresult ?_, ?_⟩
  · rw [Array.toList_append]
    exact List.rel_append hat hatMore
  · rw [hdraft, Array.size_append, hsize, ← hdraft] at hnext
    exact hnext
  · refine hdraftMore.trans ?_
    rw [hdraft, Array.append_assoc]

theorem NotesPaths.map {f : α → β} {after : Nat → β → Prop}
    (h : NotesPaths file id paths result step)
    (hafter : ∀ first a, result first a → after first (f a)) :
    NotesPaths file id paths after (f <$> step) := by
  intro draft
  obtain ⟨references, hat, hresult, hdraft⟩ := h draft
  exact ⟨references, hat, hafter _ _ hresult, hdraft⟩

theorem notesInTurn_pure {a : α} (h : held a = []) : NotesInTurn file id [] held (pure a) :=
  notesPaths_pure fun _ => h

theorem NotesInTurn.map {f : α → β} {after : β → List Nat} (h : NotesInTurn file id paths held step)
    (hafter : ∀ a, after (f a) = held a) : NotesInTurn file id paths after (f <$> step) :=
  NotesPaths.map h fun _ a ha => (hafter a).trans ha

theorem NotesInTurn.then {f : α → β} {after : β → List Nat}
    (h : NotesInTurn file id paths held step) (hafter : ∀ a, after (f a) = held a) :
    NotesInTurn file id paths after (step >>= fun a => pure (f a)) :=
  h.map hafter

theorem NotesPaths.then {f : α → β} {after : Nat → β → Prop}
    (h : NotesPaths file id paths result step)
    (hafter : ∀ first a, result first a → after first (f a)) :
    NotesPaths file id paths after (step >>= fun a => pure (f a)) :=
  h.map hafter

theorem notesInTurn_mapM {row : List β} {f : β → Drafting α} {paths : β → List Site}
    (hf : ∀ b ∈ row, NotesInTurn file id (paths b) held (f b)) :
    NotesInTurn file id (row.flatMap paths) (fun results => results.flatMap held)
      (row.mapM f) := by
  induction row with
  | nil => exact notesInTurn_pure rfl
  | cons first rest ih =>
    rw [List.mapM_cons, List.flatMap_cons]
    have hrest := ih fun b hb => hf b (List.mem_cons_of_mem _ hb)
    -- The first number is no longer in sight behind the bind, so the result says that it is kept.
    have hcons (a : α) : NotesPaths file id (rest.flatMap paths)
        (fun number results => ∃ others, results = a :: others ∧
          others.flatMap held = List.range' number (rest.flatMap paths).length)
        ((a :: ·) <$> rest.mapM f) :=
      NotesPaths.map hrest fun _ others hothers => ⟨others, rfl, hothers⟩
    refine notesPaths_bind (hf first List.mem_cons_self) hcons
      fun number a results ha hresults => ?_
    obtain ⟨others, rfl, hothers⟩ := hresults
    change (a :: others).flatMap held = _
    rw [List.flatMap_cons, ha, hothers, List.length_append, List.range'_append_1]

theorem defines_bind {result : Nat → α → Prop} {f : α → Drafting β}
    (h : NotesPaths file start.definitions.size others result step)
    (hf : ∀ a, result (start.references.size + before.length) a →
      Defines file root start (before ++ others) (f a)) :
    Defines file root start before (step >>= f) := by
  intro references hat
  obtain ⟨more, hatMore, hresult, hdraft⟩ :=
    h ⟨start.definitions, start.references ++ references, start.models⟩
  have hsize : references.size = before.length := hat.length_eq
  rw [Array.size_append, hsize] at hresult
  have hdefines := hf _ hresult (references ++ more) (by
    rw [Array.toList_append]
    exact List.rel_append hat hatMore)
  rw [← Array.append_assoc, ← hdraft] at hdefines
  exact hdefines

theorem defines_define {heading : Heading} {parent : Option Nat} {data : DefinitionData}
    {f : Unit → Drafting α}
    (hlists : data.Lists file root start.references.size heading.span paths)
    (hf : Proceeds file root (f ())) :
    Defines file root start paths (define heading parent data >>= f) :=
  fun _ hat => .trans (.single (.define hat hlists)) (hf _)

theorem defines_define_last {heading : Heading} {parent : Option Nat} {data : DefinitionData}
    (hlists : data.Lists file root start.references.size heading.span paths) :
    Defines file root start paths (define heading parent data) :=
  fun _ hat => .single (.define hat hlists)

theorem defines_addModel {heading : Heading} {data : DefinitionData} {model : Nat}
    {f : Unit → Drafting α}
    (hlists : data.Lists file root start.references.size heading.span paths)
    (hf : Proceeds file root (f ())) :
    Defines file root start paths
      (define heading none data >>= fun _ => addModel model >>= f) :=
  fun _ hat => .trans (.single (.define hat hlists)) (hf _)

theorem proceeds_nextDefinition {f : Nat → Drafting α}
    (h : ∀ start : Draft, Defines file root start [] (f start.definitions.size)) :
    Proceeds file root (nextDefinition >>= f) := by
  intro draft
  have hdraft := h draft #[] .nil
  rw [Array.append_empty] at hdraft
  exact hdraft

theorem proceeds_pure (a : α) : Proceeds file root (pure a) :=
  fun _ => .refl

theorem proceeds_bind {f : α → Drafting β} (h : Proceeds file root step)
    (hf : ∀ a, Proceeds file root (f a)) : Proceeds file root (step >>= f) :=
  fun draft => (h draft).trans (hf _ _)

theorem proceeds_forM {row : List β} {f : β → Drafting Unit}
    (hf : ∀ b ∈ row, Proceeds file root (f b)) : Proceeds file root (row.forM f) := by
  induction row with
  | nil => exact proceeds_pure ()
  | cons first rest ih =>
    rw [List.forM_eq_forM] at ih ⊢
    rw [List.forM_cons]
    exact proceeds_bind (hf first List.mem_cons_self) fun _ =>
      ih fun b hb => hf b (List.mem_cons_of_mem _ hb)

end Rules

end Drafting

open Drafting

namespace DefinitionData

variable {file : FileContext} {root : Site} {first : Nat} {span : Span}

theorem Lists.of_inTurn {data : DefinitionData} {site : Site} {paths : List Site}
    (hkind : (data.kind == .topic) = false) (hsite : root.Within site)
    (hspan : span = site.span file) (hsequence : site.Sequence paths)
    (h : data.references = List.range' first paths.length) :
    data.Lists file root first span paths where
  sequence := hsequence.of_within hsite
  inside path hpath := ⟨site, hsite, hsequence.within path hpath, hspan⟩
  inTurn _ := h
  topic htopic := absurd htopic (beq_eq_false_iff_ne.mp hkind)

theorem lists_enumValue (isFinal : Bool) :
    (DefinitionData.enumValue isFinal).Lists file root first span [] where
  sequence := root.sequence_nil
  inside := nofun
  inTurn _ := rfl
  topic := nofun

end DefinitionData

namespace Catalog

variable {file : FileContext} {root : Site} {id owner : Nat}

/-! ### Paths -/

theorem notesInTurn_refer (expected : Expected) (path : Site) :
    NotesInTurn file id [path] (fun number => [number]) (refer file id expected path) := by
  intro draft
  exact ⟨#[⟨path.segments, path.span file, id, expected, .unbound⟩],
    .cons ⟨rfl, rfl⟩ .nil, rfl, rfl⟩

theorem notesInTurn_referTo? (expected : Expected) (path : Option Site) :
    NotesInTurn file id path.toList Option.toList (referTo? file id expected path) := by
  cases path with
  | none => exact notesInTurn_pure rfl
  | some path => exact (notesInTurn_refer expected path).map fun _ => rfl

theorem notesInTurn_mapM_refer (expected : Expected) (paths : List Site) :
    NotesInTurn file id paths (fun targets => targets) (paths.mapM (refer file id expected)) := by
  have hrow : NotesInTurn file id (paths.flatMap fun path => [path])
      (fun targets => targets.flatMap fun number => [number])
      (paths.mapM (refer file id expected)) :=
    notesInTurn_mapM fun path _ => notesInTurn_refer expected path
  simpa only [List.flatMap_singleton'] using hrow

theorem notesInTurn_typeOf (site : Site) :
    NotesInTurn file id site.typePaths TypeDef.references (typeOf file id site) := by
  rw [typeOf.eq_def, Site.typePaths]
  cases site.kind
  case numericType => exact (notesInTurn_referTo? .unit _).then fun _ => rfl
  case referenceType => exact (notesInTurn_mapM_refer .classLike _).then fun _ => rfl
  case listType =>
    cases site.child? .path with
    | none => exact notesInTurn_pure rfl
    | some path => exact (notesInTurn_refer .classLike path).then fun _ => rfl
  case typeRef =>
    cases site.child? .path with
    | none => exact notesInTurn_pure rfl
    | some path => exact (notesInTurn_refer .type path).then fun _ => rfl
  all_goals exact notesInTurn_pure rfl

theorem notesInTurn_typeBelow (site : Site) :
    NotesInTurn file id (site.type?.toList.flatMap Site.typePaths) TypeDef.references
      (typeBelow file id site) := by
  rw [typeBelow.eq_def]
  cases site.type? with
  | none => exact notesInTurn_pure rfl
  | some type =>
    rw [Option.toList_some, List.flatMap_singleton]
    exact notesInTurn_typeOf type

theorem notesInTurn_readImport (item : Site) :
    NotesInTurn file id (item.child? .path).toList (fun imports => imports.map Import.model)
      (readImport file id item) := by
  rw [readImport.eq_def]
  cases item.child? .path with
  | none => exact notesInTurn_pure rfl
  | some path => exact (notesInTurn_refer .model path).then fun _ => rfl

theorem proceeds_defineElements (enumeration : Site) :
    Proceeds file root (defineElements file owner enumeration) := by
  induction enumeration using Site.elements_induction generalizing owner with
  | step enumeration ih =>
    rw [defineElements_eq]
    refine proceeds_forM fun element helement => ?_
    rw [defineElement]
    cases element.heading? file with
    | none => exact proceeds_pure ()
    | some heading =>
      refine proceeds_nextDefinition fun start =>
        defines_define (DefinitionData.lists_enumValue _) ?_
      cases hinner : element.child? .enumType with
      | none => exact proceeds_pure ()
      | some inner => exact ih element helement inner hinner

theorem proceeds_defineValues (site : Site) :
    Proceeds file root (defineValues file owner site) := by
  rw [defineValues.eq_def]
  cases site.type? with
  | none => exact proceeds_pure ()
  | some type =>
    dsimp only
    split
    · exact proceeds_defineElements type
    · exact proceeds_pure ()

/-! ### Definitions other than topics -/

section Members

variable {text : String} {site : Site}

theorem append_inTurn {first : Nat} {left right : List Site} {numbers others : List Nat}
    (h : numbers = List.range' (first + ([] : List Site).length) left.length)
    (hothers : others = List.range' (first + ([] ++ left).length) right.length) :
    numbers ++ others = List.range' first ([] ++ left ++ right).length := by
  rw [h, hothers]
  simp only [List.nil_append, List.length_append, List.length_nil, Nat.add_zero,
    List.range'_append_1]

theorem proceeds_defineUnit (hsite : (Site.root (parse text).tree).Within site) :
    Proceeds file (Site.root (parse text).tree) (defineUnit file owner site) := by
  rw [defineUnit.eq_def]
  cases hheading : site.heading? file with
  | none => exact proceeds_pure ()
  | some heading =>
    refine proceeds_nextDefinition fun start => ?_
    refine defines_bind (notesInTurn_referTo? .unit site.extended?) fun base hbase => ?_
    refine defines_define_last (.of_inTurn rfl hsite (isOf_heading? hheading).span ?_ hbase)
    exact site.sequence_clausePath? .extendsClause

theorem proceeds_defineDomain (hsite : (Site.root (parse text).tree).Within site) :
    Proceeds file (Site.root (parse text).tree) (defineDomain file owner site) := by
  rw [defineDomain.eq_def]
  cases hheading : site.heading? file with
  | none => exact proceeds_pure ()
  | some heading =>
    refine proceeds_nextDefinition fun start => ?_
    refine defines_bind (notesInTurn_referTo? .domain site.extended?) fun base hbase => ?_
    refine defines_bind (notesInTurn_typeBelow site) fun type htype => ?_
    refine defines_define (.of_inTurn rfl hsite (isOf_heading? hheading).span ?_
      (append_inTurn hbase htype)) (proceeds_defineValues site)
    exact Site.sequence_extended?_typePaths hsite

theorem proceeds_defineRole (hsite : (Site.root (parse text).tree).Within site) :
    Proceeds file (Site.root (parse text).tree) (defineRole file owner site) := by
  rw [defineRole.eq_def]
  cases hheading : site.heading? file with
  | none => exact proceeds_pure ()
  | some heading =>
    refine proceeds_nextDefinition fun start => ?_
    refine defines_bind (notesInTurn_mapM_refer .classLike _) fun targets htargets => ?_
    refine defines_define_last (.of_inTurn rfl hsite (isOf_heading? hheading).span ?_ htargets)
    exact site.sequence_childrenOf .path

theorem proceeds_defineAttribute (hsite : (Site.root (parse text).tree).Within site) :
    Proceeds file (Site.root (parse text).tree) (defineAttribute file owner site) := by
  rw [defineAttribute.eq_def]
  cases hheading : site.heading? file with
  | none => exact proceeds_pure ()
  | some heading =>
    refine proceeds_nextDefinition fun start => ?_
    refine defines_bind (notesInTurn_typeBelow site) fun type htype => ?_
    refine defines_define (.of_inTurn rfl hsite (isOf_heading? hheading).span ?_ htype)
      (proceeds_defineValues site)
    exact site.sequence_typePaths

theorem proceeds_childrenOf (hsite : (Site.root (parse text).tree).Within site) (kind : Kind)
    {f : Site → Drafting Unit}
    (hf : ∀ child, (Site.root (parse text).tree).Within child →
      Proceeds file (Site.root (parse text).tree) (f child)) :
    Proceeds file (Site.root (parse text).tree) ((site.childrenOf kind).forM f) :=
  proceeds_forM fun child hchild =>
    hf child (hsite.trans ((site.sequence_childrenOf kind).within child hchild))

theorem proceeds_defineMembers (hsite : (Site.root (parse text).tree).Within site) :
    Proceeds file (Site.root (parse text).tree) (defineMembers file owner site) :=
  proceeds_bind (proceeds_childrenOf hsite .role fun _ => proceeds_defineRole) fun _ =>
    proceeds_childrenOf hsite .attributeDef fun _ => proceeds_defineAttribute

theorem proceeds_defineClass (hsite : (Site.root (parse text).tree).Within site) :
    Proceeds file (Site.root (parse text).tree) (defineClass file owner site) := by
  rw [defineClass.eq_def]
  cases hheading : site.heading? file with
  | none => exact proceeds_pure ()
  | some heading =>
    refine proceeds_nextDefinition fun start => ?_
    refine defines_bind (notesInTurn_referTo? .classLike site.extended?) fun base hbase => ?_
    refine defines_bind (notesInTurn_referTo? .domain _) fun oid hoid => ?_
    refine defines_define (.of_inTurn rfl hsite (isOf_heading? hheading).span ?_
      (append_inTurn hbase hoid)) (proceeds_defineMembers hsite)
    exact Site.sequence_extended?_oidPath hsite

theorem proceeds_defineAssociation (hsite : (Site.root (parse text).tree).Within site) :
    Proceeds file (Site.root (parse text).tree) (defineAssociation file owner site) := by
  rw [defineAssociation.eq_def]
  cases hheading : associationHeading? file site with
  | none => exact proceeds_pure ()
  | some heading =>
    refine proceeds_nextDefinition fun start => ?_
    refine defines_bind (notesInTurn_referTo? .association site.extended?) fun base hbase => ?_
    refine defines_define (.of_inTurn rfl hsite (isOf_associationHeading? hheading).span ?_
      hbase) (proceeds_defineMembers hsite)
    exact site.sequence_clausePath? .extendsClause

theorem proceeds_defineMember (hsite : (Site.root (parse text).tree).Within site) :
    Proceeds file (Site.root (parse text).tree) (defineMember file owner site) := by
  rw [defineMember.eq_def]
  cases site.kind
  case unitSection => exact proceeds_childrenOf hsite .unitDef fun _ => proceeds_defineUnit
  case domainSection => exact proceeds_childrenOf hsite .domainDef fun _ => proceeds_defineDomain
  case classDef => exact proceeds_defineClass hsite
  case association => exact proceeds_defineAssociation hsite
  all_goals exact proceeds_pure ()

end Members

/-! ### Topics -/

/-- What a topic with this base lists behind some of its members, where the paths read so far are
numbered from `first` on. -/
structure TopicLists (first : Nat) (written base members : List Site) (data : TopicData) :
    Prop where
  base : List.Forall₂ (IsNumberOf first written) data.base.toList base
  basketOid : List.Forall₂ (IsNumberOf first written) data.basketOid.toList
    (Site.oidPath? true members).toList
  oid : List.Forall₂ (IsNumberOf first written) data.oid.toList
    (Site.oidPath? false members).toList
  dependsOn : List.Forall₂ (IsNumberOf first written) data.dependsOn
    (members.flatMap Site.dependsPaths)

section Heads

variable {first number : Nat} {written others members : List Site} {member : Site}
  {numbers : List Nat} {basket : Bool}

theorem lists_append {paths : List Site}
    (h : List.Forall₂ (IsNumberOf first written) numbers paths) :
    List.Forall₂ (IsNumberOf first (written ++ others)) numbers paths :=
  h.imp fun _ _ hnumber => hnumber.append others

theorem lists_of_inTurn (hnumber : number = first + written.length)
    (h : numbers = List.range' number others.length) :
    List.Forall₂ (IsNumberOf first (written ++ others)) numbers others := by
  rw [h, hnumber]
  exact isNumberOf_range' first written others

theorem declaresOid_iff : member.declaresOid basket = true ↔
    member.kind = .oidDecl ∧ member.has .basketKw = basket := by
  rw [Site.declaresOid, Bool.and_eq_true, beq_iff_eq, beq_iff_eq]

/-- A declaration of an identifier domain replaces the one before. -/
theorem lists_oidPath?_of_declares (hmember : member.declaresOid basket = true)
    (h : List.Forall₂ (IsNumberOf first written) numbers (member.child? .path).toList) :
    List.Forall₂ (IsNumberOf first written) numbers
      (Site.oidPath? basket (members ++ [member])).toList := by
  rwa [Site.oidPath?, List.filter_append, List.filter_cons_of_pos hmember, List.filter_nil,
    List.getLast?_concat]

theorem lists_oidPath?_of_not (hmember : ¬member.declaresOid basket = true)
    (h : List.Forall₂ (IsNumberOf first written) numbers (Site.oidPath? basket members).toList) :
    List.Forall₂ (IsNumberOf first (written ++ others)) numbers
      (Site.oidPath? basket (members ++ [member])).toList := by
  rw [Site.oidPath?, List.filter_append, List.filter_cons_of_neg hmember, List.filter_nil,
    List.append_nil]
  exact lists_append h

theorem lists_dependsPaths_of_ne (hkind : member.kind ≠ .dependsOn)
    (h : List.Forall₂ (IsNumberOf first written) numbers (members.flatMap Site.dependsPaths)) :
    List.Forall₂ (IsNumberOf first (written ++ others)) numbers
      ((members ++ [member]).flatMap Site.dependsPaths) := by
  rw [List.flatMap_append, List.flatMap_singleton, Site.dependsPaths, if_neg hkind, List.append_nil]
  exact lists_append h

theorem TopicLists.pass {base : List Site} {data : TopicData}
    (h : TopicLists first written base members data) (hoid : member.kind ≠ .oidDecl)
    (hdepends : member.kind ≠ .dependsOn) :
    TopicLists first (written ++ []) base (members ++ [member]) data where
  base := lists_append h.base
  basketOid := lists_oidPath?_of_not (mt (fun h => (declaresOid_iff.mp h).1) hoid) h.basketOid
  oid := lists_oidPath?_of_not (mt (fun h => (declaresOid_iff.mp h).1) hoid) h.oid
  dependsOn := lists_dependsPaths_of_ne hdepends h.dependsOn

end Heads

theorem notesPaths_readTopicHead (data : TopicData) (member : Site) :
    NotesPaths file id member.headPaths
      (fun number next => ∀ first written base members, number = first + written.length →
        TopicLists first written base members data →
          TopicLists first (written ++ member.headPaths) base (members ++ [member]) next)
      (readTopicHead file id data member) := by
  rw [readTopicHead.eq_def, Site.headPaths]
  cases hkind : member.kind
  case oidDecl =>
    refine NotesPaths.then (notesInTurn_referTo? .domain _) fun number target htarget => ?_
    intro first written base members hnumber hlists
    have hdepends : List.Forall₂ (IsNumberOf first (written ++ (member.child? .path).toList))
        data.dependsOn ((members ++ [member]).flatMap Site.dependsPaths) :=
      lists_dependsPaths_of_ne (by simp [hkind]) hlists.dependsOn
    cases hbasket : member.has .basketKw with
    | true =>
      refine ⟨lists_append hlists.base, ?_, ?_, hdepends⟩
      · exact lists_oidPath?_of_declares (declaresOid_iff.mpr ⟨hkind, hbasket⟩)
          (lists_of_inTurn hnumber htarget)
      · exact lists_oidPath?_of_not (by simp [declaresOid_iff, hbasket]) hlists.oid
    | false =>
      refine ⟨lists_append hlists.base, ?_, ?_, hdepends⟩
      · exact lists_oidPath?_of_not (by simp [declaresOid_iff, hbasket]) hlists.basketOid
      · exact lists_oidPath?_of_declares (declaresOid_iff.mpr ⟨hkind, hbasket⟩)
          (lists_of_inTurn hnumber htarget)
  case dependsOn =>
    refine NotesPaths.then (notesInTurn_mapM_refer .topic _) fun number targets htargets => ?_
    intro first written base members hnumber hlists
    have hoid (basket : Bool) : ¬member.declaresOid basket = true := by
      simp [declaresOid_iff, hkind]
    refine ⟨lists_append hlists.base, lists_oidPath?_of_not (hoid true) hlists.basketOid,
      lists_oidPath?_of_not (hoid false) hlists.oid, ?_⟩
    rw [List.flatMap_append, List.flatMap_singleton, Site.dependsPaths, if_pos hkind]
    exact List.rel_append (lists_append hlists.dependsOn) (lists_of_inTurn hnumber htargets)
  all_goals
    exact notesPaths_pure fun number first written base members _ hlists =>
      hlists.pass (by simp [hkind]) (by simp [hkind])

theorem notesPaths_foldlM_readTopicHead (start : TopicData) (members : List Site) :
    NotesPaths file id (members.flatMap Site.headPaths)
      (fun number data => ∀ first written base, number = first + written.length →
        TopicLists first written base [] start →
          TopicLists first (written ++ members.flatMap Site.headPaths) base members data)
      (members.foldlM (readTopicHead file id) start) := by
  induction members using List.reverseRecOn with
  | nil =>
    refine notesPaths_pure fun number first written base _ hlists => ?_
    rwa [List.flatMap_nil, List.append_nil]
  | append_singleton front member ih =>
    rw [List.foldlM_append, List.flatMap_append, List.flatMap_singleton]
    refine notesPaths_bind ih (fun data => notesPaths_readTopicHead data member)
      fun number data next hdata hnext first written base hnumber hlists => ?_
    rw [← List.append_assoc]
    refine hnext first _ base front ?_ (hdata first written base hnumber hlists)
    rw [hnumber, List.length_append, Nat.add_assoc]

theorem proceeds_defineTopic {text : String} {site : Site}
    (hsite : (Site.root (parse text).tree).Within site) (hkind : site.kind = .topic) :
    Proceeds file (Site.root (parse text).tree) (defineTopic file owner site) := by
  rw [defineTopic.eq_def]
  cases hheading : site.heading? file with
  | none => exact proceeds_pure ()
  | some heading =>
    obtain ⟨token, -, rfl⟩ := Option.map_eq_some_iff.mp hheading
    refine proceeds_nextDefinition fun start => ?_
    refine defines_bind (notesInTurn_referTo? .topic site.extended?) fun base hbase => ?_
    refine defines_bind (notesPaths_foldlM_readTopicHead _ site.members) fun data hdata => ?_
    have hstart : TopicLists start.references.size ([] ++ site.extended?.toList)
        site.extended?.toList [] ⟨site.modifiers, base, [], none, none⟩ := by
      refine ⟨?_, .nil, .nil, .nil⟩
      change List.Forall₂ _ base.toList _
      rw [hbase]
      exact isNumberOf_range' _ [] _
    obtain ⟨hbases, hbaskets, hoids, hdepends⟩ := hdata _ _ _ (by simp) hstart
    have hsequence := Site.sequence_writtenPaths hsite
    refine defines_define ⟨hsequence.of_within hsite, fun path hpath => ?_,
      fun hother => absurd rfl hother, fun _ => ?_⟩ ?_
    · exact ⟨site, hsite, hsequence.within path hpath, rfl⟩
    · exact ⟨site, hsite, hkind, rfl, rfl, List.rel_append (List.rel_append
        (List.rel_append hbases hbaskets) hoids) hdepends⟩
    · exact proceeds_forM fun member hmember =>
        proceeds_defineMember (hsite.child (List.mem_of_mem_filter hmember))

theorem proceeds_defineModel {text : String} {site : Site}
    (hsite : (Site.root (parse text).tree).Within site) :
    Proceeds file (Site.root (parse text).tree) (defineModel file site) := by
  rw [defineModel.eq_def]
  cases hheading : site.heading? file with
  | none => exact proceeds_pure ()
  | some heading =>
    refine proceeds_nextDefinition fun start => ?_
    refine defines_bind (notesInTurn_referTo? .model site.translated?)
      fun translationOf htranslation => ?_
    refine defines_bind (notesInTurn_mapM fun item _ => notesInTurn_readImport item)
      fun imports himports => ?_
    refine defines_addModel (.of_inTurn rfl hsite (isOf_heading? hheading).span ?_ ?_)
      (proceeds_forM fun member hmember => ?_)
    · exact Site.sequence_translated?_imports hsite
    · refine append_inTurn htranslation ?_
      rw [List.map_flatten, ← List.flatMap_def]
      exact himports
    · have hmember := hsite.child (List.mem_of_mem_filter hmember)
      split
      · next htopic => exact proceeds_defineTopic hmember htopic
      · exact proceeds_defineMember hmember

end Catalog

/-! ### What is noted in the end -/

def writtenIn (references : Array Reference) (id : Nat) : List Nat :=
  (List.range references.size).filter fun number =>
    references[number]?.any fun reference => reference.source == id

def spansOf (references : Array Reference) (numbers : List Nat) : List Span :=
  numbers.filterMap fun number => references[number]?.map Reference.span

theorem mem_writtenIn {references : Array Reference} {id number : Nat} :
    number ∈ writtenIn references id ↔
      ∃ reference, references[number]? = some reference ∧ reference.source = id := by
  rw [writtenIn, List.mem_filter, List.mem_range, Option.any_eq_true]
  simp only [beq_iff_eq]
  constructor
  · rintro ⟨-, reference, hreference, hsource⟩
    exact ⟨reference, hreference, hsource⟩
  · rintro ⟨reference, hreference, hsource⟩
    exact ⟨(Array.getElem?_eq_some_iff.mp hreference).1, reference, hreference, hsource⟩

theorem writtenIn_append {references added : Array Reference} {id : Nat} :
    writtenIn (references ++ added) id = writtenIn references id ++
      (List.range' references.size added.size).filter fun number =>
        (references ++ added)[number]?.any fun reference => reference.source == id := by
  rw [writtenIn, Array.size_append, List.range_eq_range', ← List.range'_append_1, Nat.zero_add,
    List.filter_append, writtenIn, List.range_eq_range']
  refine congrArg (· ++ _) (List.filter_congr fun number hnumber => ?_)
  have hlt : number < references.size := by simpa using List.mem_range'_1.mp hnumber
  rw [Array.getElem?_append_left hlt]

theorem writtenIn_append_of_ne {references added : Array Reference} {id : Nat}
    (h : ∀ reference ∈ added, reference.source ≠ id) :
    writtenIn (references ++ added) id = writtenIn references id := by
  rw [writtenIn_append, List.filter_eq_nil_iff.mpr fun number hnumber => ?_, List.append_nil]
  have hle := (List.mem_range'_1.mp hnumber).1
  rw [Array.getElem?_append_right hle]
  cases hadded : added[number - references.size]? with
  | none => exact Bool.false_ne_true
  | some reference => simpa using h reference (Array.mem_of_getElem? hadded)

theorem writtenIn_append_of_eq {references added : Array Reference} {id : Nat}
    (hold : ∀ reference ∈ references, reference.source ≠ id)
    (hadded : ∀ reference ∈ added, reference.source = id) :
    writtenIn (references ++ added) id = List.range' references.size added.size := by
  have hnone : writtenIn references id = [] := by
    have hempty : writtenIn (#[] ++ references) id = writtenIn #[] id :=
      writtenIn_append_of_ne hold
    rwa [Array.empty_append] at hempty
  rw [writtenIn_append, hnone, List.nil_append, List.filter_eq_self]
  intro number hnumber
  obtain ⟨hle, hlt⟩ := List.mem_range'_1.mp hnumber
  have hin : number - references.size < added.size := by omega
  rw [Array.getElem?_append_right hle, Array.getElem?_eq_getElem hin]
  simpa using hadded _ (Array.getElem_mem hin)

namespace Draft

variable {file : FileContext} {root : Site}

/-- What holds of every definition that has been noted. -/
structure Records (file : FileContext) (root : Site) (draft : Draft) : Prop where
  source_lt : ∀ reference ∈ draft.references, reference.source < draft.definitions.size
  lists : ∀ {id : Nat} {definition : Definition}, draft.definitions[id]? = some definition →
    ∃ first paths, definition.data.Lists file root first definition.span paths ∧
      writtenIn draft.references id = List.range' first paths.length ∧
      ∀ {number : Nat} {path : Site}, IsNumberOf first paths number path →
        ∃ reference, draft.references[number]? = some reference ∧ reference.span = path.span file

theorem records_empty : Records file root .empty where
  source_lt _ h := by simp [empty] at h
  lists h := by simp [empty] at h

theorem Records.grow {draft next : Draft} (h : draft.Records file root)
    (hstep : draft.Grows file root next) : next.Records file root := by
  cases hstep with
  | @define added definition paths models hadded hlists =>
    have hsource : ∀ reference ∈ added, reference.source = draft.definitions.size := by
      have hboth := hadded.imp fun reference path hat => (⟨hat.source, hat⟩ :
        reference.source = draft.definitions.size ∧
          reference.IsAt file draft.definitions.size path)
      exact fun reference hmem =>
        ((List.forall₂_and_left _ _).mp hboth).1 reference (Array.mem_toList_iff.mpr hmem)
    have hsize : added.size = paths.length := hadded.length_eq
    constructor
    · intro reference hmem
      rw [Array.size_push]
      rcases Array.mem_append.mp hmem with hold | hnew
      · exact Nat.lt_succ_of_lt (h.source_lt reference hold)
      · rw [hsource reference hnew]
        exact Nat.lt_succ_self _
    · intro id other hother
      rw [Array.getElem?_push] at hother
      split at hother
      · -- The new definition: no reference before these has its number.
        next hlast =>
        obtain rfl := Option.some.inj hother
        subst hlast
        refine ⟨draft.references.size, paths, hlists, ?_, ?_⟩
        · rw [← hsize]
          exact writtenIn_append_of_eq
            (fun reference hold => Nat.ne_of_lt (h.source_lt reference hold)) hsource
        · rintro _ path ⟨index, rfl, hpath⟩
          obtain ⟨hlt, rfl⟩ := List.getElem?_eq_some_iff.mp hpath
          have hin : index < added.size := hsize ▸ hlt
          have hat := (List.forall₂_iff_get.mp hadded).2 index hin hlt
          refine ⟨added[index], ?_, hat.span⟩
          rw [Array.getElem?_append_right (Nat.le_add_right _ _), Nat.add_sub_cancel_left,
            Array.getElem?_eq_getElem hin]
      · -- An older one: what is added is written elsewhere and numbers stay.
        obtain ⟨first, others, hold, hwritten, hspans⟩ := h.lists hother
        have hlt : id < draft.definitions.size := (Array.getElem?_eq_some_iff.mp hother).1
        refine ⟨first, others, hold, ?_, fun hnumber => ?_⟩
        · rw [← hwritten]
          exact writtenIn_append_of_ne fun reference hnew =>
            hsource reference hnew ▸ (Nat.ne_of_gt hlt)
        · obtain ⟨reference, hreference, hspan⟩ := hspans hnumber
          refine ⟨reference, ?_, hspan⟩
          rw [Array.getElem?_append_left (Array.getElem?_eq_some_iff.mp hreference).1, hreference]

theorem Records.grows {draft next : Draft} (h : draft.Records file root)
    (hwalk : Relation.ReflTransGen (Grows file root) draft next) : next.Records file root := by
  induction hwalk with
  | refl => exact h
  | tail _ hstep ih => exact ih.grow hstep

end Draft

/-! ### Lists and what is written -/

theorem spansOf_eq {references : Array Reference} {numbers : List Nat} {paths : List Site}
    {span : Site → Span}
    (h : List.Forall₂ (fun number path => ∃ reference, references[number]? = some reference ∧
      reference.span = span path) numbers paths) :
    spansOf references numbers = paths.map span := by
  induction h with
  | nil => rfl
  | cons hfirst _ ih =>
    obtain ⟨reference, hreference, hspan⟩ := hfirst
    rw [spansOf, List.filterMap_cons, hreference, Option.map_some, hspan, List.map_cons, ← ih]
    rfl

/-- Numbers say which paths they are of, and paths that are different say which numbers they
have. -/
theorem eq_range'_iff {first : Nat} {paths listed : List Site} {numbers : List Nat}
    (hnodup : paths.Nodup) (h : List.Forall₂ (IsNumberOf first paths) numbers listed) :
    numbers = List.range' first paths.length ↔ listed = paths := by
  have hpaths : List.Forall₂ (IsNumberOf first paths) (List.range' first paths.length) paths :=
    isNumberOf_range' first [] paths
  constructor
  · rintro rfl
    refine List.right_unique_forall₂' ?_ h hpaths
    rintro _ path other ⟨index, rfl, hpath⟩ ⟨index', hindex, hother⟩
    obtain rfl := Nat.add_left_cancel hindex
    exact Option.some.inj (hpath.symm.trans hother)
  · -- Only here two places of one path would matter.
    rintro rfl
    refine List.left_unique_forall₂' ?_ h hpaths
    rintro _ path _ ⟨index, rfl, hpath⟩ ⟨index', rfl, hpath'⟩
    obtain ⟨hlt, hpath⟩ := List.getElem?_eq_some_iff.mp hpath
    obtain ⟨hlt', hpath'⟩ := List.getElem?_eq_some_iff.mp hpath'
    rw [hnodup.getElem_inj_iff.mp (hpath.trans hpath'.symm)]

theorem Site.kind_of_mem_writtenPaths {topic path : Site} (h : path ∈ topic.writtenPaths) :
    path.kind = .path := by
  rcases List.mem_append.mp h with hbase | hhead
  · obtain ⟨clause, -, hpath⟩ := Option.bind_eq_some_iff.mp (Option.mem_toList.mp hbase)
    exact kind_of_child? hpath
  · obtain ⟨member, -, hpath⟩ := List.mem_flatMap.mp hhead
    rw [headPaths] at hpath
    split at hpath
    · exact kind_of_child? (Option.mem_toList.mp hpath)
    · exact kind_of_mem_childrenOf hpath
    · cases hpath

theorem Site.nodup_writtenPaths {text : String} {topic : Site}
    (htopic : (root (parse text).tree).Within topic) : topic.writtenPaths.Nodup := by
  have hsequence := (sequence_writtenPaths htopic).of_within htopic
  refine hsequence.ordered.imp_of_mem fun {path other} hpath _ hle => ?_
  rintro rfl
  have hlt := start_lt_stop_of_path (hsequence.within path hpath) (kind_of_mem_writtenPaths hpath)
  omega

namespace Catalog

def spanAt (text : String) (site : Site) : Span :=
  (LineIndex.ofText text).span site.start site.stop

/-- How the references that a definition lists compare with those that are written in it. -/
structure ListsReferences (text : String) (catalog : Catalog) (id : Nat)
    (definition : Definition) : Prop where
  ordered : (spansOf catalog.references (writtenIn catalog.references id)).Pairwise
    fun span next => span.stop ≤ next.start
  inTurn : definition.kind ≠ .topic →
    definition.data.references = writtenIn catalog.references id
  topic : definition.kind = .topic → ∃ topic : Site,
    (Site.root (parse text).tree).Within topic ∧ topic.kind = .topic ∧
      definition.span = spanAt text topic ∧
      spansOf catalog.references (writtenIn catalog.references id) =
        topic.writtenPaths.map (spanAt text) ∧
      spansOf catalog.references definition.data.references =
        topic.listedPaths.map (spanAt text) ∧
      (definition.data.references = writtenIn catalog.references id ↔
        topic.listedPaths = topic.writtenPaths)

/-- The definitions and references of a text are those of a walk that has recorded them. -/
theorem exists_records_ofText (text : String) (uri : Option String) :
    ∃ (file : FileContext) (draft : Draft), file.index = .ofText text ∧
      draft.Records file (Site.root (parse text).tree) ∧
      (ofText text uri).references = draft.references ∧
      ∀ id, (ofText text uri).definition? id = draft.definitions[id]?.map fun definition =>
        { definition with content := contentOf draft.definitions.toList id } := by
  let root := Site.root (parse text).tree
  let file : FileContext := ⟨.ofText text, uri, root.schemaVersion?⟩
  have hmodels : Proceeds file root (root.models.forM (defineModel file)) :=
    proceeds_forM fun model hmodel =>
      proceeds_defineModel ((root.sequence_childrenOf .model).within model hmodel)
  have hrecords := Draft.records_empty.grows (hmodels .empty)
  exact ⟨file, _, rfl, hrecords, rfl, definition?_ofTree text (parse text).tree uri⟩

theorem exists_source_ofText {text : String} {uri : Option String} {number : Nat}
    {reference : Reference} (h : (ofText text uri).references[number]? = some reference) :
    ∃ source, (ofText text uri).definition? reference.source = some source := by
  obtain ⟨file, draft, -, hrecords, hreferences, hdefinition⟩ := exists_records_ofText text uri
  rw [hreferences] at h
  have hlt := hrecords.source_lt reference (Array.mem_of_getElem? h)
  rw [hdefinition, Array.getElem?_eq_getElem hlt]
  exact ⟨_, rfl⟩

theorem exists_lists_ofText {text : String} {uri : Option String} {id : Nat}
    {definition : Definition} (h : (ofText text uri).definition? id = some definition) :
    ∃ file : FileContext, file.index = .ofText text ∧ ∃ first paths,
      definition.data.Lists file (Site.root (parse text).tree) first definition.span paths ∧
      writtenIn (ofText text uri).references id = List.range' first paths.length ∧
      ∀ {number : Nat} {path : Site}, IsNumberOf first paths number path →
        ∃ reference, (ofText text uri).references[number]? = some reference ∧
          reference.span = path.span file := by
  obtain ⟨file, draft, hindex, hrecords, hreferences, hdefinition⟩ :=
    exists_records_ofText text uri
  rw [hdefinition] at h
  obtain ⟨noted, hnoted, rfl⟩ := Option.map_eq_some_iff.mp h
  obtain ⟨first, paths, hlists, hwritten, hspans⟩ := hrecords.lists hnoted
  rw [hreferences]
  exact ⟨file, hindex, first, paths, hlists, hwritten, hspans⟩

/-- **What a definition refers to, in the order of the text**: the references that are written in a
definition stand one behind the other, and unless it is a topic it lists just these. A topic lists
them by what they are for; these are the ones written in it if that is how they are written. -/
theorem listsReferences_ofText {text : String} {uri : Option String} {id : Nat}
    {definition : Definition} (h : (ofText text uri).definition? id = some definition) :
    ListsReferences text (ofText text uri) id definition := by
  obtain ⟨file, hindex, first, paths, hlists, hwritten, hspans⟩ := exists_lists_ofText h
  have hspan (path : Site) : path.span file = spanAt text path := by
    rw [Site.span, spanAt, hindex]
  simp only [hspan] at hspans
  have hwrittenSpans : spansOf (ofText text uri).references
      (writtenIn (ofText text uri).references id) = paths.map (spanAt text) := by
    rw [hwritten]
    exact spansOf_eq ((isNumberOf_range' first [] paths).imp fun _ _ hnumber => hspans hnumber)
  refine ⟨?_, fun hkind => (hlists.inTurn hkind).trans hwritten.symm, fun hkind => ?_⟩
  · rw [hwrittenSpans]
    refine List.pairwise_map.mpr (hlists.sequence.ordered.imp_of_mem ?_)
    intro path next hpath hnext hle
    exact LineIndex.position_le (Site.isBoundary_of_within (hlists.sequence.within path hpath)).2
      (Site.isBoundary_of_within (hlists.sequence.within next hnext)).1 hle
  · obtain ⟨topic, htopic, htopicKind, hplace, rfl, hlisted⟩ := hlists.topic hkind
    refine ⟨topic, htopic, htopicKind, hplace.trans (hspan topic), hwrittenSpans,
      spansOf_eq (hlisted.imp fun _ _ hnumber => hspans hnumber), ?_⟩
    rw [hwritten]
    exact eq_range'_iff (Site.nodup_writtenPaths htopic) hlisted

/-- A topic that declares the identifier domain of its objects first lists that of its baskets
first. -/
theorem listsReferences_ofText_topic :
    let text := "INTERLIS 2.4; MODEL M = TOPIC T = OID AS x; BASKET OID AS y; END T; END M."
    ∃ definition, (ofText text none).definition? 1 = some definition ∧
      definition.kind = .topic ∧ definition.data.references = [1, 0] ∧
      writtenIn (ofText text none).references 1 = [0, 1] ∧
      ListsReferences text (ofText text none) 1 definition := by
  intro text
  have hread : ((ofText text none).definition? 1).map (fun definition =>
      (definition.kind, definition.data.references)) = some (.topic, [1, 0]) := by decide +kernel
  obtain ⟨definition, hdefinition, hdata⟩ := Option.map_eq_some_iff.mp hread
  obtain ⟨hkind, hlisted⟩ := Prod.mk.inj hdata
  exact ⟨definition, hdefinition, hkind, hlisted, by decide +kernel,
    listsReferences_ofText hdefinition⟩

end Catalog

end Ili
