import Ili.Proofs.Catalog.Forest
import Ili.Proofs.Catalog.Meaning

/-!
# The models of a file

The walk over a tree notes a model for every child of the root that is a model with a name, under
this name. What is noted below a model is no model itself, so the models of a catalog have the names
that are read off the tree.
-/

namespace Ili

namespace Draft

def NamesModels (draft : Draft) (names : List String) : Prop :=
  draft.models.map (fun model => (draft.definitions[model]?).map Definition.name) = names.map some

variable {draft : Draft} {names : List String}

theorem NamesModels.exists_definition (h : draft.NamesModels names) {model : Nat}
    (hmodel : model ∈ draft.models) :
    ∃ definition, draft.definitions[model]? = some definition := by
  have hname := List.mem_map_of_mem
    (f := fun model => (draft.definitions[model]?).map Definition.name) hmodel
  rw [h] at hname
  obtain ⟨name, -, hname⟩ := List.mem_map.mp hname
  obtain ⟨definition, hfound, -⟩ := Option.map_eq_some_iff.mp hname.symm
  exact ⟨definition, hfound⟩

theorem NamesModels.push (h : draft.NamesModels names) (definition : Definition)
    (references : Array Reference) :
    NamesModels ⟨draft.definitions.push definition, references, draft.models⟩ names := by
  refine Eq.trans (List.map_congr_left fun model hmodel => ?_) h
  obtain ⟨noted, hnoted⟩ := h.exists_definition hmodel
  have hlt : model < draft.definitions.size := (Array.getElem?_eq_some_iff.mp hnoted).1
  dsimp only
  rw [Array.getElem?_push, if_neg hlt.ne]

theorem NamesModels.push_model (h : draft.NamesModels names) (definition : Definition)
    (references : Array Reference) :
    NamesModels ⟨draft.definitions.push definition, references,
      draft.models ++ [draft.definitions.size]⟩ (names ++ [definition.name]) := by
  have hbefore := h.push definition references
  rw [NamesModels] at hbefore ⊢
  rw [List.map_append, List.map_append, hbefore, List.map_singleton, Array.getElem?_push_size]
  rfl

end Draft

/-- The names of the models are kept by all that notes no models. -/
def Congruence.sparing (names : List String) : Congruence .visible where
  rel draft other := (Congruence.saying .visible).rel draft other ∧ draft.NamesModels names
  definition := id
  reference := id
  definitions_size h := (Congruence.saying .visible).definitions_size h.1
  references_size h := (Congruence.saying .visible).references_size h.1
  define h _ _ _ _ parent hheading hdata hplain :=
    ⟨(Congruence.saying .visible).define h.1 parent hheading hdata hplain, h.2.push _ _⟩
  addReference h _ _ hsame := ⟨(Congruence.saying .visible).addReference h.1 hsame, h.2⟩

namespace Site

theorem Alike.refl (keep : Kind → Bool) {site : Site} (h : site.tree.Neat) :
    site.Alike keep site :=
  ⟨rfl, rfl, h, h⟩

theorem map_heading? (site : Site) (file : FileContext) :
    (site.heading? file).map Heading.name = site.name? := by
  rw [heading?, Option.map_map]
  rfl

end Site

namespace Catalog

variable {draft : Draft} {names : List String}

theorem modelHead_notes (file : FileContext) (heading : Heading) (site : Site) (draft : Draft) :
    ∃ definition references, definition.name = heading.name ∧
      (modelHead file heading site draft.definitions.size draft).2 =
        ⟨draft.definitions.push definition, references,
          draft.models ++ [draft.definitions.size]⟩ := by
  set target := referTo? file draft.definitions.size .model site.translated? draft
  have htarget : draft.Pending _ target.2 :=
    refers_referTo? .model site.translated? draft draft rfl draft.pending_self
  set imports := site.importItems.mapM (readImport file draft.definitions.size) target.2
  obtain ⟨references, -, -, hnoted⟩ := Drafting.refers_mapM
    (fun item _ => refers_readImport item) draft target.2 rfl htarget
  have hhead : (modelHead file heading site draft.definitions.size draft).2 =
      ⟨imports.2.definitions.push ⟨heading.name, none, heading.span, heading.nameSpan,
        heading.metaAttributes, .empty, .model ⟨file.schemaVersion, site.language?,
          site.stringBehind? .atKw, site.stringBehind? .versionKw, target.1, imports.1.flatten,
          file.uri⟩⟩,
        imports.2.references, imports.2.models ++ [draft.definitions.size]⟩ := rfl
  rw [hhead, show imports.2 = _ from hnoted]
  exact ⟨_, _, rfl, rfl⟩

theorem namesModels_defineModel (file : FileContext) {site : Site} (hneat : site.tree.Neat)
    (h : draft.NamesModels names) :
    (defineModel file site draft).2.NamesModels (names ++ site.name?.toList) := by
  rw [← site.map_heading? file]
  cases hheading : site.heading? file with
  | none =>
    rw [defineModel, hheading, Option.map_none, Option.toList_none, List.append_nil]
    exact h
  | some heading =>
    obtain ⟨definition, references, hname, hhead⟩ := modelHead_notes file heading site draft
    have hmodel := h.push_model definition references
    rw [← hhead, hname] at hmodel
    rw [defineModel_of_heading hheading]
    -- The members note definitions of other kinds only.
    have hmembers : Drafting.Alike (.sparing (names ++ [heading.name])) Eq
        (site.members.forM (defineBelow file draft.definitions.size))
        (site.members.forM (defineBelow file draft.definitions.size)) :=
      Drafting.alike_forM (Site.Alike.refl Kind.isNothing hneat).members
        fun _ _ hlike => alike_defineBelow draft.definitions.size hlike
    exact (hmembers _ _ ⟨rfl, hmodel⟩).2.2

theorem namesModels_forM_defineModel (file : FileContext) {sites : List Site}
    (hneat : ∀ site ∈ sites, site.tree.Neat) (h : draft.NamesModels names) :
    (sites.forM (defineModel file) draft).2.NamesModels (names ++ sites.filterMap Site.name?) := by
  induction sites generalizing draft names with
  | nil =>
    rw [List.filterMap_nil, List.append_nil]
    exact h
  | cons site rest ih =>
    have hfirst := namesModels_defineModel file (hneat site List.mem_cons_self) h
    have hrest := ih (fun other hother => hneat other (List.mem_cons_of_mem _ hother)) hfirst
    rw [List.append_assoc] at hrest
    rw [List.forM_eq_forM] at hrest ⊢
    rw [List.forM_cons, List.filterMap_cons]
    cases hname : site.name? <;> rw [hname] at hrest <;> exact hrest

theorem modelNames_ofTree (text : String) {tree : Tree} (uri : Option String) (h : tree.Neat) :
    (ofTree text tree uri).modelNames = (Site.root tree).modelNames := by
  set root := Site.root tree
  set file : FileContext := ⟨.ofText text, uri, root.schemaVersion?⟩
  have hneat : ∀ site ∈ root.models, site.tree.Neat := fun site hsite =>
    h.child (Site.tree_mem_of_mem_sitesOf (List.mem_filter.mp hsite).1)
  have hempty : Draft.empty.NamesModels [] := rfl
  have hnames : (draftOf file root).NamesModels root.modelNames := by
    have hnoted := namesModels_forM_defineModel file hneat hempty
    rwa [List.nil_append] at hnoted
  have hcatalog : (ofTree text tree uri).modelNames.map some =
      (draftOf file root).models.map fun model =>
        ((draftOf file root).definitions[model]?).map Definition.name := by
    rw [modelNames, List.map_map]
    refine List.map_congr_left fun model hmodel => ?_
    have hdefinition : (ofTree text tree uri).definition? model =
        (draftOf file root).definitions[model]?.map fun definition =>
          { definition with content := contentOf (draftOf file root).definitions.toList model } :=
      definition?_ofTree text tree uri model
    obtain ⟨definition, hfound⟩ := hnames.exists_definition hmodel
    rw [Function.comp_apply, nameOf, hdefinition, hfound]
    rfl
  exact List.map_injective_iff.mpr (fun _ _ => Option.some.inj) (hcatalog.trans hnames)

theorem modelNames_ofText (text : String) (uri : Option String) :
    (ofText text uri).modelNames = (Site.root (parse text).tree).modelNames :=
  modelNames_ofTree text uri (neat_parse text)

end Catalog

end Ili
