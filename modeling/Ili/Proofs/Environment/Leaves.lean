import Ili.Environment.Basic
import Ili.Proofs.Catalog.Enumerations

/-!
# The leaves of an enumeration by name

The leaves of an enumeration are written as dotted paths from the values down. Behind the qualified
name of the owner these paths are the qualified names of the definitions that stand for values and
have nothing below them.
-/

namespace Ili

namespace Catalog

theorem kind_ne_enumValue_of_type? {definition : Definition} {type : TypeDef}
    (h : definition.data.type? = some type) : definition.kind ≠ .enumValue := by
  rw [Definition.kind]
  cases hdata : definition.data
  case enumValue isFinal =>
    rw [hdata] at h
    cases h
  all_goals nofun

def pathOf (catalog : Catalog) (index : Nat) : String :=
  ".".intercalate ((catalog.chain index).map catalog.nameOf).reverse

theorem pathOf_congr {catalog other : Catalog} (h : catalog.definitions = other.definitions)
    (index : Nat) : catalog.pathOf index = other.pathOf index := by
  have hdefinition (index : Nat) : catalog.definition? index = other.definition? index := by
    rw [definition?, definition?, h]
  have hname : catalog.nameOf = other.nameOf := by
    funext index
    rw [nameOf, nameOf, hdefinition]
  have hchain : catalog.chain index = other.chain index :=
    chain_congr (fun index => by rw [hdefinition]) index
  rw [pathOf, pathOf, hname, hchain]

theorem Rooted.pathOf_of_parent {catalog : Catalog} (h : catalog.Rooted) {index parent : Nat}
    {definition : Definition} (hfound : catalog.definition? index = some definition)
    (hparent : definition.parent = some parent) :
    catalog.pathOf index = catalog.pathOf parent ++ "." ++ definition.name := by
  have hname : catalog.nameOf index = definition.name := by
    rw [nameOf, hfound]
    rfl
  have hne : ((catalog.chain parent).map catalog.nameOf).reverse ≠ [] := by
    rw [h.chain_eq]
    simp
  rw [pathOf, h.chain_of_parent hfound hparent, List.map_cons, List.reverse_cons, hname,
    String.intercalate_append_of_ne_nil hne (List.cons_ne_nil _ _), String.intercalate_singleton,
    pathOf]

end Catalog

namespace Environment

theorem qualifiedName_eq_pathOf {env : Environment} {file : Nat} {catalog : Catalog}
    (hfile : env.file? file = some catalog) (index : Nat) :
    env.qualifiedName ⟨file, index⟩ = catalog.pathOf index := by
  have hname (index : Nat) : env.nameOf ⟨file, index⟩ = catalog.nameOf index := by
    rw [nameOf, definition?, hfile]
    rfl
  rw [qualifiedName, chain, hfile, Catalog.pathOf, List.map_map]
  simp only [Function.comp_def, hname]

/-- **The two trees of an enumeration agree.** The definitions below the owner are the values of its
type, with the same names, nested in the same way and in the same order. In every environment that
holds the text, what has nothing below it is named like the leaves of the values. -/
theorem values_of_enumeration {text : String} {uri : Option String} {owner : Nat}
    {definition : Definition} {values : List EnumValue} {isFinal : Bool}
    (hfound : (Catalog.ofText text uri).definition? owner = some definition)
    (htype : definition.data.type? = some (.enumeration values isFinal)) :
    (Catalog.ofText text uri).Mirrors values ((Catalog.ofText text uri).below owner) ∧
      ∀ {env : Environment} {file : Nat} {catalog : Catalog}, env.file? file = some catalog →
        catalog.definitions = (Catalog.ofText text uri).definitions →
        (EnumValue.leavesOf values).map (fun leaf =>
            env.qualifiedName ⟨file, owner⟩ ++ "." ++ leaf) =
          ((Catalog.ofText text uri).leavesBelow owner).map fun index =>
            env.qualifiedName ⟨file, index⟩ := by
  have hrooted : (Catalog.ofText text uri).Rooted := Catalog.rooted_ofText text uri
  have howner : owner < (Catalog.ofText text uri).definitions.size :=
    (Array.getElem?_eq_some_iff.mp hfound).1
  have hbehind := Catalog.spellsBehind_ofText hfound htype
  have hspelled := Catalog.spelled_of_spellsBehind hrooted howner hbehind
  constructor
  · rw [Catalog.below_owner_of_spellsBehind hrooted howner hbehind]
    exact hspelled.mirrors (Nat.lt_succ_self owner)
  · intro env file catalog hfile hdefinitions
    have hname (index : Nat) : env.qualifiedName ⟨file, index⟩ =
        (Catalog.ofText text uri).pathOf index := by
      rw [qualifiedName_eq_pathOf hfile, Catalog.pathOf_congr hdefinitions]
    have hkind : definition.kind ≠ .enumValue := Catalog.kind_ne_enumValue_of_type? htype
    simp only [hname]
    rw [Catalog.leavesBelow, Catalog.valuesBelow_of_spellsBehind hrooted hbehind hfound hkind]
    exact hspelled.map_leavesOf (Nat.lt_succ_self owner) hrooted.pathOf_of_parent

def colorText : String :=
  "INTERLIS 2.4; MODEL M = DOMAIN Color = (red, green (light, dark FINAL), blue); END M."

theorem values_of_enumeration_color :
    let catalog := Catalog.ofText colorText none
    let env := initial.append catalog
    ∃ values isFinal, ((catalog.definition? 1).bind fun definition => definition.data.type?) =
        some (.enumeration values isFinal) ∧
      EnumValue.leavesOf values = ["red", "green.light", "green.dark", "blue"] ∧
      catalog.Mirrors values [2, 3, 6] ∧
      (EnumValue.leavesOf values).map (fun leaf => env.qualifiedName ⟨1, 1⟩ ++ "." ++ leaf) =
        [2, 4, 5, 6].map fun index => env.qualifiedName ⟨1, index⟩ := by
  intro catalog env
  have hleaves : ((catalog.definition? 1).bind fun definition => definition.data.type?).any
      (fun
        | .enumeration values _ =>
          EnumValue.leavesOf values == ["red", "green.light", "green.dark", "blue"]
        | _ => false) = true := by
    decide +kernel
  have hbelow : catalog.below 1 = [2, 3, 6] := by decide +kernel
  have hleavesBelow : catalog.leavesBelow 1 = [2, 4, 5, 6] := by decide +kernel
  have hfile : env.file? 1 = some catalog := rfl
  obtain ⟨type, htype, hleaves⟩ := (Option.any_eq_true _ _).mp hleaves
  obtain ⟨definition, hfound, hdata⟩ := Option.bind_eq_some_iff.mp htype
  cases type
  case enumeration values isFinal =>
    obtain ⟨hmirrors, hnames⟩ := values_of_enumeration hfound hdata
    rw [hbelow] at hmirrors
    refine ⟨values, isFinal, htype, beq_iff_eq.mp hleaves, hmirrors, ?_⟩
    rw [← hleavesBelow]
    exact hnames hfile rfl
  all_goals cases hleaves

end Environment

end Ili
