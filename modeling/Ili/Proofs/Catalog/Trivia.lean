import Ili.Proofs.Catalog.Meaning

/-!
# Blanks and comments say nothing

Two texts with the same visible tokens have the same tree once blanks and comments are deleted from
it, the same error messages and the same definitions and references. What may differ is where things
stand, the meta attributes, which are read off comments, and the text of a type that is kept as it
is written.
-/

namespace Ili

theorem SyntaxError.message_of_what {error other : SyntaxError} (h : error.what = other.what) :
    error.message = other.message := by
  obtain ⟨hproblem, hfound⟩ := Prod.mk.inj h
  rw [message, message, hproblem, hfound]

/-- Neither the parser nor the walk over its tree is influenced by blanks and comments. -/
theorem same_of_visible_eq {text other : String} (uri : Option String)
    (h : visible (tokenize other) = visible (tokenize text)) :
    (parse other).tree.bare Kind.isNothing id = (parse text).tree.bare Kind.isNothing id ∧
      (parse other).errors.map SyntaxError.message = (parse text).errors.map SyntaxError.message ∧
      (Catalog.ofText other uri).seen .visible = (Catalog.ofText text uri).seen .visible := by
  have hkept : KeptAlike Kind.isNothing id (tokenize text) (tokenize other) := by
    rw [KeptAlike, solidTokens_isNothing, solidTokens_isNothing, h]
    exact (List.map_id _).symm
  obtain ⟨htree, herrors⟩ := bare_parse (spares_id _) hkept
  refine ⟨htree, ?_, Catalog.seen_ofTree uri (Site.alike_root htree (neat_parse other)
    (neat_parse text))⟩
  have hrow := List.forall₂_eq_eq_eq ▸ herrors
  rw [List.forall₂_map_left_iff, List.forall₂_map_right_iff] at hrow
  exact map_eq_of_forall₂ hrow fun _ _ hwhat => SyntaxError.message_of_what hwhat

def plainText : String :=
  "INTERLIS 2.4; MODEL M = CLASS A = x: 1 .. 5 END A; END M."

/-- A class with comments of all kinds, and without blanks where none is needed. -/
def commentedText : String :=
  "INTERLIS 2.4;!! a\n!!@ key = value\nMODEL M=CLASS A=/* b */x:1 .. /** c */5 END A;END M."

theorem same_of_visible_eq_commented :
    visible (tokenize commentedText) = visible (tokenize plainText) ∧
      (Catalog.ofText commentedText none).seen .visible =
        (Catalog.ofText plainText none).seen .visible := by
  have hvisible : visible (tokenize commentedText) = visible (tokenize plainText) := by
    decide +kernel
  exact ⟨hvisible, (same_of_visible_eq none hvisible).2.2⟩

end Ili
