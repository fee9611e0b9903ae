import Ili.Catalog.Build

/-!
# The elements of an enumeration

The values of an enumeration are read off its elements by one recursion, and the elements are noted
as definitions by another. Both are unfolded here once. The first goes from an element to those of
the enumeration in it, the second from an enumeration to those in its elements, and what is proved
of either is proved by induction on enumerations.
-/

namespace Ili

/-- Induction from the enumerations in the elements of an enumeration. -/
theorem Site.elements_induction {motive : Site → Prop}
    (step : ∀ enumeration : Site, (∀ element ∈ enumeration.childrenOf .enumElement,
      ∀ inner ∈ element.child? .enumType, motive inner) → motive enumeration)
    (enumeration : Site) : motive enumeration :=
  step enumeration fun element helement inner hinner =>
    have : sizeOf inner.tree < sizeOf enumeration.tree :=
      Nat.lt_trans (sizeOf_lt_of_child? hinner) (sizeOf_lt_of_mem_childrenOf helement)
    elements_induction step inner
termination_by sizeOf enumeration.tree

theorem enumValue?_eq (element : Site) :
    enumValue? element = element.name?.map fun name =>
      .mk name
        (element.has .finalKw || (element.child? .enumType).any fun inner => inner.has .finalKw)
        ((element.child? .enumType).elim [] enumValues) := by
  rw [enumValue?]
  refine congrArg (Option.map · _) (funext fun name => congrArg (EnumValue.mk name _) ?_)
  split
  · next hnone => rw [hnone, Option.elim_none]
  · next inner hsome =>
    rw [hsome, Option.elim_some]
    calc (inner.childrenOf .enumElement).attach.filterMap (fun below => enumValue? below.val)
        = ((inner.childrenOf .enumElement).attach.map Subtype.val).filterMap enumValue? :=
          List.filterMap_map.symm
      _ = enumValues inner := by rw [List.attach_map_subtype_val, enumValues]

namespace Catalog

open Drafting

def defineElement (file : FileContext) (parent : Nat) (element : Site) : Drafting Unit :=
  match element.heading? file with
  | none => pure ()
  | some heading => do
    let id ← nextDefinition
    define heading (some parent) (.enumValue (element.has .finalKw))
    (element.child? .enumType).elim (pure ()) (defineElements file id)

theorem defineElements_eq (file : FileContext) (parent : Nat) (enumeration : Site) :
    defineElements file parent enumeration =
      (enumeration.childrenOf .enumElement).forM (defineElement file parent) := by
  have hattach (row : List Site) (f : Site → Drafting Unit) :
      row.forM f = row.attach.forM fun element => f element.val :=
    calc row.forM f = (row.attach.map Subtype.val).forM f := by rw [List.attach_map_subtype_val]
      _ = row.attach.forM fun element => f element.val := List.forM_map ..
  rw [defineElements, hattach]
  refine congrArg (List.forM _) (funext fun ⟨element, _⟩ => ?_)
  dsimp only
  rw [defineElement]
  cases element.heading? file with
  | none => rfl
  | some heading =>
    dsimp only
    refine congrArg (nextDefinition >>= ·) (funext fun id => ?_)
    refine congrArg (define heading (some parent) _ >>= ·) (funext fun _ => ?_)
    split
    · next hnone => rw [hnone, Option.elim_none]
    · next inner hsome => rw [hsome, Option.elim_some]

end Catalog

end Ili
