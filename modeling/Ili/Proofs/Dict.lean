import Ili.Dict
import Mathlib.Data.List.Induction
import Mathlib.Order.Bounds.Basic

/-!
# What was written into a dictionary

A dictionary is filled by writing pairs one after another. What is read under a key is the last
value that was written there, and keys that are written once stay in their order.
-/

namespace Ili

namespace Dict

open scoped List

variable {α : Type} {key : String} {value : α} {pairs entries : List (String × α)}

theorem ofList_concat (pairs : List (String × α)) (last : String × α) :
    ofList (pairs ++ [last]) = (ofList pairs).insert last.1 last.2 := by
  simp [ofList, List.foldl_append]

theorem mem_or_of_get?_foldl_insert {dict : Dict α}
    (h : (pairs.foldl (fun (dict : Dict α) (entry : String × α) =>
      dict.insert entry.1 entry.2) dict).get? key = some value) :
    (key, value) ∈ pairs ∨ dict.get? key = some value := by
  induction pairs generalizing dict with
  | nil => exact .inr h
  | cons entry rest ih =>
    rcases ih h with hmem | hread
    · exact .inl (List.mem_cons_of_mem _ hmem)
    · rw [get?_insert] at hread
      split at hread
      · next hkey => exact .inl (by simp [hkey, Option.some.inj hread.symm])
      · exact .inr hread

theorem mem_of_get?_ofList (h : (ofList pairs).get? key = some value) : (key, value) ∈ pairs :=
  (mem_or_of_get?_foldl_insert h).resolve_right (by simp)

/-- Where the values grow, a key has the greatest one that comes with it. -/
theorem get?_ofList_iff {pairs : List (String × Nat)} {key : String} {value : Nat}
    (hgrow : pairs.Pairwise fun first second => first.2 ≤ second.2) :
    (ofList pairs).get? key = some value ↔ IsGreatest {v | (key, v) ∈ pairs} value := by
  induction pairs using List.reverseRecOn with
  | nil => simp [ofList, IsGreatest]
  | append_singleton pairs last ih =>
    obtain ⟨hbefore, -, hlast⟩ := List.pairwise_append.mp hgrow
    obtain ⟨name, youngest⟩ := last
    rw [ofList_concat, get?_insert]
    by_cases hkey : key = name
    · subst hkey
      have hgreatest : IsGreatest {v | (key, v) ∈ pairs ++ [(key, youngest)]} youngest := by
        refine ⟨by simp, fun v hv => ?_⟩
        rcases List.mem_append.mp hv with hold | hnew
        · exact hlast _ hold _ (List.mem_singleton_self _)
        · exact (Prod.mk.inj (List.mem_singleton.mp hnew)).2.le
      rw [if_pos rfl, Option.some_inj]
      exact ⟨fun heq => heq ▸ hgreatest, fun h => hgreatest.unique h⟩
    · rw [if_neg hkey, ih hbefore]
      simp [hkey]

/-! ### The order of the keys -/

theorem put_of_notMem (h : key ∉ entries.map Prod.fst) :
    put key value entries = entries ++ [(key, value)] := by
  induction entries with
  | nil => rfl
  | cons entry rest ih =>
    obtain ⟨hne, hrest⟩ := not_or.mp (mt List.mem_cons.mpr h)
    rw [put, if_neg (Ne.symm hne), ih hrest, List.cons_append]

theorem put_of_mem (hnodup : (entries.map Prod.fst).Nodup) (h : (key, value) ∈ entries) :
    put key value entries = entries := by
  induction entries with
  | nil => cases h
  | cons entry rest ih =>
    obtain ⟨hnotMem, hrest⟩ := List.nodup_cons.mp hnodup
    rcases List.mem_cons.mp h with rfl | h
    · rw [put, if_pos rfl]
    · have hne : entry.1 ≠ key := fun heq =>
        hnotMem (heq ▸ List.mem_map_of_mem h)
      rw [put, if_neg hne, ih hrest h]

/-- Where no key comes with two values, the keys stay in the order in which they come first. -/
theorem entries_ofList_sublist
    (h : ∀ key v w, (key, v) ∈ pairs → (key, w) ∈ pairs → v = w) :
    (ofList pairs).entries <+ pairs := by
  induction pairs using List.reverseRecOn with
  | nil => exact .refl []
  | append_singleton pairs last ih =>
    obtain ⟨key, value⟩ := last
    have hbefore := ih fun key v w hv hw =>
      h key v w (List.mem_append_left _ hv) (List.mem_append_left _ hw)
    rw [ofList_concat]
    change put key value (ofList pairs).entries <+ _
    by_cases hkey : key ∈ (ofList pairs).entries.map Prod.fst
    · obtain ⟨⟨other, old⟩, hold, rfl⟩ := List.mem_map.mp hkey
      obtain rfl : old = value :=
        h other old value (List.mem_append_left _ (hbefore.subset hold)) (by simp)
      rw [put_of_mem (ofList pairs).nodup_keys hold]
      exact hbefore.trans (List.sublist_append_left ..)
    · rw [put_of_notMem hkey]
      exact hbefore.append (.refl _)

theorem entries_ofList (hnodup : (pairs.map Prod.fst).Nodup) : (ofList pairs).entries = pairs := by
  induction pairs using List.reverseRecOn with
  | nil => rfl
  | append_singleton pairs last ih =>
    rw [List.map_append, List.nodup_append] at hnodup
    obtain ⟨hbefore, -, hdisjoint⟩ := hnodup
    have hnew : last.1 ∉ pairs.map Prod.fst := fun hmem =>
      hdisjoint _ hmem _ (List.mem_singleton_self _) rfl
    rw [ofList_concat]
    change put last.1 last.2 (ofList pairs).entries = _
    rw [ih hbefore, put_of_notMem hnew]

end Dict

end Ili
