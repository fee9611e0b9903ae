/-!
# Dictionaries in order of insertion

A dictionary maps strings to values and remembers the order in which its keys came. Writing a key
that is there replaces the value and leaves the key in its place.
-/

namespace Ili

/-- A dictionary; no key occurs twice. -/
structure Dict (α : Type) where
  entries : List (String × α)
  nodup_keys : (entries.map Prod.fst).Nodup
  deriving DecidableEq, Repr

namespace Dict

variable {α : Type}

def put (key : String) (value : α) : List (String × α) → List (String × α)
  | [] => [(key, value)]
  | (k, v) :: rest => if k = key then (key, value) :: rest else (k, v) :: put key value rest

theorem map_fst_put (key : String) (value : α) (entries : List (String × α)) :
    (put key value entries).map Prod.fst =
      if key ∈ entries.map Prod.fst then entries.map Prod.fst
      else entries.map Prod.fst ++ [key] := by
  induction entries with
  | nil => simp [put]
  | cons entry rest ih =>
    obtain ⟨k, v⟩ := entry
    by_cases hk : k = key
    · subst hk
      simp [put]
    · have hne : key ≠ k := Ne.symm hk
      simp only [put, hk, if_false, List.map_cons, ih, List.mem_cons, hne, false_or]
      split <;> simp_all

theorem nodup_put {key : String} {value : α} {entries : List (String × α)}
    (h : (entries.map Prod.fst).Nodup) : ((put key value entries).map Prod.fst).Nodup := by
  rw [map_fst_put]
  split
  · exact h
  · next hnew =>
    refine List.nodup_append.mpr ⟨h, by simp, ?_⟩
    intro a ha b hb
    rw [List.mem_singleton.mp hb]
    exact fun hab => hnew (hab ▸ ha)

def empty : Dict α :=
  ⟨[], List.nodup_nil⟩

instance : Inhabited (Dict α) := ⟨empty⟩

instance : EmptyCollection (Dict α) := ⟨empty⟩

def get? (dict : Dict α) (key : String) : Option α :=
  dict.entries.lookup key

def contains (dict : Dict α) (key : String) : Bool :=
  (dict.get? key).isSome

def insert (dict : Dict α) (key : String) (value : α) : Dict α :=
  ⟨put key value dict.entries, nodup_put dict.nodup_keys⟩

def insertNew (dict : Dict α) (key : String) (value : α) : Dict α :=
  if dict.contains key then dict else dict.insert key value

def ofList (pairs : List (String × α)) : Dict α :=
  pairs.foldl (fun dict (key, value) => dict.insert key value) empty

theorem lookup_put (key other : String) (value : α) (entries : List (String × α)) :
    (put key value entries).lookup other =
      if other = key then some value else entries.lookup other := by
  induction entries with
  | nil =>
    by_cases h : other = key
    · simp [put, h]
    · simp [put, List.lookup_cons, h, beq_eq_false_iff_ne.mpr h]
  | cons entry rest ih =>
    obtain ⟨k, v⟩ := entry
    by_cases hother : other = k
    · subst hother
      by_cases hk : other = key <;> simp [put, hk]
    · have hbeq : (other == k) = false := beq_eq_false_iff_ne.mpr hother
      by_cases hk : k = key
      · subst hk
        simp [put, List.lookup_cons, hbeq, hother]
      · simp [put, hk, List.lookup_cons, hbeq, ih]

@[simp]
theorem get?_insert (dict : Dict α) (key other : String) (value : α) :
    (dict.insert key value).get? other = if other = key then some value else dict.get? other :=
  lookup_put key other value dict.entries

@[simp]
theorem get?_empty (key : String) : (empty : Dict α).get? key = none := rfl

theorem get?_insertNew (dict : Dict α) (key other : String) (value : α) :
    (dict.insertNew key value).get? other =
      if other = key then some ((dict.get? key).getD value) else dict.get? other := by
  by_cases hkey : dict.contains key = true
  · rw [insertNew, if_pos hkey]
    by_cases h : other = key
    · subst h
      obtain ⟨old, hold⟩ := Option.isSome_iff_exists.mp hkey
      simp [hold]
    · simp [h]
  · rw [insertNew, if_neg hkey, get?_insert]
    have hnone : dict.get? key = none := by simpa [contains] using hkey
    simp [hnone]

theorem lookup_of_mem {entries : List (String × α)} {key : String} {value : α}
    (hnodup : (entries.map Prod.fst).Nodup) (hmem : (key, value) ∈ entries) :
    entries.lookup key = some value := by
  induction entries with
  | nil => cases hmem
  | cons entry rest ih =>
    obtain ⟨k, v⟩ := entry
    obtain ⟨hnotMem, hrest⟩ := List.nodup_cons.mp hnodup
    rcases List.mem_cons.mp hmem with heq | htail
    · obtain ⟨rfl, rfl⟩ := Prod.mk.inj heq
      simp
    · have hne : key ≠ k := fun heq =>
        hnotMem (heq ▸ List.mem_map.mpr ⟨(key, value), htail, rfl⟩)
      rw [List.lookup_cons, beq_eq_false_iff_ne.mpr hne]
      exact ih hrest htail

theorem mem_entries_iff {dict : Dict α} {key : String} {value : α} :
    (key, value) ∈ dict.entries ↔ dict.get? key = some value := by
  constructor
  · exact lookup_of_mem dict.nodup_keys
  · intro h
    obtain ⟨before, after, hentries, _⟩ := List.lookup_eq_some_iff.mp h
    simp [hentries]

end Dict

end Ili
