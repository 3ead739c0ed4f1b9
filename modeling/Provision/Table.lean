/-!
# Tables in insertion order

A table is an association list whose keys are distinct.  Setting a key that is
already there keeps its place, a new key goes to the end, and erasing a key
closes the gap.  The main statements say what `set` and `erase` do to look-ups
and that both keep the keys distinct.
-/

namespace Provision

/-- Pairs of a key and a value, in the order in which the keys were first set. -/
abbrev Table (κ ν : Type) := List (κ × ν)

namespace Table

variable {κ ν : Type} [DecidableEq κ]

/-- The value stored under `key`. -/
def get? : Table κ ν → κ → Option ν
  | [], _ => none
  | (k, v) :: rest, key => if k = key then some v else get? rest key

/-- Whether `key` has a value. -/
def has (table : Table κ ν) (key : κ) : Bool :=
  (table.get? key).isSome

/-- Stores `value` under `key`, in place when the key is there already. -/
def set : Table κ ν → κ → ν → Table κ ν
  | [], key, value => [(key, value)]
  | (k, v) :: rest, key, value =>
    if k = key then (k, value) :: rest else (k, v) :: set rest key value

/-- Removes `key`; the others keep their order. -/
def erase : Table κ ν → κ → Table κ ν
  | [], _ => []
  | (k, v) :: rest, key => if k = key then rest else (k, v) :: erase rest key

/-- The keys in table order. -/
def keys (table : Table κ ν) : List κ :=
  table.map Prod.fst

/-- The values in table order. -/
def values (table : Table κ ν) : List ν :=
  table.map Prod.snd

/-- Sets the given pairs one after another. -/
def setAll (table : Table κ ν) (pairs : List (κ × ν)) : Table κ ν :=
  pairs.foldl (fun t p => t.set p.1 p.2) table

/-- The table of the given pairs; of a repeated key the first place and the last value stay. -/
def ofPairs (pairs : List (κ × ν)) : Table κ ν :=
  setAll [] pairs

/-- Every key occurs once. -/
def Distinct (table : Table κ ν) : Prop :=
  table.keys.Nodup

@[simp] theorem get?_nil (key : κ) : get? ([] : Table κ ν) key = none := rfl

theorem get?_set (table : Table κ ν) (key other : κ) (value : ν) :
    (table.set key value).get? other = if key = other then some value else table.get? other := by
  induction table with
  | nil => simp [set, get?]
  | cons pair rest ih =>
    obtain ⟨k, v⟩ := pair
    by_cases hk : k = key
    · subst hk
      by_cases ho : k = other <;> simp [set, get?, ho]
    · by_cases ho : k = other
      · subst ho
        simp [set, get?, hk, Ne.symm hk]
      · simp [set, get?, hk, ho, ih]

theorem get?_set_self (table : Table κ ν) (key : κ) (value : ν) :
    (table.set key value).get? key = some value := by
  simp [get?_set]

theorem mem_keys_iff {table : Table κ ν} {key : κ} :
    key ∈ table.keys ↔ (table.get? key).isSome := by
  induction table with
  | nil => simp [keys, get?]
  | cons pair rest ih =>
    obtain ⟨k, v⟩ := pair
    by_cases hk : k = key
    · simp [keys, get?, hk]
    · have ih' : key ∈ List.map Prod.fst rest ↔ (get? rest key).isSome := ih
      simp [keys, get?, hk, Ne.symm hk, ih']

theorem keys_set (table : Table κ ν) (key : κ) (value : ν) :
    (table.set key value).keys = if key ∈ table.keys then table.keys else table.keys ++ [key] := by
  induction table with
  | nil => simp [set, keys]
  | cons pair rest ih =>
    obtain ⟨k, v⟩ := pair
    by_cases hk : k = key
    · simp [set, keys, hk]
    · simp only [keys] at ih
      by_cases hm : key ∈ List.map Prod.fst rest
      · simp [set, keys, hk, ih, hm, Ne.symm hk]
      · simp [set, keys, hk, ih, hm, Ne.symm hk]

theorem distinct_set {table : Table κ ν} (h : table.Distinct) (key : κ) (value : ν) :
    (table.set key value).Distinct := by
  unfold Distinct at *
  rw [keys_set]
  split
  · exact h
  · next hm =>
    rw [List.nodup_append]
    refine ⟨h, by simp, fun a ha b hb => ?_⟩
    rw [List.mem_singleton.1 hb]
    exact fun he => hm (he ▸ ha)

theorem erase_sublist (table : Table κ ν) (key : κ) : (table.erase key).Sublist table := by
  induction table with
  | nil => exact List.Sublist.slnil
  | cons pair rest ih =>
    obtain ⟨k, v⟩ := pair
    by_cases hk : k = key
    · simp [erase, hk]
    · simpa [erase, hk] using ih

theorem distinct_erase {table : Table κ ν} (h : table.Distinct) (key : κ) :
    (table.erase key).Distinct :=
  List.Nodup.sublist ((erase_sublist table key).map Prod.fst) h

theorem get?_erase {table : Table κ ν} (h : table.Distinct) (key other : κ) :
    (table.erase key).get? other = if key = other then none else table.get? other := by
  induction table with
  | nil => simp [erase, get?]
  | cons pair rest ih =>
    obtain ⟨k, v⟩ := pair
    have hrest : Distinct rest := (List.nodup_cons.1 h).2
    have hk' : k ∉ keys rest := (List.nodup_cons.1 h).1
    by_cases hk : k = key
    · subst hk
      by_cases ho : k = other
      · subst ho
        have : get? rest k = none := by
          simpa [mem_keys_iff] using hk'
        simp [erase, this]
      · simp [erase, get?, ho]
    · by_cases ho : k = other
      · subst ho
        simp [erase, get?, hk, Ne.symm hk]
      · simp [erase, get?, hk, ho, ih hrest]

end Table

end Provision
