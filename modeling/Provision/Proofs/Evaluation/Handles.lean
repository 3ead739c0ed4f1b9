import Provision.Evaluation.Operator
import Provision.Inventory

/-!
# Resources inside values

The resources that occur in a value come from the values it was made of: from
the items of a list, the operands of an operator, the value a path was followed
into.  A value is known in an inventory when all of them are registered there.
-/

namespace Provision

/-! ## Tables -/

namespace Table

variable {κ ν : Type} [DecidableEq κ]

theorem mem_of_get? {table : Table κ ν} {key : κ} {value : ν} (h : table.get? key = some value) :
    (key, value) ∈ table := by
  induction table with
  | nil => cases h
  | cons pair rest ih =>
    obtain ⟨k, v⟩ := pair
    rw [get?] at h
    split at h
    · rename_i hk
      cases h
      rw [hk]
      exact List.mem_cons_self
    · exact List.mem_cons_of_mem _ (ih h)

theorem mem_set {table : Table κ ν} {key : κ} {value : ν} {entry : κ × ν}
    (h : entry ∈ table.set key value) :
    entry = (key, value) ∨ entry ∈ table := by
  induction table with
  | nil =>
    rw [set, List.mem_singleton] at h
    exact Or.inl h
  | cons pair rest ih =>
    obtain ⟨k, v⟩ := pair
    rw [set] at h
    split at h
    · rename_i hk
      subst hk
      rcases List.mem_cons.1 h with h | h
      · exact Or.inl h
      · exact Or.inr (List.mem_cons_of_mem _ h)
    · rcases List.mem_cons.1 h with h | h
      · exact Or.inr (h ▸ List.mem_cons_self)
      · rcases ih h with h | h
        · exact Or.inl h
        · exact Or.inr (List.mem_cons_of_mem _ h)

theorem set_of_get? {table : Table κ ν} {key : κ} {value : ν} (h : table.get? key = some value) :
    table.set key value = table := by
  induction table with
  | nil => cases h
  | cons pair rest ih =>
    obtain ⟨k, v⟩ := pair
    rw [get?] at h
    rw [set]
    split at h
    · next hk =>
      cases h
      rw [if_pos hk]
    · next hk => rw [if_neg hk, ih h]

theorem erase_of_notMem {table : Table κ ν} {key : κ} (h : key ∉ table.keys) :
    table.erase key = table := by
  induction table with
  | nil => rfl
  | cons pair rest ih =>
    obtain ⟨k, v⟩ := pair
    have hfirst : k ≠ key := fun heq => h (heq ▸ List.mem_cons_self)
    rw [erase, if_neg hfirst, ih fun hrest => h (List.mem_cons_of_mem _ hrest)]

theorem mem_setAll {table : Table κ ν} {pairs : List (κ × ν)} {entry : κ × ν}
    (h : entry ∈ table.setAll pairs) :
    entry ∈ table ∨ entry ∈ pairs := by
  induction pairs generalizing table with
  | nil => exact Or.inl h
  | cons pair rest ih =>
    rcases ih h with h | h
    · rcases mem_set h with h | h
      · exact Or.inr (h ▸ List.mem_cons_self)
      · exact Or.inl h
    · exact Or.inr (List.mem_cons_of_mem _ h)

theorem mem_ofPairs {pairs : List (κ × ν)} {entry : κ × ν} (h : entry ∈ ofPairs pairs) :
    entry ∈ pairs := by
  rcases mem_setAll h with h | h
  · cases h
  · exact h

end Table

/-! ## Handles -/

namespace Value

theorem handlesOfItems_eq (items : List Value) : handlesOfItems items = items.flatMap handles := by
  induction items with
  | nil => rfl
  | cons item rest ih => rw [handlesOfItems, ih, List.flatMap_cons]

theorem handlesOfEntries_eq (entries : List (String × Value)) :
    handlesOfEntries entries = entries.flatMap fun entry => entry.2.handles := by
  induction entries with
  | nil => rfl
  | cons entry rest ih =>
    obtain ⟨key, item⟩ := entry
    rw [handlesOfEntries, ih, List.flatMap_cons]

/-- Every resource in the value is registered. -/
def Known (inventory : Inventory) (value : Value) : Prop :=
  ∀ key ∈ value.handles, inventory.has key = true

variable {inventory : Inventory}

theorem known_list {items : List Value} :
    (Value.list items).Known inventory ↔ ∀ item ∈ items, item.Known inventory := by
  simp only [Known, handles, handlesOfItems_eq, List.mem_flatMap]
  exact ⟨fun h item hitem key hkey => h key ⟨item, hitem, hkey⟩,
    fun h key ⟨item, hitem, hkey⟩ => h item hitem key hkey⟩

theorem known_map {entries : List (String × Value)} :
    (Value.map entries).Known inventory ↔ ∀ entry ∈ entries, entry.2.Known inventory := by
  simp only [Known, handles, handlesOfEntries_eq, List.mem_flatMap]
  exact ⟨fun h entry hentry key hkey => h key ⟨entry, hentry, hkey⟩,
    fun h key ⟨entry, hentry, hkey⟩ => h entry hentry key hkey⟩

theorem known_resource {key : Key} :
    (Value.resource key).Known inventory ↔ inventory.has key = true := by
  simp [Known, handles]

theorem known_of_handles_eq_nil {value : Value} (h : value.handles = []) :
    value.Known inventory := by
  intro key hkey
  rw [h] at hkey
  cases hkey

theorem Known.mono {inventory' : Inventory} {value : Value} (h : value.Known inventory)
    (hhas : ∀ key, inventory.has key = true → inventory'.has key = true) :
    value.Known inventory' :=
  fun key hkey => hhas key (h key hkey)

theorem known_null : Value.null.Known inventory :=
  known_of_handles_eq_nil rfl

theorem Known.getD_get? {entries : List (String × Value)} (h : (Value.map entries).Known inventory)
    (segment : String) :
    ((Table.get? entries segment).getD .null).Known inventory := by
  cases hget : Table.get? entries segment with
  | none => exact known_null
  | some value => exact known_map.1 h (segment, value) (Table.mem_of_get? hget)

theorem Known.getD_item {items : List Value} (h : (Value.list items).Known inventory)
    (position : Option Nat) :
    ((position.bind fun i => items[i]?).getD .null).Known inventory := by
  cases hget : position.bind fun i => items[i]? with
  | none => exact known_null
  | some value =>
    obtain ⟨i, -, hi⟩ := Option.bind_eq_some_iff.1 hget
    exact known_list.1 h value (List.mem_of_getElem? hi)

theorem handles_finite? {x : Float} {value : Value} (h : Value.finite? x = some value) :
    value.handles = [] := by
  unfold Value.finite? at h
  split at h
  · cases h
    rfl
  · cases h

theorem handles_arithmetic {f : Float → Float → Option Value} {left right value : Value}
    (hf : ∀ x y, f x y = some value → value.handles = [])
    (h : (match left, right with
      | .number x, .number y => f x y
      | _, _ => none) = some value) :
    value.handles = [] := by
  split at h
  · exact hf _ _ h
  · cases h

theorem handles_comparison {left right value : Value} {test : Ordering → Bool}
    (h : ((left.compare? right).map fun o => Value.bool (test o)) = some value) :
    value.handles = [] := by
  obtain ⟨o, -, rfl⟩ := Option.map_eq_some_iff.1 h
  rfl

theorem handles_add? {left right value : Value} (h : left.add? right = some value) :
    value.handles ⊆ left.handles ++ right.handles := by
  have hnone : ∀ {value : Value}, value.handles = [] → value.handles ⊆ left.handles ++ right.handles :=
    fun hvalue => hvalue ▸ List.nil_subset _
  unfold add? at h
  split at h
  · exact hnone (handles_finite? h)
  · cases h
    rw [handles, handles, handles, handlesOfItems_eq, handlesOfItems_eq, handlesOfItems_eq,
      List.flatMap_append]
    exact List.Subset.refl _
  · split at h
    · cases h
      exact hnone rfl
    · cases h
  · split at h
    · cases h
      exact hnone rfl
    · cases h
  · cases h

/-- What an operator gives refers to no more than its operands do. -/
theorem handles_applied {op : Language.Operator} {left right value : Value}
    (h : op.apply? left right = some value) :
    value.handles ⊆ left.handles ++ right.handles := by
  have hnone : value.handles = [] → value.handles ⊆ left.handles ++ right.handles :=
    fun hvalue => hvalue ▸ List.nil_subset _
  cases op with
  | add => exact handles_add? h
  | sub => exact hnone (handles_arithmetic (fun _ _ h => handles_finite? h) h)
  | mul => exact hnone (handles_arithmetic (fun _ _ h => handles_finite? h) h)
  | div =>
    refine hnone (handles_arithmetic (fun x y h => ?_) h)
    split at h
    · cases h
    · exact handles_finite? h
  | lt => exact hnone (handles_comparison h)
  | le => exact hnone (handles_comparison h)
  | gt => exact hnone (handles_comparison h)
  | ge => exact hnone (handles_comparison h)
  | _ =>
    cases h
    exact List.nil_subset _

theorem Known.applied {op : Language.Operator} {left right value : Value}
    (hleft : left.Known inventory)
    (hright : right.Known inventory)
    (h : op.apply? left right = some value) :
    value.Known inventory :=
  fun key hkey => (List.mem_append.1 (handles_applied h hkey)).elim (hleft key) (hright key)

end Value

end Provision
