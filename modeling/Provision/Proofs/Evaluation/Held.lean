import Provision.Evaluation.Statement
import Provision.Proofs.Evaluation.Handles

/-!
# Resources that a scope holds

What a scope comes to hold while statements run is made of what it held before
and of the values that are bound, merged or collected in it.
-/

namespace Provision

open Provision.Language (Directive)

/-! ## Tables of values -/

namespace Value

variable {entries : Bindings} {name : String} {value : Value}

theorem mem_handlesOfEntries {key : Key} :
    key ∈ handlesOfEntries entries ↔ ∃ entry ∈ entries, key ∈ entry.2.handles := by
  rw [handlesOfEntries_eq, List.mem_flatMap]

theorem mem_handlesOfItems {items : List Value} {key : Key} :
    key ∈ handlesOfItems items ↔ ∃ item ∈ items, key ∈ item.handles := by
  rw [handlesOfItems_eq, List.mem_flatMap]

theorem handles_of_get? (h : Table.get? entries name = some value) :
    value.handles ⊆ handlesOfEntries entries :=
  fun _ hkey => mem_handlesOfEntries.2 ⟨_, Table.mem_of_get? h, hkey⟩

theorem handles_set (entries : Bindings) (name : String) (value : Value) :
    handlesOfEntries (Table.set entries name value) ⊆ value.handles ++ handlesOfEntries entries := by
  intro key hkey
  obtain ⟨entry, hentry, hkey⟩ := mem_handlesOfEntries.1 hkey
  rcases Table.mem_set hentry with rfl | hentry
  · exact List.mem_append_left _ hkey
  · exact List.mem_append_right _ (mem_handlesOfEntries.2 ⟨entry, hentry, hkey⟩)

theorem handles_setAll (entries pairs : Bindings) :
    handlesOfEntries (Table.setAll entries pairs) ⊆
      handlesOfEntries entries ++ handlesOfEntries pairs := by
  intro key hkey
  obtain ⟨entry, hentry, hkey⟩ := mem_handlesOfEntries.1 hkey
  rcases Table.mem_setAll hentry with hentry | hentry
  · exact List.mem_append_left _ (mem_handlesOfEntries.2 ⟨entry, hentry, hkey⟩)
  · exact List.mem_append_right _ (mem_handlesOfEntries.2 ⟨entry, hentry, hkey⟩)

theorem handles_subset {some all : Bindings} (h : some ⊆ all) :
    handlesOfEntries some ⊆ handlesOfEntries all := by
  intro key hkey
  obtain ⟨entry, hentry, hkey⟩ := mem_handlesOfEntries.1 hkey
  exact mem_handlesOfEntries.2 ⟨entry, h hentry, hkey⟩

theorem handles_erase (entries : Bindings) (name : String) :
    handlesOfEntries (Table.erase entries name) ⊆ handlesOfEntries entries :=
  handles_subset (Table.erase_sublist entries name).subset

theorem handles_eraseAll (entries : Bindings) (names : List String) :
    handlesOfEntries (names.foldl (fun all name => Table.erase all name) entries) ⊆
      handlesOfEntries entries := by
  induction names generalizing entries with
  | nil => exact List.Subset.refl _
  | cons name rest ih => exact List.Subset.trans (ih _) (handles_erase entries name)

theorem handles_getD_get? (entries : Bindings) (segment : String) :
    ((Table.get? entries segment).getD .null).handles ⊆ handlesOfEntries entries := by
  cases hget : Table.get? entries segment with
  | none => exact List.nil_subset _
  | some value => exact handles_of_get? hget

theorem handles_getD_item (items : List Value) (position : Option Nat) :
    ((position.bind fun i => items[i]?).getD .null).handles ⊆ handlesOfItems items := by
  cases hget : position.bind fun i => items[i]? with
  | none => exact List.nil_subset _
  | some value =>
    obtain ⟨i, -, hi⟩ := Option.bind_eq_some_iff.1 hget
    exact fun _ hkey => mem_handlesOfItems.2 ⟨value, List.mem_of_getElem? hi, hkey⟩

/-- Merging keeps a value that is neither null nor of the kind of the new one. -/
theorem merge_eq_old {old new : Value} (hnull : old ≠ .null)
    (hlist : ∀ left right, old = .list left → new ≠ .list right)
    (hmap : ∀ left right, old = .map left → new ≠ .map right) :
    merge old new = old := by
  unfold merge
  split
  · exact absurd rfl (hlist _ _ rfl)
  · exact absurd rfl (hmap _ _ rfl)
  · exact absurd rfl hnull
  · rfl

mutual

/-- Merging two values makes no new references. -/
theorem handles_merge : ∀ old new : Value, (merge old new).handles ⊆ old.handles ++ new.handles
  | .null, new => by
    rw [merge]
    exact List.subset_append_right _ _
  | .list old, .list new => by
    intro key hkey
    rw [merge] at hkey
    obtain ⟨item, hitem, hkey⟩ := mem_handlesOfItems.1 hkey
    rcases List.mem_append.1 hitem with hitem | hitem
    · exact List.mem_append_left _ (mem_handlesOfItems.2 ⟨item, hitem, hkey⟩)
    · exact List.mem_append_right _ (mem_handlesOfItems.2 ⟨item, hitem, hkey⟩)
  | .map old, .map new => by
    rw [merge]
    exact handles_mergeEntries old new
  | .list old, .null | .list old, .bool _ | .list old, .number _ | .list old, .text _
  | .list old, .map _ | .list old, .resource _ | .map old, .null | .map old, .bool _
  | .map old, .number _ | .map old, .text _ | .map old, .list _ | .map old, .resource _
  | .bool _, _ | .number _, _ | .text _, _ | .resource _, _ => by
    rw [merge_eq_old (by simp) (by simp) (by simp)]
    exact List.subset_append_left _ _

theorem handles_mergeEntries : ∀ old new : Bindings,
    handlesOfEntries (mergeEntries old new) ⊆ handlesOfEntries old ++ handlesOfEntries new
  | old, [] => by
    rw [mergeEntries]
    exact List.subset_append_left _ _
  | old, (name, item) :: rest => by
    have hset : ∀ value : Value, value.handles ⊆ handlesOfEntries old ++ item.handles →
        handlesOfEntries (mergeEntries (Table.set old name value) rest) ⊆
          handlesOfEntries old ++ handlesOfEntries ((name, item) :: rest) := by
      intro value hvalue key hkey
      rw [handlesOfEntries, ← List.append_assoc]
      rcases List.mem_append.1 (handles_mergeEntries _ rest hkey) with hkey | hkey
      · rcases List.mem_append.1 (handles_set _ _ _ hkey) with hkey | hkey
        · exact List.mem_append_left _ (hvalue hkey)
        · exact List.mem_append_left _ (List.mem_append_left _ hkey)
      · exact List.mem_append_right _ hkey
    rw [mergeEntries]
    split
    · next current hcurrent =>
      refine hset _ fun key hkey => ?_
      rcases List.mem_append.1 (handles_merge current item hkey) with hkey | hkey
      · exact List.mem_append_left _ (handles_of_get? hcurrent hkey)
      · exact List.mem_append_right _ hkey
    · exact hset _ (List.subset_append_right _ _)

end

end Value

/-! ## Scopes -/

/-- The resources that collected blocks refer to. -/
def Blocks.handles (blocks : Blocks) : List Key :=
  blocks.flatMap fun entry => Value.handlesOfItems entry.2

theorem Blocks.mem_handles {blocks : Blocks} {key : Key} :
    key ∈ blocks.handles ↔ ∃ entry ∈ blocks, ∃ value ∈ entry.2, key ∈ value.handles := by
  unfold handles
  simp only [List.mem_flatMap, Value.mem_handlesOfItems]

theorem Blocks.handles_append (blocks : Blocks) (name : String) (values : List Value) :
    (blocks.append name values).handles ⊆ Value.handlesOfItems values ++ blocks.handles := by
  intro key hkey
  obtain ⟨entry, hentry, value, hvalue, hkey⟩ := mem_handles.1 hkey
  rcases Table.mem_set hentry with rfl | hentry
  · rcases List.mem_append.1 hvalue with hvalue | hvalue
    · refine List.mem_append_right _ (mem_handles.2 ?_)
      cases hget : Table.get? blocks name with
      | none =>
        rw [hget] at hvalue
        cases hvalue
      | some old =>
        rw [hget] at hvalue
        exact ⟨_, Table.mem_of_get? hget, value, hvalue, hkey⟩
    · exact List.mem_append_left _ (Value.mem_handlesOfItems.2 ⟨value, hvalue, hkey⟩)
  · exact List.mem_append_right _ (mem_handles.2 ⟨entry, hentry, value, hvalue, hkey⟩)

theorem Blocks.handles_appendAll (blocks more : Blocks) :
    Blocks.handles (more.foldl (fun all entry => Blocks.append all entry.1 entry.2) blocks) ⊆
      more.handles ++ blocks.handles := by
  induction more generalizing blocks with
  | nil => exact List.Subset.refl _
  | cons entry rest ih =>
    intro key hkey
    rw [List.foldl_cons] at hkey
    unfold handles
    rw [List.flatMap_cons, List.append_assoc]
    rcases List.mem_append.1 (ih _ hkey) with hkey | hkey
    · exact List.mem_append_right _ (List.mem_append_left _ hkey)
    · rcases List.mem_append.1 (handles_append blocks _ _ hkey) with hkey | hkey
      · exact List.mem_append_left _ hkey
      · exact List.mem_append_right _ (List.mem_append_right _ hkey)

namespace Scope

variable {scope : Scope}

/-- The resources that the values visible in a scope refer to, those of collected blocks included. -/
def handles (scope : Scope) : List Key :=
  Value.handlesOfEntries scope.values ++ scope.blocks.handles ++
    scope.enclosing.flatMap Value.handlesOfEntries

theorem mem_handles {key : Key} :
    key ∈ scope.handles ↔ key ∈ Value.handlesOfEntries scope.values ∨ key ∈ scope.blocks.handles ∨
      ∃ level ∈ scope.enclosing, key ∈ Value.handlesOfEntries level := by
  unfold handles
  rw [List.mem_append, List.mem_append, List.mem_flatMap, or_assoc]

theorem handles_withValues (values : Bindings) :
    (withValues values).handles = Value.handlesOfEntries values := by
  unfold handles withValues Blocks.handles
  simp

theorem handles_child (scope : Scope) : scope.child.handles ⊆ scope.handles := by
  intro key hkey
  rcases mem_handles.1 hkey with hkey | hkey | ⟨level, hlevel, hkey⟩
  · cases hkey
  · cases hkey
  · rcases List.mem_cons.1 hlevel with rfl | hlevel
    · exact mem_handles.2 (Or.inl hkey)
    · exact mem_handles.2 (Or.inr (Or.inr ⟨level, hlevel, hkey⟩))

theorem handles_put (scope : Scope) (name : String) (value : Value) :
    (scope.put name value).handles ⊆ value.handles ++ scope.handles := by
  intro key hkey
  rw [List.mem_append]
  rcases mem_handles.1 hkey with hkey | hkey
  · rcases List.mem_append.1 (Value.handles_set _ _ _ hkey) with hkey | hkey
    · exact Or.inl hkey
    · exact Or.inr (mem_handles.2 (Or.inl hkey))
  · exact Or.inr (mem_handles.2 (Or.inr hkey))

theorem handles_putAll (scope : Scope) (entries : List (String × Value)) :
    (entries.foldl (fun s entry => s.put entry.1 entry.2) scope).handles ⊆
      Value.handlesOfEntries entries ++ scope.handles := by
  induction entries generalizing scope with
  | nil => exact List.Subset.refl _
  | cons entry rest ih =>
    intro key hkey
    rw [Value.handlesOfEntries, List.append_assoc]
    rcases List.mem_append.1 (ih _ hkey) with hkey | hkey
    · exact List.mem_append_right _ (List.mem_append_left _ hkey)
    · rcases List.mem_append.1 (handles_put _ _ _ hkey) with hkey | hkey
      · exact List.mem_append_left _ hkey
      · exact List.mem_append_right _ (List.mem_append_right _ hkey)

theorem handles_extendBlocks (scope : Scope) (blocks : Blocks) :
    (scope.extendBlocks blocks).handles ⊆ blocks.handles ++ scope.handles := by
  intro key hkey
  rw [List.mem_append]
  rcases mem_handles.1 hkey with hkey | hkey | hkey
  · exact Or.inr (mem_handles.2 (Or.inl hkey))
  · rcases List.mem_append.1 (Blocks.handles_appendAll _ _ hkey) with hkey | hkey
    · exact Or.inl hkey
    · exact Or.inr (mem_handles.2 (Or.inr (Or.inl hkey)))
  · exact Or.inr (mem_handles.2 (Or.inr (Or.inr hkey)))

theorem handles_addBlock (scope : Scope) (name : String) (value : Value) :
    (scope.addBlock name value).handles ⊆ value.handles ++ scope.handles := by
  have h := handles_extendBlocks scope [(name, [value])]
  unfold Blocks.handles at h
  rwa [List.flatMap_singleton, Value.handlesOfItems_eq, List.flatMap_singleton] at h

/-- What becomes of the values collected under one name refers to no more than these do. -/
theorem handles_blockValue (values : List Value) :
    (blockValue values).handles ⊆ Value.handlesOfItems values := by
  unfold blockValue
  split
  · rw [Value.handlesOfItems_eq, List.flatMap_singleton]
    exact List.Subset.refl _
  · rw [Value.handles]
    exact List.Subset.refl _

theorem handles_fields (scope : Scope) : Value.handlesOfEntries scope.fields ⊆ scope.handles := by
  intro key hkey
  rcases List.mem_append.1 (Value.handles_setAll _ _ hkey) with hkey | hkey
  · exact mem_handles.2 (Or.inl hkey)
  · obtain ⟨entry, hentry, hkey⟩ := Value.mem_handlesOfEntries.1 hkey
    obtain ⟨block, hblock, rfl⟩ := List.mem_map.1 hentry
    obtain ⟨value, hvalue, hkey⟩ := Value.mem_handlesOfItems.1 (handles_blockValue _ hkey)
    exact mem_handles.2 (Or.inr (Or.inl (Blocks.mem_handles.2 ⟨block, hblock, value, hvalue, hkey⟩)))

theorem handles_of_findIn {levels : List Bindings} {name : String} {value : Value}
    (h : findIn levels name = some value) :
    ∃ level ∈ levels, value.handles ⊆ Value.handlesOfEntries level := by
  induction levels with
  | nil => cases h
  | cons level rest ih =>
    rw [findIn] at h
    split at h
    · next found hfound =>
      cases h
      exact ⟨level, List.mem_cons_self, Value.handles_of_get? hfound⟩
    · obtain ⟨other, hother, hvalue⟩ := ih h
      exact ⟨other, List.mem_cons_of_mem _ hother, hvalue⟩

theorem handles_of_find {name : String} {value : Value} (h : scope.find name = some value) :
    value.handles ⊆ scope.handles := by
  obtain ⟨level, hlevel, hvalue⟩ := handles_of_findIn h
  intro key hkey
  rcases List.mem_cons.1 hlevel with rfl | hlevel
  · exact mem_handles.2 (Or.inl (hvalue hkey))
  · exact mem_handles.2 (Or.inr (Or.inr ⟨level, hlevel, hvalue hkey⟩))

/-- Extending a scope adds the references of the entries at most. -/
theorem handles_extendScope (scope : Scope) (entries : Bindings) :
    (extendScope scope entries).handles ⊆ Value.handlesOfEntries entries ++ scope.handles := by
  unfold extendScope
  induction entries generalizing scope with
  | nil => exact List.Subset.refl _
  | cons entry rest ih =>
    intro key hkey
    rw [Value.handlesOfEntries, List.append_assoc]
    rw [List.foldl_cons] at hkey
    rcases List.mem_append.1 (ih _ hkey) with hkey | hkey
    · exact List.mem_append_right _ (List.mem_append_left _ hkey)
    · split at hkey
      · next existing hexisting =>
        rcases List.mem_append.1 (handles_put _ _ _ hkey) with hkey | hkey
        · rcases List.mem_append.1 (Value.handles_merge _ _ hkey) with hkey | hkey
          · exact List.mem_append_right _ (List.mem_append_right _
              (mem_handles.2 (Or.inl (Value.handles_of_get? hexisting hkey))))
          · exact List.mem_append_left _ hkey
        · exact List.mem_append_right _ (List.mem_append_right _ hkey)
      · rcases List.mem_append.1 (handles_put _ _ _ hkey) with hkey | hkey
        · exact List.mem_append_left _ hkey
        · exact List.mem_append_right _ (List.mem_append_right _ hkey)

/-! ### Names that are bound once -/

/-- On each level of the scope a name is bound once. -/
def Neat (scope : Scope) : Prop :=
  ∀ level ∈ scope.values :: scope.enclosing, Table.Distinct level

theorem neat_withValues {values : Bindings} (h : Table.Distinct values) :
    (withValues values).Neat :=
  List.forall_mem_singleton.2 h

theorem Neat.values (h : scope.Neat) : Table.Distinct scope.values :=
  h scope.values List.mem_cons_self

theorem Neat.child (h : scope.Neat) : scope.child.Neat :=
  List.forall_mem_cons.2 ⟨List.nodup_nil, h⟩

theorem Neat.put (h : scope.Neat) (name : String) (value : Value) : (scope.put name value).Neat :=
  List.forall_mem_cons.2
    ⟨Table.distinct_set h.values name value, fun level hlevel => h level (List.mem_cons_of_mem _ hlevel)⟩

theorem Neat.extendScope (h : scope.Neat) (entries : Bindings) :
    (extendScope scope entries).Neat := by
  unfold Provision.extendScope
  induction entries generalizing scope with
  | nil => exact h
  | cons entry rest ih =>
    rw [List.foldl_cons]
    refine ih ?_
    split <;> exact h.put _ _

end Scope

/-! ## Loops -/

theorem handles_of_chunks {size bound : Nat} {items values : List Value}
    (h : values ∈ chunks size bound items) :
    Value.handlesOfItems values ⊆ Value.handlesOfItems items := by
  induction bound generalizing items with
  | zero => cases h
  | succ bound ih =>
    cases items with
    | nil => cases h
    | cons item rest =>
      unfold chunks at h
      intro key hkey
      rcases List.mem_cons.1 h with rfl | h
      · obtain ⟨value, hvalue, hkey⟩ := Value.mem_handlesOfItems.1 hkey
        rcases List.mem_append.1 hvalue with hvalue | hvalue
        · exact Value.mem_handlesOfItems.2 ⟨value, List.mem_of_mem_take hvalue, hkey⟩
        · rw [List.eq_of_mem_replicate hvalue] at hkey
          cases hkey
      · obtain ⟨value, hvalue, hkey⟩ := Value.mem_handlesOfItems.1 (ih h hkey)
        exact Value.mem_handlesOfItems.2 ⟨value, List.mem_of_mem_drop hvalue, hkey⟩

/-- The variables of a loop refer to no more than what the loop runs over. -/
theorem handles_of_iterations {d : Directive} {count : Nat} {value : Value}
    {rounds : List (List Value)} (h : iterations d count value = .ok rounds)
    {values : List Value} (hvalues : values ∈ rounds) :
    Value.handlesOfItems values ⊆ value.handles := by
  unfold iterations at h
  split at h
  · cases h
    exact handles_of_chunks hvalues
  · split at h
    · cases h
    · cases h
      obtain ⟨entry, hentry, rfl⟩ := List.mem_map.1 hvalues
      intro key hkey
      obtain ⟨item, hitem, hkey⟩ := Value.mem_handlesOfItems.1 hkey
      have hmem := List.mem_of_mem_take hitem
      simp only [List.mem_cons, List.not_mem_nil, or_false] at hmem
      rcases hmem with rfl | rfl
      · cases hkey
      · exact Value.mem_handlesOfEntries.2 ⟨entry, hentry, hkey⟩
  · cases h
    cases hvalues
  · cases h

/-- The scope of an iteration refers to its variables and to what is around it. -/
theorem handles_iteration (names : List String) (values : List Value) (scope : Scope) :
    ((names.zip values).foldl (fun s entry => s.put entry.1 entry.2) scope.child).handles ⊆
      Value.handlesOfItems values ++ scope.handles := by
  intro key hkey
  rw [List.mem_append]
  rcases List.mem_append.1 (Scope.handles_putAll _ _ hkey) with hkey | hkey
  · obtain ⟨entry, hentry, hkey⟩ := Value.mem_handlesOfEntries.1 hkey
    exact Or.inl (Value.mem_handlesOfItems.2 ⟨entry.2, (List.of_mem_zip hentry).2, hkey⟩)
  · exact Or.inr (Scope.handles_child scope hkey)

end Provision
