import Provision.Proofs.Evaluation.Framing

/-!
# What a deep merge keeps

A path of map keys leads through a value to a part of it.  What a merge of two values has at the
end of a path depends on what the two have there alone, as long as the path stays among maps and
nulls of the first value: everything that the first value has there is kept, the second fills the
gaps, and lists and maps that both have are put together in order.
-/

namespace Provision

namespace Value

/-! ## Paths -/

/-- What a path of map keys leads to. -/
def at? : Value → List String → Option Value
  | value, [] => some value
  | map entries, key :: rest => (Table.get? entries key).bind fun item => item.at? rest
  | _, _ :: _ => none

/-- The value has no parts and is not null: a boolean, a number, a text or the key of a resource. -/
def IsAtom : Value → Prop
  | null | list _ | map _ => False
  | _ => True

/-- Every map that a path leads to has each of its keys once. -/
def DistinctKeys (value : Value) : Prop :=
  ∀ path entries, value.at? path = some (map entries) → Table.Distinct entries

/-- No proper prefix of the path leads to a list or an atom. -/
def OpenAlong (value : Value) (path : List String) : Prop :=
  ∀ front, front <+: path → front ≠ path → ∀ found, value.at? front = some found →
    found = null ∨ ∃ entries, found = map entries

section Paths

variable {value part : Value} {entries : Bindings} {key : String} {path rest : List String}

@[simp] theorem at?_nil (value : Value) : value.at? [] = some value := by
  cases value <;> rfl

theorem at?_map (entries : Bindings) (key : String) (rest : List String) :
    (map entries).at? (key :: rest) = (Table.get? entries key).bind fun item => item.at? rest :=
  rfl

/-- Only maps have parts. -/
theorem at?_cons_of_not_map (h : ∀ entries, value ≠ map entries) (key : String)
    (rest : List String) :
    value.at? (key :: rest) = none := by
  cases value with
  | map entries => exact absurd rfl (h entries)
  | _ => rfl

theorem at?_append (value : Value) (front back : List String) :
    value.at? (front ++ back) = (value.at? front).bind fun found => found.at? back := by
  induction front generalizing value with
  | nil => rw [List.nil_append, at?_nil, Option.bind_some]
  | cons key rest ih =>
    cases value with
    | map entries =>
      rw [List.cons_append, at?_map, at?_map, Option.bind_assoc]
      exact congrArg _ (funext fun item => ih item)
    | _ => rfl

theorem distinctKeys_of_not_map (h : ∀ entries, value ≠ map entries) : value.DistinctKeys := by
  intro path entries hat
  cases path with
  | nil => exact absurd (Option.some.inj ((at?_nil value).symm.trans hat)) (h entries)
  | cons key rest => exact absurd ((at?_cons_of_not_map h key rest).symm.trans hat) (by simp)

theorem DistinctKeys.here (h : (map entries).DistinctKeys) : Table.Distinct entries :=
  h [] entries rfl

theorem DistinctKeys.item (h : (map entries).DistinctKeys) (hget : Table.get? entries key = some part) :
    part.DistinctKeys := by
  intro path inner hat
  refine h (key :: path) inner ?_
  rw [at?_map, hget]
  exact hat

theorem distinctKeys_map_iff :
    (map entries).DistinctKeys ↔
      Table.Distinct entries ∧ ∀ entry ∈ entries, entry.2.DistinctKeys := by
  refine ⟨fun h => ⟨h.here, fun entry hentry => h.item (Table.get?_of_mem h.here hentry)⟩, ?_⟩
  rintro ⟨hkeys, hitems⟩ path inner hat
  cases path with
  | nil => exact map.inj (Option.some.inj hat) ▸ hkeys
  | cons key rest =>
    obtain ⟨item, hget, hitem⟩ := Option.bind_eq_some_iff.1 hat
    exact hitems _ (Table.mem_of_get? hget) rest inner hitem

/-- A path that leads somewhere stays among maps. -/
theorem openAlong_of_some (h : value.at? path = some part) : value.OpenAlong path := by
  intro front hprefix hne found hfound
  obtain ⟨back, rfl⟩ := hprefix
  rw [at?_append, hfound, Option.bind_some] at h
  cases back with
  | nil => exact absurd (List.append_nil front).symm hne
  | cons key rest =>
    by_contra hnot
    push Not at hnot
    rw [at?_cons_of_not_map hnot.2] at h
    cases h

/-- A path that leads to a map can go on by one key. -/
theorem openAlong_concat (h : value.at? path = some (map entries)) (key : String) :
    value.OpenAlong (path ++ [key]) := by
  intro front hprefix hne found hfound
  rcases List.prefix_concat_iff.1 hprefix with heq | hprefix
  · exact absurd heq hne
  · by_cases heq : front = path
    · subst heq
      exact Or.inr ⟨entries, Option.some.inj (hfound.symm.trans h)⟩
    · exact openAlong_of_some h front hprefix heq found hfound

theorem OpenAlong.item (h : (map entries).OpenAlong (key :: rest))
    (hget : Table.get? entries key = some part) :
    part.OpenAlong rest := by
  intro front hprefix hne found hfound
  refine h (key :: front) (List.cons_prefix_cons.2 ⟨rfl, hprefix⟩) (fun heq => hne ?_) found ?_
  · exact (List.cons.inj heq).2
  · rw [at?_map, hget]
    exact hfound

end Paths

/-! ## Merged maps -/

section Merged

variable {old new : Value} {entries added : Bindings} {path : List String}

theorem null_merge (new : Value) : null.merge new = new := by
  rw [merge]

theorem IsAtom.merge (h : old.IsAtom) (new : Value) : old.merge new = old := by
  cases old <;> first | exact h.elim | rw [Value.merge] <;> simp

theorem list_merge (items : List Value) (h : ∀ more, new ≠ list more) :
    (list items).merge new = list items := by
  cases new with
  | list more => exact absurd rfl (h more)
  | _ => rfl

theorem map_merge (entries : Bindings) (h : ∀ added, new ≠ map added) :
    (map entries).merge new = map entries := by
  cases new with
  | map added => exact absurd rfl (h added)
  | _ => rfl

/-- The keys of a merged map are those of the first map and, after them, those that only the second
one has. -/
theorem keys_mergeEntries (h : Table.Distinct added) (entries : Bindings) :
    Table.keys (mergeEntries entries added) =
      Table.keys entries ++ (Table.keys added).filter fun key => key ∉ Table.keys entries := by
  induction added generalizing entries with
  | nil =>
    rw [mergeEntries]
    exact (List.append_nil _).symm
  | cons entry rest ih =>
    obtain ⟨key, item⟩ := entry
    obtain ⟨hfirst, hrest⟩ := List.nodup_cons.1 h
    -- whichever value is stored, the key keeps its place or goes to the end
    have hset : ∀ value, Table.keys (mergeEntries (Table.set entries key value) rest) =
        Table.keys entries ++
          (key :: Table.keys rest).filter fun other => other ∉ Table.keys entries := by
      intro value
      rw [ih hrest, Table.keys_set]
      by_cases hkey : key ∈ Table.keys entries
      · rw [if_pos hkey, List.filter_cons, if_neg (by simpa using hkey)]
      · rw [if_neg hkey, List.filter_cons, if_pos (by simpa using hkey), List.append_assoc,
          List.singleton_append]
        refine congrArg (fun later => Table.keys entries ++ key :: later)
          (List.filter_congr fun other hother => ?_)
        have hne : other ≠ key := fun heq => hfirst (heq ▸ hother)
        simp [hne]
    rw [mergeEntries]
    cases Table.get? entries key with
    | some current => exact hset _
    | none => exact hset _

theorem distinct_mergeEntries (hentries : Table.Distinct entries) (hadded : Table.Distinct added) :
    Table.Distinct (mergeEntries entries added) := by
  unfold Table.Distinct
  rw [keys_mergeEntries hadded, List.nodup_append]
  refine ⟨hentries, hadded.filter _, fun key hkey other hother heq => ?_⟩
  subst heq
  exact of_decide_eq_true (List.mem_filter.1 hother).2 hkey

/-- Along a path that stays among maps and nulls of the first value, a merge is the merge of what
the path leads to. -/
theorem at?_merge (hnew : new.DistinctKeys) (hopen : old.OpenAlong path) :
    (old.merge new).at? path = Option.merge merge (old.at? path) (new.at? path) := by
  induction path generalizing old new with
  | nil =>
    rw [at?_nil, at?_nil, at?_nil]
    rfl
  | cons key rest ih =>
    rcases hopen [] (List.nil_prefix) (by simp) old (at?_nil old) with rfl | ⟨entries, rfl⟩
    · have hnone : null.at? (key :: rest) = none := rfl
      rw [null_merge, hnone, Option.merge_none_left]
    · by_cases hmap : ∃ added, new = map added
      · obtain ⟨added, rfl⟩ := hmap
        rw [merge, at?_map, at?_map, at?_map, get?_mergeEntries hnew.here]
        cases hold : Table.get? entries key with
        | none => rw [Option.merge_none_left, Option.bind_none, Option.merge_none_left]
        | some first =>
          cases hadded : Table.get? added key with
          | none => rw [Option.merge_none_right, Option.bind_none, Option.merge_none_right]
          | some second => exact ih (hnew.item hadded) (hopen.item hold)
      · have hnot : ∀ added, new ≠ map added := fun added heq => hmap ⟨added, heq⟩
        rw [map_merge entries hnot, at?_cons_of_not_map hnot, Option.merge_none_right]

/-- Extending a scope merges a map into the map of its bindings. -/
theorem map_extendScope (scope : Scope) (entries : Bindings) :
    map (extendScope scope entries).values = (map scope.values).merge (map entries) := by
  rw [extendScope_eq, merge]

end Merged

end Value

/-! ## What is at the end of a path -/

/-- Nothing is lost in a deep merge.  An atom of the first value stays, a list is followed by the
list that the second value has in the same place, what the first value lacks or has null is what
the second has, and maps have the keys of the first and then the new ones of the second. -/
theorem merge_keeps_all {old new : Value} (hold : old.DistinctKeys) (hnew : new.DistinctKeys)
    (path : List String) :
    (∀ value, old.at? path = some value → value.IsAtom →
      (old.merge new).at? path = some value) ∧
    (∀ items, old.at? path = some (.list items) →
      (∀ more, new.at? path = some (.list more) →
        (old.merge new).at? path = some (.list (items ++ more))) ∧
      ((∀ more, new.at? path ≠ some (.list more)) →
        (old.merge new).at? path = some (.list items))) ∧
    (old.at? path = none ∨ old.at? path = some .null → old.OpenAlong path →
      (∀ value, new.at? path = some value → (old.merge new).at? path = some value) ∧
      (new.at? path = none → (old.merge new).at? path = old.at? path)) ∧
    (∀ entries added, old.at? path = some (.map entries) → new.at? path = some (.map added) →
      ∃ merged, (old.merge new).at? path = some (.map merged) ∧
        Table.keys merged =
          Table.keys entries ++ (Table.keys added).filter (fun key => key ∉ Table.keys entries) ∧
        Table.Distinct merged) := by
  have hmerge : ∀ {value}, old.at? path = some value →
      (old.merge new).at? path = Option.merge Value.merge (some value) (new.at? path) := by
    intro value hvalue
    rw [Value.at?_merge hnew (Value.openAlong_of_some hvalue), hvalue]
  refine ⟨fun value hvalue hatom => ?_, fun items hitems => ⟨fun more hmore => ?_, fun hnone => ?_⟩,
    fun hgap hopen => ⟨fun value hvalue => ?_, fun hnone => ?_⟩,
    fun entries added hentries hadded => ?_⟩
  · rw [hmerge hvalue]
    cases new.at? path with
    | none => rfl
    | some other => exact congrArg some (hatom.merge other)
  · rw [hmerge hitems, hmore]
    exact congrArg some (by rw [Value.merge])
  · rw [hmerge hitems]
    cases hother : new.at? path with
    | none => rfl
    | some other =>
      exact congrArg some (Value.list_merge items fun more heq => hnone more (heq ▸ hother))
  · rw [Value.at?_merge hnew hopen, hvalue]
    rcases hgap with hgap | hgap
    · rw [hgap, Option.merge_none_left]
    · rw [hgap]
      exact congrArg some (Value.null_merge value)
  · rw [Value.at?_merge hnew hopen, hnone, Option.merge_none_right]
  · refine ⟨Value.mergeEntries entries added, ?_, Value.keys_mergeEntries (hnew path added hadded) _,
      Value.distinct_mergeEntries (hold path entries hentries) (hnew path added hadded)⟩
    rw [hmerge hentries, hadded]
    exact congrArg some (by rw [Value.merge])

/-- A crate as it is packed. -/
def packedCrate : Value :=
  .map [("goods", .list [.text "nails"]), ("lid", .map [("color", .text "red"), ("lock", .null)]),
    ("label", .null)]

/-- A crate as it was ordered. -/
def orderedCrate : Value :=
  .map [("label", .text "fragile"), ("goods", .list [.text "screws"]),
    ("lid", .map [("size", .text "wide"), ("color", .text "blue"), ("lock", .text "brass")])]

theorem distinctKeys_packedCrate : packedCrate.DistinctKeys := by
  simp [packedCrate, Value.distinctKeys_map_iff, Value.distinctKeys_of_not_map, Table.Distinct,
    Table.keys]

theorem distinctKeys_orderedCrate : orderedCrate.DistinctKeys := by
  simp [orderedCrate, Value.distinctKeys_map_iff, Value.distinctKeys_of_not_map, Table.Distinct,
    Table.keys]

/-- The lid keeps its color, gets the lock and the size that it lacks, and the goods of both come
together. -/
theorem crates_merged :
    packedCrate.DistinctKeys ∧ orderedCrate.DistinctKeys ∧
    (packedCrate.merge orderedCrate).at? ["lid", "color"] = some (.text "red") ∧
    (packedCrate.merge orderedCrate).at? ["goods"] = some (.list [.text "nails", .text "screws"]) ∧
    (packedCrate.merge orderedCrate).at? ["lid", "lock"] = some (.text "brass") ∧
    (packedCrate.merge orderedCrate).at? ["lid", "size"] = some (.text "wide") ∧
    ∃ lid, (packedCrate.merge orderedCrate).at? ["lid"] = some (.map lid) ∧
      Table.keys lid = ["color", "lock", "size"] ∧ Table.Distinct lid := by
  have hkeeps := merge_keeps_all distinctKeys_packedCrate distinctKeys_orderedCrate
  refine ⟨distinctKeys_packedCrate, distinctKeys_orderedCrate, ?_, ?_, ?_, ?_, ?_⟩
  · exact (hkeeps ["lid", "color"]).1 _ rfl trivial
  · exact ((hkeeps ["goods"]).2.1 _ rfl).1 _ rfl
  · have hopen : packedCrate.OpenAlong ["lid", "lock"] := Value.openAlong_of_some rfl
    exact ((hkeeps ["lid", "lock"]).2.2.1 (Or.inr rfl) hopen).1 _ rfl
  · have hopen : packedCrate.OpenAlong ["lid", "size"] :=
      Value.openAlong_concat (rfl : packedCrate.at? ["lid"] = _) "size"
    exact ((hkeeps ["lid", "size"]).2.2.1 (Or.inl rfl) hopen).1 _ rfl
  · exact (hkeeps ["lid"]).2.2.2 _ _ rfl rfl

end Provision
