import Provision.Proofs.Evaluation.Expression
import Provision.Proofs.Language.Places
import Provision.Proofs.State.Printed

/-!
# Recorded values

The expression that a value is written as comes to the value again as soon as all
resources in it are known, and it has read exactly those.  Until then it waits.
-/

namespace Provision

open Provision.Language (Node Entry bareNodes_eq_map bareEntries_eq_map)
open Recording

/-! ## Tables without repetition -/

namespace Table

variable {κ ν : Type} [DecidableEq κ]

theorem set_append {table : Table κ ν} {key : κ} (h : key ∉ table.keys) (value : ν) :
    table.set key value = table ++ [(key, value)] := by
  induction table with
  | nil => rfl
  | cons first rest ih =>
    unfold keys at h ih
    rw [List.map_cons, List.mem_cons, not_or] at h
    rw [set, if_neg (Ne.symm h.1), ih h.2]
    rfl

omit [DecidableEq κ] in
theorem Distinct.not_mem_keys {table rest : Table κ ν} {pair : κ × ν}
    (h : Distinct (table ++ pair :: rest)) :
    pair.1 ∉ table.keys := by
  intro hmem
  unfold Distinct keys at h
  rw [List.map_append, List.nodup_append] at h
  exact h.2.2 _ hmem _ (by simp) rfl

theorem setAll_append {table pairs : Table κ ν} (h : Distinct (table ++ pairs)) :
    table.setAll pairs = table ++ pairs := by
  induction pairs generalizing table with
  | nil => exact (List.append_nil table).symm
  | cons pair rest ih =>
    show setAll (table.set pair.1 pair.2) rest = _
    rw [set_append h.not_mem_keys, ih (by rwa [List.append_assoc]), List.append_assoc]
    rfl

end Table

/-! ## Recordings that wait for resources -/

namespace Recording

variable {α β : Type}

/-- A recording that comes to a value and reads some resources when something is known, and waits
otherwise. -/
structure Resolves (known : Prop) (added : Key → Prop) (m : Recording α) (a : α) : Prop where
  ready : known → ∀ reads, ∃ after, m.run reads = (.ok a, after) ∧ Adds added reads after
  waiting : ¬ known → ∀ reads, ∃ reasons after, m.run reads = (.error (.deferred reasons), after)

variable {known known' : Prop} {added added' : Key → Prop} {m : Recording α} {a : α}

theorem resolves_pure (a : α) : Resolves True (fun _ => False) (pure a) a where
  ready := fun _ reads => ⟨reads, rfl, adds_none reads⟩
  waiting := fun h => absurd trivial h

theorem resolves_record (key : Key) : Resolves True (fun other => other = key) (record key) () where
  ready := by
    intro _ reads
    refine ⟨Sorted.insert key reads, rfl, fun other => ?_⟩
    rw [Sorted.mem_insert, or_comm]
  waiting := fun h => absurd trivial h

theorem Resolves.bind {f : α → Recording β} {b : β} (hm : Resolves known added m a)
    (hf : Resolves known' added' (f a) b) :
    Resolves (known ∧ known') (fun key => added key ∨ added' key) (m >>= f) b where
  ready := by
    rintro ⟨hknown, hknown'⟩ reads
    obtain ⟨between, hrun, hbetween⟩ := hm.ready hknown reads
    obtain ⟨after, hrun', hafter⟩ := hf.ready hknown' between
    exact ⟨after, (run_bind_ok hrun).trans hrun', hbetween.trans hafter⟩
  waiting := by
    intro h reads
    by_cases hknown : known
    · obtain ⟨between, hrun, -⟩ := hm.ready hknown reads
      obtain ⟨reasons, after, hrun'⟩ := hf.waiting (fun hknown' => h ⟨hknown, hknown'⟩) between
      exact ⟨reasons, after, (run_bind_ok hrun).trans hrun'⟩
    · obtain ⟨reasons, after, hrun⟩ := hm.waiting hknown reads
      exact ⟨reasons, after, run_bind_error hrun⟩

theorem Resolves.congr (h : Resolves known added m a) (hknown : known ↔ known')
    (hadded : ∀ key, added key ↔ added' key) :
    Resolves known' added' m a where
  ready := by
    intro hnow reads
    obtain ⟨after, hrun, hafter⟩ := h.ready (hknown.2 hnow) reads
    exact ⟨after, hrun, fun key => by rw [hafter key, hadded key]⟩
  waiting := fun hnow => h.waiting fun hthen => hnow (hknown.1 hthen)

/-- What runs like a recording resolves like it. -/
theorem Resolves.of_run {m' : Recording α} (h : Resolves known added m a)
    (hrun : ∀ reads, m'.run reads = m.run reads) :
    Resolves known added m' a where
  ready := fun hknown reads => hrun reads ▸ h.ready hknown reads
  waiting := fun hnot reads => hrun reads ▸ h.waiting hnot reads

end Recording

/-! ## Expressions of values -/

section Values

variable {view : View}

theorem Registry.Addresses.of_subset {registry : Registry} {value part : Value}
    (h : registry.Addresses value) (hpart : ∀ key ∈ part.handles, key ∈ value.handles) :
    registry.Addresses part :=
  ⟨fun key hkey => h.notBlank key (hpart key hkey), fun key hkey => h.single key (hpart key hkey),
    fun key hkey => h.registered key (hpart key hkey)⟩

theorem Key.Trimmed.make {key : Key} (h : key.Trimmed) : Key.make key.type key.name = .ok key :=
  Key.make_eq_ok.2 ⟨h.notBlank, rfl⟩

theorem resolves_locate (hqualifier : view.qualifier = none) {key : Key}
    (hblank : isBlankText key.name = false) (span : Span) :
    Resolves (view.inventory.has key = true) (fun _ => False)
      (locate view span key.type key.name) key := by
  have hlocate : ∀ reads, (locate view span key.type key.name).run reads =
      if view.inventory.has key = true then (.ok key, reads)
      else (.error (.waiting span (.resource key)), reads) := by
    intro reads
    have hkeyAt : (settled (keyAt span key.type key.name)).run reads = (.ok key, reads) := by
      unfold keyAt
      rw [Key.make_eq_ok.2 ⟨hblank, rfl⟩]
      rfl
    unfold locate
    rw [run_bind_ok hkeyAt, hqualifier]
    dsimp only
    split <;> rfl
  constructor
  · intro hhas reads
    exact ⟨reads, by rw [hlocate, if_pos hhas], adds_none reads⟩
  · intro hhas reads
    exact ⟨_, reads, by rw [hlocate, if_neg hhas]; rfl⟩

theorem resolves_project (view : View) (span : Span) (key : Key) :
    Resolves True (fun other => other = key) (project view span [] key) (.resource key) :=
  ((resolves_record key).bind (resolves_pure (Value.resource key))).congr (and_self_iff)
    fun _ => iff_of_eq (or_false _)

/-- A reference to one resource waits for that resource. -/
theorem resolves_ref {key : Key} (hqualifier : view.qualifier = none)
    (haddresses : view.inventory.registry.Addresses (.resource key)) (span : Span) :
    Resolves (view.inventory.has key = true) (fun other => other = key)
      (evaluate view (.ref key.type.text (some (.text key.name)) [] span)) (.resource key) := by
  have hmem : key ∈ (Value.resource key).handles := List.mem_singleton_self key
  have hgoal := (resolves_locate hqualifier (haddresses.notBlank key hmem) span).bind
    (resolves_project view span key)
  refine (hgoal.congr (and_iff_left trivial) fun _ => iff_of_eq (false_or _)).of_run fun reads => ?_
  have htype : (knownType view span key.type.text).run reads = (.ok key.type, reads) := by
    unfold knownType typeAt
    rw [key.type.ofText_text]
    show (if _ then _ else _ : Recording TypeName).run reads = _
    rw [haddresses.registered key hmem]
    rfl
  rw [evaluate, run_bind_ok htype]
  show (namedValue view span key.type key.name []).run reads = _
  unfold namedValue
  rw [haddresses.single key hmem]

/-- Every expression that a value is written as comes to that value, once its resources are
known. -/
def View.Resolving (view : View) (value : Value) : Prop :=
  ∀ node : Node, node.bare = (valueNode value).bare →
    Resolves (value.Known view.inventory) (fun key => key ∈ value.handles) (evaluate view node) value

theorem resolves_evaluateAll {nodes : List Node} {values : List Value}
    (h : ∀ value ∈ values, view.Resolving value)
    (hbare : nodes.map Node.bare = (values.map valueNode).map Node.bare) :
    Resolves (∀ value ∈ values, value.Known view.inventory)
      (fun key => ∃ value ∈ values, key ∈ value.handles) (evaluateAll view nodes) values := by
  induction values generalizing nodes with
  | nil =>
    obtain rfl := List.map_eq_nil_iff.1 hbare
    exact (resolves_pure []).congr (by simp) (by simp)
  | cons value values ih =>
    obtain ⟨node, rest, rfl, hnode, hnodes⟩ := List.map_eq_cons_iff.1 hbare
    have hfirst := h value List.mem_cons_self node hnode
    have hrest := ih (fun other hother => h other (List.mem_cons_of_mem _ hother)) hnodes
    have hboth := hfirst.bind (f := fun first => do
      let others ← evaluateAll view rest
      pure (first :: others)) (hrest.bind (resolves_pure (value :: values)))
    exact hboth.congr (by simp) (by simp)

theorem resolves_evaluateEntries {entries : List Entry} {pairs : List (String × Value)}
    (h : ∀ pair ∈ pairs, view.Resolving pair.2)
    (hbare : entries.map Entry.bare = (valueEntries pairs).map Entry.bare) :
    Resolves (∀ pair ∈ pairs, pair.2.Known view.inventory)
      (fun key => ∃ pair ∈ pairs, key ∈ pair.2.handles) (evaluateEntries view entries) pairs := by
  induction pairs generalizing entries with
  | nil =>
    obtain rfl := List.map_eq_nil_iff.1 hbare
    exact (resolves_pure []).congr (by simp) (by simp)
  | cons pair pairs ih =>
    obtain ⟨key, value⟩ := pair
    obtain ⟨⟨name, node, span⟩, rest, rfl, hentry, hentries⟩ := List.map_eq_cons_iff.1 hbare
    injection hentry with hname hnode
    subst hname
    have hfirst := h (name, value) List.mem_cons_self node hnode
    have hrest := ih (fun other hother => h other (List.mem_cons_of_mem _ hother)) hentries
    have hboth := hfirst.bind (f := fun first => do
      let others ← evaluateEntries view rest
      pure ((name, first) :: others)) (hrest.bind (resolves_pure ((name, value) :: pairs)))
    exact hboth.congr (by simp) (by simp)

/-- The expression of a recorded value comes to it when its resources are known, and waits
otherwise. -/
theorem Value.Writable.resolves {value : Value} (h : value.Writable)
    (hqualifier : view.qualifier = none)
    (haddresses : view.inventory.registry.Addresses value) :
    view.Resolving value := by
  induction h with
  | null =>
    intro node hbare
    obtain rfl := Node.eq_null_of_bare hbare
    exact (resolves_pure _).congr (by simp [Value.Known, Value.handles]) (by simp [Value.handles])
  | bool b =>
    intro node hbare
    obtain rfl := Node.eq_bool_of_bare hbare
    exact (resolves_pure _).congr (by simp [Value.Known, Value.handles]) (by simp [Value.handles])
  | number =>
    intro node hbare
    obtain rfl := Node.eq_number_of_bare hbare
    exact (resolves_pure _).congr (by simp [Value.Known, Value.handles]) (by simp [Value.handles])
  | text s =>
    intro node hbare
    obtain rfl := Node.eq_text_of_bare hbare
    exact (resolves_pure _).congr (by simp [Value.Known, Value.handles]) (by simp [Value.handles])
  | @list items _ ih =>
    intro node hbare
    rw [valueNode, Node.bare, bareNodes_eq_map, valueNodes_eq_map] at hbare
    obtain ⟨nodes, rfl, hnodes⟩ := Node.eq_list_of_bare hbare
    have hitems := resolves_evaluateAll (fun item hitem => ih item hitem
      (haddresses.of_subset fun key hkey => by
        rw [Value.handles, Value.handlesOfItems_eq]
        exact List.mem_flatMap.2 ⟨item, hitem, hkey⟩)) hnodes
    refine (hitems.bind (resolves_pure (Value.list items))).congr ?_ fun key => ?_
    · rw [and_true, Value.known_list]
    · rw [or_false, Value.handles, Value.handlesOfItems_eq, List.mem_flatMap]
  | @map entries hkeys _ ih =>
    intro node hbare
    rw [valueNode, Node.bare, bareEntries_eq_map] at hbare
    obtain ⟨given, rfl, hgiven⟩ := Node.eq_map_of_bare hbare
    have hpairs := resolves_evaluateEntries (fun pair hpair => ih pair hpair
      (haddresses.of_subset fun key hkey => by
        rw [Value.handles, Value.handlesOfEntries_eq]
        exact List.mem_flatMap.2 ⟨pair, hpair, hkey⟩)) hgiven
    have hdistinct : Table.Distinct (([] : Bindings) ++ entries) := hkeys
    have htable : Table.ofPairs entries = entries := Table.setAll_append hdistinct
    have hmap := hpairs.bind (f := fun pairs => pure (Value.map (Table.ofPairs pairs)))
      (resolves_pure (Value.map (Table.ofPairs entries)))
    rw [htable] at hmap
    refine hmap.congr ?_ fun key => ?_
    · rw [and_true, Value.known_map]
    · rw [or_false, Value.handles, Value.handlesOfEntries_eq, List.mem_flatMap]
  | resource key =>
    intro node hbare
    obtain ⟨name, place, rfl, hname⟩ := Node.eq_ref_of_bare hbare
    obtain ⟨given, rfl, hgiven⟩ := Option.map_eq_some_iff.1 hname
    obtain rfl := Node.eq_text_of_bare hgiven
    refine (resolves_ref hqualifier haddresses place).congr Value.known_resource.symm fun other => ?_
    exact List.mem_singleton.symm

end Values

end Provision
