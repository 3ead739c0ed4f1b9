import Provision.Proofs.Apply.Course
import Provision.Proofs.Inventory.Holding
import Provision.Proofs.Plan.Exact

/-!
# The ledger of a run

What the recorded state holds is read as a relation between files, keys and
resources.  Every deed books an entry: a successful creation or update stores
one resource in one file, a deletion drops a key, and all else books nothing.
At every point of a run the state holds what it held at first with the entries
so far applied in order, and each entry is saved before the provider is called
again.
-/

namespace Provision

/-- Which file holds which resource under which key. -/
abbrev Contents := Path → Key → Resource → Prop

namespace Contents

/-- The contents with a resource in one file, and in no other. -/
def store (contents : Contents) (file : Path) (resource : Resource) : Contents :=
  fun path key found =>
    if key = resource.key then file.same path = true ∧ found = resource
    else contents path key found

/-- The contents without a key. -/
def drop (contents : Contents) (key : Key) : Contents :=
  fun path other found => other ≠ key ∧ contents path other found

/-- The contents after the entry that a deed books. -/
def book (contents : Contents) : Deed → Contents
  | .create _ file resource (.ok ()) fields => contents.store file { resource with fields := fields }
  | .update _ file _ resource (.ok ()) fields =>
    contents.store file { resource with fields := fields }
  | .delete key _ (.ok ()) => contents.drop key
  | .absent key => contents.drop key
  | _ => contents

end Contents

/-- What an inventory holds. -/
def Inventory.contents (inventory : Inventory) : Contents :=
  inventory.Holds

/-- The deeds of a run, with what the state holds in between. -/
structure Ledger {ω : Type} (backing : Backing ω) (start finish : Run ω) (deeds : List Deed) :
    Prop where
  /-- At every point the state holds what was there at first with the entries so far. -/
  booked : ∀ front back, deeds = front ++ back →
    ∃ between, Course backing start front between ∧ Course backing between back finish ∧
      between.state.contents = front.foldl Contents.book start.state.contents
  /-- What a successful call books is saved before anything else happens. -/
  saved : ∀ front deed back, deeds = front ++ deed :: back → deed.succeeds = true →
    ∃ state outcome later, back = .save state outcome :: later ∧
      state.contents = (front ++ [deed]).foldl Contents.book start.state.contents

/-! ## Looking up a key -/

section Lookup

variable {before after : Inventory}

theorem Inventory.OneHome.resource?_iff_contents {inventory : Inventory} (h : inventory.OneHome)
    {key : Key} {resource : Resource} :
    inventory.resource? key = some resource ↔ ∃ path, inventory.contents path key resource := by
  constructor
  · intro hfound
    obtain ⟨file, hfile, hget⟩ := List.exists_of_findSome?_eq_some hfound
    exact ⟨file.path, file, hfile, Path.same_iff.2 rfl, hget⟩
  · rintro ⟨path, file, hfile, -, hget⟩
    have hentry := Table.mem_of_get? hget
    have hkey : key = resource.key := h.keyed file hfile _ hentry
    exact h.resource?_eq_some_iff.2
      ⟨Inventory.mem_resources.2 ⟨file, hfile, key, hentry⟩, hkey.symm⟩

theorem resource?_of_contents (hbefore : before.OneHome) (hafter : after.OneHome)
    (h : after.contents = before.contents) (key : Key) :
    after.resource? key = before.resource? key := by
  apply Option.ext
  intro found
  rw [hafter.resource?_iff_contents, hbefore.resource?_iff_contents, h]

theorem resource?_of_store (hbefore : before.OneHome) (hafter : after.OneHome) {file : Path}
    {resource : Resource} (h : after.contents = before.contents.store file resource) (key : Key) :
    after.resource? key =
      if resource.key = key then some resource else before.resource? key := by
  apply Option.ext
  intro found
  rw [hafter.resource?_iff_contents, h]
  unfold Contents.store
  by_cases hkey : resource.key = key
  · simp only [if_pos hkey, if_pos hkey.symm]
    constructor
    · rintro ⟨path, -, rfl⟩
      rfl
    · intro hfound
      exact ⟨file, Path.same_iff.2 rfl, (Option.some.inj hfound).symm⟩
  · simp only [if_neg hkey, if_neg (Ne.symm hkey)]
    exact hbefore.resource?_iff_contents.symm

theorem resource?_of_drop (hbefore : before.OneHome) (hafter : after.OneHome) {dropped : Key}
    (h : after.contents = before.contents.drop dropped) (key : Key) :
    after.resource? key = if dropped = key then none else before.resource? key := by
  apply Option.ext
  intro found
  rw [hafter.resource?_iff_contents, h]
  unfold Contents.drop
  by_cases hkey : dropped = key
  · rw [if_pos hkey]
    simp [hkey]
  · rw [if_neg hkey, hbefore.resource?_iff_contents]
    simp [Ne.symm hkey]

end Lookup

/-! ## Declarations of files -/

section Declarations

variable {pending state : Inventory}

theorem shelved_carryDeclarations (pending state : Inventory) (path : Path) :
    (carryDeclarations pending state path).shelved = (state.ensureFile path).1.shelved :=
  Inventory.shelved_modifyFile _ _ fun _ => rfl

theorem contents_carryDeclarations (pending state : Inventory) (path : Path) :
    (carryDeclarations pending state path).contents = state.contents := by
  funext place key resource
  apply propext
  exact (Inventory.holds_of_shelved (shelved_carryDeclarations pending state path) place key
    resource).trans (Inventory.holds_ensureFile state path place key resource)

theorem contents_withDeclarations (pending state : Inventory) :
    (withDeclarations pending state).contents = state.contents := by
  unfold withDeclarations
  generalize declarationPaths pending state = paths
  induction paths generalizing state with
  | nil => rfl
  | cons path rest ih => rw [List.foldl_cons, ih, contents_carryDeclarations]

theorem oneHome_withDeclarations (h : state.OneHome) (pending : Inventory) :
    (withDeclarations pending state).OneHome := by
  unfold withDeclarations
  generalize declarationPaths pending state = paths
  induction paths generalizing state with
  | nil => exact h
  | cons path rest ih =>
    rw [List.foldl_cons]
    apply ih
    rw [Inventory.oneHome_of_shelved (shelved_carryDeclarations pending state path)]
    exact Inventory.oneHome_ensureFile h path

end Declarations

/-! ## Entries -/

section Entries

variable {ω : Type} {backing : Backing ω} {run after : Run ω} {deed : Deed} {deeds : List Deed}

theorem contents_insert {inventory : Inventory} (h : inventory.Distinct) (file : Path)
    (resource : Resource) :
    (inventory.insert file resource).contents = inventory.contents.store file resource := by
  funext path key found
  apply propext
  exact Inventory.holds_insert h

theorem contents_remove {inventory : Inventory} (h : inventory.OneHome) (key : Key) :
    (inventory.remove key).contents = inventory.contents.drop key := by
  funext path other found
  apply propext
  exact Inventory.holds_remove h

theorem Contents.drop_of_absent {inventory : Inventory} {key : Key}
    (h : inventory.resource? key = none) :
    inventory.contents.drop key = inventory.contents := by
  funext path other found
  apply propext
  constructor
  · exact And.right
  · rintro ⟨file, hmem, hsame, hfound⟩
    refine ⟨?_, file, hmem, hsame, hfound⟩
    rintro rfl
    have hnone := List.findSome?_eq_none_iff.1 h file hmem
    rw [hfound] at hnone
    cases hnone

/-- One deed changes what the state holds by the entry that it books. -/
theorem Does.booked (h : Does backing run deed after) (hhome : run.state.OneHome) :
    after.state.OneHome ∧ after.state.contents = run.state.contents.book deed := by
  cases h with
  | reevaluate => exact ⟨hhome, rfl⟩
  | created =>
    exact ⟨Inventory.oneHome_insert hhome _ _, contents_insert hhome.distinct _ _⟩
  | createFailed => exact ⟨hhome, rfl⟩
  | updated =>
    exact ⟨Inventory.oneHome_insert hhome _ _, contents_insert hhome.distinct _ _⟩
  | updateFailed => exact ⟨hhome, rfl⟩
  | deleted => exact ⟨Inventory.oneHome_remove hhome _, contents_remove hhome _⟩
  | deleteFailed => exact ⟨hhome, rfl⟩
  | absent habsent => exact ⟨hhome, (Contents.drop_of_absent habsent).symm⟩
  | save hstate =>
    subst hstate
    exact ⟨oneHome_withDeclarations hhome _, contents_withDeclarations _ _⟩

/-- After some deeds the state holds what was there at first with their entries in order. -/
theorem Course.booked (h : Course backing run deeds after) (hhome : run.state.OneHome) :
    after.state.OneHome ∧ after.state.contents = deeds.foldl Contents.book run.state.contents := by
  induction h with
  | nil => exact ⟨hhome, rfl⟩
  | cons hdoes _ ih =>
    obtain ⟨hbetween, hentry⟩ := hdoes.booked hhome
    rw [List.foldl_cons, ← hentry]
    exact ih hbetween

/-- A course in which every success is saved at once is a ledger. -/
theorem Course.ledger (h : Course backing run deeds after) (hsaved : SavedAtOnce deeds)
    (hhome : run.state.OneHome) :
    Ledger backing run after deeds := by
  constructor
  case booked =>
    rintro front back rfl
    obtain ⟨between, hfront, hback⟩ := h.split
    exact ⟨between, hfront, hback, (hfront.booked hhome).2⟩
  case saved =>
    rintro front deed back rfl hsucceeds
    obtain ⟨state, outcome, later, rfl⟩ := hsaved.split hsucceeds
    refine ⟨state, outcome, later, rfl, ?_⟩
    -- The saved state is the one reached after the deed and the save itself, which books nothing.
    have hlist : front ++ deed :: Deed.save state outcome :: later =
        (front ++ [deed]) ++ Deed.save state outcome :: later := by simp
    rw [hlist] at h
    obtain ⟨between, hfront, hback⟩ := h.split
    cases hback with
    | cons hdoes _ =>
      cases hdoes with
      | save hstate =>
        subst hstate
        rw [contents_withDeclarations]
        exact (hfront.booked hhome).2

end Entries

/-! ## Runs of a plan -/

theorem Follows.course {ω : Type} {backing : Backing ω} {changes : List PlannedChange}
    {results : List ChangeResult} {run after : Run ω} (h : Follows backing changes results run after) :
    ∃ deeds, Course backing run deeds after ∧ SavedAtOnce deeds := by
  obtain ⟨schedule, -, hexecutes, hcourse, -⟩ := h
  refine ⟨schedule.deeds, hcourse, savedAtOnce_flatten ?_⟩
  intro part hpart
  obtain ⟨entry, hentry, rfl⟩ := List.mem_map.1 hpart
  exact (hexecutes entry hentry).saved

/-- Whatever is approved and whatever fails, the state of a run is kept like a ledger. -/
theorem applyPlan_ledger {ω : Type} (backing : Backing ω)
    (approve : ChangeGroup → List PlannedChange → Bool) (failFast : Bool) (plan : Plan)
    (run : Run ω)
    (hstate : run.state.OneHome) :
    ∃ deeds, Ledger backing run (applyPlan backing approve failFast plan run).2 deeds := by
  obtain ⟨deeds, hcourse, hsaved⟩ :=
    (applyPlan_follows backing approve failFast plan run).course
  exact ⟨deeds, hcourse.ledger hsaved hstate⟩

/-- A provider that always succeeds and leaves every field as it is. -/
def Provider.agreeing (ω : Type) : Provider ω where
  refresh _ fields world := ((.ok true, fields), world)
  create _ fields world := ((.ok (), fields), world)
  update _ _ pending _ world := ((.ok (), pending), world)
  delete _ _ world := (.ok (), world)

/-- A backing whose world is the list of the states saved so far. -/
def archiving : Backing (List Inventory) where
  provider := .agreeing _
  save state saved := (.ok (), saved ++ [state])

/-- The run that turns the recorded shelves into those wanted, where the one to be replaced is
skipped for want of a workflow, saves the state after each of the other four changes. -/
theorem applyPlan_ledger_shelves :
    shelvesRecorded.OneHome ∧ ∃ plan, diff shelvesWanted shelvesRecorded [] = .ok plan ∧
      (applyPlan archiving (fun _ _ => true) true plan ⟨shelvesWanted, shelvesRecorded, []⟩).2.world.length
        = 4 ∧
      ∃ deeds, Ledger archiving ⟨shelvesWanted, shelvesRecorded, []⟩
        (applyPlan archiving (fun _ _ => true) true plan ⟨shelvesWanted, shelvesRecorded, []⟩).2
        deeds := by
  have hrecorded : shelvesRecorded.OneHome := shelves_oneHome (by decide)
  refine ⟨hrecorded, _, rfl, ?_, applyPlan_ledger archiving _ _ _ _ hrecorded⟩
  decide +kernel

end Provision
