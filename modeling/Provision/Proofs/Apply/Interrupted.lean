import Provision.Proofs.Apply.Agreement
import Provision.Proofs.State.Stopped

/-!
# Saves that are cut short

After each successful call the whole state is saved, file by file.  When that
stops, some files say what was recorded before the call and some say what is
recorded after it.  The two differ in one resource only, so all others are found
again, each in its one file.  The resource itself is found again, too, unless the
save has stopped between the two files that it is moved from and to.
-/

namespace Provision

namespace Inventory

variable {inventory old new kept part : Inventory} {key : Key} {path root target : Path}
  {resource : Resource} {written roots : List Path}

/-! ## One resource apart -/

/-- The new state differs from the old one in what it holds under one key, and it keeps all
imports on the way to a resource. -/
structure DiffersAt (old new : Inventory) (key : Key) : Prop where
  registry : new.registry = old.registry
  others : ∀ {other path resource}, other ≠ key →
    (new.Holds path other resource ↔ old.Holds path other resource)
  imports : ∀ {path target last}, old.Imports path target → old.ImportsReach target last →
    new.Populated last → new.Imports path target

/-- The old state holds the key in one file, the new state in another. -/
def Moves (old new : Inventory) (key : Key) (given taking : Path) : Prop :=
  ∃ before after, old.Holds given key before ∧ new.Holds taking key after ∧
    given.same taking = false

/-- No file that takes a resource over is written before the one that gives it away. -/
def NoneDoubled (old new : Inventory) (written : List Path) : Prop :=
  ∀ key given taking, Moves old new key given taking →
    taking.isIn written = true → given.isIn written = true

/-- If the resource with the key is moved, then between two of the files that a load starts from,
and not with the first of them alone written. -/
def Keeps (old new : Inventory) (roots written : List Path) (key : Key) : Prop :=
  ∀ given taking, Moves old new key given taking →
    given.isIn roots = true ∧ taking.isIn roots = true ∧
      (given.isIn written = true → taking.isIn written = true)

theorem populated_of_holds (h : inventory.Apart) (hholds : inventory.Holds path key resource) :
    inventory.Populated path := by
  obtain ⟨file, hfile, hfound⟩ := h.holds_iff.1 hholds
  refine ⟨file, hfile, fun hnil => ?_⟩
  rw [FileScope.resource?, hnil] at hfound
  cases hfound

theorem OneHome.hasOnly (h : inventory.OneHome) (hholds : inventory.Holds path key resource) :
    inventory.contents.HasOnly key path resource := by
  intro place found
  constructor
  · intro hfound
    refine ⟨h.same_path hholds hfound, ?_⟩
    exact Option.some.inj ((h.resource?_iff_contents.2 ⟨place, hfound⟩).symm.trans
      (h.resource?_iff_contents.2 ⟨path, hholds⟩))
  · rintro ⟨hsame, rfl⟩
    obtain ⟨file, hfile, hplace, hfound⟩ := hholds
    exact ⟨file, hfile, Path.same_trans hplace hsame, hfound⟩

/-! ## What a successful call changes -/

theorem imports_iff_headings :
    inventory.Imports path target ↔
      ∃ heading, (inventory.headings.find? fun heading => heading.1.same path) = some heading ∧
        target.isIn heading.2.1 = true := by
  unfold Imports file? headings
  rw [List.find?_map]
  simp only [Option.map_eq_some_iff, exists_exists_and_eq_and]
  rfl

theorem imports_insert (inventory : Inventory) (place : Path) (resource : Resource) :
    (inventory.insert place resource).Imports path target ↔ inventory.Imports path target := by
  have hheadings : (inventory.insert place resource).headings =
      (inventory.ensureFile place).1.headings := headings_insertAt _ _ _
  rw [imports_iff_headings, hheadings, ← imports_iff_headings]
  unfold Imports
  rw [file?_ensureFile]
  cases inventory.file? path with
  | some file => rfl
  | none =>
    rw [Option.none_or]
    split
    · simp [Path.isIn]
    · rfl

theorem imports_remove (inventory : Inventory) (key : Key) :
    (inventory.remove key).Imports path target ↔ inventory.Imports path target := by
  rw [imports_iff_headings, headings_remove, ← imports_iff_headings]

/-- What is saved differs from what was there before the change in one key, when nothing but what
stands under this key was changed. -/
theorem differsAt_withDeclarations {between : Inventory} (pending : Inventory)
    (hregistry : between.registry = old.registry)
    (hothers : ∀ {other path resource}, other ≠ key →
      (between.Holds path other resource ↔ old.Holds path other resource))
    (himports : ∀ {path target}, between.Imports path target ↔ old.Imports path target) :
    DiffersAt old (withDeclarations pending between) key where
  registry := (registry_withDeclarations pending between).trans hregistry
  others := by
    intro other path resource hne
    have hcontents := contents_withDeclarations pending between
    unfold contents at hcontents
    rw [hcontents]
    exact hothers hne
  imports := by
    intro path target last hold hreaches hpopulated
    have hpreserves := preserves_withDeclarations pending between
    refine hpreserves.imports path target (himports.2 hold) ⟨last, ?_, (hpreserves.populated _).1
      hpopulated⟩
    exact Relation.ReflTransGen.mono (fun _ _ hleads => hleads.imp_right himports.2) _ _ hreaches

/-! ## Found again -/

theorem Mixed.holds_or (hkept : Mixed old new written kept) (hold : old.Apart) (hnew : new.Apart)
    (hholds : kept.Holds path key resource) :
    path.isIn written = true ∧ new.Holds path key resource ∨
      path.isIn written = false ∧ old.Holds path key resource := by
  rw [hkept.holds_iff hold hnew] at hholds
  split at hholds
  · next hin => exact Or.inl ⟨hin, hholds⟩
  · next hnot => exact Or.inr ⟨Bool.eq_false_iff.2 hnot, hholds⟩

/-- The way to a file that holds something before and after the change is open at any time. -/
theorem Mixed.reaches (hkept : Mixed old new written kept) (hdiffers : DiffersAt old new key)
    (hreaches : old.ImportsReach root path) (hpopulated : new.Populated path) :
    kept.ImportsReach root path := by
  induction hreaches using Relation.ReflTransGen.head_induction_on with
  | refl => exact .refl
  | @head first second hleads hrest ih =>
    refine Relation.ReflTransGen.head ?_ ih
    rcases hleads with hsame | himports
    · exact Or.inl hsame
    · refine Or.inr (hkept.imports_iff.2 ?_)
      split
      · exact hdiffers.imports himports hrest hpopulated
      · exact himports

section Finding

variable (hdiffers : DiffersAt old new key) (hkept : Mixed old new written kept)
  (hold : old.Recordable) (hnew : new.Recordable)
include hdiffers hkept hold hnew

theorem Mixed.holds_of_ne {other : Key} (hne : other ≠ key) :
    kept.Holds path other resource ↔ old.Holds path other resource := by
  rw [hkept.holds_iff hold.paths hnew.paths]
  split
  · exact hdiffers.others hne
  · exact Iff.rfl

/-- No key stands in two files when none is doubled. -/
theorem Mixed.holds_once (hdoubled : NoneDoubled old new written) {other : Key} {place : Path}
    {found : Resource} (hfirst : kept.Holds path other resource)
    (hsecond : kept.Holds place other found) :
    path.same place = true := by
  by_cases hne : other = key
  · subst hne
    -- a file that was written and one that was not are those of a move
    have hclash {given taking : Path} {before after : Resource} (hgiven : old.Holds given other before)
        (hunwritten : given.isIn written = false) (htaking : new.Holds taking other after)
        (hwritten : taking.isIn written = true) :
        given.same taking = true := by
      by_contra hapart
      have hboth := hdoubled other given taking
        ⟨before, after, hgiven, htaking, Bool.eq_false_iff.2 hapart⟩ hwritten
      rw [hunwritten] at hboth
      cases hboth
    rcases hkept.holds_or hold.paths hnew.paths hfirst with ⟨hin, hfirst⟩ | ⟨hin, hfirst⟩ <;>
      rcases hkept.holds_or hold.paths hnew.paths hsecond with ⟨hin', hsecond⟩ | ⟨hin', hsecond⟩
    · exact hnew.oneHome.same_path hfirst hsecond
    · exact Path.same_comm.1 (hclash hsecond hin' hfirst hin)
    · exact hclash hfirst hin hsecond hin'
    · exact hold.oneHome.same_path hfirst hsecond
  · exact hold.oneHome.same_path ((hkept.holds_of_ne hdiffers hold hnew hne).1 hfirst)
      ((hkept.holds_of_ne hdiffers hold hnew hne).1 hsecond)

/-- What both states hold is held in a file that a load comes to. -/
theorem Mixed.exists_reached
    (hreach : ∀ path, old.Populated path → ∃ root ∈ roots, old.ImportsReach root path)
    {other : Key} (hkeeps : Keeps old new roots written other) {place : Path} {before after : Resource}
    (hbefore : old.Holds path other before) (hafter : new.Holds place other after) :
    ∃ home resource, kept.Holds home other resource ∧
      (old.Holds home other resource ∨ new.Holds home other resource) ∧
      ∃ root ∈ roots, kept.ImportsReach root home := by
  have hlook (home : Path) (resource : Resource) :
      kept.Holds home other resource ↔ if home.isIn written then new.Holds home other resource
        else old.Holds home other resource :=
    hkept.holds_iff hold.paths hnew.paths
  by_cases hsame : path.same place = true
  · have hafter : new.Holds path other after :=
      ((hnew.oneHome.hasOnly hafter) path after).2 ⟨Path.same_comm.1 hsame, rfl⟩
    obtain ⟨root, hroot, hreaches⟩ := hreach path (populated_of_holds hold.paths hbefore)
    have hopen := hkept.reaches hdiffers hreaches (populated_of_holds hnew.paths hafter)
    by_cases hin : path.isIn written = true
    · exact ⟨path, after, (hlook path after).2 (by rwa [if_pos hin]), Or.inr hafter, root, hroot,
        hopen⟩
    · exact ⟨path, before, (hlook path before).2 (by rwa [if_neg hin]), Or.inl hbefore, root, hroot,
        hopen⟩
  · obtain ⟨hgiven, htaking, hboth⟩ := hkeeps path place
      ⟨before, after, hbefore, hafter, Bool.eq_false_iff.2 hsame⟩
    have hroot {home : Path} (hhome : home.isIn roots = true) :
        ∃ root ∈ roots, kept.ImportsReach root home := by
      obtain ⟨root, hroot, hspelled⟩ := Path.isIn_iff.1 hhome
      exact ⟨root, hroot, .single (Or.inl (Path.same_comm.1 hspelled))⟩
    by_cases hin : place.isIn written = true
    · exact ⟨place, after, (hlook place after).2 (by rwa [if_pos hin]), Or.inr hafter, hroot htaking⟩
    · exact ⟨path, before, (hlook path before).2 (by rwa [if_neg fun hgiven => hin (hboth hgiven)]),
        Or.inl hbefore, hroot hgiven⟩

end Finding

/-! ## Loaded again -/

theorem OneHome.exists_holds (hhas : inventory.has key = true) (h : inventory.OneHome) :
    ∃ path resource, inventory.Holds path key resource := by
  obtain ⟨resource, hresource⟩ := (has_iff inventory key).1 hhas
  obtain ⟨path, hpath⟩ := h.resource?_iff_contents.1 hresource
  exact ⟨path, resource, hpath⟩

theorem OneHome.has_of_holds (h : inventory.OneHome) (hholds : inventory.Holds path key resource) :
    inventory.has key = true :=
  (has_iff inventory key).2 ⟨resource, h.resource?_iff_contents.2 ⟨path, hholds⟩⟩

/-- A reference is also one of an inventory that holds the same under the key. -/
theorem OneHome.refers_of_holds {other : Inventory} (h : inventory.OneHome) (hother : other.OneHome)
    (hholds : ∀ {path resource}, inventory.Holds path key resource → ∃ place,
      other.Holds place key resource)
    {target : Key} (hrefers : inventory.Refers key target) :
    other.Refers key target := by
  obtain ⟨resource, hresource, hfield⟩ := hrefers
  obtain ⟨path, hpath⟩ := h.resource?_iff_contents.1 hresource
  exact ⟨resource, hother.resource?_iff_contents.2 (hholds hpath), hfield⟩

/-- No reference of the files that are loaded leads out of them, nor in a circle. -/
theorem PartOf.grounded (hpart : part.PartOf kept) (hdiffers : DiffersAt old new key)
    (hkept : Mixed old new written kept) (hold : old.Recordable) (hnew : new.Recordable)
    (hhome : kept.OneHome)
    (hfound : ∀ target, old.has target = true → new.has target = true →
      (∃ source, old.Refers source target) ∨ target ≠ key → part.has target = true) :
    part.Grounded := by
  have hpartHome := hpart.oneHome hhome
  obtain ⟨-, holdGrounded⟩ := recordable_iff.1 hold
  obtain ⟨-, hnewGrounded⟩ := recordable_iff.1 hnew
  have hother {source target : Key} (hne : source ≠ key) (hrefers : part.Refers source target) :
      old.Refers source target ∧ new.Refers source target := by
    have hholds {path : Path} {resource : Resource} (hpath : part.Holds path source resource) :
        old.Holds path source resource :=
      (hkept.holds_of_ne hdiffers hold hnew hne).1 (hpart.holds hpath)
    exact ⟨hpartHome.refers_of_holds hold.oneHome (fun hpath => ⟨_, hholds hpath⟩) hrefers,
      hpartHome.refers_of_holds hnew.oneHome
        (fun hpath => ⟨_, (hdiffers.others hne).2 (hholds hpath)⟩) hrefers⟩
  -- the one resource that differs is as before the change, or as after it
  have huniform : (∀ source target, part.Refers source target → old.Refers source target) ∨
      ∀ source target, part.Refers source target → new.Refers source target := by
    by_cases hlater : ∃ path resource, part.Holds path key resource ∧ new.Holds path key resource
    · obtain ⟨path, resource, hheld, hlater⟩ := hlater
      refine Or.inr fun source target hrefers => ?_
      by_cases hne : source = key
      · subst hne
        refine hpartHome.refers_of_holds hnew.oneHome (fun {place found} hplace => ⟨path, ?_⟩) hrefers
        obtain ⟨-, rfl⟩ := (hpartHome.hasOnly hheld place found).1 hplace
        exact hlater
      · exact (hother hne hrefers).2
    · refine Or.inl fun source target hrefers => ?_
      by_cases hne : source = key
      · subst hne
        refine hpartHome.refers_of_holds hold.oneHome (fun {place found} hplace => ⟨place, ?_⟩) hrefers
        rcases hkept.holds_or hold.paths hnew.paths (hpart.holds hplace) with ⟨-, hnow⟩ | ⟨-, hbefore⟩
        · exact absurd ⟨place, found, hplace, hnow⟩ hlater
        · exact hbefore
      · exact (hother hne hrefers).1
  constructor
  · intro source target hrefers
    by_cases htarget : target = key
    · subst htarget
      have hne : source ≠ target := by
        rintro rfl
        rcases huniform with hall | hall
        · exact holdGrounded.acyclic source (.single (hall _ _ hrefers))
        · exact hnewGrounded.acyclic source (.single (hall _ _ hrefers))
      obtain ⟨hbefore, hafter⟩ := hother hne hrefers
      exact hfound target (holdGrounded.present hbefore) (hnewGrounded.present hafter)
        (Or.inl ⟨source, hbefore⟩)
    · have hboth : old.has target = true ↔ new.has target = true := by
        constructor
        · intro hhas
          obtain ⟨path, resource, hholds⟩ := OneHome.exists_holds hhas hold.oneHome
          exact hnew.oneHome.has_of_holds ((hdiffers.others htarget).2 hholds)
        · intro hhas
          obtain ⟨path, resource, hholds⟩ := OneHome.exists_holds hhas hnew.oneHome
          exact hold.oneHome.has_of_holds ((hdiffers.others htarget).1 hholds)
      rcases huniform with hall | hall
      · have hhas := holdGrounded.present (hall _ _ hrefers)
        exact hfound target hhas (hboth.1 hhas) (Or.inr htarget)
      · have hhas := hnewGrounded.present (hall _ _ hrefers)
        exact hfound target (hboth.2 hhas) hhas (Or.inr htarget)
  · intro source hcircle
    rcases huniform with hall | hall
    · exact holdGrounded.acyclic source (Relation.TransGen.mono hall _ _ hcircle)
    · exact hnewGrounded.acyclic source (Relation.TransGen.mono hall _ _ hcircle)

theorem restored_holds {loaded : Inventory} (h : List.Forall₂ FileRestored part.files loaded.files)
    (hholds : part.Holds path key resource) :
    ∃ again, loaded.Holds path key again ∧ again.content = resource.content := by
  obtain ⟨file, hfile, hsame, hfound⟩ := hholds
  obtain ⟨other, hother, hrestored⟩ := exists_of_forall₂ h hfile
  have hresource := hrestored.resources key
  rw [hfound, Option.map_some] at hresource
  obtain ⟨again, hagain, hcontent⟩ := Option.map_eq_some_iff.1 hresource
  exact ⟨again, ⟨other, hother, hrestored.path ▸ hsame, hagain⟩, hcontent⟩

theorem oneHome_of_load {ω : Type} {store : StateStore ω} {world : ω} {registry : Registry}
    {loaded : Inventory} (h : store.load registry roots world = .ok loaded) : loaded.OneHome := by
  obtain ⟨sources, -, h⟩ := bind_eq_ok.1 h
  cases hevaluate : evaluateState registry sources with
  | error e =>
    rw [hevaluate] at h
    cases h
  | ok state =>
    rw [hevaluate] at h
    cases h
    exact (evaluateState_sound hevaluate).oneHome

/-- A save that has stopped is loaded again, with all that is recorded before and after it. -/
theorem stopped_loads {ω : Type} {store : StateStore ω} {world : ω} (hatomic : store.Atomic)
    (hdiffers : DiffersAt old new key) (hold : old.Recordable) (hnew : new.Recordable)
    (hshows : store.Shows old world)
    (hreach : ∀ path, old.Populated path → ∃ root ∈ roots, old.ImportsReach root path)
    (hwritten : written = (store.savedFiles new.files world).map FileScope.path)
    (hdoubled : NoneDoubled old new written)
    (hreferred : ∀ source target, old.Refers source target → Keeps old new roots written target) :
    ∃ kept loaded, store.Shows kept (store.save new world).2 ∧
      store.load old.registry roots (store.save new world).2 = .ok loaded ∧
      ∀ key, old.has key = true → new.has key = true → Keeps old new roots written key →
        ∃ path resource, kept.contents.HasOnly key path resource ∧
          (old.contents path key resource ∨ new.contents path key resource) ∧
          ∃ again, loaded.contents.HasOnly key path again ∧ again.content = resource.content := by
  obtain ⟨kept, hkept, hshown⟩ := stopped_shows hatomic hold.paths hnew.paths hshows
  rw [← hwritten] at hkept
  have hwritable : kept.Writable := hkept.writable (recordable_iff.1 hold).1 (recordable_iff.1 hnew).1
    hdiffers.registry fun hfirst hsecond =>
      hkept.holds_once hdiffers hold hnew hdoubled hfirst hsecond
  obtain ⟨part, hpart, hread, hloads⟩ := load_part hwritable hshown
    (recorded_length_lt hatomic hkept.apart hshown) roots
  -- what both states hold is among what is read
  have hfound (key : Key) (hbefore : old.has key = true) (hafter : new.has key = true)
      (hkeeps : Keeps old new roots written key) :
      ∃ home resource, kept.Holds home key resource ∧
        (old.Holds home key resource ∨ new.Holds home key resource) ∧
        part.Holds home key resource := by
    obtain ⟨path, before, hbefore⟩ := OneHome.exists_holds hbefore hold.oneHome
    obtain ⟨place, after, hafter⟩ := OneHome.exists_holds hafter hnew.oneHome
    obtain ⟨home, resource, hholds, hsource, root, hroot, hreaches⟩ :=
      hkept.exists_reached hdiffers hold hnew hreach hkeeps hbefore hafter
    refine ⟨home, resource, hholds, hsource, hpart.mem_files hkept.apart hholds ?_⟩
    exact hread root hroot home hreaches
      (occupied_iff.2 (Or.inl (populated_of_holds hkept.apart hholds)))
  have hpartHome := hpart.oneHome hwritable.oneHome
  have hgrounded : part.Grounded := by
    refine hpart.grounded hdiffers hkept hold hnew hwritable.oneHome ?_
    rintro target hbefore hafter hneeded
    have hkeeps : Keeps old new roots written target := by
      rcases hneeded with ⟨source, hrefers⟩ | hne
      · exact hreferred source target hrefers
      · rintro given taking ⟨before, after, hgiven, htaking, hapart⟩
        have hsame := hold.oneHome.same_path hgiven ((hdiffers.others hne).1 htaking)
        rw [hsame] at hapart
        cases hapart
    obtain ⟨home, resource, -, -, hholds⟩ := hfound target hbefore hafter hkeeps
    exact hpartHome.has_of_holds hholds
  obtain ⟨loaded, hload, hrestored⟩ := hloads hgrounded
  rw [hkept.registry] at hload
  refine ⟨kept, loaded, hshown, hload, fun key hbefore hafter hkeeps => ?_⟩
  obtain ⟨home, resource, hholds, hsource, hheld⟩ := hfound key hbefore hafter hkeeps
  obtain ⟨again, hagain, hcontent⟩ := restored_holds hrestored hheld
  exact ⟨home, resource, hwritable.oneHome.hasOnly hholds, hsource, again,
    (oneHome_of_load hload).hasOnly hagain, hcontent⟩

end Inventory

/-! ## Cutting a save short -/

section Runs

variable {ω : Type} {backing : Backing ω} {run between : Run ω} {deed : Deed}

theorem Does.differsAt (h : Does backing run deed between) (hsucceeds : deed.succeeds = true)
    (hhome : run.state.OneHome) :
    ∃ key, Inventory.DiffersAt run.state (withDeclarations between.pending between.state) key := by
  have hnoted (file : Path) (resource : Resource) :
      Inventory.DiffersAt run.state
        (withDeclarations between.pending (run.state.insert file resource)) resource.key := by
    refine Inventory.differsAt_withDeclarations _ (Inventory.registry_ensureFile run.state file)
      (fun hne => ?_) (Inventory.imports_insert _ _ _)
    rw [Inventory.holds_insert hhome.distinct, if_neg hne]
  cases h with
  | created => exact ⟨_, hnoted _ _⟩
  | updated => exact ⟨_, hnoted _ _⟩
  | @deleted key =>
    refine ⟨key, Inventory.differsAt_withDeclarations _ rfl (fun hne => ?_)
      (Inventory.imports_remove _ _)⟩
    rw [Inventory.holds_remove hhome]
    exact and_iff_right hne
  | reevaluate => cases hsucceeds
  | createFailed => cases hsucceeds
  | updateFailed => cases hsucceeds
  | deleteFailed => cases hsucceeds
  | absent => cases hsucceeds
  | save => cases hsucceeds

/-- The save that follows a successful call may stop at any file.  The disk is loaded again all the
same, and what is recorded both before and after the call is recorded in exactly one file, unless
the save came between the two files that a resource is moved from and to. -/
theorem interrupted_save_loads {store : StateStore ω} (hatomic : store.Atomic)
    (hdoes : Does backing run deed between) (hsucceeds : deed.succeeds = true) {new : Inventory}
    (hstate : new = withDeclarations between.pending between.state) (hold : run.state.Recordable)
    (hnew : new.Recordable) (hshows : store.Shows run.state between.world) {roots written : List Path}
    (hreach : ∀ path, run.state.Populated path →
      ∃ root ∈ roots, run.state.ImportsReach root path)
    (hwritten : written = (store.savedFiles new.files between.world).map FileScope.path)
    (hdoubled : run.state.NoneDoubled new written)
    (hreferred : ∀ source target, run.state.Refers source target →
      run.state.Keeps new roots written target) :
    ∃ kept loaded, store.Shows kept (store.save new between.world).2 ∧
      store.load run.state.registry roots (store.save new between.world).2 = .ok loaded ∧
      ∀ key, run.state.has key = true → new.has key = true →
        run.state.Keeps new roots written key →
          ∃ path resource, kept.contents.HasOnly key path resource ∧
            (run.state.contents path key resource ∨ new.contents path key resource) ∧
            ∃ again, loaded.contents.HasOnly key path again ∧
              again.content = resource.content := by
  subst hstate
  obtain ⟨key, hdiffers⟩ := hdoes.differsAt hsucceeds hold.oneHome
  exact Inventory.stopped_loads hatomic hdiffers hold hnew hshows hreach hwritten hdoubled hreferred

end Runs

/-! ### The lamp in the hall is put elsewhere -/

/-- A recorded resource that is written anew, without further references, can be recorded. -/
theorem Inventory.Recordable.rewritten {old pending : Inventory} {file : Path} {resource : Resource}
    (h : old.Recordable) (hpath : file.Normal) (hpending : old.WritesFilesOf pending)
    (hresource : old.Takes resource)
    (hrefers : ∀ field ∈ resource.fields, ∀ target ∈ field.2.handles,
      old.Refers resource.key target) :
    (withDeclarations pending (old.insert file resource)).Recordable := by
  obtain ⟨hwritable, hgrounded⟩ := recordable_iff.1 h
  obtain ⟨hframed, htakes⟩ := writable_iff.1 hwritable
  have hinsert : (old.insert file resource).registry = old.registry := registry_ensureFile old file
  have hregistry := (registry_withDeclarations pending (old.insert file resource)).trans hinsert
  have hnew := (hframed.insert hpath resource).withDeclarations (hpending.of_registry hinsert)
  have hlook := resource?_of_store h.oneHome hnew.oneHome
    ((contents_withDeclarations pending _).trans (contents_insert h.oneHome.distinct file resource))
  have hless : ∀ source target,
      (withDeclarations pending (old.insert file resource)).Refers source target →
        old.Refers source target := by
    rintro source target ⟨found, hfound, field, hfield, htarget⟩
    rw [hlook] at hfound
    split at hfound
    · next hkey =>
      cases hfound
      exact hkey ▸ hrefers field hfield target htarget
    · exact ⟨found, hfound, field, hfield, htarget⟩
  refine recordable_iff.2 ⟨writable_iff.2 ⟨hnew, fun found hfound => ?_⟩, fun hsource => ?_,
    fun key hcircle => hgrounded.acyclic key (Relation.TransGen.mono hless _ _ hcircle)⟩
  · have hheld := hnew.oneHome.resource?_eq_some_iff.2 ⟨hfound, rfl⟩
    rw [hlook] at hheld
    unfold Takes
    rw [hregistry]
    split at hheld
    · cases hheld
      exact hresource
    · exact htakes found (h.oneHome.resource?_eq_some_iff.1 hheld).1
  · have hpresent := hgrounded.present (hless _ _ hsource)
    rw [has, hlook]
    split
    · rfl
    · exact hpresent

/-- Where the lamp in the hall is recorded. -/
def hallPath : Path :=
  ⟨"/depot/main"⟩

/-- Where the spare lamp is recorded. -/
def sparePath : Path :=
  ⟨"/depot/store/spare"⟩

/-- The lamp in the hall, at another place. -/
def movedLamp : Resource :=
  lamp "hall" "window" hallParts ["spare one"]

/-- What is saved after a lamp was updated that the configuration has in a file. -/
def lampsWith (file : Path) (resource : Resource) : Inventory :=
  withDeclarations ((lamps.insert file resource).insert file resource) (lamps.insert file resource)

/-- A provider that does all it is asked to, and state files on a shelf. -/
def shelving : Backing Shelf :=
  ⟨.agreeing _, Shelf.store.save⟩

theorem lamps_holds_hall :
    lamps.Holds hallPath (lampKey "hall") (lamp "hall" "door" hallParts ["spare one"]) :=
  ⟨_, List.mem_cons_self, by decide +kernel, rfl⟩

theorem lampsWith_recordable {file : Path} (hfile : file.Normal) :
    (lampsWith file movedLamp).Recordable := by
  have hwritable := (Inventory.recordable_iff.1 lamps_recordable).1
  obtain ⟨-, htakes⟩ := Inventory.writable_iff.1 hwritable
  obtain ⟨hold, hnames⟩ := htakes (lamp "hall" "door" hallParts ["spare one"]) List.mem_cons_self
  have hparts : ("parts", hallParts) ∈ (lamp "hall" "door" hallParts ["spare one"]).fields :=
    List.mem_cons_of_mem _ List.mem_cons_self
  have hwrites : lamps.Writes movedLamp := lamp_writes hold.nameable hallParts_writable
    (by decide +kernel) (List.forall_mem_map.1 hold.dependsOn) (by decide)
  have hfiles : lamps.WritesFilesOf lamps := hwritable.files
  refine lamps_recordable.rewritten hfile ((hfiles.insert hfile movedLamp).insert hfile movedLamp)
    ⟨hwrites.toWritable, ?_⟩ ?_
  · exact List.forall_mem_cons.2 ⟨⟨nofun, nofun⟩, List.forall_mem_singleton.2 (hnames _ hparts)⟩
  · refine List.forall_mem_cons.2 ⟨nofun, List.forall_mem_singleton.2 fun target htarget => ?_⟩
    exact ⟨_, lamps_recordable.oneHome.resource?_iff_contents.2 ⟨hallPath, lamps_holds_hall⟩, _,
      hparts, htarget⟩

/-- The run that is to put the lamp in the hall in another place, when the configuration has it in
the file.  Some of the state files cannot be changed. -/
def lampsRun (file : Path) (stuck : List Path) : Run Shelf :=
  ⟨lamps.insert file movedLamp, lamps, lamps.shelf stuck⟩

/-- The update of the lamp in the hall. -/
def lampUpdate (file : Path) : Deed :=
  .update (lampKey "hall") file (lamp "hall" "door" hallParts ["spare one"]) movedLamp (.ok ())
    movedLamp.fields

/-- The provider updates the lamp in the hall, and both inventories note it in the file. -/
theorem shelving_updates {file : Path} (stuck : List Path)
    (hfile : (lamps.insert file movedLamp).fileOf? (lampKey "hall") = some file) :
    Does shelving (lampsRun file stuck) (lampUpdate file)
      ((lampsRun file stuck).noting file movedLamp movedLamp.fields (lamps.shelf stuck)) := by
  have hhome := Inventory.oneHome_insert lamps_recordable.oneHome file movedLamp
  have hnoted : (lamps.insert file movedLamp).Holds file movedLamp.key movedLamp := by
    rw [Inventory.holds_insert lamps_recordable.oneHome.distinct, if_pos rfl]
    exact ⟨Path.same_refl _, rfl⟩
  exact .updated hfile (hhome.resource?_iff_contents.2 ⟨file, hnoted⟩)
    (lamps_recordable.oneHome.resource?_iff_contents.2 ⟨hallPath, lamps_holds_hall⟩) rfl

theorem hallPath_normal : hallPath.Normal :=
  ⟨by decide +kernel, by decide +kernel⟩

theorem sparePath_normal : sparePath.Normal :=
  ⟨by decide +kernel, by decide +kernel⟩

/-- Nothing moves when the lamp in the hall is noted where it was. -/
theorem lampsWith_hallPath_keeps (key : Key) (given taking : Path) :
    ¬ Inventory.Moves lamps (lampsWith hallPath movedLamp) key given taking := by
  rintro ⟨before, after, hgiven, htaking, hapart⟩
  have hcontents : (lampsWith hallPath movedLamp).contents =
      lamps.contents.store hallPath movedLamp :=
    (contents_withDeclarations _ _).trans
      (contents_insert lamps_recordable.oneHome.distinct hallPath movedLamp)
  have hstored : lamps.contents.store hallPath movedLamp taking key after := by
    rw [← hcontents]
    exact htaking
  have hsame : given.same taking = true := by
    unfold Contents.store at hstored
    split at hstored
    · next hkey =>
      subst hkey
      exact Path.same_trans (lamps_recordable.oneHome.same_path hgiven lamps_holds_hall) hstored.1
    · exact lamps_recordable.oneHome.same_path hgiven hstored
  rw [hapart] at hsame
  cases hsame

/-- The state of the spare lamp cannot be written, so the save of the lamp in the hall stops there.
Both lamps are found again. -/
theorem interrupted_save_loads_lamp :
    (Shelf.store.save (lampsWith hallPath movedLamp) (lamps.shelf [sparePath])).1.toOption = none ∧
    ∃ kept loaded,
      Shelf.store.Shows kept
        (Shelf.store.save (lampsWith hallPath movedLamp) (lamps.shelf [sparePath])).2 ∧
      Shelf.store.load lamps.registry [hallPath, sparePath]
        (Shelf.store.save (lampsWith hallPath movedLamp) (lamps.shelf [sparePath])).2 = .ok loaded ∧
      ∀ key, lamps.has key = true → (lampsWith hallPath movedLamp).has key = true →
        ∃ path resource, kept.contents.HasOnly key path resource ∧
          (lamps.contents path key resource ∨
            (lampsWith hallPath movedLamp).contents path key resource) ∧
          ∃ again, loaded.contents.HasOnly key path again ∧ again.content = resource.content := by
  have hreach : ∀ path, lamps.Populated path →
      ∃ root ∈ [hallPath, sparePath], lamps.ImportsReach root path := by
    intro path hpopulated
    have hapart : lamps.Apart := lamps_recordable.paths
    obtain ⟨file, hfile, hsame, -⟩ := hapart.populated_iff.1 hpopulated
    rcases List.mem_pair.1 hfile with rfl | rfl
    · exact ⟨hallPath, List.mem_cons_self, .single (Or.inl hsame)⟩
    · exact ⟨sparePath, List.mem_cons_of_mem _ List.mem_cons_self, .single (Or.inl hsame)⟩
  have hkeeps (key : Key) : lamps.Keeps (lampsWith hallPath movedLamp) [hallPath, sparePath]
      ((Shelf.store.savedFiles (lampsWith hallPath movedLamp).files
        (lamps.shelf [sparePath])).map FileScope.path) key :=
    fun given taking hmoves => absurd hmoves (lampsWith_hallPath_keeps key given taking)
  obtain ⟨kept, loaded, hshown, hload, hfound⟩ := interrupted_save_loads Shelf.store_atomic
    (shelving_updates [sparePath] (by decide +kernel)) rfl rfl lamps_recordable
    (lampsWith_recordable hallPath_normal)
    (Inventory.shelf_shows lamps_recordable.paths [sparePath]) hreach rfl
    (fun key given taking hmoves => absurd hmoves (lampsWith_hallPath_keeps key given taking))
    fun source target _ => hkeeps target
  exact ⟨by decide +kernel, kept, loaded, hshown, hload,
    fun key hbefore hafter => hfound key hbefore hafter (hkeeps key)⟩

/-- Whether a save fails, and which keys a load finds afterwards, if it succeeds. -/
def lampsFoundAfter (file : Path) (resource : Resource) : Bool × Option (List String) :=
  let (outcome, after) := Shelf.store.save (lampsWith file resource) (lamps.shelf [sparePath])
  (outcome.toOption.isNone, (Shelf.store.load lamps.registry [hallPath, sparePath] after).toOption.map
    fun loaded => loaded.resources.map fun resource => resource.key.name)

/-- A save stops between the two files of a move.  When the first one has been written without the
lamp in the hall, it is lost; when the second has been written with the spare lamp, both files hold
that lamp and nothing is loaded. -/
theorem move_cut_short :
    Does shelving (lampsRun sparePath [sparePath]) (lampUpdate sparePath)
        ((lampsRun sparePath [sparePath]).noting sparePath movedLamp movedLamp.fields
          (lamps.shelf [sparePath])) ∧
      lamps.Recordable ∧ (lampsWith sparePath movedLamp).Recordable ∧
      Shelf.store.Atomic ∧ Shelf.store.Shows lamps (lamps.shelf [sparePath]) ∧
      lamps.has (lampKey "hall") = true ∧
      (lampsWith sparePath movedLamp).has (lampKey "hall") = true ∧
      lampsFoundAfter sparePath movedLamp = (true, some ["spare one"]) ∧
      lampsFoundAfter hallPath (lamp "spare one" "door" .null []) = (true, none) :=
  ⟨shelving_updates _ (by decide +kernel), lamps_recordable, lampsWith_recordable sparePath_normal,
    Shelf.store_atomic,
    Inventory.shelf_shows lamps_recordable.paths [sparePath], by decide +kernel, by decide +kernel,
    by decide +kernel, by decide +kernel⟩

end Provision
