import Mathlib.Data.List.Nodup
import Provision.Proofs.Evaluation.Body
import Provision.Proofs.Evaluation.Names
import Provision.Proofs.Evaluation.Quiet
import Provision.Proofs.Evaluation.Shadowing

/-!
# Fields that are set in time

A field hides the variable of the file that has its name, but only from the moment
on when it is set: until then the other pairs of the body read the variable.  In a
body that sets its fields in time this never shows.  A pair that reads such a field
stands behind the pair that sets it, and that pair does not wait for other fields.
Whatever variables are bound when it is tried, the body then comes to the same: the
fields that it ends with solve its pairs, each being what its expression says when
the other fields stand before the variables.
-/

namespace Provision

open Provision.Language (Node Entry)
open Recording
open Retry (Settles Shadows)

/-- Pairs that set their fields in time, when those in `set` are set before: a pair reads a field
with the name of a variable only if that is set for sure, or reads the variable in place of its own
field.  What is set for sure are the fields of pairs that read no other fields. -/
inductive InTime (bound fields : List String) : List String → List Entry → Prop
  | nil {set : List String} : InTime bound fields set []
  | prompt {set : List String} {entry : Entry} {rest : List Entry}
      (hreads : entry.value.Everywhere (Node.Uses fun name =>
        name ∈ fields → name = entry.key ∨ name ∈ set))
      (hrest : InTime bound fields (entry.key :: set) rest) :
      InTime bound fields set (entry :: rest)
  | later {set : List String} {entry : Entry} {rest : List Entry}
      (hreads : entry.value.Everywhere (Node.Uses fun name =>
        name ∈ fields → name ∈ bound → name = entry.key ∨ name ∈ set))
      (hrest : InTime bound fields set rest) :
      InTime bound fields set (entry :: rest)

/-- A name that a pair may read in a state of its body: it is no field with the name of a variable,
unless that field is set, or it is the name of the pair itself. -/
def MayRead (bound fields : List String) (p : Progress) (entry : Entry) (name : String) :
    Prop :=
  name ∈ fields → name ∈ bound → name = entry.key ∨ (p.scope.get? name).isSome = true

instance (bound fields : List String) (p : Progress) (entry : Entry) :
    DecidablePred (MayRead bound fields p entry) :=
  fun _ => inferInstanceAs (Decidable (_ → _ → _ ∨ _))

/-- A pair that reads only what it may. -/
def Timely (bound fields : List String) (p : Progress) (entry : Entry) : Prop :=
  entry.value.Everywhere (Node.Uses (MayRead bound fields p entry))

/-- What a body of pairs needs to find around it, when its fields may have the names of
variables. -/
structure Surrounds (setup : EvaluationSetup) (file : Nat) (bound : List String)
    (entries : List Entry) (base : Progress) : Prop where
  virtuals : base.inventory.virtuals = []
  known : base.plainView.Known
  named : ∀ name value, base.scope.find name = some value → name ∈ bound
  once : (entries.map Entry.key).Nodup
  single : ∀ p, Tried setup (bodyFrame file) (entries.map Node.pair) base.entered p →
    ∀ entry ∈ entries, p.Single entry.value

/-- The states that a body can come to when every pair that is tried is timely. -/
inductive Trail (setup : EvaluationSetup) (undeclared : List TypeName) (file : Nat)
    (bound : List String) (entries : List Entry) (base : Progress) : Progress → Prop
  | start : Trail setup undeclared file bound entries base base.entered
  | done {p after : Progress} {entry : Entry}
      (hbefore : Trail setup undeclared file bound entries base p) (hentry : entry ∈ entries)
      (htimely : Timely bound (entries.map Entry.key) p entry)
      (hunset : p.scope.get? entry.key = none)
      (hdone : (pairMachine setup undeclared file).attempt entry p = .done after) :
      Trail setup undeclared file bound entries base after
  | waits {p after : Progress} {entry : Entry}
      (hbefore : Trail setup undeclared file bound entries base p) (hentry : entry ∈ entries)
      (htimely : Timely bound (entries.map Entry.key) p entry)
      (hunset : p.scope.get? entry.key = none)
      (hwaits : (pairMachine setup undeclared file).attempt entry p = .waits after) :
      Trail setup undeclared file bound entries base after

section Attempts

variable {setup : EvaluationSetup} {undeclared : List TypeName} {file : Nat}
variable {p after : Progress} {entry : Entry}

/-! ## One pair -/

/-- What a pair of a body sees. -/
def Progress.seenBy (p : Progress) (setup : EvaluationSetup) (undeclared : List TypeName)
    (file : Nat) (entry : Entry) : View :=
  p.view (setup.evaluator undeclared).setting (bodyFrame file) entry.span

theorem attempt_done (h : (pairMachine setup undeclared file).attempt entry p = .done after) :
    ∃ value reads,
      (evaluate (p.seenBy setup undeclared file entry) entry.value).run p.reads = (.ok value, reads) ∧
        after = { p with reads := reads, scope := p.scope.put entry.key value } := by
  have h : Step.attempt _ p = .done after := h
  rw [Step.attempt, pair_run] at h
  unfold Progress.seenBy
  generalize (evaluate _ entry.value).run p.reads = result at h ⊢
  obtain ⟨(reasons | e) | value, reads⟩ := result
  · cases h
  · cases h
  · cases h
    exact ⟨value, reads, rfl, rfl⟩

theorem attempt_waits (h : (pairMachine setup undeclared file).attempt entry p = .waits after) :
    ∃ reasons reads,
      (evaluate (p.seenBy setup undeclared file entry) entry.value).run p.reads =
        (.error (.deferred reasons), reads) ∧ after = { p with reads := reads } := by
  have h : Step.attempt _ p = .waits after := h
  rw [Step.attempt, pair_run] at h
  unfold Progress.seenBy
  generalize (evaluate _ entry.value).run p.reads = result at h ⊢
  obtain ⟨(reasons | e) | value, reads⟩ := result
  · cases h
    exact ⟨reasons, reads, rfl, rfl⟩
  · cases h
  · cases h

theorem get?_put (p : Progress) (reads : List Key) (key : String) (value : Value) (name : String) :
    ({ p with reads := reads, scope := p.scope.put key value } : Progress).scope.get? name =
      if key = name then some value else p.scope.get? name :=
  Table.get?_set _ _ _ _

variable {view view' : View} {node node' : Node} {q : Value → Prop} {reads after : List Key}

/-- The value of an expression that leads another is the value of the other. -/
theorem said_of_run (h : Agrees q (evaluate view node) (evaluate view' node')) {value : Value}
    (hrun : (evaluate view node).run reads = (.ok value, after)) :
    said view' node' = .yields value ∧ q value ∧
      ∀ key, key ∈ after ↔ key ∈ reads ∨ key ∈ readBy view' node' := by
  have hlead := h reads []
  unfold said readBy
  rw [hrun] at hlead
  generalize (evaluate view' node').run [] = result at hlead ⊢
  cases hlead with
  | ok added hvalue hafter hafter' =>
    refine ⟨rfl, hvalue, fun key => ?_⟩
    rw [hafter key, hafter'.mem_nil key]

theorem readBy_of_run (h : Agrees q (evaluate view node) (evaluate view' node'))
    {reasons : List Deferral} (hrun : (evaluate view node).run reads = (.error (.deferred reasons), after))
    {key : Key} (hkey : key ∈ after) :
    key ∈ reads ∨ key ∈ readBy view' node' := by
  have hlead := h reads []
  unfold readBy
  rw [hrun] at hlead
  cases hlead with
  | waits added hafter hresult => exact ((hafter key).1 hkey).imp_right (hresult key)

/-- Whether an expression comes to a value does not depend on what was read before. -/
theorem not_waits_of_run (h : Agrees q (evaluate view node) (evaluate view node)) {value : Value}
    (hrun : (evaluate view node).run reads = (.ok value, after)) (before : List Key)
    (reasons : List Deferral) (left : List Key) :
    (evaluate view node).run before ≠ (.error (.deferred reasons), left) := by
  intro hwaits
  have hlead := h reads before
  rw [hrun, hwaits] at hlead
  cases hlead

end Attempts

/-! ## Fields are kept -/

/-- The second state of a body has the fields of the first, and all that is new is set by a
pair. -/
structure Progress.KeptBy (entries : List Entry) (p q : Progress) : Prop where
  inventory : q.inventory = p.inventory
  enclosing : q.scope.enclosing = p.scope.enclosing
  get? : ∀ name value, p.scope.get? name = some value → q.scope.get? name = some value
  named : ∀ name value, q.scope.get? name = some value →
    p.scope.get? name = some value ∨ name ∈ entries.map Entry.key

section Kept

variable {setup : EvaluationSetup} {undeclared : List TypeName} {file : Nat}
variable {entries items rest : List Entry} {p q u : Progress} {entry : Entry}

theorem Progress.KeptBy.refl (entries : List Entry) (p : Progress) : p.KeptBy entries p :=
  ⟨rfl, rfl, fun _ _ h => h, fun _ _ h => Or.inl h⟩

theorem Progress.KeptBy.trans (h : p.KeptBy entries u) (h' : u.KeptBy entries q) :
    p.KeptBy entries q where
  inventory := h'.inventory.trans h.inventory
  enclosing := h'.enclosing.trans h.enclosing
  get? := fun name value hget => h'.get? name value (h.get? name value hget)
  named := fun name value hget => (h'.named name value hget).elim (h.named name value) Or.inr

theorem Progress.KeptBy.isSome (h : p.KeptBy entries q) {name : String}
    (hname : (p.scope.get? name).isSome = true) :
    (q.scope.get? name).isSome = true := by
  obtain ⟨value, hvalue⟩ := Option.isSome_iff_exists.1 hname
  rw [h.get? name value hvalue]
  rfl

theorem Progress.KeptBy.unset (h : p.KeptBy entries q) {name : String}
    (hname : q.scope.get? name = none) :
    p.scope.get? name = none := by
  cases hget : p.scope.get? name with
  | none => rfl
  | some value =>
    rw [h.get? name value hget] at hname
    cases hname

theorem keptBy_put {value : Value} (reads : List Key) (hentry : entry ∈ entries)
    (hunset : p.scope.get? entry.key = none) :
    p.KeptBy entries { p with reads := reads, scope := p.scope.put entry.key value } where
  inventory := rfl
  enclosing := rfl
  get? := fun name found hget =>
    (setField_put hunset (name, found)).2 (Or.inl hget)
  named := fun name found hget => by
    rcases (setField_put hunset (name, found)).1 hget with hget | heq
    · exact Or.inl hget
    · cases heq
      exact Or.inr (List.mem_map_of_mem hentry)

theorem Progress.KeptBy.of_done (hentry : entry ∈ entries)
    (hunset : p.scope.get? entry.key = none)
    (hdone : (pairMachine setup undeclared file).attempt entry p = .done q) :
    p.KeptBy entries q := by
  obtain ⟨value, reads, -, rfl⟩ := attempt_done hdone
  exact keptBy_put reads hentry hunset

theorem Progress.KeptBy.of_waits (entries : List Entry)
    (hwaits : (pairMachine setup undeclared file).attempt entry p = .waits q) :
    p.KeptBy entries q ∧ q.scope = p.scope := by
  obtain ⟨reasons, reads, -, rfl⟩ := attempt_waits hwaits
  exact ⟨⟨rfl, rfl, fun _ _ h => h, fun _ _ h => Or.inl h⟩, rfl⟩

theorem get?_of_done (hdone : (pairMachine setup undeclared file).attempt entry p = .done q)
    (name : String) :
    (q.scope.get? name).isSome = true ↔
      name = entry.key ∨ (p.scope.get? name).isSome = true := by
  obtain ⟨value, reads, -, rfl⟩ := attempt_done hdone
  rw [get?_put]
  by_cases hname : entry.key = name
  · rw [if_pos hname]
    exact ⟨fun _ => Or.inl hname.symm, fun _ => rfl⟩
  · rw [if_neg hname]
    exact ⟨Or.inr, fun h => h.resolve_left (Ne.symm hname)⟩

theorem Progress.KeptBy.mono (h : p.KeptBy items q) (hmem : ∀ entry ∈ items, entry ∈ entries) :
    p.KeptBy entries q where
  inventory := h.inventory
  enclosing := h.enclosing
  get? := h.get?
  named := fun name value hget => (h.named name value hget).imp_right fun hname => by
    obtain ⟨entry, hentry, rfl⟩ := List.mem_map.1 hname
    exact List.mem_map_of_mem (hmem entry hentry)

theorem Progress.KeptBy.find (h : p.KeptBy entries q) {name : String}
    (hget : q.scope.get? name = p.scope.get? name) :
    q.scope.find name = p.scope.find name := by
  have hget : Table.get? q.scope.values name = Table.get? p.scope.values name := hget
  unfold Scope.find
  rw [Scope.findIn, Scope.findIn, hget, h.enclosing]

theorem sweep_of_done (hdone : (pairMachine setup undeclared file).attempt entry p = .done u)
    (hsweep : (pairMachine setup undeclared file).sweep (entry :: items) p = some (rest, q)) :
    (pairMachine setup undeclared file).sweep items u = some (rest, q) := by
  rwa [Retry.Machine.sweep, hdone] at hsweep

theorem sweep_of_waits (hwaits : (pairMachine setup undeclared file).attempt entry p = .waits u)
    (hsweep : (pairMachine setup undeclared file).sweep (entry :: items) p = some (rest, q)) :
    ∃ later, rest = entry :: later ∧
      (pairMachine setup undeclared file).sweep items u = some (later, q) := by
  rw [Retry.Machine.sweep, hwaits] at hsweep
  obtain ⟨⟨later, last⟩, hswept, heq⟩ := Option.map_eq_some_iff.1 hsweep
  cases heq
  exact ⟨later, rfl, hswept⟩

theorem sweep_of_fails (hfails : (pairMachine setup undeclared file).attempt entry p = .fails) :
    (pairMachine setup undeclared file).sweep (entry :: items) p ≠ some (rest, q) := by
  rw [Retry.Machine.sweep, hfails]
  intro hswept
  cases hswept

/-- A pair that gets done leaves the fields of the others unset. -/
theorem unset_of_done (honce : ((entry :: items).map Entry.key).Nodup)
    (hunset : ∀ other ∈ entry :: items, p.scope.get? other.key = none)
    (hdone : (pairMachine setup undeclared file).attempt entry p = .done u) :
    ∀ other ∈ items, u.scope.get? other.key = none := by
  intro other hmem
  have hne : other.key ≠ entry.key := fun heq =>
    (List.nodup_cons.1 honce).1 (heq ▸ List.mem_map_of_mem hmem)
  have hnot := (get?_of_done hdone other.key).not.2 (by
    rw [hunset other (List.mem_cons_of_mem _ hmem)]
    simp [hne])
  exact Option.not_isSome_iff_eq_none.1 hnot

/-- A pass over pairs whose fields are not set sets the fields of those that get done, and no
other. -/
theorem sweep_kept (honce : (items.map Entry.key).Nodup)
    (hunset : ∀ entry ∈ items, p.scope.get? entry.key = none)
    (hsweep : (pairMachine setup undeclared file).sweep items p = some (rest, q)) :
    p.KeptBy items q ∧ rest.Sublist items ∧ (∀ entry ∈ rest, q.scope.get? entry.key = none) ∧
      ∀ entry ∈ items, entry ∈ rest ∨ (q.scope.get? entry.key).isSome = true := by
  induction items generalizing p rest with
  | nil =>
    cases hsweep
    exact ⟨.refl _ _, List.Sublist.refl _, hunset, fun entry h => absurd h List.not_mem_nil⟩
  | cons entry items ih =>
    obtain ⟨hnew, honce'⟩ := List.nodup_cons.1 honce
    have hfirst : p.scope.get? entry.key = none := hunset entry List.mem_cons_self
    have hmem : ∀ other ∈ items, other ∈ entry :: items := fun other => List.mem_cons_of_mem _
    cases hattempt : (pairMachine setup undeclared file).attempt entry p with
    | done u =>
      obtain ⟨hkept, hsub, hrest, hset⟩ :=
        ih honce' (unset_of_done honce hunset hattempt) (sweep_of_done hattempt hsweep)
      have hkept' : p.KeptBy (entry :: items) q :=
        (Progress.KeptBy.of_done List.mem_cons_self hfirst hattempt).trans (hkept.mono hmem)
      refine ⟨hkept', hsub.cons _, hrest, fun other hmem => ?_⟩
      rcases List.mem_cons.1 hmem with rfl | hmem
      · exact Or.inr (hkept.isSome ((get?_of_done hattempt _).2 (Or.inl rfl)))
      · exact hset other hmem
    | waits u =>
      obtain ⟨later, rfl, hsweep'⟩ := sweep_of_waits hattempt hsweep
      obtain ⟨hkept, hscope⟩ := Progress.KeptBy.of_waits (entry :: items) hattempt
      obtain ⟨hkept', hsub, hrest, hset⟩ := ih honce'
        (fun other hmem => hscope ▸ hunset other (List.mem_cons_of_mem _ hmem)) hsweep'
      refine ⟨hkept.trans (hkept'.mono hmem), hsub.cons_cons _, fun other hmem => ?_,
        fun other hmem => ?_⟩
      · rcases List.mem_cons.1 hmem with rfl | hmem
        · -- no later pair has the name of this one
          cases hget : q.scope.get? other.key with
          | none => rfl
          | some value =>
            rcases hkept'.named _ _ hget with hget | hname
            · rw [hscope, hfirst] at hget
              cases hget
            · exact absurd hname hnew
        · exact hrest other hmem
      · rcases List.mem_cons.1 hmem with rfl | hmem
        · exact Or.inl List.mem_cons_self
        · exact (hset other hmem).imp_left (List.mem_cons_of_mem _)
    | fails => exact absurd hsweep (sweep_of_fails hattempt)

end Kept

/-! ## Inside a body -/

theorem Language.Node.Uses.mono {Free Free' : String → Prop} {node : Node}
    (h : node.Uses Free) (himp : ∀ name, Free name → Free' name) :
    node.Uses Free' := by
  cases node with
  | var path span =>
    cases path with
    | nil => exact trivial
    | cons head rest => exact himp head h
  | _ => exact trivial

theorem uses_mono {Free Free' : String → Prop} {node : Node}
    (h : node.Everywhere (Node.Uses Free)) (himp : ∀ name, Free name → Free' name) :
    node.Everywhere (Node.Uses Free') :=
  h.mono fun _ huses => huses.mono himp

section Inside

variable {setup : EvaluationSetup} {undeclared : List TypeName} {file : Nat}
variable {bound : List String} {entries items rest : List Entry}
variable {base p q t after : Progress} {entry : Entry}

theorem Timely.mono (h : Timely bound (entries.map Entry.key) p entry)
    (hkept : p.KeptBy items q) :
    Timely bound (entries.map Entry.key) q entry :=
  uses_mono h fun _ hmay hfield hname => (hmay hfield hname).imp_right hkept.isSome

theorem Trail.tried (h : Trail setup undeclared file bound entries base p) :
    Tried setup (bodyFrame file) (entries.map Node.pair) base.entered p := by
  have hnode : ∀ entry ∈ entries, (Node.pair entry).bare ∈ (entries.map Node.pair).map Node.bare :=
    fun entry hentry => List.mem_map_of_mem (List.mem_map_of_mem hentry)
  induction h with
  | start => exact .start
  | @done p after entry _ hentry _ _ hdone ih =>
    exact ih.step (hnode entry hentry) (Step.attempt_eq_done.1 hdone)
  | @waits p after entry _ hentry _ _ hwaits ih =>
    obtain ⟨reasons, hrun⟩ := Step.attempt_eq_waits.1 hwaits
    exact ih.step (hnode entry hentry) hrun

theorem Trail.within (hs : Surrounds setup file bound entries base)
    (h : Trail setup undeclared file bound entries base p) :
    Within entries base p := by
  induction h with
  | start =>
    exact ⟨rfl, rfl, rfl, rfl, rfl, List.nodup_nil, (fun _ _ h => nomatch h),
      (fun _ _ h => nomatch h)⟩
  | @done p after entry hbefore hentry _ hunset hdone ih =>
    obtain ⟨value, reads, hrun, rfl⟩ := attempt_done hdone
    have hvirtuals : p.inventory.virtuals = [] := ih.inventory ▸ hs.virtuals
    have hagrees := (agrees_here hvirtuals (ih.view_known hs.known)
      (hs.single p hbefore.tried entry hentry) (rfl : (bodyFrame file).qualifier = none)
      (setup.evaluator undeclared).setting).2
    have hvalue : value.Known base.inventory := ih.inventory ▸ (said_of_run hagrees hrun).2.1
    have hput (field : String × Value) :
        SetField { p with reads := reads, scope := p.scope.put entry.key value } field ↔
          SetField p field ∨ field = (entry.key, value) := setField_put hunset field
    refine ⟨ih.inventory, ih.declared, ih.enclosing, ih.blocks, ih.credentials,
      Table.distinct_set ih.distinct _ _, fun name found hget => ?_, fun name found hget => ?_⟩
    · rcases (hput (name, found)).1 hget with hget | heq
      · exact ih.named name found hget
      · cases heq
        exact List.mem_map_of_mem hentry
    · rcases (hput (name, found)).1 hget with hget | heq
      · exact ih.known name found hget
      · cases heq
        exact hvalue
  | waits _ _ _ _ hwaits ih =>
    obtain ⟨reasons, reads, -, rfl⟩ := attempt_waits hwaits
    exact ⟨ih.inventory, ih.declared, ih.enclosing, ih.blocks, ih.credentials, ih.distinct,
      ih.named, ih.known⟩

/-! ## Pairs that wait for nothing inside the body -/

/-- A pair that had to wait although every other field that it reads was set. -/
structure WaitsInVain (setup : EvaluationSetup) (undeclared : List TypeName) (file : Nat)
    (bound : List String) (entries : List Entry) (base : Progress) (entry : Entry) (p : Progress) :
    Prop where
  trail : Trail setup undeclared file bound entries base p
  unset : p.scope.get? entry.key = none
  reads : entry.value.Everywhere (Node.Uses fun name =>
    name ∈ entries.map Entry.key → name = entry.key ∨ (p.scope.get? name).isSome = true)
  waits : ∃ after, (pairMachine setup undeclared file).attempt entry p = .waits after

/-- What else is set does not help such a pair. -/
theorem WaitsInVain.not_done (hs : Surrounds setup file bound entries base)
    (h : WaitsInVain setup undeclared file bound entries base entry p) (hentry : entry ∈ entries)
    (hkept : p.KeptBy entries q) (hunset : q.scope.get? entry.key = none) :
    (pairMachine setup undeclared file).attempt entry q ≠ .done after := by
  intro hdone
  obtain ⟨value, reads, hrun, -⟩ := attempt_done hdone
  obtain ⟨left, hwaits⟩ := h.waits
  obtain ⟨reasons, reads', hrun', -⟩ := attempt_waits hwaits
  have hwithin := h.trail.within hs
  -- no name that it reads means anything else than before
  have hfind : ∀ name, (name ∈ entries.map Entry.key →
      name = entry.key ∨ (p.scope.get? name).isSome = true) →
        q.scope.find name = (p.seenBy setup undeclared file entry).scope.find name := by
    intro name hname
    refine hkept.find ?_
    cases hget : p.scope.get? name with
    | some found => exact hkept.get? name found hget
    | none =>
      cases hget' : q.scope.get? name with
      | none => rfl
      | some found =>
        have hfield : name ∈ entries.map Entry.key :=
          (hkept.named name found hget').resolve_left (by rw [hget]; exact nofun)
        rcases hname hfield with rfl | hset
        · rw [hunset] at hget'
          cases hget'
        · rw [hget] at hset
          cases hset
  have hseen : q.seenBy setup undeclared file entry =
      { p.seenBy setup undeclared file entry with scope := q.scope } := by
    unfold Progress.seenBy Progress.view
    rw [hkept.inventory]
  have hsame := evaluate_scope hfind h.reads
  rw [← hseen] at hsame
  have hvirtuals : p.inventory.virtuals = [] := hwithin.inventory ▸ hs.virtuals
  have hbelow : (p.seenBy setup undeclared file entry).Below
      (p.seenBy setup undeclared file entry) := View.below_of_same rfl rfl hvirtuals ⟨rfl, rfl⟩
  have hknown := hwithin.view_known hs.known
  have hagrees := evaluate_agrees hbelow ⟨hknown.scope, hknown.fields⟩ rfl
    (hs.single p h.trail.tried entry hentry _ _)
  exact not_waits_of_run hagrees (hsame ▸ hrun) _ reasons reads' hrun'

/-- Passes do not settle that are left with such a pair. -/
theorem WaitsInVain.not_settles (hs : Surrounds setup file bound entries base)
    (h : WaitsInVain setup undeclared file bound entries base entry p)
    (hmem : ∀ other ∈ items, other ∈ entries) (honce : (items.map Entry.key).Nodup)
    (hkept : p.KeptBy entries q) (hunset : ∀ other ∈ items, q.scope.get? other.key = none)
    (hentry : entry ∈ items) :
    ¬ Settles (pairMachine setup undeclared file) items q t := by
  have hstuck : ∀ s, p.KeptBy entries s ∧ s.scope.get? entry.key = none → ∀ u,
      (pairMachine setup undeclared file).attempt entry s ≠ .done u :=
    fun s hstands u => h.not_done hs (hmem entry hentry) hstands.1 hstands.2
  have hshadows : Shadows (pairMachine setup undeclared file) (pairMachine setup undeclared file)
      True (fun s => p.KeptBy entries s ∧ s.scope.get? entry.key = none)
      (fun s u => u = s ∧ p.KeptBy entries s ∧ s.scope.get? entry.key = none) items := by
    refine ⟨fun h => h.2, fun h => ⟨_, rfl, h⟩, fun rest h => h, ?_, ?_⟩
    · rintro other s u v hother ⟨rfl, hstands⟩ hdone
      have hne : other.key ≠ entry.key := fun heq =>
        hstuck _ hstands v (List.inj_on_of_nodup_map honce hother hentry heq ▸ hdone)
      have hfresh : p.scope.get? other.key = none := hkept.unset (hunset other hother)
      obtain ⟨value, reads, -, rfl⟩ := attempt_done hdone
      refine ⟨_, hdone, rfl, ⟨hstands.1.inventory, hstands.1.enclosing, fun name found hget => ?_,
        fun name found hget => ?_⟩, ?_⟩
      · rw [get?_put, if_neg fun heq => by rw [← heq, hfresh] at hget; cases hget]
        exact hstands.1.get? name found hget
      · rw [get?_put] at hget
        by_cases heq : other.key = name
        · exact Or.inr (heq ▸ List.mem_map_of_mem (hmem other hother))
        · rw [if_neg heq] at hget
          exact hstands.1.named name found hget
      · rw [get?_put, if_neg hne]
        exact hstands.2
    · rintro other s u v hother ⟨rfl, hstands⟩ hwaits
      obtain ⟨hkept', hscope⟩ := Progress.KeptBy.of_waits entries hwaits
      have hstands' : p.KeptBy entries v ∧ v.scope.get? entry.key = none :=
        ⟨hstands.1.trans hkept', hscope ▸ hstands.2⟩
      exact ⟨hstands', Or.inl ⟨v, hwaits, rfl, hstands'⟩⟩
  exact hshadows.not_settles ⟨rfl, hkept, hunset entry hentry⟩ hentry hstuck

/-! ## Passes over pairs that are in time -/

theorem InTime.of_timely {fields : List String}
    (h : ∀ entry ∈ items, Timely bound fields p entry) :
    InTime bound fields (Table.keys p.scope.values) items := by
  induction items with
  | nil => exact .nil
  | cons entry rest ih =>
    refine .later (uses_mono (h entry List.mem_cons_self) fun name hmay hfield hname => ?_)
      (ih fun other hother => h other (List.mem_cons_of_mem _ hother))
    exact (hmay hfield hname).imp_right Table.mem_keys_iff.2

/-- In a pass over pairs that are in time every pair is timely when it is tried, unless one waits in
vain. -/
theorem InTime.sweep {set : List String} (hin : InTime bound (entries.map Entry.key) set items)
    (hset : ∀ name ∈ set, (p.scope.get? name).isSome = true)
    (htrail : Trail setup undeclared file bound entries base p)
    (hmem : ∀ entry ∈ items, entry ∈ entries) (honce : (items.map Entry.key).Nodup)
    (hunset : ∀ entry ∈ items, p.scope.get? entry.key = none)
    (hsweep : (pairMachine setup undeclared file).sweep items p = some (rest, q)) :
    (∃ entry ∈ rest, ∃ u, WaitsInVain setup undeclared file bound entries base entry u ∧
        u.KeptBy entries q) ∨
      Trail setup undeclared file bound entries base q ∧
        ∀ entry ∈ rest, Timely bound (entries.map Entry.key) q entry := by
  induction hin generalizing p rest with
  | nil =>
    cases hsweep
    exact Or.inr ⟨htrail, fun entry h => absurd h List.not_mem_nil⟩
  | @prompt set entry items hreads hrest ih =>
    have hentry := hmem entry List.mem_cons_self
    have hfirst := hunset entry List.mem_cons_self
    have hreads : entry.value.Everywhere (Node.Uses fun name =>
        name ∈ entries.map Entry.key → name = entry.key ∨ (p.scope.get? name).isSome = true) :=
      uses_mono hreads fun name hname hfield => (hname hfield).imp_right (hset name)
    cases hattempt : (pairMachine setup undeclared file).attempt entry p with
    | done u =>
      have htimely : Timely bound (entries.map Entry.key) p entry :=
        uses_mono hreads fun name hname hfield _ => hname hfield
      have hset' : ∀ name ∈ entry.key :: set, (u.scope.get? name).isSome = true := by
        intro name hname
        rw [get?_of_done hattempt]
        exact (List.mem_cons.1 hname).imp_right (hset name)
      exact ih hset' (htrail.done hentry htimely hfirst hattempt)
        (fun other hother => hmem other (List.mem_cons_of_mem _ hother)) (List.nodup_cons.1 honce).2
        (unset_of_done honce hunset hattempt) (sweep_of_done hattempt hsweep)
    | waits u =>
      obtain ⟨hkept, -⟩ := sweep_kept honce hunset hsweep
      obtain ⟨later, rfl, -⟩ := sweep_of_waits hattempt hsweep
      exact Or.inl ⟨entry, List.mem_cons_self, p, ⟨htrail, hfirst, hreads, u, hattempt⟩,
        hkept.mono hmem⟩
    | fails => exact absurd hsweep (sweep_of_fails hattempt)
  | @later set entry items hreads hrest ih =>
    have hentry := hmem entry List.mem_cons_self
    have hfirst := hunset entry List.mem_cons_self
    have htimely : Timely bound (entries.map Entry.key) p entry :=
      uses_mono hreads fun name hname hfield hbound => (hname hfield hbound).imp_right (hset name)
    have hmem' : ∀ other ∈ items, other ∈ entries := fun other hother =>
      hmem other (List.mem_cons_of_mem _ hother)
    cases hattempt : (pairMachine setup undeclared file).attempt entry p with
    | done u =>
      have hset' : ∀ name ∈ set, (u.scope.get? name).isSome = true := fun name hname =>
        (get?_of_done hattempt name).2 (Or.inr (hset name hname))
      exact ih hset' (htrail.done hentry htimely hfirst hattempt) hmem' (List.nodup_cons.1 honce).2
        (unset_of_done honce hunset hattempt) (sweep_of_done hattempt hsweep)
    | waits u =>
      obtain ⟨hkept, -⟩ := sweep_kept honce hunset hsweep
      obtain ⟨later, rfl, hsweep'⟩ := sweep_of_waits hattempt hsweep
      obtain ⟨-, hscope⟩ := Progress.KeptBy.of_waits entries hattempt
      rcases ih (hscope ▸ hset) (htrail.waits hentry htimely hfirst hattempt) hmem'
          (List.nodup_cons.1 honce).2
          (fun other hother => hscope ▸ hunset other (List.mem_cons_of_mem _ hother)) hsweep' with
        ⟨other, hother, hvain⟩ | ⟨hlast, hleft⟩
      · exact Or.inl ⟨other, List.mem_cons_of_mem _ hother, hvain⟩
      · refine Or.inr ⟨hlast, fun other hother => ?_⟩
        rcases List.mem_cons.1 hother with rfl | hother
        · exact htimely.mono hkept
        · exact hleft other hother
    | fails => exact absurd hsweep (sweep_of_fails hattempt)

/-- When pairs that are in time all get done, each was timely whenever it was tried. -/
theorem InTime.trail {set : List String} (hs : Surrounds setup file bound entries base)
    (hsettles : Settles (pairMachine setup undeclared file) items p t)
    (hin : InTime bound (entries.map Entry.key) set items)
    (hset : ∀ name ∈ set, (p.scope.get? name).isSome = true)
    (htrail : Trail setup undeclared file bound entries base p)
    (hmem : ∀ entry ∈ items, entry ∈ entries) (honce : (items.map Entry.key).Nodup)
    (hunset : ∀ entry ∈ items, p.scope.get? entry.key = none) :
    Trail setup undeclared file bound entries base t ∧ p.KeptBy entries t ∧
      ∀ entry ∈ items, (t.scope.get? entry.key).isSome = true := by
  induction hsettles generalizing set with
  | last hsweep =>
    obtain ⟨hkept, -, -, hdone⟩ := sweep_kept honce hunset hsweep
    rcases hin.sweep hset htrail hmem honce hunset hsweep with ⟨entry, hentry, -⟩ | ⟨hlast, -⟩
    · exact absurd hentry List.not_mem_nil
    · exact ⟨hlast, hkept.mono hmem, fun entry hentry =>
        (hdone entry hentry).resolve_left List.not_mem_nil⟩
  | @again items rest p u t hsweep hne hless hlater ih =>
    obtain ⟨hkept, hsub, hleft, hdone⟩ := sweep_kept honce hunset hsweep
    have hmem' : ∀ entry ∈ rest, entry ∈ entries := fun entry hentry =>
      hmem entry (hsub.subset hentry)
    have honce' : (rest.map Entry.key).Nodup := honce.sublist (hsub.map _)
    rcases hin.sweep hset htrail hmem honce hunset hsweep with
      ⟨entry, hentry, v, hvain, hkept'⟩ | ⟨hlast, htimely⟩
    · exact absurd hlater (hvain.not_settles hs hmem' honce' hkept' hleft hentry)
    · obtain ⟨hend, hkept', hrest⟩ := ih (InTime.of_timely htimely)
        (fun name => Table.mem_keys_iff.1) hlast hmem' honce' hleft
      refine ⟨hend, (hkept.mono hmem).trans hkept', fun entry hentry => ?_⟩
      rcases hdone entry hentry with hwaiting | hget
      · exact hrest entry hwaiting
      · exact hkept'.isSome hget

end Inside

end Provision
