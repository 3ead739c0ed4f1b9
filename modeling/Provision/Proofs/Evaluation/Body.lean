import Provision.Proofs.Evaluation.Finishing
import Provision.Proofs.Evaluation.Tried

/-!
# Bodies of resources

The body of a resource block whose statements are pairs with different names.
Inside it a pair sees the fields set so far and, behind them, what is visible
outside.  Whether the body gets done, the fields it sets and the resources it
reads depend on what is visible outside and not on the order of its pairs, and
none of it is taken back when more becomes visible.
-/

namespace Provision

open Provision.Language (Node Entry)
open Recording
open Retry (Attempt Verdict Machine Settles Breaks Stalls Lawful Carries Below
  settles_or_breaks_or_stalls)

/-- The frame of the body of a resource that is declared in a file. -/
def bodyFrame (file : Nat) : Frame :=
  { file := file, inResource := true }

/-- What a pair says: the field that it sets. -/
def pairSaid (entry : Entry) (p : Progress) : Verdict (String × Value) :=
  (said p.plainView entry.value).map fun value => (entry.key, value)

/-- A field is set in the scope of the body. -/
def SetField (p : Progress) (field : String × Value) : Prop :=
  p.scope.get? field.1 = some field.2

/-- The passes over the pairs of a body. -/
def pairMachine (setup : EvaluationSetup) (undeclared : List TypeName) (file : Nat) :
    Machine Entry Progress (String × Value) :=
  bodyMachine (fun entry => runStatement (setup.evaluator undeclared) (.pair entry) (bodyFrame file))
    pairSaid

/-! ## What holds inside a body -/

/-- What a body of pairs needs to find around it: names that it does not set itself, registered
resources, and references that ask for one resource each. -/
structure Around (setup : EvaluationSetup) (file : Nat) (entries : List Entry) (base : Progress) :
    Prop where
  virtuals : base.inventory.virtuals = []
  known : base.plainView.Known
  apart : ∀ entry ∈ entries, base.scope.find entry.key = none
  once : (entries.map Entry.key).Nodup
  single : ∀ p, Tried setup (bodyFrame file) (entries.map Node.pair) base.entered p →
    ∀ entry ∈ entries, p.Single entry.value

/-- A state that differs from the one around the body in the fields set so far. -/
structure Within (entries : List Entry) (base p : Progress) : Prop where
  inventory : p.inventory = base.inventory
  declared : p.declared = base.declared
  enclosing : p.scope.enclosing = base.scope.values :: base.scope.enclosing
  blocks : p.scope.blocks = []
  credentials : p.credentials = none
  distinct : Table.Distinct p.scope.values
  named : ∀ name value, p.scope.get? name = some value → name ∈ entries.map Entry.key
  known : ∀ name value, p.scope.get? name = some value → value.Known base.inventory

/-- A state in which some pairs of a body are left. -/
structure Inside (setup : EvaluationSetup) (file : Nat) (entries : List Entry) (base : Progress)
    (items : List Entry) (p : Progress) : Prop where
  within : Within entries base p
  tried : Tried setup (bodyFrame file) (entries.map Node.pair) base.entered p
  mem : ∀ entry ∈ items, entry ∈ entries
  once : (items.map Entry.key).Nodup
  unset : ∀ entry ∈ items, p.scope.get? entry.key = none
  read : ∀ key ∈ p.reads, ∃ entry ∈ entries, key ∈ readBy p.plainView entry.value
  reads : ∀ entry ∈ entries, entry ∈ items ∨
    (∃ value, said p.plainView entry.value = .yields value) ∧
      ∀ key ∈ readBy p.plainView entry.value, key ∈ p.reads

section Body

variable {setup : EvaluationSetup} {file : Nat} {entries entries' : List Entry}
variable {base base' p p' : Progress} {items : List Entry} {undeclared : List TypeName}

theorem keys_of_bare (h : entries.map Entry.bare = entries'.map Entry.bare) :
    entries.map Entry.key = entries'.map Entry.key := by
  have hkey : ∀ list : List Entry, list.map Entry.key = (list.map Entry.bare).map Entry.key := by
    intro list
    rw [List.map_map]
    exact List.map_congr_left fun entry _ => by rw [Function.comp, Entry.bare_eq]
  rw [hkey entries, hkey entries', h]

theorem key_of_bare {entry entry' : Entry} (h : entry.bare = entry'.bare) :
    entry.key = entry'.key := by
  rw [Entry.bare_eq, Entry.bare_eq] at h
  injection h

theorem value_of_bare {entry entry' : Entry} (h : entry.bare = entry'.bare) :
    entry.value.bare = entry'.value.bare := by
  rw [Entry.bare_eq, Entry.bare_eq] at h
  injection h

theorem Within.find (h : Within entries base p) (name : String) :
    p.scope.find name =
      match p.scope.get? name with
      | some value => some value
      | none => base.scope.find name := by
  unfold Scope.find
  rw [Scope.findIn, h.enclosing]
  rfl

/-- What is seen from inside is known when what is seen from outside is. -/
theorem Within.view_known (h : Within entries base p) (hknown : base.plainView.Known) :
    p.plainView.Known := by
  refine ⟨?_, ?_⟩
  · intro name value hfind
    show value.Known p.inventory
    rw [h.inventory]
    have hfind : p.scope.find name = some value := hfind
    rw [h.find] at hfind
    cases hget : p.scope.get? name with
    | some found =>
      rw [hget] at hfind
      cases hfind
      exact h.known name value hget
    | none =>
      rw [hget] at hfind
      exact hknown.scope name value hfind
  · intro key resource name value hresource hfield
    have hinventory : p.plainView.inventory = base.plainView.inventory := h.inventory
    rw [hinventory] at hresource ⊢
    exact hknown.fields key resource name value hresource hfield

/-- More outside and more fields set: more is seen from inside. -/
theorem Within.view_below (h : Within entries base p)
    (h' : Within entries' base' p')
    (haround : Around setup file entries base)
    (hkeys : entries.map Entry.key = entries'.map Entry.key)
    (hbase : base.plainView.Below base'.plainView)
    (hset : Below SetField p p') :
    p.plainView.Below p'.plainView := by
  refine ⟨?_, ?_, ?_, ?_, ?_⟩
  · intro name value hfind
    show p'.scope.find name = some value
    have hfind : p.scope.find name = some value := hfind
    rw [h.find] at hfind
    rw [h'.find]
    cases hget : p.scope.get? name with
    | some found =>
      rw [hget] at hfind
      cases hfind
      rw [show p'.scope.get? name = some value from hset (name, value) hget]
    | none =>
      rw [hget] at hfind
      have hnot : name ∉ entries.map Entry.key := by
        intro hmem
        obtain ⟨entry, hentry, rfl⟩ := List.mem_map.1 hmem
        rw [haround.apart entry hentry] at hfind
        cases hfind
      cases hget' : p'.scope.get? name with
      | some found => exact absurd (hkeys ▸ h'.named name found hget') hnot
      | none => exact hbase.find name value hfind
  · intro key resource hresource
    have hinventory : p.plainView.inventory = base.plainView.inventory := h.inventory
    have hinventory' : p'.plainView.inventory = base'.plainView.inventory := h'.inventory
    rw [hinventory] at hresource
    rw [hinventory']
    exact hbase.resource key resource hresource
  · show p'.inventory.registry = p.inventory.registry
    rw [h.inventory, h'.inventory]
    exact hbase.registry
  · show p.inventory.virtuals = [] ∧ p'.inventory.virtuals = []
    rw [h.inventory, h'.inventory]
    exact hbase.virtuals
  · exact ⟨rfl, rfl⟩

theorem Within.agrees (h : Within entries base p)
    (h' : Within entries' base' p')
    (haround : Around setup file entries base)
    (hbare : entries.map Entry.bare = entries'.map Entry.bare)
    (hbase : base.plainView.Below base'.plainView)
    (hset : Below SetField p p')
    {entry entry' : Entry}
    (hsingle : p.Single entry.value)
    (hlike : entry.bare = entry'.bare) :
    Agrees (Value.Known p.inventory) (evaluate p.plainView entry.value)
      (evaluate p'.plainView entry'.value) :=
  evaluate_agrees (h.view_below h' haround (keys_of_bare hbare) hbase hset) (h.view_known haround.known)
    (value_of_bare hlike) (hsingle [] Span.generated)

theorem view_below_refl (hvirtuals : base.inventory.virtuals = []) :
    base.plainView.Below base.plainView :=
  View.below_of_same rfl rfl hvirtuals ⟨rfl, rfl⟩

theorem Inside.single (h : Inside setup file entries base items p)
    (haround : Around setup file entries base)
    {entry : Entry} (hentry : entry ∈ entries) :
    p.Single entry.value :=
  haround.single p h.tried entry hentry

theorem Inside.start (haround : Around setup file entries base) :
    Inside setup file entries base entries base.entered where
  within :=
    { inventory := rfl
      declared := rfl
      enclosing := rfl
      blocks := rfl
      credentials := rfl
      distinct := List.nodup_nil
      named := fun _ _ h => nomatch h
      known := fun _ _ h => nomatch h }
  tried := .start
  mem := fun _ h => h
  once := haround.once
  unset := fun _ _ => rfl
  read := fun _ h => nomatch h
  reads := fun _ h => Or.inl h

/-! ## One pair of a body -/

theorem setField_put {entry : Entry} {value : Value} {reads : List Key}
    (hunset : p.scope.get? entry.key = none) (field : String × Value) :
    SetField { p with reads := reads, scope := p.scope.put entry.key value } field ↔
      SetField p field ∨ field = (entry.key, value) := by
  obtain ⟨name, found⟩ := field
  show (p.scope.put entry.key value).get? name = some found ↔ p.scope.get? name = some found ∨ _
  have hput : (p.scope.put entry.key value).get? name =
      if entry.key = name then some value else p.scope.get? name := Table.get?_set _ _ _ _
  rw [hput]
  by_cases hname : entry.key = name
  · subst hname
    rw [if_pos rfl, hunset]
    constructor
    · intro h
      cases h
      exact Or.inr rfl
    · rintro (h | h)
      · cases h
      · cases h
        rfl
  · rw [if_neg hname]
    constructor
    · exact Or.inl
    · rintro (h | h)
      · exact h
      · cases h
        exact absurd rfl hname

/-- Removing an item keeps the names distinct, and no other item has its name. -/
theorem once_middle {front back : List Entry} {entry : Entry}
    (h : ((front ++ entry :: back).map Entry.key).Nodup) :
    ((front ++ back).map Entry.key).Nodup ∧
      ∀ other ∈ front ++ back, entry.key ≠ other.key := by
  have hmiddle : (front ++ entry :: back).Perm (entry :: (front ++ back)) := List.perm_middle
  have hperm := hmiddle.map Entry.key
  have hnodup := hperm.nodup_iff.1 h
  rw [List.map_cons, List.nodup_cons] at hnodup
  refine ⟨hnodup.2, fun other hother heq => hnodup.1 ?_⟩
  rw [heq]
  exact List.mem_map_of_mem hother

theorem Inside.done (haround : Around setup file entries base)
    {front back : List Entry} {entry : Entry} {value : Value} {reads : List Key}
    {undeclared : List TypeName}
    (h : Inside setup file entries base (front ++ entry :: back) p)
    (hsaid : said p.plainView entry.value = .yields value)
    (hrun : (runStatement (setup.evaluator undeclared) (.pair entry) (bodyFrame file)).run p =
      (.ok (), { p with reads := reads, scope := p.scope.put entry.key value }))
    (hknown : value.Known p.inventory)
    (hreads : ∀ key, key ∈ reads ↔ key ∈ p.reads ∨ key ∈ readBy p.plainView entry.value) :
    Inside setup file entries base (front ++ back)
      { p with reads := reads, scope := p.scope.put entry.key value } := by
  have hentry : entry ∈ entries := h.mem entry (by simp)
  have hunset : p.scope.get? entry.key = none := h.unset entry (by simp)
  obtain ⟨honce, hother⟩ := once_middle h.once
  have hput : ∀ field,
      SetField { p with reads := reads, scope := p.scope.put entry.key value } field ↔
        SetField p field ∨ field = (entry.key, value) := setField_put hunset
  have hset : Below SetField p { p with reads := reads, scope := p.scope.put entry.key value } :=
    fun field hfield => (hput field).2 (Or.inl hfield)
  have hwithin : Within entries base
      { p with reads := reads, scope := p.scope.put entry.key value } := by
    refine ⟨h.within.inventory, h.within.declared, h.within.enclosing, h.within.blocks,
      h.within.credentials, Table.distinct_set h.within.distinct _ _, ?_, ?_⟩
    · intro name found hget
      rcases (hput (name, found)).1 hget with hget | hget
      · exact h.within.named name found hget
      · cases hget
        exact List.mem_map_of_mem hentry
    · intro name found hget
      rcases (hput (name, found)).1 hget with hget | hget
      · exact h.within.known name found hget
      · cases hget
        rw [← h.within.inventory]
        exact hknown
  -- what the pairs said before, they say with the new field, too
  have hagrees : ∀ other ∈ entries, Agrees (Value.Known p.inventory)
      (evaluate p.plainView other.value)
      (evaluate { p with reads := reads, scope := p.scope.put entry.key value }.plainView
        other.value) := fun other hmem =>
    h.within.agrees hwithin haround rfl (view_below_refl haround.virtuals) hset
      (h.single haround hmem) rfl
  refine ⟨hwithin, h.tried.step (List.mem_map_of_mem (List.mem_map_of_mem hentry)) hrun, ?_, honce,
    ?_, ?_, ?_⟩
  · intro other hmem
    rcases List.mem_append.1 hmem with hmem | hmem
    · exact h.mem other (by simp [hmem])
    · exact h.mem other (by simp [hmem])
  · intro other hmem
    have hold : p.scope.get? other.key = none := by
      rcases List.mem_append.1 hmem with hmem | hmem
      · exact h.unset other (by simp [hmem])
      · exact h.unset other (by simp [hmem])
    show (p.scope.put entry.key value).get? other.key = none
    rw [show (p.scope.put entry.key value).get? other.key = _ from Table.get?_set _ _ _ _,
      if_neg (hother other hmem)]
    exact hold
  · intro key hkey
    rcases (hreads key).1 hkey with hkey | hkey
    · obtain ⟨other, hmem, hread⟩ := h.read key hkey
      exact ⟨other, hmem, mem_readBy (hagrees other hmem) hread⟩
    · exact ⟨entry, hentry, mem_readBy (hagrees entry hentry) hkey⟩
  · intro other hmem
    rcases h.reads other hmem with hleft | ⟨⟨found, hfound⟩, hread⟩
    · by_cases heq : other = entry
      · subst heq
        obtain ⟨hsaid', -, hiff⟩ := said_of_yields (hagrees other hmem) hsaid
        refine Or.inr ⟨⟨value, hsaid'⟩, fun key hkey => ?_⟩
        exact (hreads key).2 (Or.inr ((hiff key).2 hkey))
      · refine Or.inl ?_
        simpa [heq] using hleft
    · obtain ⟨hsaid', -, hiff⟩ := said_of_yields (hagrees other hmem) hfound
      refine Or.inr ⟨⟨found, hsaid'⟩, fun key hkey => ?_⟩
      exact (hreads key).2 (Or.inl (hread key ((hiff key).2 hkey)))

theorem Inside.waits {items : List Entry} {entry : Entry} {reads : List Key}
    {undeclared : List TypeName} {outcome : Except Interrupt Unit}
    (h : Inside setup file entries base items p)
    (hentry : entry ∈ items)
    (hrun : (runStatement (setup.evaluator undeclared) (.pair entry) (bodyFrame file)).run p =
      (outcome, { p with reads := reads }))
    (hreads : ∀ key, key ∈ reads ↔ key ∈ p.reads ∨ key ∈ readBy p.plainView entry.value) :
    Inside setup file entries base items { p with reads := reads } := by
  have hmem := h.mem entry hentry
  refine ⟨⟨h.within.inventory, h.within.declared, h.within.enclosing, h.within.blocks,
    h.within.credentials, h.within.distinct, h.within.named, h.within.known⟩,
    h.tried.step (List.mem_map_of_mem (List.mem_map_of_mem hmem)) hrun, h.mem, h.once, h.unset, ?_, ?_⟩
  · intro key hkey
    rcases (hreads key).1 hkey with hkey | hkey
    · exact h.read key hkey
    · exact ⟨entry, hmem, hkey⟩
  · intro other hother
    rcases h.reads other hother with hleft | ⟨hsaid, hread⟩
    · exact Or.inl hleft
    · exact Or.inr ⟨hsaid, fun key hkey => (hreads key).2 (Or.inl (hread key hkey))⟩

/-! ## Passes over the pairs of a body -/

theorem Inside.virtuals (h : Inside setup file entries base items p)
    (haround : Around setup file entries base) :
    p.inventory.virtuals = [] := by
  rw [h.within.inventory]
  exact haround.virtuals

theorem Inside.stable {left : List Entry}
    (h : Inside setup file entries base items p)
    (h' : Inside setup file entries base left p')
    (haround : Around setup file entries base)
    (hset : Below SetField p p')
    {entry : Entry} (hentry : entry ∈ entries) :
    Agrees (Value.Known p.inventory) (evaluate p.plainView entry.value)
      (evaluate p'.plainView entry.value) :=
  h.within.agrees h'.within haround rfl (view_below_refl haround.virtuals) hset
    (h.single haround hentry) rfl

theorem pairMachine_lawful (haround : Around setup file entries base)
    (undeclared : List TypeName) :
    Lawful (pairMachine setup undeclared file) SetField entries
      (Inside setup file entries base) where
  mem := fun h => h.mem
  done := by
    intro front entry back p fact h hverdict
    obtain ⟨value, hsaid, rfl⟩ := Verdict.map_eq_yields.1 hverdict
    have hentry : entry ∈ entries := h.mem entry (by simp)
    obtain ⟨reads, hrun, hknown, hreads⟩ := pair_of_yields (setup.evaluator undeclared)
      (h.virtuals haround) (h.within.view_known haround.known) (h.single haround hentry)
      (rfl : (bodyFrame file).qualifier = none) hsaid
    refine ⟨_, ?_, h.done haround hsaid hrun hknown hreads,
      setField_put (h.unset entry (by simp))⟩
    show Step.attempt _ p = _
    rw [Step.attempt, hrun]
  waits := by
    intro items entry p h hentry hverdict
    obtain ⟨deferrals, reads, hrun, hreads⟩ := pair_of_waits (setup.evaluator undeclared)
      (h.virtuals haround) (h.within.view_known haround.known)
      (h.single haround (h.mem entry hentry)) (rfl : (bodyFrame file).qualifier = none)
      (Verdict.map_eq_waits.1 hverdict)
    refine ⟨_, ?_, h.waits hentry hrun hreads, fun _ => Iff.rfl⟩
    show Step.attempt _ p = _
    rw [Step.attempt, hrun]
  fails := by
    intro items entry p h hentry hverdict
    obtain ⟨error, reads, hrun⟩ := pair_of_fails (setup.evaluator undeclared)
      (h.virtuals haround) (h.within.view_known haround.known)
      (h.single haround (h.mem entry hentry)) (rfl : (bodyFrame file).qualifier = none)
      (Verdict.map_eq_fails.1 hverdict)
    show Step.attempt _ p = _
    rw [Step.attempt, hrun]
  next := fun h => ⟨h, fun _ => Iff.rfl⟩
  yields_stable := by
    intro items left entry p p' fact h h' hset hentry hverdict
    obtain ⟨value, hsaid, rfl⟩ := Verdict.map_eq_yields.1 hverdict
    exact Verdict.map_eq_yields.2
      ⟨value, (said_of_yields (h.stable h' haround hset hentry) hsaid).1, rfl⟩
  fails_stable := by
    intro items left entry p p' h h' hset hentry hverdict
    exact Verdict.map_eq_fails.2
      (said_of_fails (h.stable h' haround hset hentry) (Verdict.map_eq_fails.1 hverdict))

/-! ## The same body in two places -/

/-- The same pair of two bodies that differ in places only. -/
def SamePair (entries entries' : List Entry) (entry entry' : Entry) : Prop :=
  entry ∈ entries ∧ entry' ∈ entries' ∧ entry.bare = entry'.bare

theorem exists_same {lines lines' : List Entry}
    (hbare : lines.map Entry.bare = lines'.map Entry.bare)
    {entry : Entry} (hentry : entry ∈ lines) :
    ∃ entry' ∈ lines', entry.bare = entry'.bare := by
  have hmem := List.mem_map_of_mem (f := Entry.bare) hentry
  rw [hbare] at hmem
  obtain ⟨entry', hentry', heq⟩ := List.mem_map.1 hmem
  exact ⟨entry', hentry', heq.symm⟩

theorem pairMachine_carries (haround : Around setup file entries base)
    (hbare : entries.map Entry.bare = entries'.map Entry.bare)
    (hbase : base.plainView.Below base'.plainView)
    (undeclared undeclared' : List TypeName) :
    Carries (pairMachine setup undeclared file) (pairMachine setup undeclared' file) SetField
      entries entries' (Inside setup file entries base) (Inside setup file entries' base')
      (SamePair entries entries') where
  left := by
    intro entry hentry
    obtain ⟨entry', hentry', heq⟩ := exists_same hbare hentry
    exact ⟨entry', hentry', hentry, hentry', heq⟩
  right := by
    intro entry' hentry'
    obtain ⟨entry, hentry, heq⟩ := exists_same hbare.symm hentry'
    exact ⟨entry, hentry, hentry, hentry', heq.symm⟩
  yields := by
    intro entry entry' items left p p' fact hsame h h' hset hverdict
    obtain ⟨hentry, -, hlike⟩ := hsame
    obtain ⟨value, hsaid, rfl⟩ := Verdict.map_eq_yields.1 hverdict
    have hagrees := h.within.agrees h'.within haround hbare hbase hset
      (h.single haround hentry) hlike
    refine Verdict.map_eq_yields.2 ⟨value, (said_of_yields hagrees hsaid).1, ?_⟩
    rw [key_of_bare hlike]
  fails := by
    intro entry entry' items left p p' hsame h h' hset hverdict
    obtain ⟨hentry, -, hlike⟩ := hsame
    have hagrees := h.within.agrees h'.within haround hbare hbase hset
      (h.single haround hentry) hlike
    exact Verdict.map_eq_fails.2 (said_of_fails hagrees (Verdict.map_eq_fails.1 hverdict))

/-- The body of a resource whose statements are pairs. -/
def pairBody (setup : EvaluationSetup) (undeclared : List TypeName) (file : Nat)
    (entries : List Entry) : Step EvaluatedBody :=
  resourceBody (bodyFrame file)
    (runMarked (setup.evaluator undeclared) (entries.map Node.pair) (bodyFrame file))

/-- What the body of a resource says. -/
def bodySaid (setup : EvaluationSetup) (undeclared : List TypeName) (file : Nat)
    (entries : List Entry) (base : Progress) : Verdict EvaluatedBody :=
  ended ((pairBody setup undeclared file entries).run base).1

/-- The progress around a body that has come to `p`. -/
def Progress.left (p base : Progress) : Progress :=
  { p with scope := base.scope, reads := base.reads, credentials := base.credentials }

theorem Within.left (h : Within entries base p) : p.left base = base := by
  unfold Progress.left
  rw [h.inventory, h.declared]

/-- Pairs are no directives: all of them are steps of the body, in order. -/
theorem runMarked_pairs (e : Evaluator) (frame : Frame) (entries : List Entry) :
    ((runMarked e (entries.map Node.pair) frame).filter fun step => !step.1).map Prod.snd =
        entries.map (fun entry => runStatement e (.pair entry) frame) ∧
      ((runMarked e (entries.map Node.pair) frame).filter fun step => step.1).map Prod.snd = [] := by
  induction entries with
  | nil => exact ⟨rfl, rfl⟩
  | cons entry rest ih =>
    obtain ⟨hplain, hdirectives⟩ := ih
    rw [List.map_cons, runMarked, List.map_cons]
    constructor
    · rw [List.filter_cons_of_pos rfl, List.map_cons, hplain]
    · rw [List.filter_cons_of_neg (by exact Bool.false_ne_true), hdirectives]

/-- A body is run inside, directives last, and then left. -/
theorem resourceBody_run (frame : Frame) (steps : List (Bool × Step Unit)) (base : Progress) :
    (resourceBody frame steps).run base =
      match (Step.body (((steps.filter fun step => !step.1).map Prod.snd) ++
        ((steps.filter fun step => step.1).map Prod.snd))).run base.entered with
      | (.ok (), p) =>
        (.ok ⟨p.scope.fields, p.credentials, Sorted.union p.reads frame.inherited⟩, p.left base)
      | (.error i, p) => (.error i, p.left base) := by
  generalize hinner : Step.body (((steps.filter fun step => !step.1).map Prod.snd) ++
    ((steps.filter fun step => step.1).map Prod.snd)) = inner
  have hbody : resourceBody frame steps =
      Step.collecting (Step.inScope Scope.child inner) >>= fun ended =>
        pure ⟨ended.1.fields, ended.2.2, Sorted.union ended.2.1 frame.inherited⟩ := by
    rw [← hinner]
    rfl
  have hrun : (Step.collecting (Step.inScope Scope.child inner)).run base =
      (((inner.run base.entered).1.map fun _ => (inner.run base.entered).2.scope).map fun scope =>
          (scope, (inner.run base.entered).2.reads, (inner.run base.entered).2.credentials),
        (inner.run base.entered).2.left base) := rfl
  rw [hbody, run_bind, hrun]
  rcases inner.run base.entered with ⟨i | ⟨⟩, p⟩ <;> rfl

theorem pairBody_run (undeclared : List TypeName) (base : Progress) :
    (pairBody setup undeclared file entries).run base =
      match (Step.body (entries.map fun entry =>
        runStatement (setup.evaluator undeclared) (.pair entry) (bodyFrame file))).run base.entered with
      | (.ok (), p) => (.ok ⟨p.scope.fields, p.credentials, Sorted.union p.reads []⟩, p.left base)
      | (.error i, p) => (.error i, p.left base) := by
  obtain ⟨hplain, hdirectives⟩ :=
    runMarked_pairs (setup.evaluator undeclared) (bodyFrame file) entries
  rw [pairBody, resourceBody_run, hplain, hdirectives, List.append_nil]
  rfl

theorem run_of_settled (haround : Around setup file entries base) {undeclared : List TypeName}
    (h : Settles (pairMachine setup undeclared file) entries base.entered p) :
    (pairBody setup undeclared file entries).run base =
      (.ok ⟨p.scope.values, none, p.reads⟩, base) := by
  have hstage := (h.swept (pairMachine_lawful haround undeclared) (.start (.start haround))).1
  have hwithin := hstage.here.within
  rw [pairBody_run, body_of_settles h]
  show (Except.ok (EvaluatedBody.mk p.scope.fields p.credentials p.reads), p.left base) = _
  rw [hwithin.left, hwithin.credentials]
  unfold Scope.fields
  rw [hwithin.blocks]
  rfl

theorem run_of_broken {undeclared : List TypeName}
    (h : Breaks (pairMachine setup undeclared file) entries base.entered) :
    ∃ e after, (pairBody setup undeclared file entries).run base = (.error (.failed e), after) := by
  obtain ⟨e, p, hrun⟩ := body_of_breaks h
  refine ⟨e, p.left base, ?_⟩
  rw [pairBody_run, hrun]

theorem run_of_stalled (haround : Around setup file entries base) {undeclared : List TypeName}
    {rest : List Entry}
    (h : Stalls (pairMachine setup undeclared file) entries base.entered rest p) :
    ∃ reasons, (pairBody setup undeclared file entries).run base =
      (.error (.deferred reasons), base) := by
  obtain ⟨-, hstage, -⟩ := h.swept (pairMachine_lawful haround undeclared) (.start (.start haround))
  obtain ⟨reasons, hrun⟩ := body_of_stalls h
  refine ⟨reasons, ?_⟩
  rw [pairBody_run, hrun]
  show (_, p.left base) = _
  rw [hstage.here.within.left]

/-- A body that gets done has settled. -/
theorem settles_of_bodySaid (haround : Around setup file entries base)
    {undeclared : List TypeName} {body : EvaluatedBody}
    (h : bodySaid setup undeclared file entries base = .yields body) :
    ∃ p, Settles (pairMachine setup undeclared file) entries base.entered p ∧
      body = ⟨p.scope.values, none, p.reads⟩ := by
  unfold bodySaid at h
  rcases settles_or_breaks_or_stalls (pairMachine setup undeclared file) entries base.entered with
    ⟨p, hp⟩ | hp | ⟨rest, p, hp⟩
  · rw [run_of_settled haround hp] at h
    cases h
    exact ⟨p, hp, rfl⟩
  · obtain ⟨e, after, hrun⟩ := run_of_broken hp
    rw [hrun] at h
    cases h
  · obtain ⟨reasons, hrun⟩ := run_of_stalled haround hp
    rw [hrun] at h
    cases h

theorem breaks_of_bodySaid (haround : Around setup file entries base)
    {undeclared : List TypeName}
    (h : bodySaid setup undeclared file entries base = .fails) :
    Breaks (pairMachine setup undeclared file) entries base.entered := by
  unfold bodySaid at h
  rcases settles_or_breaks_or_stalls (pairMachine setup undeclared file) entries base.entered with
    ⟨p, hp⟩ | hp | ⟨rest, p, hp⟩
  · rw [run_of_settled haround hp] at h
    cases h
  · exact hp
  · obtain ⟨reasons, hrun⟩ := run_of_stalled haround hp
    rw [hrun] at h
    cases h

theorem run_of_bodySaid_yields (haround : Around setup file entries base)
    {undeclared : List TypeName} {body : EvaluatedBody}
    (h : bodySaid setup undeclared file entries base = .yields body) :
    (pairBody setup undeclared file entries).run base = (.ok body, base) := by
  obtain ⟨p, hp, rfl⟩ := settles_of_bodySaid haround h
  exact run_of_settled haround hp

theorem run_of_bodySaid_waits (haround : Around setup file entries base)
    {undeclared : List TypeName}
    (h : bodySaid setup undeclared file entries base = .waits) :
    ∃ reasons, (pairBody setup undeclared file entries).run base =
      (.error (.deferred reasons), base) := by
  unfold bodySaid at h
  rcases settles_or_breaks_or_stalls (pairMachine setup undeclared file) entries base.entered with
    ⟨p, hp⟩ | hp | ⟨rest, p, hp⟩
  · rw [run_of_settled haround hp] at h
    cases h
  · obtain ⟨e, after, hrun⟩ := run_of_broken hp
    rw [hrun] at h
    cases h
  · exact run_of_stalled haround hp

theorem run_of_bodySaid_fails (haround : Around setup file entries base)
    {undeclared : List TypeName}
    (h : bodySaid setup undeclared file entries base = .fails) :
    ∃ e after, (pairBody setup undeclared file entries).run base = (.error (.failed e), after) :=
  run_of_broken (breaks_of_bodySaid haround h)

/-! ## What a body says is not taken back -/

/-- The fields that a body sets are known, and each is set once. -/
theorem bodySaid_known (haround : Around setup file entries base)
    {undeclared : List TypeName} {body : EvaluatedBody}
    (h : bodySaid setup undeclared file entries base = .yields body) :
    Table.Distinct body.fields ∧
      ∀ name value, Table.get? body.fields name = some value → value.Known base.inventory := by
  obtain ⟨p, hp, rfl⟩ := settles_of_bodySaid haround h
  have hstage := (hp.swept (pairMachine_lawful haround undeclared) (.start (.start haround))).1
  exact ⟨hstage.here.within.distinct, hstage.here.within.known⟩

/-- A body that fails fails wherever more is visible. -/
theorem bodySaid_fails (haround : Around setup file entries base)
    (haround' : Around setup file entries' base')
    (hbare : entries.map Entry.bare = entries'.map Entry.bare)
    (hbase : base.plainView.Below base'.plainView)
    {undeclared undeclared' : List TypeName}
    (h : bodySaid setup undeclared file entries base = .fails) :
    bodySaid setup undeclared' file entries' base' = .fails := by
  have hbreaks := (breaks_of_bodySaid haround h).transfer
    (pairMachine_lawful haround undeclared) (pairMachine_lawful haround' undeclared')
    (pairMachine_carries haround hbare hbase undeclared undeclared')
    (.start haround) (.start haround') fun _ h => nomatch h
  obtain ⟨e, after, hrun⟩ := run_of_broken hbreaks
  unfold bodySaid
  rw [hrun]
  rfl

/-- The state of a body that has got done, looked at from a place where more is visible. -/
theorem Within.lift (h : Within entries base p)
    (hkeys : entries.map Entry.key = entries'.map Entry.key)
    (hbase : base.plainView.Below base'.plainView) :
    Within entries' base' { base'.entered with scope := { base'.entered.scope with
      values := p.scope.values } } where
  inventory := rfl
  declared := rfl
  enclosing := rfl
  blocks := rfl
  credentials := rfl
  distinct := h.distinct
  named := fun name value hget => hkeys ▸ h.named name value hget
  known := fun name value hget key hkey => hbase.has (h.known name value hget key hkey)

theorem Inside.mem_reads (h : Inside setup file entries base [] p) (key : Key) :
    key ∈ p.reads ↔ ∃ entry ∈ entries, key ∈ readBy p.plainView entry.value := by
  constructor
  · exact h.read key
  · rintro ⟨entry, hentry, hkey⟩
    rcases h.reads entry hentry with hleft | ⟨-, hread⟩
    · cases hleft
    · exact hread key hkey

/-- No pair speaks against the fields that the same body sets elsewhere. -/
theorem Inside.bounded {left : List Entry}
    (h : Retry.Stage (pairMachine setup undeclared file) SetField entries
      (Inside setup file entries base) [] p)
    (h' : Inside setup file entries' base' left p')
    (haround : Around setup file entries base)
    (haround' : Around setup file entries' base')
    (hbare : entries.map Entry.bare = entries'.map Entry.bare)
    (hbase : base.plainView.Below base'.plainView)
    (hset : ∀ field, SetField p' field → SetField p field)
    {entry' : Entry} (hentry' : entry' ∈ entries') :
    pairSaid entry' p' ≠ .fails ∧ ∀ field, pairSaid entry' p' = .yields field → SetField p field := by
  obtain ⟨entry, hentry, hlike⟩ := exists_same hbare.symm hentry'
  -- both bodies are compared with what the first one ends with, seen from where the second runs
  have hlift := h.here.within.lift (keys_of_bare hbare) hbase
  have hhere := h.here.within.agrees hlift haround hbare hbase (fun _ hfield => hfield)
    (h.here.single haround hentry) hlike.symm
  have hthere := h'.within.agrees hlift haround' rfl (view_below_refl haround'.virtuals) hset
    (h'.single haround' hentry') rfl
  rcases h.settled entry hentry with hleft | ⟨fact, hverdict, hfact⟩
  · cases hleft
  · obtain ⟨value, hsaid, rfl⟩ := Verdict.map_eq_yields.1 hverdict
    have hvalue := (said_of_yields hhere hsaid).1
    constructor
    · intro hfails
      rw [said_of_fails hthere (Verdict.map_eq_fails.1 hfails)] at hvalue
      cases hvalue
    · intro field hfield
      obtain ⟨value', hsaid', rfl⟩ := Verdict.map_eq_yields.1 hfield
      rw [(said_of_yields hthere hsaid').1] at hvalue
      cases hvalue
      rw [key_of_bare hlike]
      exact hfact

/-- A body that gets done gets done wherever more is visible, and comes to the same. -/
theorem bodySaid_yields (haround : Around setup file entries base)
    (haround' : Around setup file entries' base')
    (hbare : entries.map Entry.bare = entries'.map Entry.bare)
    (hbase : base.plainView.Below base'.plainView)
    {undeclared : List TypeName} (undeclared' : List TypeName) {body : EvaluatedBody}
    (h : bodySaid setup undeclared file entries base = .yields body) :
    ∃ body', bodySaid setup undeclared' file entries' base' = .yields body' ∧ body.Alike body' := by
  obtain ⟨p, hp, rfl⟩ := settles_of_bodySaid haround h
  have hlawful := pairMachine_lawful haround undeclared
  have hlawful' := pairMachine_lawful haround' undeclared'
  have hstage := (hp.swept hlawful (.start (.start haround))).1
  obtain ⟨p', hp', hbelow, hbounded⟩ := hp.transfer hlawful hlawful'
    (pairMachine_carries haround hbare hbase undeclared undeclared') (.start haround)
    (.start haround') (fun _ h => nomatch h) (fun _ h => nomatch h)
    fun h' hset hentry' => Inside.bounded hstage h' haround haround' hbare hbase hset hentry'
  have hstage' := (hp'.swept hlawful' (.start (.start haround'))).1
  refine ⟨⟨p'.scope.values, none, p'.reads⟩, ?_, ?_, rfl, ?_⟩
  · unfold bodySaid
    rw [run_of_settled haround' hp']
    rfl
  · intro name
    refine Option.ext fun value => ⟨?_, ?_⟩
    · exact fun hget => hbelow (name, value) hget
    · exact fun hget => hbounded (name, value) hget
  · -- every pair is done in both, and reads the same resources
    have hsame : ∀ {entry entry' : Entry}, entry ∈ entries → entry.bare = entry'.bare →
        ∀ key, key ∈ readBy p.plainView entry.value ↔ key ∈ readBy p'.plainView entry'.value := by
      intro entry entry' hentry hlike key
      have hagrees := hstage.here.within.agrees hstage'.here.within haround hbare hbase hbelow
        (hstage.here.single haround hentry) hlike
      rcases hstage.settled entry hentry with hleft | ⟨fact, hverdict, -⟩
      · cases hleft
      · obtain ⟨value, hsaid, -⟩ := Verdict.map_eq_yields.1 hverdict
        exact (said_of_yields hagrees hsaid).2.2 key
    intro key
    rw [hstage.here.mem_reads, hstage'.here.mem_reads]
    constructor
    · rintro ⟨entry, hentry, hkey⟩
      obtain ⟨entry', hentry', hlike⟩ := exists_same hbare hentry
      exact ⟨entry', hentry', (hsame hentry hlike key).1 hkey⟩
    · rintro ⟨entry', hentry', hkey⟩
      obtain ⟨entry, hentry, hlike⟩ := exists_same hbare.symm hentry'
      exact ⟨entry, hentry, (hsame hentry hlike.symm key).2 hkey⟩

end Body

end Provision
