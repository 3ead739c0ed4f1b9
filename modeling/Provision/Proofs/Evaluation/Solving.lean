import Provision.Proofs.Evaluation.Blocks
import Provision.Proofs.Evaluation.InTime

/-!
# What a body in time comes to

The fields that a body in time ends with solve its pairs: each is what its
expression says when the other fields stand before the names outside.  More that is
known outside takes nothing of this back.  No attempt at the body sets anything that
is not in a solution, and so there is one solution at most: attempts that get done
come to the same, whatever was known when each of them was made.
-/

namespace Provision

open Provision.Language (Node Entry)
open Recording
open Retry (Verdict settles_or_breaks_or_stalls)

/-- What the pair of one name sees once its body has come to some fields: the other fields, and
behind them the names outside. -/
def Progress.inner (outside : Progress) (fields : Bindings) (name : String) : View :=
  ⟨outside.inventory,
    ⟨Table.erase fields name, [], outside.scope.values :: outside.scope.enclosing⟩,
    none, [], Span.generated⟩

/-- Fields that are what the pairs of a body say they are. -/
structure Solves (outside : Progress) (entries : List Entry) (fields : Bindings) : Prop where
  distinct : Table.Distinct fields
  named : ∀ name value, Table.get? fields name = some value → name ∈ entries.map Entry.key
  value : ∀ entry ∈ entries, ∃ value,
    said (outside.inner fields entry.key) entry.value = .yields value ∧
      Table.get? fields entry.key = some value

section Solving

variable {setup : EvaluationSetup} {undeclared : List TypeName} {file : Nat}
variable {bound : List String} {entries entries' : List Entry}
variable {base outside p : Progress} {entry entry' : Entry} {fields : Bindings}

/-- What a timely pair reads means the same to it in the end. -/
theorem seenBy_below (hs : Surrounds setup file bound entries base)
    (hwithin : Within entries base p) (hbase : base.plainView.Below outside.plainView)
    (hdistinct : Table.Distinct fields)
    (hnamed : ∀ name value, Table.get? fields name = some value → name ∈ entries.map Entry.key)
    (hset : ∀ name value, p.scope.get? name = some value → Table.get? fields name = some value)
    (hunset : p.scope.get? entry.key = none) :
    ((p.seenBy setup undeclared file entry).only
      (MayRead bound (entries.map Entry.key) p entry)).Below (outside.inner fields entry.key) := by
  have hinventory : p.inventory = base.inventory := hwithin.inventory
  refine ⟨?_, ?_, ?_, ?_, ⟨rfl, rfl⟩⟩
  · intro name value hfind
    have hfind : (p.scope.only (MayRead bound (entries.map Entry.key) p entry)).find name =
        some value := hfind
    rw [Scope.find_only] at hfind
    split at hfind
    · next hmay =>
      have hbehind : base.scope.find name = some value → outside.scope.find name = some value :=
        hbase.find name value
      show Scope.findIn (Table.erase fields entry.key :: _) name = some value
      rw [Scope.findIn, Table.get?_erase hdistinct]
      rw [hwithin.find] at hfind
      by_cases hown : entry.key = name
      · rw [if_pos hown]
        rw [← hown, hunset] at hfind
        exact hown ▸ hbehind (hown ▸ hfind)
      · rw [if_neg hown]
        cases hget : p.scope.get? name with
        | some found =>
          rw [hget] at hfind
          rw [hset name found hget]
          exact hfind
        | none =>
          rw [hget] at hfind
          cases hfield : Table.get? fields name with
          | none => exact hbehind hfind
          | some found =>
            -- a field that hides a variable is set when it is read
            have hread := hmay (hnamed name found hfield) (hs.named name value hfind)
            rw [hget] at hread
            rcases hread with heq | hsome
            · exact absurd heq.symm hown
            · cases hsome
    · cases hfind
  · intro key resource hresource
    have hresource : p.inventory.resource? key = some resource := hresource
    rw [hinventory] at hresource
    exact hbase.resource key resource hresource
  · show outside.inventory.registry = p.inventory.registry
    rw [hinventory]
    exact hbase.registry
  · show p.inventory.virtuals = [] ∧ outside.inventory.virtuals = []
    rw [hinventory]
    exact hbase.virtuals

theorem agrees_inner (hs : Surrounds setup file bound entries base)
    (htrail : Trail setup undeclared file bound entries base p)
    (hbase : base.plainView.Below outside.plainView) (hdistinct : Table.Distinct fields)
    (hnamed : ∀ name value, Table.get? fields name = some value → name ∈ entries.map Entry.key)
    (hset : ∀ name value, p.scope.get? name = some value → Table.get? fields name = some value)
    (hentry : entry ∈ entries) (htimely : Timely bound (entries.map Entry.key) p entry)
    (hunset : p.scope.get? entry.key = none) (hlike : entry.bare = entry'.bare) :
    Agrees (Value.Known p.inventory)
      (evaluate (p.seenBy setup undeclared file entry) entry.value)
      (evaluate (outside.inner fields entry.key) entry'.value) := by
  have hwithin := htrail.within hs
  have hknown := hwithin.view_known hs.known
  exact evaluate_agrees_only (seenBy_below hs hwithin hbase hdistinct hnamed hset hunset)
    ⟨hknown.scope, hknown.fields⟩ (value_of_bare hlike)
    (hs.single p htrail.tried entry hentry _ _) htimely

/-- An attempt at a body stays inside every solution of its pairs. -/
theorem Trail.inside (hs : Surrounds setup file bound entries base)
    (h : Trail setup undeclared file bound entries base p)
    (hbare : entries.map Entry.bare = entries'.map Entry.bare)
    (hbase : base.plainView.Below outside.plainView)
    (hsolves : Solves outside entries' fields) :
    (∀ name value, p.scope.get? name = some value → Table.get? fields name = some value) ∧
      ∀ key ∈ p.reads, ∃ entry ∈ entries', key ∈ readBy (outside.inner fields entry.key)
        entry.value := by
  have hnamed : ∀ name value, Table.get? fields name = some value →
      name ∈ entries.map Entry.key := fun name value hget =>
    keys_of_bare hbare ▸ hsolves.named name value hget
  induction h with
  | start => exact ⟨(fun _ _ h => nomatch h), (fun _ h => nomatch h)⟩
  | @done p after entry hbefore hentry htimely hunset hdone ih =>
    obtain ⟨hset, hreads⟩ := ih
    obtain ⟨entry', hentry', hlike⟩ := exists_same hbare hentry
    have hagrees := agrees_inner hs hbefore hbase hsolves.distinct hnamed hset hentry htimely
      hunset hlike
    obtain ⟨value, reads, hrun, rfl⟩ := attempt_done hdone
    obtain ⟨hsaid, -, hread⟩ := said_of_run hagrees hrun
    obtain ⟨found, hfound, hfield⟩ := hsolves.value entry' hentry'
    rw [← key_of_bare hlike] at hfound hfield
    obtain rfl : found = value := by
      rw [hsaid] at hfound
      cases hfound
      rfl
    constructor
    · intro name other hget
      rw [get?_put] at hget
      by_cases hname : entry.key = name
      · rw [if_pos hname] at hget
        cases hget
        exact hname ▸ hfield
      · rw [if_neg hname] at hget
        exact hset name other hget
    · intro key hkey
      rcases (hread key).1 hkey with hkey | hkey
      · exact hreads key hkey
      · exact ⟨entry', hentry', key_of_bare hlike ▸ hkey⟩
  | @waits p after entry hbefore hentry htimely hunset hwaits ih =>
    obtain ⟨hset, hreads⟩ := ih
    obtain ⟨entry', hentry', hlike⟩ := exists_same hbare hentry
    have hagrees := agrees_inner hs hbefore hbase hsolves.distinct hnamed hset hentry htimely
      hunset hlike
    obtain ⟨reasons, reads, hrun, rfl⟩ := attempt_waits hwaits
    refine ⟨hset, fun key hkey => ?_⟩
    rcases readBy_of_run hagrees hrun hkey with hkey | hkey
    · exact hreads key hkey
    · exact ⟨entry', hentry', key_of_bare hlike ▸ hkey⟩

/-- A field that is set is what its pair says in the end, and what the pair reads was read. -/
theorem Trail.solved (hs : Surrounds setup file bound entries base)
    (h : Trail setup undeclared file bound entries base p)
    (hbase : base.plainView.Below outside.plainView) (hdistinct : Table.Distinct fields)
    (hnamed : ∀ name value, Table.get? fields name = some value → name ∈ entries.map Entry.key)
    (hset : ∀ name value, p.scope.get? name = some value → Table.get? fields name = some value)
    (hentry : entry ∈ entries) {value : Value} (hget : p.scope.get? entry.key = some value) :
    said (outside.inner fields entry.key) entry.value = .yields value ∧
      ∀ key ∈ readBy (outside.inner fields entry.key) entry.value, key ∈ p.reads := by
  induction h with
  | start => cases hget
  | @done p after other hbefore hother htimely hunset hdone ih =>
    have hkept := Progress.KeptBy.of_done hother hunset hdone
    have hset' : ∀ name value, p.scope.get? name = some value →
        Table.get? fields name = some value := fun name value hget =>
      hset name value (hkept.get? name value hget)
    have hagrees := agrees_inner hs hbefore hbase hdistinct hnamed hset' hother htimely hunset rfl
    obtain ⟨found, reads, hrun, rfl⟩ := attempt_done hdone
    obtain ⟨hsaid, -, hread⟩ := said_of_run hagrees hrun
    rw [get?_put] at hget
    by_cases hkey : other.key = entry.key
    · obtain rfl := List.inj_on_of_nodup_map hs.once hother hentry hkey
      rw [if_pos rfl] at hget
      cases hget
      exact ⟨hsaid, fun key hkey => (hread key).2 (Or.inr hkey)⟩
    · rw [if_neg hkey] at hget
      obtain ⟨hsaid', hread'⟩ := ih hset' hget
      exact ⟨hsaid', fun key hkey => (hread key).2 (Or.inl (hread' key hkey))⟩
  | @waits p after other hbefore hother htimely hunset hwaits ih =>
    obtain ⟨reasons, reads, hrun, rfl⟩ := attempt_waits hwaits
    obtain ⟨hsaid, hread⟩ := ih hset hget
    refine ⟨hsaid, fun key hkey => ?_⟩
    have hgrows := evaluate_grows (p.seenBy setup undeclared file other) other.value p.reads
    rw [hrun] at hgrows
    exact hgrows key (hread key hkey)

/-- The fields that a body in time ends with solve its pairs. -/
theorem Trail.solves (hs : Surrounds setup file bound entries base)
    (h : Trail setup undeclared file bound entries base p)
    (hbase : base.plainView.Below outside.plainView)
    (hall : ∀ entry ∈ entries, (p.scope.get? entry.key).isSome = true) :
    Solves outside entries p.scope.values := by
  have hwithin := h.within hs
  refine ⟨hwithin.distinct, hwithin.named, fun entry hentry => ?_⟩
  obtain ⟨value, hvalue⟩ := Option.isSome_iff_exists.1 (hall entry hentry)
  exact ⟨value, (h.solved hs hbase hwithin.distinct hwithin.named (fun _ _ h => h) hentry
    hvalue).1, hvalue⟩

/-- The body of a resource that has got done in a state of its pairs. -/
structure Ends (setup : EvaluationSetup) (undeclared : List TypeName) (file : Nat)
    (bound : List String) (entries : List Entry) (base p : Progress) (body : EvaluatedBody) :
    Prop where
  trail : Trail setup undeclared file bound entries base p
  all : ∀ entry ∈ entries, (p.scope.get? entry.key).isSome = true
  body_eq : body = ⟨p.scope.values, none, p.reads⟩

theorem Ends.subset {base' p' : Progress} {undeclared' : List TypeName} {bound' : List String}
    {body body' : EvaluatedBody} (hs : Surrounds setup file bound entries base)
    (hs' : Surrounds setup file bound' entries' base')
    (h : Ends setup undeclared file bound entries base p body)
    (h' : Ends setup undeclared' file bound' entries' base' p' body')
    (hbare : entries.map Entry.bare = entries'.map Entry.bare)
    (hbase : base.plainView.Below outside.plainView)
    (hbase' : base'.plainView.Below outside.plainView) :
    (∀ name value, p.scope.get? name = some value → p'.scope.get? name = some value) ∧
      ∀ key ∈ p.reads, key ∈ p'.reads := by
  obtain ⟨hfields, hreads⟩ := h.trail.inside hs hbare hbase (h'.trail.solves hs' hbase' h'.all)
  refine ⟨hfields, fun key hkey => ?_⟩
  obtain ⟨entry, hentry, hread⟩ := hreads key hkey
  have hwithin := h'.trail.within hs'
  obtain ⟨value, hvalue⟩ := Option.isSome_iff_exists.1 (h'.all entry hentry)
  exact (h'.trail.solved hs' hbase' hwithin.distinct hwithin.named (fun _ _ h => h) hentry
    hvalue).2 key hread

/-- A body in time comes to the same wherever it gets done. -/
theorem Ends.alike {base' p' : Progress} {undeclared' : List TypeName} {bound' : List String}
    {body body' : EvaluatedBody} (hs : Surrounds setup file bound entries base)
    (hs' : Surrounds setup file bound' entries' base')
    (h : Ends setup undeclared file bound entries base p body)
    (h' : Ends setup undeclared' file bound' entries' base' p' body')
    (hbare : entries.map Entry.bare = entries'.map Entry.bare)
    (hbase : base.plainView.Below outside.plainView)
    (hbase' : base'.plainView.Below outside.plainView) :
    body.Alike body' := by
  obtain ⟨hfields, hreads⟩ := h.subset hs hs' h' hbare hbase hbase'
  obtain ⟨hfields', hreads'⟩ := h'.subset hs' hs h hbare.symm hbase' hbase
  obtain rfl := h.body_eq
  obtain rfl := h'.body_eq
  refine ⟨fun name => Option.ext fun value => ⟨hfields name value, hfields' name value⟩, rfl,
    fun key => ⟨hreads key, hreads' key⟩⟩

/-! ## Running a body -/

/-- However a body of pairs ends, it leaves all around it as it was. -/
theorem pairBody_leaves {outcome : Except Interrupt EvaluatedBody} {after : Progress}
    (hrun : (pairBody setup undeclared file entries).run base = (outcome, after)) :
    after = base := by
  have hquiet : (pairBody setup undeclared file entries).Quiet := by
    refine resourceBody_quiet _ fun step hstep => runMarked_quiet _ ?_ _ step hstep
    exact typesInAll_eq_nil.2 fun node hnode => by
      obtain ⟨entry, -, rfl⟩ := List.mem_map.1 hnode
      rfl
  have hinventory := hquiet.inventory base
  have hdeclared := hquiet.declared base base.declared
  rw [show ({ base with declared := base.declared } : Progress) = base from rfl, hrun] at hdeclared
  rw [hrun] at hinventory
  have hdeclared : after.declared = base.declared :=
    congrArg (fun result => result.2.declared) hdeclared
  have hleft : ∀ q : Progress, after = q.left base → after = base := by
    rintro q rfl
    have hinventory : q.inventory = base.inventory := hinventory
    have hdeclared : q.declared = base.declared := hdeclared
    unfold Progress.left
    rw [hinventory, hdeclared]
  rw [pairBody_run] at hrun
  split at hrun
  · exact hleft _ (congrArg Prod.snd hrun).symm
  · exact hleft _ (congrArg Prod.snd hrun).symm

/-- The body of a resource in time that gets done has come to its end by timely attempts. -/
theorem ends_of_run (hs : Surrounds setup file bound entries base)
    (hin : InTime bound (entries.map Entry.key) [] entries) {body : EvaluatedBody}
    {after : Progress}
    (hrun : (pairBody setup undeclared file entries).run base = (.ok body, after)) :
    ∃ p, Ends setup undeclared file bound entries base p body := by
  rw [pairBody_run] at hrun
  rcases settles_or_breaks_or_stalls (pairMachine setup undeclared file) entries base.entered with
    ⟨p, hsettles⟩ | hbreaks | ⟨rest, p, hstalls⟩
  · obtain ⟨htrail, -, hall⟩ := hin.trail hs hsettles (fun _ h => absurd h List.not_mem_nil) .start
      (fun _ h => h) hs.once fun _ _ => rfl
    have hwithin := htrail.within hs
    rw [body_of_settles hsettles] at hrun
    refine ⟨p, htrail, hall, ?_⟩
    have hbody : EvaluatedBody.mk p.scope.fields p.credentials (Sorted.union p.reads []) = body :=
      Except.ok.inj (congrArg Prod.fst hrun)
    rw [← hbody, hwithin.credentials]
    unfold Scope.fields
    rw [hwithin.blocks]
    rfl
  · obtain ⟨e, p, hbroken⟩ := body_of_breaks hbreaks
    rw [hbroken] at hrun
    cases hrun
  · obtain ⟨reasons, hstalled⟩ := body_of_stalls hstalls
    rw [hstalled] at hrun
    cases hrun

end Solving

end Provision
