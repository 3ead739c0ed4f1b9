import Provision.Evaluation.Expression
import Provision.Proofs.Outcome

/-!
# Comparing recordings

Two recordings are compared that start from different reads.  When the first
comes to a value or fails, so does the second, and both record the same
resources; when the first waits, the second has recorded at least as much,
whatever it comes to.
-/

namespace Provision

/-- The second list holds what the first holds and the added keys. -/
def Adds (added : Key → Prop) (before after : List Key) : Prop :=
  ∀ key, key ∈ after ↔ key ∈ before ∨ added key

theorem adds_none (reads : List Key) : Adds (fun _ => False) reads reads := by
  intro key
  simp

theorem Adds.trans {first second : Key → Prop} {before between after : List Key}
    (hfirst : Adds first before between)
    (hsecond : Adds second between after) :
    Adds (fun key => first key ∨ second key) before after := by
  intro key
  rw [hsecond key, hfirst key, or_assoc]

namespace Recording

variable {α β : Type}

/-! ## Runs -/

theorem run_record (key : Key) (reads : List Key) :
    (record key).run reads = (.ok (), Sorted.insert key reads) :=
  rfl

/-! ## Nothing is forgotten -/

/-- What was recorded before stays recorded, also when the recording ends early. -/
def Grows (m : Recording α) : Prop :=
  ∀ reads key, key ∈ reads → key ∈ (m.run reads).2

theorem grows_pure (a : α) : (pure a : Recording α).Grows :=
  fun _ _ h => h

theorem grows_throw (i : Interrupt) : (throw i : Recording α).Grows :=
  fun _ _ h => h

theorem grows_record (key : Key) : (record key).Grows := by
  intro reads other h
  rw [run_record]
  exact Sorted.mem_insert.2 (Or.inr h)

theorem grows_settled (outcome : Except EvalError α) : (settled outcome).Grows := by
  cases outcome with
  | ok a => exact grows_pure a
  | error e => exact grows_throw _

theorem Grows.bind {m : Recording α} {f : α → Recording β} (hm : m.Grows)
    (hf : ∀ a, (f a).Grows) :
    (m >>= f).Grows := by
  intro reads key hkey
  have hafter := hm reads key hkey
  cases hrun : m.run reads with
  | mk outcome after =>
    rw [hrun] at hafter
    cases outcome with
    | ok a =>
      rw [run_bind_ok hrun]
      exact hf a after key hafter
    | error i =>
      rw [run_bind_error hrun]
      exact hafter

/-! ## The comparison -/

/-- What the outcome of one recording says about the outcome of another. -/
inductive Leads (p : α → Prop) (reads reads' : List Key) :
    Except Interrupt α × List Key → Except Interrupt α × List Key → Prop
  | ok {a : α} {after after' : List Key} (added : Key → Prop) (hvalue : p a)
      (hafter : Adds added reads after) (hafter' : Adds added reads' after') :
      Leads p reads reads' (.ok a, after) (.ok a, after')
  | failed {e e' : EvalError} {after after' : List Key} (added : Key → Prop)
      (hafter : Adds added reads after) (hafter' : Adds added reads' after') :
      Leads p reads reads' (.error (.failed e), after) (.error (.failed e'), after')
  | waits {deferrals : List Deferral} {after : List Key} {result : Except Interrupt α × List Key}
      (added : Key → Prop) (hafter : Adds added reads after)
      (hresult : ∀ key, added key → key ∈ result.2) :
      Leads p reads reads' (.error (.deferred deferrals), after) result

/-- The first recording leads the second, from whatever reads the two start. -/
def Agrees (p : α → Prop) (m m' : Recording α) : Prop :=
  ∀ reads reads', Leads p reads reads' (m.run reads) (m'.run reads')

variable {p : α → Prop} {q : β → Prop}

theorem agrees_pure {a : α} (h : p a) : Agrees p (pure a) (pure a) :=
  fun reads reads' => .ok _ h (adds_none reads) (adds_none reads')

theorem agrees_failWith (e e' : EvalError) : Agrees p (failWith e) (failWith e') :=
  fun reads reads' => .failed _ (adds_none reads) (adds_none reads')

theorem agrees_waiting (span : Span) (reason : DeferReason) (m : Recording α) :
    Agrees p (throw (.waiting span reason)) m :=
  fun reads _ => .waits _ (adds_none reads) fun _ h => h.elim

theorem agrees_record (key : Key) : Agrees (fun _ => True) (record key) (record key) := by
  intro reads reads'
  rw [run_record, run_record]
  refine .ok (fun other => other = key) trivial ?_ ?_
  · intro other
    rw [Sorted.mem_insert, or_comm]
  · intro other
    rw [Sorted.mem_insert, or_comm]

theorem agrees_settled {outcome outcome' : Except EvalError α}
    (h : ∀ a, outcome = .ok a ↔ outcome' = .ok a) :
    Agrees (fun a => outcome = .ok a) (settled outcome) (settled outcome') := by
  cases outcome with
  | ok a =>
    rw [(h a).1 rfl]
    exact agrees_pure rfl
  | error e =>
    cases outcome' with
    | ok a => cases (h a).2 rfl
    | error e' => exact agrees_failWith e e'

theorem Agrees.mono {p' : α → Prop} {m m' : Recording α} (h : Agrees p m m')
    (himp : ∀ reads a after, m.run reads = (.ok a, after) → p a → p' a) :
    Agrees p' m m' := by
  intro reads reads'
  have hlead := h reads reads'
  generalize hrun : m.run reads = result at hlead ⊢
  generalize m'.run reads' = result' at hlead ⊢
  cases hlead with
  | ok added hvalue hafter hafter' => exact .ok added (himp _ _ _ hrun hvalue) hafter hafter'
  | failed added hafter hafter' => exact .failed added hafter hafter'
  | waits added hafter hresult => exact .waits added hafter hresult

theorem Agrees.bind {m m' : Recording α} {f f' : α → Recording β}
    (hm : Agrees p m m')
    (hf : ∀ a, p a → Agrees q (f a) (f' a))
    (hgrows : ∀ a, (f' a).Grows) :
    Agrees q (m >>= f) (m' >>= f') := by
  intro reads reads'
  have hlead := hm reads reads'
  generalize hrun : m.run reads = result at hlead
  generalize hrun' : m'.run reads' = result' at hlead
  cases hlead with
  | @ok a after after' added hvalue hafter hafter' =>
    rw [run_bind_ok hrun, run_bind_ok hrun']
    have hnext := hf a hvalue after after'
    generalize (f a).run after = last at hnext ⊢
    generalize hlast' : (f' a).run after' = last' at hnext ⊢
    cases hnext with
    | ok more hb hmore hmore' => exact .ok _ hb (hafter.trans hmore) (hafter'.trans hmore')
    | failed more hmore hmore' => exact .failed _ (hafter.trans hmore) (hafter'.trans hmore')
    | waits more hmore hresult =>
      refine .waits _ (hafter.trans hmore) ?_
      rintro key (hkey | hkey)
      · have := hgrows a after' key ((hafter' key).2 (Or.inr hkey))
        rwa [hlast'] at this
      · exact hresult key hkey
  | failed added hafter hafter' =>
    rw [run_bind_error hrun, run_bind_error hrun']
    exact .failed added hafter hafter'
  | @waits deferrals after _ added hafter hresult =>
    rw [run_bind_error hrun]
    refine .waits added hafter fun key hkey => ?_
    have hmem := hresult key hkey
    obtain ⟨outcome', after'⟩ := result'
    cases outcome' with
    | ok a =>
      rw [run_bind_ok hrun']
      exact hgrows a after' key hmem
    | error i =>
      rw [run_bind_error hrun']
      exact hmem

end Recording

end Provision
