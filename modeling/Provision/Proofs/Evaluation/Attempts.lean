import Provision.Proofs.Evaluation.Remaking

/-!
# The attempts of a body

A body is a sequence of attempts at its items, pass after pass.  What every attempt
keeps, told by the attempts before it and the items still to be done, holds at the
end of a body that succeeds.  In particular each item succeeds exactly once, and what
deferred attempts leave alone is passed on from one success to the next.
-/

namespace Provision

open Retry (Settles)
open Rerun (machine)

variable {ι : Type} {run : ι → Step Unit} {items front rest : List ι} {i : ι}
variable {past : List (Progress × ι)} {p q : Progress}

namespace Step

/-! ## Attempts -/

/-- The attempts of a pass, each with the progress that it starts from. -/
def tries (run : ι → Step Unit) : Progress → List ι → List (Progress × ι)
  | _, [] => []
  | p, i :: rest =>
    (p, i) ::
      match (run i).attempt p with
      | .done q => tries run q rest
      | .waits q => tries run q rest
      | .fails => []

/-- The attempts of several passes, each over the items that the one before has left. -/
def history (run : ι → Step Unit) : (bound : Nat) → Progress → List ι → List (Progress × ι)
  | 0, _, _ => []
  | bound + 1, p, items =>
    tries run p items ++
      match (machine run).sweep items p with
      | some (rest, q) => if rest.length < items.length then history run bound q rest else []
      | none => []

/-- The attempts at the items of a body. -/
def attempts (run : ι → Step Unit) (p : Progress) (items : List ι) : List (Progress × ι) :=
  history run items.length p items

/-- Whether an attempt gets its item done. -/
def succeeds (run : ι → Step Unit) (attempt : Progress × ι) : Bool :=
  match (run attempt.2).attempt attempt.1 with
  | .done _ => true
  | _ => false

/-- The attempts that get their items done, in the order in which they do. -/
def successes (run : ι → Step Unit) (attempts : List (Progress × ι)) : List (Progress × ι) :=
  attempts.filter (succeeds run)

theorem succeeds_of_done (h : (run i).run p = (.ok (), q)) : succeeds run (p, i) = true := by
  unfold succeeds
  dsimp only
  rw [attempt_eq_done.2 h]

theorem succeeds_of_deferred {reasons : List Deferral}
    (h : (run i).run p = (.error (.deferred reasons), q)) :
    succeeds run (p, i) = false := by
  unfold succeeds
  dsimp only
  rw [attempt_eq_waits.2 ⟨reasons, h⟩]

theorem successes_append_done (h : (run i).run p = (.ok (), q)) :
    successes run (past ++ [(p, i)]) = successes run past ++ [(p, i)] := by
  unfold successes
  rw [List.filter_append, List.filter_singleton, succeeds_of_done h]
  rfl

theorem successes_append_deferred {reasons : List Deferral}
    (h : (run i).run p = (.error (.deferred reasons), q)) :
    successes run (past ++ [(p, i)]) = successes run past := by
  unfold successes
  rw [List.filter_append, List.filter_singleton, succeeds_of_deferred h]
  exact List.append_nil _

theorem history_nil (bound : Nat) : history run bound p [] = [] := by
  cases bound <;> rfl

theorem mem_of_tries {attempt : Progress × ι} (h : attempt ∈ tries run p items) :
    attempt.2 ∈ items := by
  induction items generalizing p with
  | nil => cases h
  | cons i rest ih =>
    rw [tries] at h
    rcases List.mem_cons.1 h with rfl | h
    · exact List.mem_cons_self
    · refine List.mem_cons_of_mem _ ?_
      split at h
      · exact ih h
      · exact ih h
      · cases h

theorem mem_of_history {bound : Nat} {attempt : Progress × ι}
    (h : attempt ∈ history run bound p items) :
    attempt.2 ∈ items := by
  induction bound generalizing p items with
  | zero => cases h
  | succ bound ih =>
    rw [history] at h
    rcases List.mem_append.1 h with h | h
    · exact mem_of_tries h
    · split at h
      · next rest q hsweep =>
        split at h
        · exact Retry.sweep_subset hsweep (ih h)
        · cases h
      · cases h

theorem mem_of_attempts {attempt : Progress × ι} (h : attempt ∈ attempts run p items) :
    attempt.2 ∈ items :=
  mem_of_history h

/-! ## What every attempt keeps -/

section Keeping

variable (inv : List (Progress × ι) → Progress → List ι → Prop)
  (hdone : ∀ past p front i back q, inv past p (front ++ i :: back) →
    (run i).run p = (.ok (), q) → inv (past ++ [(p, i)]) q (front ++ back))
  (hdeferred : ∀ past p front i back reasons q, inv past p (front ++ i :: back) →
    (run i).run p = (.error (.deferred reasons), q) →
      inv (past ++ [(p, i)]) q (front ++ i :: back))

include hdone hdeferred

theorem pass_keeps (front : List ι) (h : inv past p (front ++ items))
    (hsweep : (machine run).sweep items p = some (rest, q)) :
    inv (past ++ tries run p items) q (front ++ rest) := by
  induction items generalizing past p front rest with
  | nil =>
    cases hsweep
    rwa [tries, List.append_nil]
  | cons i items ih =>
    have hattempt : (machine run).attempt i p = (run i).attempt p := rfl
    rw [Retry.Machine.sweep, hattempt] at hsweep
    rw [tries, List.append_cons]
    cases htried : (run i).attempt p with
    | done u =>
      rw [htried] at hsweep
      exact ih front (hdone _ _ _ _ _ _ h (attempt_eq_done.1 htried)) hsweep
    | waits u =>
      rw [htried] at hsweep
      obtain ⟨reasons, hrun⟩ := attempt_eq_waits.1 htried
      obtain ⟨⟨later, last⟩, hswept, heq⟩ := Option.map_eq_some_iff.1 hsweep
      cases heq
      have hnext : inv (past ++ [(p, i)]) u (front ++ [i] ++ items) := by
        rw [← List.append_cons]
        exact hdeferred _ _ _ _ _ _ _ h hrun
      rw [List.append_cons front i later]
      exact ih (front ++ [i]) hnext hswept
    | fails =>
      rw [htried] at hsweep
      cases hsweep

theorem settles_keeps (h : Settles (machine run) items p q) {bound : Nat}
    (hbound : items.length ≤ bound) (past : List (Progress × ι)) (hinv : inv past p items) :
    inv (past ++ history run bound p items) q [] := by
  induction h generalizing bound past with
  | @last items p q hsweep =>
    cases bound with
    | zero =>
      obtain rfl := List.length_eq_zero_iff.1 (Nat.le_zero.1 hbound)
      cases hsweep
      rwa [history_nil, List.append_nil]
    | succ bound =>
      rw [history, hsweep]
      dsimp only
      rw [history_nil, ite_self, List.append_nil]
      exact pass_keeps inv hdone hdeferred [] hinv hsweep
  | @again items rest p u q hsweep hrest hless _ ih =>
    cases bound with
    | zero => omega
    | succ bound =>
      rw [history, hsweep]
      dsimp only
      rw [if_pos hless, ← List.append_assoc]
      exact ih (by omega) _ (pass_keeps inv hdone hdeferred [] hinv hsweep)

/-- What every attempt keeps holds after a whole body that succeeds. -/
theorem body_keeps (h : inv [] p items)
    (hrun : (Step.body (items.map run)).run p = (.ok (), q)) :
    inv (attempts run p items) q [] := by
  have hkeeps {u : Progress} (hsettles : Settles (machine run) items p u) :=
    settles_keeps inv hdone hdeferred hsettles (Nat.le_refl _) [] h
  rcases Retry.settles_or_breaks_or_stalls (machine run) items p with
    ⟨u, hsettles⟩ | hbreaks | ⟨left, u, hstalls⟩
  · rw [body_of_settles hsettles] at hrun
    cases hrun
    exact hkeeps hsettles
  · obtain ⟨e, u, hbroken⟩ := body_of_breaks hbreaks
    rw [hbroken] at hrun
    cases hrun
  · obtain ⟨reasons, hstalled⟩ := body_of_stalls hstalls
    rw [hstalled] at hrun
    cases hrun

end Keeping

/-- Each item of a body that succeeds gets done exactly once. -/
theorem successes_perm (hrun : (Step.body (items.map run)).run p = (.ok (), q)) :
    ((successes run (attempts run p items)).map Prod.snd).Perm items := by
  have hkeeps := body_keeps (fun past _ rest =>
    ((successes run past).map Prod.snd ++ rest).Perm items) ?_ ?_ (List.Perm.refl items) hrun
  · rwa [List.append_nil] at hkeeps
  · intro past p front i back q hperm hdone
    rw [successes_append_done hdone, List.map_append, List.append_assoc, List.map_singleton,
      List.singleton_append]
    exact (List.Perm.append_left _ List.perm_middle.symm).trans hperm
  · intro past p front i back reasons q hperm hdeferred
    rwa [successes_append_deferred hdeferred]

/-- What does not get done in a body that succeeds is deferred. -/
theorem deferred_of_not_succeeds (hrun : (Step.body (items.map run)).run p = (.ok (), q))
    {attempt : Progress × ι} (hattempt : attempt ∈ attempts run p items)
    (h : succeeds run attempt ≠ true) :
    ∃ reasons after, (run attempt.2).run attempt.1 = (.error (.deferred reasons), after) := by
  have hkeeps := body_keeps (fun past _ _ => ∀ attempt ∈ past, succeeds run attempt ≠ true →
    ∃ reasons after, (run attempt.2).run attempt.1 = (.error (.deferred reasons), after))
    ?_ ?_ (fun _ hnone => nomatch hnone) hrun
  · exact hkeeps attempt hattempt h
  · intro past p front i back q hpast hdone attempt hattempt h
    rcases List.mem_append.1 hattempt with hattempt | hattempt
    · exact hpast attempt hattempt h
    · obtain rfl := List.mem_singleton.1 hattempt
      exact (h (succeeds_of_done hdone)).elim
  · intro past p front i back reasons q hpast hdeferred attempt hattempt h
    rcases List.mem_append.1 hattempt with hattempt | hattempt
    · exact hpast attempt hattempt h
    · obtain rfl := List.mem_singleton.1 hattempt
      exact ⟨reasons, q, hdeferred⟩

/-! ## What is seen of the progress -/

section Seeing

variable {β : Type} {seen : Progress → β} {a b c : β} {first second : List (Progress × ι)}

/-- Each success in turn starts from where as much is seen as the one before has left. -/
inductive Linked (run : ι → Step Unit) (seen : Progress → β) : β → List (Progress × ι) → β → Prop
  | nil {b : β} : Linked run seen b [] b
  | cons {p q : Progress} {i : ι} {rest : List (Progress × ι)} {c : β}
      (hrun : (run i).run p = (.ok (), q)) (hrest : Linked run seen (seen q) rest c) :
      Linked run seen (seen p) ((p, i) :: rest) c

theorem linked_append :
    Linked run seen a (first ++ second) c ↔
      ∃ b, Linked run seen a first b ∧ Linked run seen b second c := by
  induction first generalizing a with
  | nil =>
    constructor
    · exact fun h => ⟨a, .nil, h⟩
    · rintro ⟨b, h, hrest⟩
      cases h
      exact hrest
  | cons attempt rest ih =>
    constructor
    · intro h
      cases h with
      | cons hrun hrest =>
        obtain ⟨b, hfirst, hsecond⟩ := ih.1 hrest
        exact ⟨b, .cons hrun hfirst, hsecond⟩
    · rintro ⟨b, h, hsecond⟩
      cases h with
      | cons hrun hrest => exact .cons hrun (ih.2 ⟨b, hrest, hsecond⟩)

/-- What no success changes is seen at the end as at the start. -/
theorem Linked.eq_of_left (h : Linked run seen a first b)
    (hleft : ∀ attempt ∈ first, seen ((run attempt.2).run attempt.1).2 = seen attempt.1) :
    b = a := by
  induction first generalizing a with
  | nil =>
    cases h
    rfl
  | cons attempt rest ih =>
    cases h with
    | @cons p q i _ _ hrun hrest =>
      have hfirst := hleft (p, i) List.mem_cons_self
      dsimp only at hfirst
      rw [hrun] at hfirst
      exact (ih hrest fun other hother => hleft other (List.mem_cons_of_mem _ hother)).trans hfirst

/-- What only two of the successes change is seen by the first as at the start, and is passed on from
the first to the second and from the second to the end. -/
theorem Linked.of_two {before between after : List (Progress × ι)} {j : ι}
    (h : Linked run seen a (before ++ (p, i) :: (between ++ (q, j) :: after)) c)
    (hleft : ∀ attempt ∈ before ++ between ++ after,
      seen ((run attempt.2).run attempt.1).2 = seen attempt.1) :
    ∃ p' q', (run i).run p = (.ok (), p') ∧ (run j).run q = (.ok (), q') ∧
      seen p = a ∧ seen q = seen p' ∧ c = seen q' := by
  obtain ⟨b, hbefore, hfirst⟩ := linked_append.1 h
  obtain rfl := hbefore.eq_of_left fun attempt hattempt => hleft attempt (by simp [hattempt])
  cases hfirst with
  | @cons _ p' _ _ _ hrun hrest =>
    obtain ⟨b, hbetween, hsecond⟩ := linked_append.1 hrest
    have hb := hbetween.eq_of_left fun attempt hattempt => hleft attempt (by simp [hattempt])
    cases hsecond with
    | @cons _ q' _ _ _ hrun' hafter =>
      exact ⟨p', q', hrun, hrun', rfl, hb, hafter.eq_of_left fun attempt hattempt =>
        hleft attempt (by simp [hattempt])⟩

/-- When deferred attempts change nothing of what is seen, the successes of a body are linked. -/
theorem linked_of_body
    (hdeferred : ∀ attempt ∈ attempts run p items, ∀ reasons q,
      (run attempt.2).run attempt.1 = (.error (.deferred reasons), q) → seen q = seen attempt.1)
    (hrun : (Step.body (items.map run)).run p = (.ok (), q)) :
    Linked run seen (seen p) (successes run (attempts run p items)) (seen q) := by
  have hkeeps := body_keeps (fun past last _ =>
    (∀ attempt ∈ past, ∀ reasons q,
      (run attempt.2).run attempt.1 = (.error (.deferred reasons), q) → seen q = seen attempt.1) →
    Linked run seen (seen p) (successes run past) (seen last)) ?_ ?_ (fun _ => .nil) hrun
  · exact hkeeps hdeferred
  · intro past p' front i back q hlinked hdone hleft
    rw [successes_append_done hdone]
    exact linked_append.2 ⟨_, hlinked fun attempt hattempt =>
      hleft attempt (List.mem_append_left _ hattempt), .cons hdone .nil⟩
  · intro past p' front i back reasons q hlinked hrun hleft
    rw [successes_append_deferred hrun, hleft (p', i) (by simp) reasons q hrun]
    exact hlinked fun attempt hattempt => hleft attempt (List.mem_append_left _ hattempt)

end Seeing

/-! ## The first pass -/

theorem items_of_tries (h : (machine run).sweep items p = some (rest, q)) :
    (tries run p items).map Prod.snd = items := by
  induction items generalizing p q rest with
  | nil => rfl
  | cons i items ih =>
    have hattempt : (machine run).attempt i p = (run i).attempt p := rfl
    rw [Retry.Machine.sweep, hattempt] at h
    rw [tries, List.map_cons]
    cases htried : (run i).attempt p with
    | done u =>
      rw [htried] at h
      exact congrArg (i :: ·) (ih h)
    | waits u =>
      rw [htried] at h
      obtain ⟨⟨later, last⟩, hswept, -⟩ := Option.map_eq_some_iff.1 h
      exact congrArg (i :: ·) (ih hswept)
    | fails =>
      rw [htried] at h
      cases h

/-- A body that succeeds tries its items in their order before it tries any of them again. -/
theorem tries_items_first (hrun : (Step.body (items.map run)).run p = (.ok (), q)) :
    items <+: (attempts run p items).map Prod.snd := by
  cases hsweep : (machine run).sweep items p with
  | none =>
    obtain ⟨e, u, hbroken⟩ := body_of_breaks (Retry.Breaks.now hsweep)
    rw [hbroken] at hrun
    cases hrun
  | some swept =>
    cases items with
    | nil => exact List.nil_prefix
    | cons i items =>
      unfold attempts
      rw [List.length_cons, history, List.map_append, items_of_tries hsweep]
      exact List.prefix_append _ _

/-- An item that stands in front and gets done after one that stands behind has been deferred. -/
theorem deferred_before {back : List ι} {j : ι} {t : Progress} {before later : List (Progress × ι)}
    (hrun : (Step.body ((front ++ back).map run)).run p = (.ok (), q)) (hi : i ∈ front)
    (hj : j ∉ front)
    (hdone : successes run (attempts run p (front ++ back)) = before ++ (t, j) :: later)
    (hbefore : ∀ attempt ∈ before, attempt.2 ≠ i) :
    ∃ u reasons after, (u, i) ∈ attempts run p (front ++ back) ∧
      (run i).run u = (.error (.deferred reasons), after) := by
  obtain ⟨first, second, hattempts, hfirst, hsecond⟩ := List.filter_eq_append_iff.1 hdone
  obtain ⟨waiting, rest, rfl, hwaiting, -, -⟩ := List.filter_eq_cons_iff.1 hsecond
  -- all that stands in front is tried before the attempt that gets the other item done
  have hfront : front <+: (first ++ waiting).map Prod.snd := by
    have hitems := (List.prefix_append front back).trans (tries_items_first hrun)
    rw [hattempts, ← List.append_assoc, List.map_append, List.map_cons] at hitems
    rcases List.prefix_or_prefix_of_prefix hitems (List.prefix_append _ _) with h | ⟨tail, htail⟩
    · exact h
    · cases tail with
      | nil =>
        rw [List.append_nil] at htail
        exact htail ▸ List.prefix_rfl
      | cons k tail =>
        rw [← htail, List.prefix_append_right_inj, List.cons_prefix_cons] at hitems
        rw [← htail, hitems.1] at hj
        exact (hj (List.mem_append_right _ List.mem_cons_self)).elim
  obtain ⟨⟨u, i⟩, hattempt, rfl⟩ := List.mem_map.1 (hfront.subset hi)
  have hmem : (u, i) ∈ attempts run p (front ++ back) := by
    rw [hattempts, ← List.append_assoc]
    exact List.mem_append_left _ hattempt
  obtain ⟨reasons, after, hdeferred⟩ := deferred_of_not_succeeds hrun hmem fun hsucceeds => by
    rcases List.mem_append.1 hattempt with hattempt | hattempt
    · exact hbefore (u, i) (hfirst ▸ List.mem_filter.2 ⟨hattempt, hsucceeds⟩) rfl
    · exact hwaiting (u, i) hattempt hsucceeds
  exact ⟨u, reasons, after, hmem, hdeferred⟩

end Step

end Provision
