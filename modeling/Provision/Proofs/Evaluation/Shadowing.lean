import Provision.Proofs.Evaluation.Retrying

/-!
# Passes over the same items from two states

Two machines try the same items, the second in a state where more may be there.
Each item that is done by the first is done by the second as well.  One that waits
waits for both, or it is stuck: then the first machine never gets it done, so that
its passes do not settle.
-/

namespace Provision.Retry

variable {ι σ τ φ : Type}

/-- Wherever the machine stands, it does not get the item done. -/
def Stuck (m : Machine ι σ φ) (Stands : σ → Prop) (i : ι) : Prop :=
  ∀ s, Stands s → ∀ t, m.attempt i s ≠ .done t

/-- The second machine does what the first one does, from a state near that of the first.  If it is
faithful, it also waits where the first one has to wait. -/
structure Shadows (m : Machine ι σ φ) (m' : Machine ι τ φ) (faithful : Prop) (Stands : σ → Prop)
    (Near : σ → τ → Prop) (items : List ι) : Prop where
  stands : ∀ {s t}, Near s t → Stands s
  exists_near : ∀ {s}, Stands s → ∃ t, Near s t
  next : ∀ {s t} rest, Near s t → Near (m.next rest s) (m'.next rest t)
  done : ∀ {i s t u}, i ∈ items → Near s t → m.attempt i s = .done u →
    ∃ v, m'.attempt i t = .done v ∧ Near u v
  waits : ∀ {i s t u}, i ∈ items → Near s t → m.attempt i s = .waits u →
    Stands u ∧ ((∃ v, m'.attempt i t = .waits v ∧ Near u v) ∨ ¬ faithful ∧ Stuck m Stands i)

section Shadows

variable {m : Machine ι σ φ} {m' : Machine ι τ φ} {faithful : Prop} {Stands : σ → Prop}
variable {Near : σ → τ → Prop} {items rest : List ι} {s u : σ} {t : τ}

theorem sweep_subset (h : m.sweep items s = some (rest, u)) : rest ⊆ items := by
  induction items generalizing rest s with
  | nil =>
    cases h
    exact List.Subset.refl _
  | cons i items ih =>
    rw [Machine.sweep] at h
    split at h
    · exact List.subset_cons_of_subset _ (ih h)
    · obtain ⟨swept, hswept, heq⟩ := Option.map_eq_some_iff.1 h
      cases heq
      exact List.cons_subset_cons _ (ih hswept)
    · cases h

theorem Shadows.of_subset (h : Shadows m m' faithful Stands Near items) (hsubset : rest ⊆ items) :
    Shadows m m' faithful Stands Near rest :=
  ⟨h.stands, h.exists_near, h.next, fun hi => h.done (hsubset hi), fun hi => h.waits (hsubset hi)⟩

/-- After a pass the first machine still stands, and the second has made the same pass, unless an
item is stuck. -/
theorem Shadows.sweep (h : Shadows m m' faithful Stands Near items) (hnear : Near s t)
    (hsweep : m.sweep items s = some (rest, u)) :
    Stands u ∧ (∀ i ∈ items, Stuck m Stands i → i ∈ rest) ∧
      ((∃ v, m'.sweep items t = some (rest, v) ∧ Near u v) ∨
        ¬ faithful ∧ ∃ i ∈ rest, Stuck m Stands i) := by
  induction items generalizing rest s t with
  | nil =>
    cases hsweep
    exact ⟨h.stands hnear, fun i hi => absurd hi List.not_mem_nil, Or.inl ⟨t, rfl, hnear⟩⟩
  | cons i items ih =>
    have hrest := h.of_subset (List.subset_cons_self i items)
    rw [Machine.sweep] at hsweep
    cases hattempt : m.attempt i s with
    | done between =>
      rw [hattempt] at hsweep
      obtain ⟨between', hattempt', hnear'⟩ := h.done List.mem_cons_self hnear hattempt
      obtain ⟨hstands, hstuck, hswept⟩ := ih hrest hnear' hsweep
      refine ⟨hstands, fun other hother hothers => ?_, ?_⟩
      · rcases List.mem_cons.1 hother with rfl | hother
        · exact absurd hattempt (hothers s (h.stands hnear) between)
        · exact hstuck other hother hothers
      · rw [Machine.sweep, hattempt']
        exact hswept
    | waits between =>
      rw [hattempt] at hsweep
      obtain ⟨⟨later, last⟩, hlater, heq⟩ := Option.map_eq_some_iff.1 hsweep
      cases heq
      obtain ⟨hbetween, ⟨between', hattempt', hnear'⟩ | ⟨hfaithful, hself⟩⟩ :=
        h.waits List.mem_cons_self hnear hattempt
      · obtain ⟨hstands, hstuck, hswept⟩ := ih hrest hnear' hlater
        refine ⟨hstands, fun other hother hothers => ?_, ?_⟩
        · exact List.mem_cons.2 ((List.mem_cons.1 hother).imp_right
            fun hother => hstuck other hother hothers)
        · rcases hswept with ⟨v, hv, hnear''⟩ | ⟨hfaithful, other, hother, hothers⟩
          · refine Or.inl ⟨v, ?_, hnear''⟩
            rw [Machine.sweep, hattempt']
            exact Option.map_eq_some_iff.2 ⟨(later, v), hv, rfl⟩
          · exact Or.inr ⟨hfaithful, other, List.mem_cons_of_mem _ hother, hothers⟩
      · -- the second machine may be somewhere else now, but the first one still stands
        obtain ⟨aside, hnear'⟩ := h.exists_near hbetween
        obtain ⟨hstands, hstuck, -⟩ := ih hrest hnear' hlater
        refine ⟨hstands, fun other hother hothers => ?_, ?_⟩
        · exact List.mem_cons.2 ((List.mem_cons.1 hother).imp_right
            fun hother => hstuck other hother hothers)
        · exact Or.inr ⟨hfaithful, i, List.mem_cons_self, hself⟩
    | fails =>
      rw [hattempt] at hsweep
      cases hsweep

/-- Passes do not settle while an item is stuck. -/
theorem Shadows.not_settles (h : Shadows m m' faithful Stands Near items) (hnear : Near s t)
    {i : ι} (hi : i ∈ items) (hstuck : Stuck m Stands i) :
    ¬ Settles m items s u := by
  intro hsettles
  induction hsettles generalizing t with
  | last hsweep =>
    obtain ⟨-, hleft, -⟩ := h.sweep hnear hsweep
    exact absurd (hleft i hi hstuck) List.not_mem_nil
  | again hsweep _ _ _ ih =>
    obtain ⟨hstands, hleft, -⟩ := h.sweep hnear hsweep
    obtain ⟨aside, haside⟩ := h.exists_near hstands
    exact ih (h.of_subset (sweep_subset hsweep)) (h.next _ haside) (hleft i hi hstuck)

/-- When the passes of the first machine settle, so do those of the second. -/
theorem Shadows.settles (h : Shadows m m' faithful Stands Near items) (hnear : Near s t)
    (hsettles : Settles m items s u) :
    ∃ v, Settles m' items t v ∧ Near u v := by
  induction hsettles generalizing t with
  | last hsweep =>
    obtain ⟨-, -, ⟨v, hsweep', hnear'⟩ | ⟨-, i, hi, -⟩⟩ := h.sweep hnear hsweep
    · exact ⟨v, .last hsweep', hnear'⟩
    · exact absurd hi List.not_mem_nil
  | again hsweep hrest hless hlater ih =>
    have hleft := h.of_subset (sweep_subset hsweep)
    obtain ⟨hstands, -, ⟨v, hsweep', hnear'⟩ | ⟨-, i, hi, hstuck⟩⟩ := h.sweep hnear hsweep
    · obtain ⟨last, hlast, hend⟩ := ih hleft (h.next _ hnear')
      exact ⟨last, .again hsweep' hrest hless hlast, hend⟩
    · obtain ⟨aside, haside⟩ := h.exists_near hstands
      exact absurd hlater (hleft.not_settles (h.next _ haside) hi hstuck)

/-- When the passes of the first machine stall, it still stands, and a faithful machine stalls with
it. -/
theorem Shadows.stalls (h : Shadows m m' faithful Stands Near items) (hnear : Near s t)
    (hstalls : Stalls m items s rest u) :
    Stands u ∧ (faithful → ∃ v, Stalls m' items t rest v ∧ Near u v) := by
  induction hstalls generalizing t with
  | now hsweep hrest hsame =>
    obtain ⟨hstands, -, ⟨v, hsweep', hnear'⟩ | ⟨hfaithful, -⟩⟩ := h.sweep hnear hsweep
    · exact ⟨hstands, fun _ => ⟨v, .now hsweep' hrest hsame, hnear'⟩⟩
    · exact ⟨hstands, fun hyes => absurd hyes hfaithful⟩
  | later hsweep hrest hless _ ih =>
    have hleft := h.of_subset (sweep_subset hsweep)
    obtain ⟨hstands, -, ⟨v, hsweep', hnear'⟩ | ⟨hfaithful, -⟩⟩ := h.sweep hnear hsweep
    · obtain ⟨hlast, hagain⟩ := ih hleft (h.next _ hnear')
      refine ⟨hlast, fun hyes => ?_⟩
      obtain ⟨last, hstalls, hend⟩ := hagain hyes
      exact ⟨last, .later hsweep' hrest hless hstalls, hend⟩
    · obtain ⟨aside, haside⟩ := h.exists_near hstands
      exact ⟨(ih hleft (h.next _ haside)).1, fun hyes => absurd hyes hfaithful⟩

end Shadows

end Provision.Retry
