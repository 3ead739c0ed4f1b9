/-!
# Trying items again until nothing is left

Statements are tried in passes: each is done, waits or fails, and those that
wait are tried again while every pass gets some of them done.  What is known
only grows.  When an item never takes back what it says as more becomes known,
the order of the items decides neither whether all of them get done nor what is
known in the end.
-/

namespace Provision.Retry

variable {ι κ σ φ : Type}

/-- What comes of trying an item. -/
inductive Attempt (σ : Type) where
  | done (state : σ)
  | waits (state : σ)
  | fails

/-- What an item says of a state. -/
inductive Verdict (φ : Type) where
  | yields (fact : φ)
  | waits
  | fails

/-- A verdict whose fact is put in other words. -/
def Verdict.map {ψ : Type} (f : φ → ψ) : Verdict φ → Verdict ψ
  | .yields fact => .yields (f fact)
  | .waits => .waits
  | .fails => .fails

theorem Verdict.map_eq_yields {ψ : Type} {f : φ → ψ} {verdict : Verdict φ} {fact : ψ} :
    verdict.map f = .yields fact ↔ ∃ found, verdict = .yields found ∧ fact = f found := by
  cases verdict with
  | yields found =>
    constructor
    · intro h
      cases h
      exact ⟨found, rfl, rfl⟩
    · rintro ⟨other, hother, rfl⟩
      cases hother
      rfl
  | waits => simp [Verdict.map]
  | fails => simp [Verdict.map]

theorem Verdict.map_eq_waits {ψ : Type} {f : φ → ψ} {verdict : Verdict φ} :
    verdict.map f = .waits ↔ verdict = .waits := by
  cases verdict <;> simp [Verdict.map]

theorem Verdict.map_eq_fails {ψ : Type} {f : φ → ψ} {verdict : Verdict φ} :
    verdict.map f = .fails ↔ verdict = .fails := by
  cases verdict <;> simp [Verdict.map]

/-- How items are tried, and what happens between two passes. -/
structure Machine (ι σ φ : Type) where
  attempt : ι → σ → Attempt σ
  next : List ι → σ → σ
  verdict : ι → σ → Verdict φ

/-! ## Passes -/

/-- Tries every item once.  Gives back those that wait, or nothing when one fails. -/
def Machine.sweep (m : Machine ι σ φ) : List ι → σ → Option (List ι × σ)
  | [], s => some ([], s)
  | i :: items, s =>
    match m.attempt i s with
    | .done s => m.sweep items s
    | .waits s => (m.sweep items s).map fun swept => (i :: swept.1, swept.2)
    | .fails => none

/-- All items get done. -/
inductive Settles (m : Machine ι σ φ) : List ι → σ → σ → Prop
  | last {items : List ι} {s t : σ} (h : m.sweep items s = some ([], t)) : Settles m items s t
  | again {items rest : List ι} {s u t : σ} (h : m.sweep items s = some (rest, u))
      (hrest : rest ≠ []) (hless : rest.length < items.length)
      (hlater : Settles m rest (m.next rest u) t) : Settles m items s t

/-- Some item fails. -/
inductive Breaks (m : Machine ι σ φ) : List ι → σ → Prop
  | now {items : List ι} {s : σ} (h : m.sweep items s = none) : Breaks m items s
  | later {items rest : List ι} {s u : σ} (h : m.sweep items s = some (rest, u))
      (hrest : rest ≠ []) (hless : rest.length < items.length)
      (hlater : Breaks m rest (m.next rest u)) : Breaks m items s

/-- A pass gets nothing done although items are left. -/
inductive Stalls (m : Machine ι σ φ) : List ι → σ → List ι → σ → Prop
  | now {items rest : List ι} {s t : σ} (h : m.sweep items s = some (rest, t))
      (hrest : rest ≠ []) (hsame : rest.length = items.length) : Stalls m items s rest t
  | later {items rest left : List ι} {s u t : σ} (h : m.sweep items s = some (rest, u))
      (hrest : rest ≠ []) (hless : rest.length < items.length)
      (hlater : Stalls m rest (m.next rest u) left t) : Stalls m items s left t

theorem sweep_length (m : Machine ι σ φ) {items rest : List ι} {s t : σ}
    (h : m.sweep items s = some (rest, t)) :
    rest.length ≤ items.length := by
  induction items generalizing rest s with
  | nil =>
    cases h
    exact Nat.le_refl 0
  | cons i items ih =>
    rw [Machine.sweep] at h
    split at h
    · exact Nat.le_succ_of_le (ih h)
    · obtain ⟨swept, hswept, heq⟩ := Option.map_eq_some_iff.1 h
      cases heq
      exact Nat.succ_le_succ (ih hswept)
    · cases h

/-- Passes come to an end in one of three ways. -/
theorem settles_or_breaks_or_stalls (m : Machine ι σ φ) (items : List ι) (s : σ) :
    (∃ t, Settles m items s t) ∨ Breaks m items s ∨ ∃ rest t, Stalls m items s rest t := by
  generalize hn : items.length = n
  induction n using Nat.strongRecOn generalizing items s with
  | ind n ih =>
    cases hsweep : m.sweep items s with
    | none => exact Or.inr (Or.inl (.now hsweep))
    | some swept =>
      obtain ⟨rest, u⟩ := swept
      by_cases hrest : rest = []
      · subst hrest
        exact Or.inl ⟨u, .last hsweep⟩
      · rcases Nat.lt_or_eq_of_le (sweep_length m hsweep) with hless | hsame
        · rcases ih rest.length (hn ▸ hless) rest (m.next rest u) rfl with
            ⟨t, h⟩ | h | ⟨left, t, h⟩
          · exact Or.inl ⟨t, .again hsweep hrest hless h⟩
          · exact Or.inr (Or.inl (.later hsweep hrest hless h))
          · exact Or.inr (Or.inr ⟨left, t, .later hsweep hrest hless h⟩)
        · exact Or.inr (Or.inr ⟨rest, u, .now hsweep hrest hsame⟩)

/-! ## Machines that only learn -/

/-- Everything known in the first state is known in the second. -/
def Below (holds : σ → φ → Prop) (s t : σ) : Prop :=
  ∀ fact, holds s fact → holds t fact

theorem Below.refl {holds : σ → φ → Prop} (s : σ) : Below holds s s :=
  fun _ h => h

theorem Below.trans {holds : σ → φ → Prop} {s t u : σ}
    (hst : Below holds s t) (htu : Below holds t u) :
    Below holds s u :=
  fun fact h => htu fact (hst fact h)

/-- Trying an item does what its verdict says, and verdicts on known facts are never taken back.
The invariant speaks of the items that are left and of the state. -/
structure Lawful (m : Machine ι σ φ) (holds : σ → φ → Prop) (all : List ι)
    (inv : List ι → σ → Prop) : Prop where
  mem : ∀ {items s}, inv items s → ∀ i ∈ items, i ∈ all
  done : ∀ {front i back s fact}, inv (front ++ i :: back) s → m.verdict i s = .yields fact →
    ∃ t, m.attempt i s = .done t ∧ inv (front ++ back) t ∧
      ∀ other, holds t other ↔ holds s other ∨ other = fact
  waits : ∀ {items i s}, inv items s → i ∈ items → m.verdict i s = .waits →
    ∃ t, m.attempt i s = .waits t ∧ inv items t ∧ ∀ other, holds t other ↔ holds s other
  fails : ∀ {items i s}, inv items s → i ∈ items → m.verdict i s = .fails →
    m.attempt i s = .fails
  next : ∀ {items s}, inv items s →
    inv items (m.next items s) ∧ ∀ other, holds (m.next items s) other ↔ holds s other
  yields_stable : ∀ {items left i s t fact}, inv items s → inv left t → Below holds s t →
    i ∈ all → m.verdict i s = .yields fact → m.verdict i t = .yields fact
  fails_stable : ∀ {items left i s t}, inv items s → inv left t → Below holds s t →
    i ∈ all → m.verdict i s = .fails → m.verdict i t = .fails

/-- A state in which the listed items are left and the others are done. -/
structure Stage (m : Machine ι σ φ) (holds : σ → φ → Prop) (all : List ι)
    (inv : List ι → σ → Prop) (items : List ι) (s : σ) : Prop where
  here : inv items s
  settled : ∀ i ∈ all, i ∈ items ∨ ∃ fact, m.verdict i s = .yields fact ∧ holds s fact

/-- A set of facts that holds whatever an item yields in a state below it. -/
def Absorbs (m : Machine ι σ φ) (holds : σ → φ → Prop) (all : List ι)
    (inv : List ι → σ → Prop) (goal : φ → Prop) : Prop :=
  ∀ {items i s fact}, inv items s → (∀ other, holds s other → goal other) → i ∈ all →
    m.verdict i s = .yields fact → goal fact

section Runs

variable {m : Machine ι σ φ} {holds : σ → φ → Prop} {all : List ι} {inv : List ι → σ → Prop}

theorem Stage.start {s : σ} (h : inv all s) : Stage m holds all inv all s :=
  ⟨h, fun _ hi => Or.inl hi⟩

theorem Stage.of_inv (hm : Lawful m holds all inv) {items left : List ι} {s t : σ}
    (h : Stage m holds all inv items s)
    (hinv : inv left t)
    (hbelow : Below holds s t)
    (hleft : ∀ i ∈ items, i ∈ left ∨ ∃ fact, m.verdict i s = .yields fact ∧ holds t fact) :
    Stage m holds all inv left t := by
  refine ⟨hinv, ?_⟩
  intro i hi
  rcases h.settled i hi with hmem | ⟨fact, hyields, hfact⟩
  · rcases hleft i hmem with hmem | ⟨fact, hyields, hfact⟩
    · exact Or.inl hmem
    · exact Or.inr ⟨fact, hm.yields_stable h.here hinv hbelow hi hyields, hfact⟩
  · exact Or.inr ⟨fact, hm.yields_stable h.here hinv hbelow hi hyields, hbelow fact hfact⟩

theorem waits_of_below (hm : Lawful m holds all inv) {items left : List ι} {i : ι} {s t : σ}
    (hs : inv items s)
    (ht : inv left t)
    (hbelow : Below holds t s)
    (hi : i ∈ all)
    (hwaits : m.verdict i s = .waits) :
    m.verdict i t = .waits := by
  cases hverdict : m.verdict i t with
  | yields fact =>
    rw [hm.yields_stable ht hs hbelow hi hverdict] at hwaits
    cases hwaits
  | waits => rfl
  | fails =>
    rw [hm.fails_stable ht hs hbelow hi hverdict] at hwaits
    cases hwaits

/-- What a pass without a failure leads to. -/
structure Swept (m : Machine ι σ φ) (holds : σ → φ → Prop) (all : List ι)
    (inv : List ι → σ → Prop) (front items rest : List ι) (s t : σ) : Prop where
  stage : Stage m holds all inv (front ++ rest) t
  below : Below holds s t
  bounded : ∀ goal, Absorbs m holds all inv goal → (∀ fact, holds s fact → goal fact) →
    ∀ fact, holds t fact → goal fact
  idle : rest.length = items.length →
    Below holds t s ∧ ∀ i ∈ rest, m.verdict i t = .waits

/-- An item that fails on the way. -/
structure Broken (m : Machine ι σ φ) (holds : σ → φ → Prop) (all : List ι)
    (inv : List ι → σ → Prop) (s : σ) (i : ι) (items : List ι) (u : σ) : Prop where
  here : inv items u
  mem : i ∈ all
  fails : m.verdict i u = .fails
  bounded : ∀ goal, Absorbs m holds all inv goal → (∀ fact, holds s fact → goal fact) →
    ∀ fact, holds u fact → goal fact

/-- A pass over the items behind those that already wait. -/
theorem sweep_swept (hm : Lawful m holds all inv) (front : List ι) {items rest : List ι} {s t : σ}
    (h : Stage m holds all inv (front ++ items) s)
    (hsweep : m.sweep items s = some (rest, t)) :
    Swept m holds all inv front items rest s t := by
  induction items generalizing front rest s with
  | nil =>
    cases hsweep
    exact ⟨h, .refl _, fun _ _ hgoal => hgoal, fun _ => ⟨.refl _, fun i hi => nomatch hi⟩⟩
  | cons i items ih =>
    have hi : i ∈ all := hm.mem h.here i (by simp)
    rw [Machine.sweep] at hsweep
    cases hverdict : m.verdict i s with
    | yields fact =>
      obtain ⟨u, hattempt, hinv, hu⟩ := hm.done h.here hverdict
      rw [hattempt] at hsweep
      have hbelow : Below holds s u := fun other hother => (hu other).2 (Or.inl hother)
      have hstage : Stage m holds all inv (front ++ items) u := by
        refine h.of_inv hm hinv hbelow ?_
        intro j hj
        rcases List.mem_append.1 hj with hj | hj
        · exact Or.inl (List.mem_append_left _ hj)
        · rcases List.mem_cons.1 hj with rfl | hj
          · exact Or.inr ⟨fact, hverdict, (hu fact).2 (Or.inr rfl)⟩
          · exact Or.inl (List.mem_append_right _ hj)
      obtain ⟨hlast, hlater, hbounded, -⟩ := ih front hstage hsweep
      refine ⟨hlast, hbelow.trans hlater, ?_, ?_⟩
      · intro goal habsorbs hgoal
        refine hbounded goal habsorbs fun other hother => ?_
        rcases (hu other).1 hother with hother | rfl
        · exact hgoal other hother
        · exact habsorbs h.here hgoal hi hverdict
      · intro hsame
        have hlength := sweep_length m hsweep
        rw [List.length_cons] at hsame
        omega
    | waits =>
      obtain ⟨u, hattempt, hinv, hu⟩ := hm.waits h.here (by simp) hverdict
      rw [hattempt] at hsweep
      obtain ⟨⟨later, last⟩, hswept, heq⟩ := Option.map_eq_some_iff.1 hsweep
      cases heq
      have hbelow : Below holds s u := fun other hother => (hu other).2 hother
      have hback : Below holds u s := fun other hother => (hu other).1 hother
      have hstage : Stage m holds all inv ((front ++ [i]) ++ items) u := by
        rw [List.append_assoc]
        exact h.of_inv hm hinv hbelow fun j hj => Or.inl hj
      obtain ⟨hlast, hlater, hbounded, hidle⟩ := ih (front ++ [i]) hstage hswept
      rw [List.append_assoc] at hlast
      refine ⟨hlast, hbelow.trans hlater, ?_, ?_⟩
      · intro goal habsorbs hgoal
        exact hbounded goal habsorbs fun other hother => hgoal other (hback other hother)
      · intro hsame
        obtain ⟨hsettled, hwait⟩ := hidle (Nat.succ.inj hsame)
        refine ⟨hsettled.trans hback, ?_⟩
        intro j hj
        rcases List.mem_cons.1 hj with rfl | hj
        · exact waits_of_below hm h.here hlast.here (hsettled.trans hback) hi hverdict
        · exact hwait j hj
    | fails =>
      rw [hm.fails h.here (by simp) hverdict] at hsweep
      cases hsweep

theorem sweep_broken (hm : Lawful m holds all inv) (front : List ι) {items : List ι} {s : σ}
    (h : inv (front ++ items) s)
    (hsweep : m.sweep items s = none) :
    ∃ i left u, Broken m holds all inv s i left u := by
  induction items generalizing front s with
  | nil => cases hsweep
  | cons i items ih =>
    have hi : i ∈ all := hm.mem h i (by simp)
    rw [Machine.sweep] at hsweep
    cases hverdict : m.verdict i s with
    | yields fact =>
      obtain ⟨u, hattempt, hinv, hu⟩ := hm.done h hverdict
      rw [hattempt] at hsweep
      obtain ⟨j, left, v, hbroken⟩ := ih front hinv hsweep
      refine ⟨j, left, v, hbroken.here, hbroken.mem, hbroken.fails, ?_⟩
      intro goal habsorbs hgoal
      refine hbroken.bounded goal habsorbs fun other hother => ?_
      rcases (hu other).1 hother with hother | rfl
      · exact hgoal other hother
      · exact habsorbs h hgoal hi hverdict
    | waits =>
      obtain ⟨u, hattempt, hinv, hu⟩ := hm.waits h (by simp) hverdict
      rw [hattempt] at hsweep
      have hnone : m.sweep items u = none := Option.map_eq_none_iff.1 hsweep
      have hinv : inv ((front ++ [i]) ++ items) u := by
        rw [List.append_assoc]
        exact hinv
      obtain ⟨j, left, v, hbroken⟩ := ih (front ++ [i]) hinv hnone
      refine ⟨j, left, v, hbroken.here, hbroken.mem, hbroken.fails, ?_⟩
      intro goal habsorbs hgoal
      exact hbroken.bounded goal habsorbs fun other hother => hgoal other ((hu other).1 hother)
    | fails => exact ⟨i, _, s, h, hi, hverdict, fun _ _ hgoal => hgoal⟩

/-- A pass over items that all wait. -/
theorem sweep_waiting (hm : Lawful m holds all inv) (front : List ι) {items : List ι} {s : σ}
    (h : inv (front ++ items) s)
    (hwaits : ∀ i ∈ items, m.verdict i s = .waits) :
    ∃ t, m.sweep items s = some (items, t) := by
  induction items generalizing front s with
  | nil => exact ⟨s, rfl⟩
  | cons i items ih =>
    obtain ⟨u, hattempt, hinv, hu⟩ := hm.waits h (by simp) (hwaits i List.mem_cons_self)
    have hback : Below holds u s := fun other hother => (hu other).1 hother
    have hlater : ∀ j ∈ items, m.verdict j u = .waits := by
      intro j hj
      have hmem : j ∈ all := hm.mem h j (by simp [hj])
      exact waits_of_below hm h hinv hback hmem (hwaits j (List.mem_cons_of_mem _ hj))
    have hinv : inv ((front ++ [i]) ++ items) u := by
      rw [List.append_assoc]
      exact hinv
    obtain ⟨t, ht⟩ := ih (front ++ [i]) hinv hlater
    refine ⟨t, ?_⟩
    rw [Machine.sweep, hattempt]
    show (m.sweep items u).map _ = _
    rw [ht]
    rfl

theorem Stage.next (hm : Lawful m holds all inv) {items : List ι} {s : σ}
    (h : Stage m holds all inv items s) :
    Stage m holds all inv items (m.next items s) ∧
      (∀ other, holds (m.next items s) other ↔ holds s other) := by
  obtain ⟨hinv, hsame⟩ := hm.next h.here
  exact ⟨h.of_inv hm hinv (fun other hother => (hsame other).2 hother) fun _ hi => Or.inl hi, hsame⟩

/-- What an evaluation that gets everything done leads to. -/
theorem Settles.swept (hm : Lawful m holds all inv) {items : List ι} {s t : σ}
    (hsettles : Settles m items s t)
    (h : Stage m holds all inv items s) :
    Stage m holds all inv [] t ∧ Below holds s t ∧
      ∀ goal, Absorbs m holds all inv goal → (∀ fact, holds s fact → goal fact) →
        ∀ fact, holds t fact → goal fact := by
  induction hsettles with
  | last hsweep =>
    have hswept := sweep_swept hm [] h hsweep
    exact ⟨hswept.stage, hswept.below, hswept.bounded⟩
  | again hsweep _ _ _ ih =>
    have hswept := sweep_swept hm [] h hsweep
    obtain ⟨hstage, hsame⟩ := hswept.stage.next hm
    obtain ⟨hlast, hbelow, hbounded⟩ := ih hstage
    refine ⟨hlast, ?_, ?_⟩
    · intro fact hfact
      exact hbelow fact ((hsame fact).2 (hswept.below fact hfact))
    · intro goal habsorbs hgoal
      refine hbounded goal habsorbs fun fact hfact => ?_
      exact hswept.bounded goal habsorbs hgoal fact ((hsame fact).1 hfact)

theorem Breaks.broken (hm : Lawful m holds all inv) {items : List ι} {s : σ}
    (hbreaks : Breaks m items s)
    (h : Stage m holds all inv items s) :
    ∃ i left u, Broken m holds all inv s i left u := by
  induction hbreaks with
  | now hsweep => exact sweep_broken hm [] h.here hsweep
  | later hsweep _ _ _ ih =>
    have hswept := sweep_swept hm [] h hsweep
    obtain ⟨hstage, hsame⟩ := hswept.stage.next hm
    obtain ⟨i, left, u, hbroken⟩ := ih hstage
    refine ⟨i, left, u, hbroken.here, hbroken.mem, hbroken.fails, ?_⟩
    intro goal habsorbs hgoal
    refine hbroken.bounded goal habsorbs fun fact hfact => ?_
    exact hswept.bounded goal habsorbs hgoal fact ((hsame fact).1 hfact)

theorem Stalls.swept (hm : Lawful m holds all inv) {items rest : List ι} {s t : σ}
    (hstalls : Stalls m items s rest t)
    (h : Stage m holds all inv items s) :
    rest ≠ [] ∧ Stage m holds all inv rest t ∧ Below holds s t ∧
      ∀ i ∈ rest, m.verdict i t = .waits := by
  induction hstalls with
  | now hsweep hrest hsame =>
    have hswept := sweep_swept hm [] h hsweep
    exact ⟨hrest, hswept.stage, hswept.below, (hswept.idle hsame).2⟩
  | later hsweep _ _ _ ih =>
    have hswept := sweep_swept hm [] h hsweep
    obtain ⟨hstage, hsame⟩ := hswept.stage.next hm
    obtain ⟨hne, hlast, hbelow, hwaits⟩ := ih hstage
    refine ⟨hne, hlast, ?_, hwaits⟩
    intro fact hfact
    exact hbelow fact ((hsame fact).2 (hswept.below fact hfact))

end Runs

/-! ## Two evaluations of like items -/

section Transfer

variable {m : Machine ι σ φ} {m' : Machine κ σ φ} {holds : σ → φ → Prop}
variable {all : List ι} {all' : List κ} {inv : List ι → σ → Prop} {inv' : List κ → σ → Prop}
variable {like : ι → κ → Prop}

/-- Like items: what the first says of a state of the first evaluation, the second says of every
state of the second evaluation above it. -/
structure Carries (m : Machine ι σ φ) (m' : Machine κ σ φ) (holds : σ → φ → Prop)
    (all : List ι) (all' : List κ) (inv : List ι → σ → Prop) (inv' : List κ → σ → Prop)
    (like : ι → κ → Prop) : Prop where
  left : ∀ i ∈ all, ∃ j ∈ all', like i j
  right : ∀ j ∈ all', ∃ i ∈ all, like i j
  yields : ∀ {i j items left s t fact}, like i j → inv items s → inv' left t →
    Below holds s t → m.verdict i s = .yields fact → m'.verdict j t = .yields fact
  fails : ∀ {i j items left s t}, like i j → inv items s → inv' left t →
    Below holds s t → m.verdict i s = .fails → m'.verdict j t = .fails

/-- A state of the second evaluation in which each item is done or waits holds whatever the first
evaluation yields below it. -/
theorem Carries.absorbs (hc : Carries m m' holds all all' inv inv' like)
    {rest : List κ} {t : σ}
    (ht : Stage m' holds all' inv' rest t)
    (hwaits : ∀ j ∈ rest, m'.verdict j t = .waits) :
    Absorbs m holds all inv (holds t) := by
  intro items i s fact hinv hbelow hi hyields
  obtain ⟨j, hj, hlike⟩ := hc.left i hi
  have hsays := hc.yields hlike hinv ht.here hbelow hyields
  rcases ht.settled j hj with hmem | ⟨other, hother, hholds⟩
  · rw [hwaits j hmem] at hsays
    cases hsays
  · rw [hother] at hsays
    cases hsays
    exact hholds

/-- An evaluation that fails does so on like items, too, when it starts from more. -/
theorem Breaks.transfer (hm : Lawful m holds all inv) (hm' : Lawful m' holds all' inv')
    (hc : Carries m m' holds all all' inv inv' like)
    {s s' : σ}
    (hbreaks : Breaks m all s)
    (hs : inv all s)
    (hs' : inv' all' s')
    (hstart : Below holds s s') :
    Breaks m' all' s' := by
  obtain ⟨i, left, u, hbroken⟩ := hbreaks.broken hm (.start hs)
  have hcontra : ∀ {rest t}, Stage m' holds all' inv' rest t → Below holds s' t →
      (∀ j ∈ rest, m'.verdict j t = .waits) → False := by
    intro rest t ht hbelow hwaits
    have hu : Below holds u t :=
      hbroken.bounded (holds t) (hc.absorbs ht hwaits) (hstart.trans hbelow)
    obtain ⟨j, hj, hlike⟩ := hc.left i hbroken.mem
    have hfails := hc.fails hlike hbroken.here ht.here hu hbroken.fails
    rcases ht.settled j hj with hmem | ⟨fact, hyields, -⟩
    · rw [hwaits j hmem] at hfails
      cases hfails
    · rw [hyields] at hfails
      cases hfails
  rcases settles_or_breaks_or_stalls m' all' s' with ⟨t, h⟩ | h | ⟨rest, t, h⟩
  · obtain ⟨hlast, hbelow, -⟩ := h.swept hm' (.start hs')
    exact (hcontra hlast hbelow fun j hj => nomatch hj).elim
  · exact h
  · obtain ⟨-, hlast, hbelow, hwaits⟩ := h.swept hm' (.start hs')
    exact (hcontra hlast hbelow hwaits).elim

/-- An evaluation that gets everything done does so on like items, too, when it starts from more
and no item of the second evaluation speaks against `goal`. -/
theorem Settles.transfer (hm : Lawful m holds all inv) (hm' : Lawful m' holds all' inv')
    (hc : Carries m m' holds all all' inv inv' like)
    {s s' t : σ} {goal : φ → Prop}
    (hsettles : Settles m all s t)
    (hs : inv all s)
    (hs' : inv' all' s')
    (hstart : Below holds s s')
    (hgoal : ∀ fact, holds s' fact → goal fact)
    (hagrees : ∀ {left j u}, inv' left u → (∀ fact, holds u fact → goal fact) → j ∈ all' →
      m'.verdict j u ≠ .fails ∧ ∀ fact, m'.verdict j u = .yields fact → goal fact) :
    ∃ t', Settles m' all' s' t' ∧ Below holds t t' ∧ ∀ fact, holds t' fact → goal fact := by
  obtain ⟨hlast, -, hbounded⟩ := hsettles.swept hm (.start hs)
  have habsorbs : Absorbs m' holds all' inv' goal := fun hinv hbelow hj hyields =>
    (hagrees hinv hbelow hj).2 _ hyields
  rcases settles_or_breaks_or_stalls m' all' s' with ⟨t', h⟩ | h | ⟨rest, t', h⟩
  · obtain ⟨hlast', hbelow, hbounded'⟩ := h.swept hm' (.start hs')
    refine ⟨t', h, ?_, hbounded' goal habsorbs hgoal⟩
    exact hbounded (holds t') (hc.absorbs hlast' fun j hj => nomatch hj) (hstart.trans hbelow)
  · obtain ⟨j, left, u, hbroken⟩ := h.broken hm' (.start hs')
    have hu := hbroken.bounded goal habsorbs hgoal
    exact ((hagrees hbroken.here hu hbroken.mem).1 hbroken.fails).elim
  · -- an item that waits for ever would have to wait in the first evaluation, too
    obtain ⟨hne, hlast', hbelow, hwaits⟩ := h.swept hm' (.start hs')
    obtain ⟨j, hj⟩ := List.exists_mem_of_ne_nil rest hne
    obtain ⟨i, hi, hlike⟩ := hc.right j (hm'.mem hlast'.here j hj)
    have ht : Below holds t t' :=
      hbounded (holds t') (hc.absorbs hlast' hwaits) (hstart.trans hbelow)
    rcases hlast.settled i hi with hmem | ⟨fact, hyields, -⟩
    · cases hmem
    · have hsays := hc.yields hlike hlast.here hlast'.here ht hyields
      rw [hwaits j hj] at hsays
      cases hsays

end Transfer

end Provision.Retry
