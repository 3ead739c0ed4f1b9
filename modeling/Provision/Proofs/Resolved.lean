import Provision.Proofs.Canonical

/-!
# Resolved paths

Dots are resolved one component at a time, and what has been resolved is always the start
of the path followed by names: going up takes the last name away, and where there is none
it does nothing.  So a path is resolved once and for all, and a path that was taken from a
directory leads back when it is resolved from there.
-/

namespace Provision

namespace Path

/-- The components of some names, behind the root or not. -/
def placed (rooted : Bool) (names : List (List Char)) : List Component :=
  if rooted then .root :: named names else named names

/-- A component that may stand behind the start of a path. -/
def IsStep (c : Component) : Prop :=
  c = .here ∨ c = .up ∨ ∃ name, IsName name ∧ c = .name name

variable {path : Path} {names : List (List Char)} {c : Component} {rooted : Bool}

theorem placed_append_name (rooted : Bool) (names : List (List Char)) (last : List Char) :
    placed rooted (names ++ [last]) = placed rooted names ++ [.name last] := by
  cases rooted <;> simp [placed, named]

/-! ## Components -/

theorem ofSegments_isStep {segments : List (List Char)} (h : ∀ segment ∈ segments, '/' ∉ segment)
    (hc : c ∈ ofSegments segments) : IsStep c := by
  unfold ofSegments at hc
  split at hc
  · rcases List.mem_cons.1 hc with rfl | hc
    · exact Or.inl rfl
    · exact Or.inr (component_cases (fun segment hmem => h segment (List.mem_cons_of_mem _ hmem)) hc)
  · exact Or.inr (component_cases h hc)

theorem components_of_relative (h : path.isAbsolute = false) :
    path.components = ofSegments (Text.split '/' path.text.toList) := by
  unfold isAbsolute at h
  unfold components
  cases htext : path.text.toList with
  | nil => rfl
  | cons c rest =>
    have hc : c ≠ '/' := by
      rintro rfl
      rw [htext] at h
      cases h
    rw [componentsOf.eq_2]
    exact fun _ heq => hc (List.cons.inj heq).1

/-- Behind the root, if it starts there, a path has steps only. -/
theorem components_eq_placed (path : Path) :
    ∃ rest, path.components = placed path.isAbsolute [] ++ rest ∧ ∀ c ∈ rest, IsStep c := by
  cases habsolute : path.isAbsolute with
  | true =>
    obtain ⟨rest, hcomponents, hrest⟩ := components_of_absolute habsolute
    exact ⟨rest, hcomponents, fun c hc => Or.inr (hrest c hc)⟩
  | false =>
    exact ⟨path.components, rfl, fun c hc => ofSegments_isStep
      (fun segment => Text.not_mem_of_mem_split) (components_of_relative habsolute ▸ hc)⟩

theorem isAbsolute_placed (rooted : Bool) (hnames : ∀ name ∈ names, IsName name) :
    (ofComponents (placed rooted names)).isAbsolute = rooted := by
  cases rooted with
  | true => exact isAbsolute_rooted _
  | false => exact isAbsolute_relative 0 hnames

/-- Names are read back as they were written, wherever they start. -/
theorem components_placed (rooted : Bool) (hnames : ∀ name ∈ names, IsName name) :
    (ofComponents (placed rooted names)).components = placed rooted names := by
  cases rooted with
  | true => exact components_of_rooted hnames
  | false =>
    have hrelative : (ofComponents (named names)).isAbsolute = false :=
      isAbsolute_relative 0 hnames
    have htext : (ofComponents (named names)).text.toList = Text.join ['/'] names :=
      String.toList_ofList.trans (textOf_relative 0 names)
    refine (components_of_relative hrelative).trans ?_
    rw [htext]
    cases names with
    | nil => rfl
    | cons name rest =>
      have hname := hnames name List.mem_cons_self
      rw [Text.split_join (List.cons_ne_nil _ _) fun piece hmem => (hnames piece hmem).unsplit,
        ofSegments.eq_2 _ fun _ heq => hname.ne_here (List.cons.inj heq).1]
      exact filterMap_names hnames

/-! ## Resolving -/

/-- One step from names behind a start leads to names behind the same start. -/
theorem resolve_placed (hc : IsStep c) (hnames : ∀ name ∈ names, IsName name) :
    ∃ names', (∀ name ∈ names', IsName name) ∧
      resolve (placed rooted names) c = placed rooted names' := by
  rcases hc with rfl | rfl | ⟨name, hname, rfl⟩
  · exact ⟨names, hnames, rfl⟩
  · rcases List.eq_nil_or_concat names with rfl | ⟨front, last, rfl⟩
    · -- there is nothing to leave
      refine ⟨[], hnames, ?_⟩
      cases rooted <;> rfl
    · rw [List.concat_eq_append] at hnames ⊢
      refine ⟨front, fun name hmem => hnames name (List.mem_append_left _ hmem), ?_⟩
      rw [placed_append_name, resolve, List.getLast?_concat, List.dropLast_concat]
  · refine ⟨names ++ [name], fun other hmem => ?_, (placed_append_name _ _ _).symm⟩
    rcases List.mem_append.1 hmem with hmem | hmem
    · exact hnames other hmem
    · rw [List.mem_singleton.1 hmem]
      exact hname

theorem foldl_resolve_placed {rest : List Component} (hrest : ∀ c ∈ rest, IsStep c)
    (hnames : ∀ name ∈ names, IsName name) :
    ∃ names', (∀ name ∈ names', IsName name) ∧
      rest.foldl resolve (placed rooted names) = placed rooted names' := by
  induction rest generalizing names with
  | nil => exact ⟨names, hnames, rfl⟩
  | cons c rest ih =>
    obtain ⟨next, hnext, hstep⟩ := @resolve_placed names c rooted (hrest c List.mem_cons_self) hnames
    rw [List.foldl_cons, hstep]
    exact ih (fun other hmem => hrest other (List.mem_cons_of_mem _ hmem)) hnext

/-- However much of a path has been resolved, it is names behind the start of the path. -/
theorem normalComponents_take (path : Path) (count : Nat) :
    ∃ names, (∀ name ∈ names, IsName name) ∧
      normalComponents (path.components.take (count + 1)) = placed path.isAbsolute names := by
  obtain ⟨rest, hcomponents, hrest⟩ := components_eq_placed path
  rw [hcomponents]
  cases habsolute : path.isAbsolute with
  | true =>
    exact @foldl_resolve_placed [] true (rest.take count)
      (fun c hc => hrest c (List.mem_of_mem_take hc)) (List.forall_mem_nil _)
  | false =>
    exact @foldl_resolve_placed [] false (rest.take (count + 1))
      (fun c hc => hrest c (List.mem_of_mem_take hc)) (List.forall_mem_nil _)

theorem normalComponents_components (path : Path) :
    ∃ names, (∀ name ∈ names, IsName name) ∧
      normalComponents path.components = placed path.isAbsolute names := by
  have h := normalComponents_take path path.components.length
  rwa [List.take_of_length_le (Nat.le_succ _)] at h

theorem normalComponents_placed (rooted : Bool) (names : List (List Char)) :
    normalComponents (placed rooted names) = placed rooted names := by
  cases rooted with
  | true => exact resolve_name_rooted [] names
  | false => exact (resolve_name [] names).trans (List.nil_append _)

theorem here_not_mem_placed (rooted : Bool) (names : List (List Char)) :
    .here ∉ placed rooted names := by
  cases rooted <;> simp [placed, named]

theorem up_not_mem_placed (rooted : Bool) (names : List (List Char)) :
    .up ∉ placed rooted names := by
  cases rooted <;> simp [placed, named]

/-- What is left of a path when its dots are resolved. -/
theorem components_normalize (path : Path) :
    ∃ names, (∀ name ∈ names, IsName name) ∧
      path.normalize = ofComponents (placed path.isAbsolute names) ∧
      path.normalize.components = placed path.isAbsolute names := by
  obtain ⟨names, hnames, hresolved⟩ := normalComponents_components path
  have hnormal : path.normalize = ofComponents (placed path.isAbsolute names) :=
    congrArg ofComponents hresolved
  exact ⟨names, hnames, hnormal, hnormal ▸ components_placed _ hnames⟩

theorem normalize_normalize (path : Path) : path.normalize.normalize = path.normalize := by
  obtain ⟨names, -, hnormal, hcomponents⟩ := components_normalize path
  rw [normalize, hcomponents, normalComponents_placed, hnormal]

theorem isAbsolute_normalize (path : Path) : path.normalize.isAbsolute = path.isAbsolute := by
  obtain ⟨names, hnames, hnormal, -⟩ := components_normalize path
  rw [hnormal, isAbsolute_placed _ hnames]

/-! ## The way back -/

/-- A directory resolves what was taken from it to the very spelling that the target resolves to. -/
theorem Normal.normalize_joined {directory target : Path} (hdirectory : directory.Normal)
    (htarget : target.Normal) :
    (directory.joined (relativeTo directory target)).normalize = target.normalize := by
  obtain ⟨base, -, hbase⟩ := hdirectory.components_eq
  obtain ⟨goal, hgoal, hpath⟩ := htarget.components_eq
  have hresolved : target.normalize = ofComponents (.root :: named goal) := by
    rw [normalize, hpath]
    exact congrArg ofComponents (normalComponents_placed true goal)
  rw [hresolved]
  exact normalize_joined_relativeTo hdirectory.absolute hbase hgoal hpath

/-- A target recorded as seen from a directory is found again from there, and the import that
a file records leads to the file it imports.  Resolving the dots of any path gives a path without
dots that stays as it is; after each component what is resolved so far is names behind the start
of the path, so that no `..` takes the root away. -/
theorem recorded_targets_lead_back :
    (∀ directory target : Path, directory.Normal → target.Normal →
      (directory.joined (relativeTo directory target)).normalize = target.normalize ∧
      (directory.joined (relativeTo directory target)).normalize.same target = true) ∧
    (∀ file target : Path, file.Normal → target.Normal →
      (importTarget file (relativeTo file.directory target).text).same target = true) ∧
    ∀ path : Path,
      path.normalize.normalize = path.normalize ∧
      path.normalize.isAbsolute = path.isAbsolute ∧
      .here ∉ path.normalize.components ∧ .up ∉ path.normalize.components ∧
      ∀ count, ∃ names, (∀ name ∈ names, IsName name) ∧
        normalComponents (path.components.take (count + 1)) = placed path.isAbsolute names := by
  refine ⟨fun directory target hdirectory htarget => ?_,
    fun file target hfile htarget => hfile.joined_directory htarget, fun path => ?_⟩
  · have hback := hdirectory.normalize_joined htarget
    refine ⟨hback, ?_⟩
    rw [hback]
    exact htarget.normal
  · obtain ⟨names, -, -, hcomponents⟩ := components_normalize path
    refine ⟨normalize_normalize path, isAbsolute_normalize path, ?_, ?_, normalComponents_take path⟩
    · exact hcomponents ▸ here_not_mem_placed _ _
    · exact hcomponents ▸ up_not_mem_placed _ _

/-- From one directory to a file in another, by way of what the two have in common. -/
theorem shared_base_leads_back :
    (Path.joined ⟨"/srv/app/web/"⟩ (relativeTo ⟨"/srv/app/web/"⟩ ⟨"/srv/shared/base.cairn"⟩)).normalize =
      ⟨"/srv/shared/base.cairn"⟩ ∧
    (importTarget ⟨"/srv/app/main.cairn"⟩
      (relativeTo (Path.directory ⟨"/srv/app/main.cairn"⟩) ⟨"/srv/shared/base.cairn"⟩).text).same
      ⟨"/srv/shared/base.cairn"⟩ = true ∧
    (relativeTo ⟨"/srv/app/web/"⟩ ⟨"/srv/shared/base.cairn"⟩).text = "../../shared/base.cairn" := by
  have hweb : Normal ⟨"/srv/app/web/"⟩ := ⟨by decide +kernel, by decide +kernel⟩
  have hmain : Normal ⟨"/srv/app/main.cairn"⟩ := ⟨by decide +kernel, by decide +kernel⟩
  have hbase : Normal ⟨"/srv/shared/base.cairn"⟩ := ⟨by decide +kernel, by decide +kernel⟩
  refine ⟨?_, recorded_targets_lead_back.2.1 _ _ hmain hbase, by decide +kernel⟩
  rw [(recorded_targets_lead_back.1 _ _ hweb hbase).1]
  decide +kernel

end Path

end Provision
