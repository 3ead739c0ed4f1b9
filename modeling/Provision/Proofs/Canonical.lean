import Provision.Proofs.Imports
import Provision.Proofs.Path

/-!
# Canonical paths

An absolute path without dots and with no slash too many is told by its text: two
such paths are the same only if they are equal.  The targets of the imports of a
file with such a path are spelled so, too.
-/

namespace Provision

namespace Path

/-- An absolute path in its normal spelling. -/
structure Canonical (path : Path) : Prop where
  absolute : path.isAbsolute = true
  normal : path.normalize = path

variable {path base : Path} {names : List (List Char)}

theorem canonical_rooted (hnames : ∀ name ∈ names, IsName name) :
    (ofComponents (.root :: named names)).Canonical where
  absolute := isAbsolute_rooted _
  normal := by
    have hresolved : normalComponents (.root :: named names) = .root :: named names :=
      resolve_name_rooted [] names
    rw [normalize, components_of_rooted hnames, hresolved]

/-- A canonical path is spelled by its names. -/
theorem Canonical.eq_rooted (h : path.Canonical) :
    ∃ names, (∀ name ∈ names, IsName name) ∧ path = ofComponents (.root :: named names) := by
  have hnormal : path.Normal := ⟨h.absolute, h.normal.symm ▸ path.same_refl⟩
  obtain ⟨names, hnames, hcomponents⟩ := hnormal.components_eq
  refine ⟨names, hnames, ?_⟩
  have hresolved : normalComponents (.root :: named names) = .root :: named names :=
    resolve_name_rooted [] names
  rw [← h.normal, normalize, hcomponents, hresolved]

/-- An absolute path has a canonical normal form. -/
theorem canonical_normalize (h : path.isAbsolute = true) : path.normalize.Canonical := by
  obtain ⟨rest, hcomponents, hrest⟩ := components_of_absolute h
  obtain ⟨names, hnames, hresolved⟩ := resolve_rooted hrest (List.forall_mem_nil _)
  have hnormal : normalComponents path.components = .root :: named names := by
    rw [hcomponents, normalComponents, List.foldl_cons]
    exact hresolved
  rw [normalize, hnormal]
  exact canonical_rooted hnames

theorem Canonical.same_iff {other : Path} (h : path.Canonical) (hother : other.Canonical) :
    path.same other = true ↔ path = other := by
  refine ⟨fun hsame => ?_, fun heq => heq ▸ path.same_refl⟩
  obtain ⟨names, hnames, rfl⟩ := h.eq_rooted
  obtain ⟨others, hothers, rfl⟩ := hother.eq_rooted
  have hcomponents := Path.same_iff.1 hsame
  rw [components_of_rooted hnames, components_of_rooted hothers] at hcomponents
  rw [hcomponents]

theorem Canonical.isIn_iff {paths : List Path} (h : path.Canonical)
    (hpaths : ∀ other ∈ paths, other.Canonical) :
    path.isIn paths = true ↔ path ∈ paths := by
  rw [Path.isIn_iff]
  constructor
  · rintro ⟨other, hother, hsame⟩
    exact (h.same_iff (hpaths other hother)).1 hsame ▸ hother
  · exact fun hmem => ⟨path, hmem, path.same_refl⟩

/-! ## Targets of imports -/

/-- What is seen from an absolute directory is absolute. -/
theorem isAbsolute_joined (h : base.isAbsolute = true) (path : Path) :
    (base.joined path).isAbsolute = true := by
  have hfront (back : List Char) :
      (⟨String.ofList (base.text.toList ++ back)⟩ : Path).isAbsolute = true := by
    unfold isAbsolute at h ⊢
    rw [String.toList_ofList]
    cases htext : base.text.toList with
    | nil =>
      rw [htext] at h
      cases h
    | cons c text =>
      rw [htext] at h
      exact h
  unfold joined
  split
  · assumption
  · dsimp only
    split
    · exact hfront _
    · exact hfront _

/-- Below the root the directory of a canonical path is absolute. -/
theorem Canonical.directory_isAbsolute (h : path.Canonical) (hroot : path ≠ ⟨"/"⟩) :
    path.directory.isAbsolute = true := by
  obtain ⟨names, hnames, rfl⟩ := h.eq_rooted
  rcases directory_eq (components_of_rooted hnames) with ⟨-, rfl⟩ | ⟨front, last, -, hdirectory⟩
  · exact absurd rfl hroot
  · rw [hdirectory]
    exact isAbsolute_rooted _

theorem Canonical.importTarget (h : path.Canonical) (hroot : path ≠ ⟨"/"⟩) (text : String) :
    (importTarget path text).Canonical :=
  canonical_normalize (isAbsolute_joined (h.directory_isAbsolute hroot) _)

end Path

end Provision
