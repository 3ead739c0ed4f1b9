import Mathlib.Data.List.Basic
import Mathlib.Data.List.Induction
import Provision.Path

/-!
# Normal paths

An absolute path without dots is told by its names.  Its text is read back as
these names, and the text of a path seen from a directory leads from that
directory to the same names again.
-/

namespace Provision

namespace Text

variable {mark : Char}

theorem split_ne_empty (mark : Char) (text : List Char) : split mark text ≠ [] := by
  induction text with
  | nil => simp [split]
  | cons c rest ih =>
    unfold split
    split
    · simp
    · cases hsplit : split mark rest with
      | nil => exact absurd hsplit ih
      | cons piece pieces => simp

theorem split_cons_of_ne {c : Char} (h : c ≠ mark) {text piece : List Char}
    {pieces : List (List Char)} (hsplit : split mark text = piece :: pieces) :
    split mark (c :: text) = (c :: piece) :: pieces := by
  rw [split, if_neg h, hsplit]

/-- A mark between two texts splits them apart. -/
theorem split_append_cons (mark : Char) (front back : List Char) :
    split mark (front ++ mark :: back) = split mark front ++ split mark back := by
  induction front with
  | nil => simp [split]
  | cons c rest ih =>
    by_cases hc : c = mark
    · simp [split, hc, ih]
    · obtain ⟨piece, pieces, hsplit⟩ := List.exists_cons_of_ne_nil (split_ne_empty mark rest)
      rw [hsplit, List.cons_append] at ih
      rw [List.cons_append, split_cons_of_ne hc ih, split_cons_of_ne hc hsplit, List.cons_append]

theorem split_of_not_mem {text : List Char} (h : mark ∉ text) : split mark text = [text] := by
  induction text with
  | nil => rfl
  | cons c rest ih =>
    have hrest : mark ∉ rest := fun hmem => h (List.mem_cons_of_mem _ hmem)
    have hc : c ≠ mark := by
      rintro rfl
      exact h List.mem_cons_self
    exact split_cons_of_ne hc (ih hrest)

/-- Pieces without the mark are found again between the marks. -/
theorem split_join {pieces : List (List Char)} (hne : pieces ≠ [])
    (h : ∀ piece ∈ pieces, mark ∉ piece) :
    split mark (join [mark] pieces) = pieces := by
  induction pieces with
  | nil => exact absurd rfl hne
  | cons piece rest ih =>
    have hpiece := split_of_not_mem (h piece List.mem_cons_self)
    cases rest with
    | nil => exact hpiece
    | cons next rest =>
      have hrest := ih (by simp) fun other hmem => h other (List.mem_cons_of_mem _ hmem)
      rw [join, List.append_assoc, List.singleton_append, split_append_cons, hpiece, hrest]
      rfl

theorem not_mem_of_mem_split {text piece : List Char} (h : piece ∈ split mark text) :
    mark ∉ piece := by
  induction text generalizing piece with
  | nil =>
    rw [split, List.mem_singleton] at h
    rw [h]
    exact List.not_mem_nil
  | cons c rest ih =>
    by_cases hc : c = mark
    · rw [split, if_pos hc] at h
      rcases List.mem_cons.1 h with rfl | h
      · exact List.not_mem_nil
      · exact ih h
    · obtain ⟨first, pieces, hsplit⟩ := List.exists_cons_of_ne_nil (split_ne_empty mark rest)
      rw [split_cons_of_ne hc hsplit] at h
      rcases List.mem_cons.1 h with rfl | h
      · intro hmem
        rcases List.mem_cons.1 hmem with heq | hmem
        · exact hc heq.symm
        · exact ih (hsplit ▸ List.mem_cons_self) hmem
      · exact ih (hsplit ▸ List.mem_cons_of_mem _ h)

/-- Pieces that do not start with the mark make no text that does. -/
theorem head?_join_ne {pieces : List (List Char)}
    (h : ∀ piece ∈ pieces, piece ≠ [] ∧ mark ∉ piece) :
    ((join [mark] pieces).head? == some mark) = false := by
  rw [beq_eq_false_iff_ne]
  cases pieces with
  | nil => exact Option.some_ne_none mark ∘ Eq.symm
  | cons piece rest =>
    obtain ⟨hne, hmark⟩ := h piece List.mem_cons_self
    obtain ⟨c, cs, rfl⟩ := List.exists_cons_of_ne_nil hne
    have hhead : (join [mark] ((c :: cs) :: rest)).head? = some c := by
      cases rest <;> rfl
    rw [hhead]
    intro heq
    exact hmark (Option.some.inj heq ▸ List.mem_cons_self)

end Text

namespace Path

/-- A segment that is a name of its own. -/
structure IsName (segment : List Char) : Prop where
  ne_nil : segment ≠ []
  ne_here : segment ≠ ['.']
  ne_up : segment ≠ ['.', '.']
  unsplit : '/' ∉ segment

/-- The components of some names. -/
def named (names : List (List Char)) : List Component :=
  names.map Component.name

/-- An absolute path that stays as it is when its dots are resolved. -/
structure Normal (path : Path) : Prop where
  absolute : path.isAbsolute = true
  normal : path.normalize.same path = true

section Components

variable {names : List (List Char)}

theorem component?_of_isName {segment : List Char} (h : IsName segment) :
    component? segment = some (.name segment) := by
  unfold component?
  rw [if_neg (not_or.2 ⟨h.ne_nil, h.ne_here⟩), if_neg h.ne_up]

theorem filterMap_names (h : ∀ name ∈ names, IsName name) :
    names.filterMap component? = named names := by
  induction names with
  | nil => rfl
  | cons name rest ih =>
    rw [List.filterMap_cons, component?_of_isName (h name List.mem_cons_self),
      ih fun other hmem => h other (List.mem_cons_of_mem _ hmem)]
    rfl

/-- Behind its start a path goes up or to a name. -/
theorem component_cases {segments : List (List Char)} (h : ∀ segment ∈ segments, '/' ∉ segment)
    {c : Component} (hc : c ∈ segments.filterMap component?) :
    c = .up ∨ ∃ name, IsName name ∧ c = .name name := by
  obtain ⟨segment, hmem, hsegment⟩ := List.mem_filterMap.1 hc
  unfold component? at hsegment
  split at hsegment
  · cases hsegment
  · next hplain =>
    split at hsegment
    · cases hsegment
      exact Or.inl rfl
    · next hup =>
      cases hsegment
      exact Or.inr ⟨segment, ⟨fun heq => hplain (Or.inl heq), fun heq => hplain (Or.inr heq), hup,
        h segment hmem⟩, rfl⟩

theorem components_of_absolute {path : Path} (h : path.isAbsolute = true) :
    ∃ rest, path.components = .root :: rest ∧
      ∀ c ∈ rest, c = .up ∨ ∃ name, IsName name ∧ c = .name name := by
  unfold isAbsolute at h
  unfold components
  cases htext : path.text.toList with
  | nil =>
    rw [htext] at h
    cases h
  | cons c text =>
    rw [htext, List.head?_cons, beq_iff_eq, Option.some.injEq] at h
    subst h
    exact ⟨(Text.split '/' text).filterMap component?, rfl, fun c hc =>
      component_cases (fun segment => Text.not_mem_of_mem_split) hc⟩

/-- Segments in front of a slash and behind it stand for components one after another. -/
theorem filterMap_split_append (front back : List Char) :
    (Text.split '/' (front ++ '/' :: back)).filterMap component? =
      (Text.split '/' front).filterMap component? ++ (Text.split '/' back).filterMap component? := by
  rw [Text.split_append_cons, List.filterMap_append]

/-- A slash at the end of a text adds no component. -/
theorem filterMap_split_slash (front : List Char) :
    (Text.split '/' (front ++ ['/'])).filterMap component? =
      (Text.split '/' front).filterMap component? := by
  rw [filterMap_split_append, Text.split, List.filterMap_cons]
  exact List.append_nil _

/-! ## Resolving dots -/

theorem resolve_name (stack : List Component) (names : List (List Char)) :
    (named names).foldl resolve stack = stack ++ named names := by
  induction names generalizing stack with
  | nil => exact (List.append_nil stack).symm
  | cons name rest ih =>
    have hfirst : resolve stack (.name name) = stack ++ [.name name] := rfl
    rw [named, List.map_cons, List.foldl_cons, hfirst]
    exact (ih _).trans (by simp [named])

theorem resolve_name_rooted (front names : List (List Char)) :
    (named names).foldl resolve (.root :: named front) = .root :: named (front ++ names) := by
  rw [resolve_name]
  simp [named]

theorem resolve_up_named (front : List (List Char)) (last : List Char) :
    resolve (.root :: named (front ++ [last])) .up = .root :: named front := by
  have hshape : Component.root :: named (front ++ [last]) =
      (.root :: named front) ++ [.name last] := by simp [named]
  rw [hshape]
  unfold resolve
  rw [List.getLast?_append_of_ne_nil _ (by simp), List.dropLast_concat]
  rfl

/-- Going up as often as there are names to leave leads to those before them. -/
theorem resolve_ups (front back : List (List Char)) :
    (List.replicate back.length Component.up).foldl resolve (.root :: named (front ++ back)) =
      .root :: named front := by
  induction back using List.reverseRecOn with
  | nil => simp
  | append_singleton back last ih =>
    rw [List.length_append, List.length_singleton, List.replicate_succ, List.foldl_cons,
      ← List.append_assoc, resolve_up_named]
    exact ih

/-- From the root one only ever gets to names. -/
theorem resolve_rooted {rest : List Component}
    (h : ∀ c ∈ rest, c = .up ∨ ∃ name, IsName name ∧ c = .name name)
    (hnames : ∀ name ∈ names, IsName name) :
    ∃ names', (∀ name ∈ names', IsName name) ∧
      rest.foldl resolve (.root :: named names) = .root :: named names' := by
  induction rest generalizing names with
  | nil => exact ⟨names, hnames, rfl⟩
  | cons c rest ih =>
    have hlater : ∀ c ∈ rest, c = .up ∨ ∃ name, IsName name ∧ c = .name name :=
      fun other hmem => h other (List.mem_cons_of_mem _ hmem)
    rw [List.foldl_cons]
    rcases h c List.mem_cons_self with rfl | ⟨name, hname, rfl⟩
    · rcases List.eq_nil_or_concat names with rfl | ⟨front, last, rfl⟩
      · exact ih hlater hnames
      · rw [List.concat_eq_append] at hnames ⊢
        rw [resolve_up_named]
        exact ih hlater fun name hmem => hnames name (List.mem_append_left _ hmem)
    · have hstep : resolve (.root :: named names) (.name name) = .root :: named (names ++ [name]) := by
        simp [resolve, named]
      rw [hstep]
      refine ih hlater fun other hmem => ?_
      rcases List.mem_append.1 hmem with hmem | hmem
      · exact hnames other hmem
      · rw [List.mem_singleton.1 hmem]
        exact hname

/-! ## Texts of components -/

theorem components_of_rooted (hnames : ∀ name ∈ names, IsName name) :
    (ofComponents (.root :: named names)).components = .root :: named names := by
  have htext : (ofComponents (.root :: named names)).components =
      .root :: (Text.split '/' (Text.join ['/'] names)).filterMap component? := by
    unfold ofComponents components
    rw [String.toList_ofList, textOf]
    simp [componentsOf, named, Component.text, Function.comp_def]
  rw [htext]
  cases names with
  | nil => rfl
  | cons name rest =>
    rw [Text.split_join (by simp) fun piece hmem => (hnames piece hmem).unsplit,
      filterMap_names hnames]

/-- The text of a path that goes up some steps and then to some names. -/
theorem textOf_relative (ups : Nat) (names : List (List Char)) :
    textOf (List.replicate ups .up ++ named names) =
      Text.join ['/'] (List.replicate ups ['.', '.'] ++ names) := by
  have htexts : (List.replicate ups Component.up ++ named names).map Component.text =
      List.replicate ups ['.', '.'] ++ names := by
    simp [named, Component.text, Function.comp_def]
  rw [← htexts]
  unfold textOf
  split
  · next rest heq =>
    cases ups with
    | zero =>
      cases names with
      | nil => cases heq
      | cons name names => cases heq
    | succ ups => cases heq
  · rfl

/-- The segments of a path that goes up some steps and then to some names. -/
theorem split_relative (ups : Nat) (hnames : ∀ name ∈ names, IsName name) :
    (Text.split '/' (textOf (List.replicate ups .up ++ named names))).filterMap component? =
      List.replicate ups .up ++ named names := by
  rw [textOf_relative]
  by_cases hne : List.replicate ups ['.', '.'] ++ names = []
  · obtain ⟨hups, rfl⟩ := List.append_eq_nil_iff.1 hne
    obtain rfl : ups = 0 := by simpa using hups
    rfl
  · rw [Text.split_join hne]
    · rw [List.filterMap_append, filterMap_names hnames, List.filterMap_replicate_of_some]
      rfl
    · intro piece hmem
      rcases List.mem_append.1 hmem with hmem | hmem
      · rw [List.eq_of_mem_replicate hmem]
        decide
      · exact (hnames piece hmem).unsplit

theorem isAbsolute_rooted (parts : List Component) :
    (ofComponents (.root :: parts)).isAbsolute = true := by
  unfold isAbsolute ofComponents
  rw [String.toList_ofList]
  rfl

/-- A path that goes up some steps and then to some names is not absolute. -/
theorem isAbsolute_relative (ups : Nat) (hnames : ∀ name ∈ names, IsName name) :
    (ofComponents (List.replicate ups .up ++ named names)).isAbsolute = false := by
  have htext : (ofComponents (List.replicate ups .up ++ named names)).text.toList =
      Text.join ['/'] (List.replicate ups ['.', '.'] ++ names) := by
    rw [← textOf_relative, ofComponents, String.toList_ofList]
  rw [isAbsolute, htext]
  apply Text.head?_join_ne
  intro piece hmem
  rcases List.mem_append.1 hmem with hmem | hmem
  · rw [List.eq_of_mem_replicate hmem]
    decide
  · exact ⟨(hnames piece hmem).ne_nil, (hnames piece hmem).unsplit⟩

/-- A path whose text is appended to an absolute directory goes on from there. -/
theorem components_joined {base : Path} (hbase : base.isAbsolute = true) (ups : Nat)
    (hnames : ∀ name ∈ names, IsName name) :
    (base.joined (ofComponents (List.replicate ups .up ++ named names))).components =
      base.components ++ (List.replicate ups .up ++ named names) := by
  obtain ⟨front, hfront⟩ : ∃ front, base.text.toList = '/' :: front := by
    unfold isAbsolute at hbase
    cases htext : base.text.toList with
    | nil =>
      rw [htext] at hbase
      cases hbase
    | cons c front =>
      rw [htext, List.head?_cons, beq_iff_eq, Option.some.injEq] at hbase
      exact ⟨front, by rw [hbase]⟩
  have hback : (ofComponents (List.replicate ups .up ++ named names)).text.toList =
      textOf (List.replicate ups .up ++ named names) := String.toList_ofList
  have hcomponents : base.components = .root :: (Text.split '/' front).filterMap component? := by
    rw [components, hfront]
    rfl
  unfold joined
  rw [isAbsolute_relative ups hnames, if_neg Bool.false_ne_true, hfront, hback, hcomponents]
  dsimp only
  by_cases hslash : '/' :: front = [] ∨ ('/' :: front).getLast? = some '/'
  · rw [if_pos hslash, components, String.toList_ofList, List.cons_append, componentsOf,
      List.cons_append]
    refine congrArg _ ?_
    rcases List.eq_nil_or_concat front with rfl | ⟨init, last, rfl⟩
    · exact split_relative ups hnames
    · rw [List.concat_eq_append] at hslash ⊢
      obtain rfl : last = '/' := by
        rcases hslash with hnil | hlast
        · cases hnil
        · rw [← List.cons_append, List.getLast?_concat] at hlast
          exact Option.some.inj hlast
      rw [filterMap_split_slash, List.append_assoc, List.singleton_append, filterMap_split_append,
        split_relative ups hnames]
  · rw [if_neg hslash, components, String.toList_ofList, List.cons_append, componentsOf,
      filterMap_split_append, split_relative ups hnames, List.cons_append]

end Components

/-! ## Normal paths -/

theorem Normal.components_eq {path : Path} (h : path.Normal) :
    ∃ names, (∀ name ∈ names, IsName name) ∧ path.components = .root :: named names := by
  obtain ⟨rest, hcomponents, hrest⟩ := components_of_absolute h.absolute
  obtain ⟨names, hnames, hresolved⟩ := resolve_rooted hrest (List.forall_mem_nil _)
  have hnormal : normalComponents path.components = .root :: named names := by
    rw [hcomponents, normalComponents, List.foldl_cons]
    exact hresolved
  refine ⟨names, hnames, ?_⟩
  have hsame : path.normalize.components = path.components := of_decide_eq_true h.normal
  rw [← hsame, normalize, hnormal, components_of_rooted hnames]

/-- Two lists of names go together for a while and then apart. -/
theorem sharedLength_named (start goal : List (List Char)) :
    ∃ common left right, start = common ++ left ∧ goal = common ++ right ∧
      sharedLength (named start) (named goal) = common.length := by
  induction start generalizing goal with
  | nil => exact ⟨[], [], goal, rfl, rfl, rfl⟩
  | cons name rest ih =>
    cases goal with
    | nil => exact ⟨[], name :: rest, [], rfl, rfl, rfl⟩
    | cons other others =>
      by_cases heq : name = other
      · obtain ⟨common, left, right, hstart, hgoal, hlength⟩ := ih others
        refine ⟨name :: common, left, right, ?_, ?_, ?_⟩
        · rw [hstart, List.cons_append]
        · rw [← heq, hgoal, List.cons_append]
        · rw [named, named, List.map_cons, List.map_cons, sharedLength, heq, if_pos rfl]
          exact congrArg (· + 1) hlength
      · refine ⟨[], name :: rest, other :: others, rfl, rfl, ?_⟩
        have hne : Component.name name ≠ .name other := fun h => heq (Component.name.inj h)
        rw [named, named, List.map_cons, List.map_cons, sharedLength, if_neg hne]
        rfl

/-- From a directory the path to a target leads to the target. -/
theorem normalize_joined_relativeTo {directory path : Path} {base target : List (List Char)}
    (habsolute : directory.isAbsolute = true) (hbase : directory.components = .root :: named base)
    (htarget : ∀ name ∈ target, IsName name) (hpath : path.components = .root :: named target) :
    (directory.joined (relativeTo directory path)).normalize = ofComponents (.root :: named target) := by
  obtain ⟨common, left, right, hstart, hgoal, hshared⟩ := sharedLength_named base target
  have hlength : sharedLength (.root :: named base) (.root :: named target) = common.length + 1 := by
    rw [sharedLength, if_pos rfl, hshared]
  have hright : ∀ name ∈ right, IsName name := fun name hmem =>
    htarget name (hgoal ▸ List.mem_append_right _ hmem)
  have hrelative : relativeTo directory path =
      ofComponents (List.replicate left.length .up ++ named right) := by
    unfold relativeTo
    dsimp only
    rw [hbase, hpath, hlength, if_neg (by omega)]
    have hups : (Component.root :: named base).length - (common.length + 1) = left.length := by
      rw [hstart]
      simp [named]
    have hrest : (Component.root :: named target).drop (common.length + 1) = named right := by
      rw [hgoal]
      simp [named]
    rw [hups, hrest]
  have hresolved : normalComponents
      (.root :: named base ++ (List.replicate left.length .up ++ named right)) =
      .root :: named target := by
    rw [normalComponents, List.cons_append, List.foldl_cons, List.foldl_append,
      List.foldl_append]
    have hroot : resolve [] .root = .root :: named [] := rfl
    rw [hroot, resolve_name_rooted, List.nil_append, hstart, resolve_ups, resolve_name_rooted,
      ← hgoal]
  rw [hrelative, normalize, components_joined habsolute left.length hright, hbase, hresolved]

theorem joined_relativeTo {directory path : Path} {base target : List (List Char)}
    (habsolute : directory.isAbsolute = true) (hbase : directory.components = .root :: named base)
    (htarget : ∀ name ∈ target, IsName name) (hpath : path.components = .root :: named target) :
    (directory.joined (relativeTo directory path)).normalize.components = path.components := by
  rw [normalize_joined_relativeTo habsolute hbase htarget hpath, components_of_rooted htarget, hpath]

/-- The directory of a normal path: the names before the last; the root has none. -/
theorem directory_eq {path : Path} {names : List (List Char)}
    (h : path.components = .root :: named names) :
    path.directory = ⟨""⟩ ∧ names = [] ∨
      ∃ front last, names = front ++ [last] ∧ path.directory = ofComponents (.root :: named front) := by
  rcases List.eq_nil_or_concat names with rfl | ⟨front, last, rfl⟩
  · left
    refine ⟨?_, rfl⟩
    rw [directory, parent?, h]
    rfl
  · right
    refine ⟨front, last, List.concat_eq_append, ?_⟩
    have hreverse : path.components.reverse =
        .name last :: (Component.root :: named front).reverse := by
      rw [h, List.concat_eq_append]
      simp [named]
    rw [directory, parent?, hreverse]
    simp only [List.reverse_reverse, Option.getD_some]

/-- A normal path as seen from the directory of another leads back to itself from there. -/
theorem Normal.joined_directory {file target : Path} (hfile : file.Normal) (htarget : target.Normal) :
    ((file.directory.joined (relativeTo file.directory target)).normalize).same target = true := by
  obtain ⟨names, hnames, hcomponents⟩ := hfile.components_eq
  obtain ⟨goal, hgoal, hpath⟩ := htarget.components_eq
  apply decide_eq_true
  rcases directory_eq hcomponents with ⟨hdirectory, -⟩ | ⟨front, last, rfl, hdirectory⟩
  · -- nothing is above the root: the target is written as it is
    have hrelative : relativeTo ⟨""⟩ target = target := by
      unfold relativeTo
      have hempty : (⟨""⟩ : Path).components = [] := rfl
      rw [hempty, hpath]
      rfl
    rw [hdirectory, hrelative, joined, if_pos htarget.absolute]
    exact of_decide_eq_true htarget.normal
  · rw [hdirectory]
    exact joined_relativeTo (isAbsolute_rooted _)
      (components_of_rooted fun name hmem => hnames name (List.mem_append_left _ hmem)) hgoal hpath

end Path

end Provision
