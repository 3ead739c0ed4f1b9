import Provision.Proofs.Key
import Provision.Proofs.State.Recordable
import Provision.State.Store

/-!
# State files are read back

The trees that state is written as are well formed, so the text of a state file
parses to the trees it was printed from, apart from places.
-/

namespace Provision

open Provision.Language (Node Entry SourceFile IsWord IsTypeText IsBlockType isNameStart
  bareNodes_eq_map parse parseChars_print)

/-! ## Names of types -/

theorem isWord_of_all {word : List Char} (hne : word ≠ [])
    (h : word.all Language.isWordChar = true) :
    IsWord word :=
  ⟨hne, List.all_eq_true.1 h⟩

theorem Key.Nameable.isBlockType {key : Key} (h : key.Nameable) : IsBlockType key.type.text := by
  refine ⟨key.type.isTypeText, ?_⟩
  obtain ⟨space, kind, hspace, -, heq, htext⟩ := key.type.text_eq
  have hstart := h.space
  rw [heq, String.toList_ofList] at hstart
  obtain ⟨c, rest, rfl⟩ := List.exists_cons_of_ne_nil hspace.ne_nil
  rw [htext]
  exact hstart

/-! ## Trees that state is written as -/

section Trees

variable {value : Value} {resource : Resource} {file : FileScope} {registry : Registry}

theorem valueNodes_eq_map (items : List Value) : valueNodes items = items.map valueNode := by
  induction items with
  | nil => rfl
  | cons item rest ih => rw [valueNodes, ih, List.map_cons]

theorem valueEntries_eq_map (entries : List (String × Value)) :
    valueEntries entries = entries.map fun entry => ⟨entry.1, valueNode entry.2, Span.generated⟩ := by
  induction entries with
  | nil => rfl
  | cons entry rest ih =>
    obtain ⟨key, item⟩ := entry
    rw [valueEntries, ih, List.map_cons]

theorem isStatement_valueNode (value : Value) : (valueNode value).isStatement = false := by
  cases value <;> rfl

theorem printable_text (s : String) : (Node.text s).Everywhere Node.Printable :=
  .leaf ⟨trivial, trivial, trivial⟩ rfl

/-- The tree of a value reads back. -/
theorem Value.Writable.printable (h : value.Writable) :
    (valueNode value).Everywhere Node.Printable := by
  induction h with
  | null => exact .leaf ⟨trivial, trivial, trivial⟩ rfl
  | bool b => exact .leaf ⟨trivial, trivial, trivial⟩ rfl
  | number hfinite => exact .leaf ⟨trivial, hfinite, trivial⟩ rfl
  | text s => exact printable_text s
  | @list items _ ih =>
    rw [valueNode, valueNodes_eq_map]
    refine .intro ⟨?_, trivial, trivial⟩ ?_
    · exact List.forall_mem_map.2 fun item _ => isStatement_valueNode item
    · exact List.forall_mem_map.2 ih
  | @map entries _ _ ih =>
    rw [valueNode, valueEntries_eq_map]
    refine .intro ⟨?_, trivial, trivial⟩ ?_
    · exact List.forall_mem_map.2 fun entry _ => isStatement_valueNode entry.2
    · rw [Node.children, List.map_map]
      exact List.forall_mem_map.2 ih
  | resource key =>
    refine .intro ⟨⟨key.type.isTypeText, ?_, Or.inl rfl⟩, trivial, ?_⟩ ?_
    · rintro node ⟨⟩
      rfl
    · rintro node ⟨⟩
      rfl
    · exact List.forall_mem_singleton.2 (printable_text key.name)

theorem printable_pairNode {key : String} {node : Node} (hvalue : node.isStatement = false)
    (h : node.Everywhere Node.Printable) :
    (pairNode key node).Everywhere Node.Printable :=
  .intro ⟨hvalue, trivial, trivial⟩ (List.forall_mem_singleton.2 h)

theorem printable_noteNode {name : String} (hname : IsWord name.toList) (argument : String) :
    (noteNode name argument).Everywhere Node.Printable := by
  refine .intro ⟨?_, trivial, trivial⟩ ?_
  · refine ⟨hname, Bool.noConfusion, List.forall_mem_singleton.2 rfl, ?_, fun _ => ⟨rfl, rfl⟩, ?_, ?_,
      ?_⟩
    · exact fun _ h => nomatch h
    · exact fun _ h => nomatch h
    · exact fun h => absurd rfl h
    · exact fun _ h => nomatch h
  · exact List.forall_mem_singleton.2 (printable_text argument)

theorem valueNode_texts (texts : List String) :
    valueNode (.list (texts.map Value.text)) = .list (texts.map Node.text) := by
  rw [valueNode, valueNodes_eq_map, List.map_map]
  rfl

/-- The names and values that the block of a resource gives: its fields and the reserved pairs. -/
def statedPairs (resource : Resource) : Bindings :=
  resource.fields ++ (configuredFieldsKey, .list (resource.configured.map Value.text)) ::
    if resource.dependsOn.isEmpty then []
    else [(dependsOnKey, .list ((resource.dependsOn.map Key.text).map Value.text))]

theorem resourceNode_eq (resource : Resource) :
    resourceNode resource =
      .resource resource.key.type.text (.text resource.key.name)
        ((statedPairs resource).map (fun pair => pairNode pair.1 (valueNode pair.2)) ++
          [noteNode "uses-credentials" resource.credentials]) Span.generated := by
  have htexts : (resource.dependsOn.map fun key => Node.text key.text) =
      (resource.dependsOn.map Key.text).map Node.text := by
    rw [List.map_map]
    rfl
  unfold resourceNode statedPairs
  dsimp only
  rw [htexts, List.map_append, List.map_cons, valueNode_texts]
  split
  · rfl
  · rw [List.map_singleton, valueNode_texts]

theorem writable_texts (texts : List String) : (Value.list (texts.map Value.text)).Writable :=
  .list (List.forall_mem_map.2 fun text _ => .text text)

theorem mem_statedPairs {pair : String × Value} (h : pair ∈ statedPairs resource) :
    pair ∈ resource.fields ∨
      ∃ texts : List String, pair.2 = .list (texts.map Value.text) := by
  unfold statedPairs at h
  rcases List.mem_append.1 h with h | h
  · exact Or.inl h
  · rcases List.mem_cons.1 h with rfl | h
    · exact Or.inr ⟨_, rfl⟩
    · split at h
      · cases h
      · rw [List.mem_singleton.1 h]
        exact Or.inr ⟨_, rfl⟩

theorem Resource.Writable.pairs (h : resource.Writable registry) {pair : String × Value}
    (hpair : pair ∈ statedPairs resource) :
    pair.2.Writable := by
  rcases mem_statedPairs hpair with hfield | ⟨texts, htexts⟩
  · exact (h.fields pair hfield).2
  · rw [htexts]
    exact writable_texts texts

theorem printable_resourceNode (h : resource.Writable registry) :
    (resourceNode resource).Everywhere Node.Printable := by
  rw [resourceNode_eq]
  refine .intro ⟨⟨h.nameable.isBlockType, rfl, ?_⟩, trivial, rfl⟩
    (List.forall_mem_cons.2 ⟨printable_text _, ?_⟩)
  · refine List.forall_mem_append.2 ⟨List.forall_mem_map.2 fun _ _ => rfl, ?_⟩
    exact List.forall_mem_singleton.2 rfl
  · refine List.forall_mem_append.2 ⟨List.forall_mem_map.2 fun pair hpair => ?_, ?_⟩
    · exact printable_pairNode (isStatement_valueNode _) (h.pairs hpair).printable
    · exact List.forall_mem_singleton.2 (printable_noteNode (isWord_of_all (by decide) (by decide)) _)

/-- What stands in a state file. -/
theorem mem_stateFile {node : Node} (h : node ∈ (stateFile file).body) :
    (∃ name argument, IsWord name.toList ∧ node = noteNode name argument) ∨
      ∃ resource ∈ Table.values file.resources, node = resourceNode resource := by
  unfold stateFile at h
  simp only [List.mem_append, List.mem_map] at h
  rcases h with (⟨space, -, rfl⟩ | ⟨path, -, rfl⟩) | ⟨resource, hresource, rfl⟩
  · exact Or.inl ⟨"plugin", space, isWord_of_all (by decide) (by decide), rfl⟩
  · exact Or.inl ⟨"import", _, isWord_of_all (by decide) (by decide), rfl⟩
  · exact Or.inr ⟨resource, hresource, rfl⟩

/-- The text of a state file parses to what it was printed from. -/
theorem parse_stateText (h : ∀ resource ∈ Table.values file.resources, resource.Writable registry)
    (path : String) :
    ∃ source, parse path (stateText file) = .ok source ∧ source.path = path ∧
      source.body.map Node.bare = (stateFile file).body.map Node.bare := by
  have hstatement : ∀ node ∈ (stateFile file).body, node.isStatement = true := by
    intro node hnode
    rcases mem_stateFile hnode with ⟨name, argument, -, rfl⟩ | ⟨resource, -, rfl⟩
    · rfl
    · rfl
  have hprintable : ∀ node ∈ (stateFile file).body, node.Everywhere Node.Printable := by
    intro node hnode
    rcases mem_stateFile hnode with ⟨name, argument, hname, rfl⟩ | ⟨resource, hresource, rfl⟩
    · exact printable_noteNode hname argument
    · exact printable_resourceNode (h resource hresource)
  obtain ⟨got, hparse, hgot⟩ := parseChars_print hstatement hprintable path
  refine ⟨⟨path, got⟩, ?_, rfl, by simpa only [bareNodes_eq_map] using hgot⟩
  unfold parse stateText
  rw [hparse]
  rfl

end Trees

end Provision
