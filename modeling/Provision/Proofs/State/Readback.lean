import Provision.Proofs.Evaluation.Framing
import Provision.Proofs.State.Values

/-!
# Recorded values come back

The text that a value is written as parses and evaluates to the value, as long as
the resources in it are there.  The name of a resource is the one place where the
text may say something else: a name that ends with a star is read as a search.
-/

namespace Provision

open Provision.Language (Node Entry SourceFile bareNodes_eq_map bareEntries_eq_map parse
  parseChars_print)
open Recording

/-! ## Names that single out a resource -/

theorem Text.dropEnding?_star {text : List Char} :
    dropEnding? ['*'] text = none ↔ text.getLast? ≠ some '*' := by
  unfold dropEnding?
  rw [ite_eq_right_iff, List.isSuffixOf_iff_suffix]
  constructor
  · intro h hlast
    obtain ⟨front, rfl⟩ := List.getLast?_eq_some_iff.1 hlast
    cases h ⟨front, rfl⟩
  · rintro h ⟨front, rfl⟩
    exact absurd List.getLast?_concat h

/-- The resources in a value are in the inventory: each has a name, its type is registered, and
it is there. -/
structure Inventory.Provides (inventory : Inventory) (value : Value) : Prop where
  notBlank : ∀ key ∈ value.handles, isBlankText key.name = false
  registered : ∀ key ∈ value.handles, (inventory.registry.type? key.type).isSome = true
  known : value.Known inventory

/-! ## What an expression can come to -/

section Values

variable {view : View} {value : Value} {node : Node}

/-- An expression comes to a value, whatever was read before. -/
def View.Gives (view : View) (node : Node) (value : Value) : Prop :=
  ∃ reads after, (evaluate view node).run reads = (.ok value, after)

theorem gives_of_evaluateAll {nodes : List Node} {values : List Value} {reads after : List Key}
    (hbare : nodes.map Node.bare = (values.map valueNode).map Node.bare)
    (hrun : (evaluateAll view nodes).run reads = (.ok values, after)) :
    ∀ value ∈ values, ∃ node, node.bare = (valueNode value).bare ∧ view.Gives node value := by
  induction values generalizing nodes reads with
  | nil => exact List.forall_mem_nil _
  | cons value rest ih =>
    obtain ⟨node, nodes, rfl, hnode, hnodes⟩ := List.map_eq_cons_iff.1 hbare
    rw [evaluateAll] at hrun
    obtain ⟨first, _, hfirst, hrun⟩ := run_bind_eq_ok.1 hrun
    obtain ⟨later, _, hlater, hrun⟩ := run_bind_eq_ok.1 hrun
    cases hrun
    exact List.forall_mem_cons.2 ⟨⟨node, hnode, _, _, hfirst⟩, ih hnodes hlater⟩

theorem gives_of_evaluateEntries {entries : List Entry} {pairs : List (String × Value)}
    {reads after : List Key}
    (hbare : entries.map Entry.bare = (valueEntries pairs).map Entry.bare)
    (hrun : (evaluateEntries view entries).run reads = (.ok pairs, after)) :
    ∀ pair ∈ pairs, ∃ node, node.bare = (valueNode pair.2).bare ∧ view.Gives node pair.2 := by
  induction pairs generalizing entries reads with
  | nil => exact List.forall_mem_nil _
  | cons pair rest ih =>
    obtain ⟨⟨name, node, span⟩, entries, rfl, hentry, hentries⟩ := List.map_eq_cons_iff.1 hbare
    injection hentry with _ hnode
    rw [evaluateEntries] at hrun
    obtain ⟨first, _, hfirst, hrun⟩ := run_bind_eq_ok.1 hrun
    obtain ⟨later, _, hlater, hrun⟩ := run_bind_eq_ok.1 hrun
    cases hrun
    exact List.forall_mem_cons.2 ⟨⟨node, hnode, _, _, hfirst⟩, ih hentries hlater⟩

/-- When entries come to a table without repetition, that is what their pairs are. -/
theorem pairs_of_evaluateEntries {entries : List Entry} {pairs table : Bindings}
    {reads after : List Key} (htable : Table.Distinct table)
    (hbare : entries.map Entry.bare = (valueEntries table).map Entry.bare)
    (hrun : (evaluateEntries view entries).run reads = (.ok pairs, after)) :
    Table.ofPairs pairs = pairs := by
  have hkeys : pairs.map Prod.fst = table.map Prod.fst := by
    have hnames := congrArg (List.map Entry.key) hbare
    rw [valueEntries_eq_map, List.map_map, List.map_map, List.map_map] at hnames
    have hkey : Entry.key ∘ Entry.bare = Entry.key := funext fun entry => by
      rw [Function.comp_apply, Entry.bare_eq]
    rw [hkey] at hnames
    rw [keys_of_evaluateEntries hrun]
    exact hnames
  have hdistinct : Table.Distinct (([] : Bindings) ++ pairs) := by
    unfold Table.Distinct Table.keys at htable ⊢
    rw [List.nil_append, hkeys]
    exact htable
  exact Table.setAll_append hdistinct

theorem query_run_eq_ok {span : Span} {type : TypeName} {front : String} {path : List String}
    {reads after : List Key}
    (hrun : (query view span type front path).run reads = (.ok value, after)) :
    ∃ values, value = .list values := by
  unfold query at hrun
  split at hrun
  · cases hrun
  · obtain ⟨values, _, -, hrun⟩ := run_bind_eq_ok.1 hrun
    cases hrun
    exact ⟨values, rfl⟩

/-- A reference with a starred name never comes to a single resource. -/
theorem single_of_gives_ref {type : String} {name : String} {span : Span} {key : Key}
    (h : view.Gives (.ref type (some (.text name)) [] span) (.resource key)) :
    Text.dropEnding? ['*'] name.toList = none := by
  obtain ⟨reads, after, hrun⟩ := h
  rw [evaluate] at hrun
  obtain ⟨found, _, -, hrun⟩ := run_bind_eq_ok.1 hrun
  obtain ⟨given, _, hgiven, hrun⟩ := run_bind_eq_ok.1 hrun
  obtain ⟨text, _, htext, hrun⟩ := run_bind_eq_ok.1 hrun
  rw [evaluate] at hgiven
  cases hgiven
  cases htext
  unfold namedValue at hrun
  split at hrun
  · obtain ⟨values, hlist⟩ := query_run_eq_ok hrun
    cases hlist
  · assumption

/-- When the expression of a value comes to the value, all names in it single out a resource. -/
theorem Value.Writable.single_of_gives (h : value.Writable)
    (hbare : node.bare = (valueNode value).bare) (hgives : view.Gives node value) :
    ∀ key ∈ value.handles, Text.dropEnding? ['*'] key.name.toList = none := by
  induction h generalizing node with
  | null => exact List.forall_mem_nil _
  | bool b => exact List.forall_mem_nil _
  | number => exact List.forall_mem_nil _
  | text s => exact List.forall_mem_nil _
  | @list items _ ih =>
    rw [valueNode, Node.bare, bareNodes_eq_map, valueNodes_eq_map] at hbare
    obtain ⟨nodes, rfl, hnodes⟩ := Node.eq_list_of_bare hbare
    obtain ⟨reads, after, hrun⟩ := hgives
    rw [evaluate] at hrun
    obtain ⟨values, _, hvalues, hrun⟩ := run_bind_eq_ok.1 hrun
    cases hrun
    intro key hkey
    rw [Value.handles, Value.handlesOfItems_eq] at hkey
    obtain ⟨item, hitem, hkey⟩ := List.mem_flatMap.1 hkey
    obtain ⟨other, hother, hgives⟩ := gives_of_evaluateAll hnodes hvalues item hitem
    exact ih item hitem hother hgives key hkey
  | @map entries hkeys _ ih =>
    rw [valueNode, Node.bare, bareEntries_eq_map] at hbare
    obtain ⟨given, rfl, hgiven⟩ := Node.eq_map_of_bare hbare
    obtain ⟨reads, after, hrun⟩ := hgives
    rw [evaluate] at hrun
    obtain ⟨pairs, _, hpairs, hrun⟩ := run_bind_eq_ok.1 hrun
    rw [pairs_of_evaluateEntries hkeys hgiven hpairs] at hrun
    cases hrun
    intro key hkey
    rw [Value.handles, Value.handlesOfEntries_eq] at hkey
    obtain ⟨pair, hpair, hkey⟩ := List.mem_flatMap.1 hkey
    obtain ⟨other, hother, hgives⟩ := gives_of_evaluateEntries hgiven hpairs pair hpair
    exact ih pair hpair hother hgives key hkey
  | resource key =>
    obtain ⟨name, place, rfl, hname⟩ := Node.eq_ref_of_bare hbare
    obtain ⟨given, rfl, hgiven⟩ := Option.map_eq_some_iff.1 hname
    obtain rfl := Node.eq_text_of_bare hgiven
    exact List.forall_mem_singleton.2 (single_of_gives_ref hgives)

theorem parse_pairNode (h : value.Writable) (path name : String) :
    ∃ entry, parse path (SourceFile.print ⟨path, [pairNode name (valueNode value)]⟩) =
        .ok ⟨path, [.pair entry]⟩ ∧
      entry.key = name ∧ entry.value.bare = (valueNode value).bare := by
  have hprintable : (pairNode name (valueNode value)).Everywhere Node.Printable :=
    printable_pairNode (isStatement_valueNode value) h.printable
  obtain ⟨nodes, hread, hbare⟩ := @parseChars_print ⟨path, [pairNode name (valueNode value)]⟩
    (List.forall_mem_singleton.2 rfl) (List.forall_mem_singleton.2 hprintable) path
  rw [bareNodes_eq_map, bareNodes_eq_map, List.map_singleton] at hbare
  obtain ⟨node, rfl, hnode⟩ := List.map_eq_singleton_iff.1 hbare
  obtain ⟨entry, rfl, hentry⟩ := Node.eq_pair_of_bare hnode
  refine ⟨entry, ?_, ?_⟩
  · unfold parse
    rw [hread, ok_bind]
  · rw [Entry.bare_eq, Entry.bare_eq] at hentry
    injection hentry with hkey hvalue
    exact ⟨hkey, hvalue⟩

/-- A value is written as the value of a pair, the text is parsed, and the expression found is
evaluated outside of any instance, where the resources in the value are there.  It comes to the
value exactly when the name of none of these resources ends with a star. -/
theorem written_value_comes_back_iff (h : value.Writable) (hqualifier : view.qualifier = none)
    (hprovides : view.inventory.Provides value) (path name : String) :
    ∃ entry, parse path (SourceFile.print ⟨path, [pairNode name (valueNode value)]⟩) =
        .ok ⟨path, [.pair entry]⟩ ∧
      entry.key = name ∧
      ∀ reads, (∃ after, (evaluate view entry.value).run reads = (.ok value, after)) ↔
        ∀ key ∈ value.handles, key.name.toList.getLast? ≠ some '*' := by
  obtain ⟨entry, hparse, hkey, hbare⟩ := parse_pairNode h path name
  refine ⟨entry, hparse, hkey, fun reads => ⟨?_, fun hsingle => ?_⟩⟩
  · rintro ⟨after, hrun⟩ key hmem
    exact Text.dropEnding?_star.1 (h.single_of_gives hbare ⟨reads, after, hrun⟩ key hmem)
  · have haddresses : view.inventory.registry.Addresses value :=
      ⟨hprovides.notBlank, fun key hmem => Text.dropEnding?_star.2 (hsingle key hmem),
        hprovides.registered⟩
    obtain ⟨after, hrun, -⟩ :=
      (h.resolves hqualifier haddresses entry.value hbare).ready hprovides.known reads
    exact ⟨after, hrun⟩

end Values

/-- A cup has a shelf. -/
def cupType : ResourceType :=
  ⟨⟨"store::cup", rfl⟩, [⟨"shelf", false, false, true, false⟩], {}⟩

/-- The key of a cup. -/
def cupKey (name : String) : Key :=
  ⟨cupType.name, name⟩

/-- A state with some cups, seen from outside of any instance. -/
def cupboard (names : List String) : View where
  inventory :=
    { registry := Registry.addType {} cupType
      files := [{ path := ⟨"/s"⟩, resources := names.map fun name =>
        (cupKey name, { key := cupKey name, type := cupType, origin := Span.generated }) }] }
  scope := {}
  qualifier := none
  undeclared := []
  location := Span.generated

/-- A handle to a cup with an odd name, among texts that need quotes. -/
def cupsInUse : Value :=
  .map [("it's", .list [.resource (cupKey "1 */ \" "), .text "$(x)"]), ("true", .null)]

theorem written_value_comes_back_cups :
    ∃ entry, parse "/s" (SourceFile.print ⟨"/s", [pairNode "in use" (valueNode cupsInUse)]⟩) =
        .ok ⟨"/s", [.pair entry]⟩ ∧
      ∃ after, (evaluate (cupboard ["tea", "1 */ \" "]) entry.value).run [] =
        (.ok cupsInUse, after) := by
  have hwritable : cupsInUse.Writable := by
    refine .map ?_ (List.forall_mem_cons.2 ⟨.list ?_, List.forall_mem_singleton.2 .null⟩)
    · show ["it's", "true"].Nodup
      decide
    · exact List.forall_mem_cons.2 ⟨.resource _, List.forall_mem_singleton.2 (.text _)⟩
  have hprovides : (cupboard ["tea", "1 */ \" "]).inventory.Provides cupsInUse := by
    refine ⟨?_, ?_, ?_⟩ <;> exact List.forall_mem_singleton.2 (by decide)
  obtain ⟨entry, hparse, -, hcomes⟩ :=
    written_value_comes_back_iff hwritable rfl hprovides "/s" "in use"
  exact ⟨entry, hparse, (hcomes []).2 (List.forall_mem_singleton.2 (by decide))⟩

/-- A handle to a cup whose name ends with a star comes back as a list of such handles. -/
theorem starred_name_comes_back_as_list :
    (cupboard ["mug*"]).inventory.has (cupKey "mug*") = true ∧
      ∃ entry, parse "/s" (SourceFile.print
          ⟨"/s", [pairNode "v" (valueNode (.resource (cupKey "mug*")))]⟩) =
          .ok ⟨"/s", [.pair entry]⟩ ∧
        (evaluate (cupboard ["mug*"]) entry.value).run [] =
          (.ok (.list [.resource (cupKey "mug*")]), [cupKey "mug*"]) :=
  ⟨by decide, ⟨"v", .ref "store::cup" (some (.text "mug*")) [] ⟨"/s", 1, 4⟩, ⟨"/s", 1, 1⟩⟩, rfl, rfl⟩

end Provision
