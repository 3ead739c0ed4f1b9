import Mathlib.Data.List.Cycle
import Mathlib.Logic.Relation
import Provision.Graph.Cycles
import Provision.Proofs.Sorted

/-!
# Which cycles are reported

The search reports a cycle when it comes to a node that is on the path already, so
what it reports is a cycle of the graph.  It does not enter a node a second time
and may therefore miss cycles, but not all of them: a node is finished when all
its targets are, and if none of them led back to the path, no cycle goes through a
finished node.
-/

namespace Provision.Graph

open Relation (TransGen)

variable {κ : Type} [Ranked κ]

/-- The nodes are different, each has an edge to the next and the last one to the first, which is
the smallest. -/
structure Circuit (edge : κ → κ → Prop) (nodes : List κ) : Prop where
  ne_nil : nodes ≠ []
  nodup : nodes.Nodup
  chain : (nodes : Cycle κ).Chain edge
  least : ∀ first ∈ nodes.head?, ∀ node ∈ nodes, node = first ∨ Ranked.before first node = true

/-- The cycles are some of those that a relation has, in increasing order, and none only if it has
none. -/
structure Reports (edge : κ → κ → Prop) (cycles : List (List κ)) : Prop where
  strict : Sorted.Strict cycles
  circuits : ∀ nodes ∈ cycles, Circuit edge nodes
  complete : cycles = [] ↔ ∀ node, ¬ TransGen edge node node

omit [Ranked κ] in
/-- Every node of a circuit leads back to itself. -/
theorem transGen_of_chain {edge : κ → κ → Prop} {nodes : List κ}
    (h : (nodes : Cycle κ).Chain edge) {node : κ} (hnode : node ∈ nodes) :
    TransGen edge node node := by
  have hpaths : (nodes : Cycle κ).Chain (TransGen edge) := h.imp fun _ _ => .single
  exact Cycle.chain_iff_pairwise.1 hpaths node hnode node hnode

/-! ## Cycles turned to their smallest node -/

section Turning

theorem smallest_mem (first : κ) (rest : List κ) : smallest first rest ∈ first :: rest := by
  induction rest generalizing first with
  | nil => exact List.mem_singleton.2 rfl
  | cons node rest ih =>
    rw [smallest]
    rcases List.mem_cons.1 (ih (if Ranked.before node first then node else first)) with heq | hmem
    · rw [heq]
      split
      · exact List.mem_cons_of_mem _ List.mem_cons_self
      · exact List.mem_cons_self
    · exact List.mem_cons_of_mem _ (List.mem_cons_of_mem _ hmem)

variable [Ranked.Linear κ]

/-- Coming first or being the same is transitive. -/
theorem eq_or_before_trans {a b c : κ} (hab : b = a ∨ Ranked.before a b = true)
    (hbc : c = b ∨ Ranked.before b c = true) :
    c = a ∨ Ranked.before a c = true := by
  rcases hab with rfl | hab
  · exact hbc
  · rcases hbc with rfl | hbc
    · exact Or.inr hab
    · exact Or.inr (IsTrans.trans (r := fun a b : κ => Ranked.before a b = true) a b c hab hbc)

theorem smallest_least (first : κ) (rest : List κ) :
    ∀ node ∈ first :: rest, node = smallest first rest ∨
      Ranked.before (smallest first rest) node = true := by
  induction rest generalizing first with
  | nil => exact fun node hnode => Or.inl (List.mem_singleton.1 hnode)
  | cons second rest ih =>
    rw [smallest]
    have hrest := ih (if Ranked.before second first then second else first)
    have hpicked := hrest _ List.mem_cons_self
    intro node hnode
    rcases List.mem_cons.1 hnode with rfl | hnode
    · refine eq_or_before_trans hpicked ?_
      split
      · next hbefore => exact Or.inr hbefore
      · exact Or.inl rfl
    · rcases List.mem_cons.1 hnode with rfl | hnode
      · refine eq_or_before_trans hpicked ?_
        split
        · exact Or.inl rfl
        · next hbefore =>
          by_contra hnot
          rw [not_or] at hnot
          exact hnot.1 (Std.Trichotomous.trichotomous
            (r := fun a b : κ => Ranked.before a b = true) node first hbefore hnot.2)
      · exact hrest node (List.mem_cons_of_mem _ hnode)

variable [DecidableEq κ]

omit [Ranked.Linear κ] in
theorem isRotated_rotate (nodes : List κ) : nodes ~r rotate nodes := by
  cases nodes with
  | nil => exact List.IsRotated.refl _
  | cons first rest =>
    have hrotated : (first :: rest).takeWhile (· ≠ smallest first rest) ++
        (first :: rest).dropWhile (· ≠ smallest first rest) ~r rotate (first :: rest) :=
      List.isRotated_append
    rwa [List.takeWhile_append_dropWhile] at hrotated

omit [Ranked.Linear κ] [Ranked κ] in
/-- Dropping what stands before a node leaves the node and what follows it. -/
theorem dropWhile_ne {node : κ} {nodes : List κ} (h : node ∈ nodes) :
    ∃ front back, nodes = front ++ node :: back ∧ nodes.dropWhile (· ≠ node) = node :: back := by
  induction nodes with
  | nil => cases h
  | cons first rest ih =>
    by_cases hfirst : first = node
    · refine ⟨[], rest, by rw [hfirst, List.nil_append], ?_⟩
      rw [List.dropWhile_cons_of_neg (by simpa using hfirst), hfirst]
    · obtain ⟨front, back, heq, hdrop⟩ := ih ((List.mem_cons.1 h).resolve_left (Ne.symm hfirst))
      refine ⟨first :: front, back, by rw [heq, List.cons_append], ?_⟩
      rw [List.dropWhile_cons_of_pos (by simpa using hfirst), hdrop]

omit [Ranked.Linear κ] in
theorem head?_rotate (first : κ) (rest : List κ) :
    (rotate (first :: rest)).head? = some (smallest first rest) := by
  obtain ⟨front, back, -, hdrop⟩ := dropWhile_ne (smallest_mem first rest)
  show (List.dropWhile _ _ ++ List.takeWhile _ _).head? = _
  rw [hdrop]
  rfl

/-- Turning a cycle to its smallest node makes it a circuit. -/
theorem circuit_rotate {edge : κ → κ → Prop} {nodes : List κ} (hne : nodes ≠ [])
    (hnodup : nodes.Nodup) (hchain : (nodes : Cycle κ).Chain edge) :
    Circuit edge (rotate nodes) := by
  have hrotated := isRotated_rotate nodes
  have hmem : ∀ node, node ∈ rotate nodes ↔ node ∈ nodes := fun node => hrotated.symm.mem_iff
  refine ⟨?_, hrotated.nodup_iff.1 hnodup, Cycle.coe_eq_coe.2 hrotated ▸ hchain, ?_⟩
  · intro hempty
    rw [hempty] at hrotated
    exact hne (List.isRotated_nil_iff.1 hrotated)
  · cases nodes with
    | nil => exact absurd rfl hne
    | cons first rest =>
      rw [head?_rotate]
      rintro _ ⟨⟩ node hnode
      exact smallest_least first rest node ((hmem node).1 hnode)

end Turning

/-! ## The search -/

section Searching

variable [DecidableEq κ] {edges : Edges κ} {path : List κ} {node target : κ}
variable {search : Search κ}

/-- There is an edge from one node to the other. -/
def Leads (edges : Edges κ) (node target : κ) : Prop :=
  target ∈ (edges.get? node).getD []

/-- What visiting some nodes one after another leads to. -/
def visitAll (edges : Edges κ) (n : Nat) (path nodes : List κ) (search : Search κ) : Search κ :=
  nodes.foldl (fun s target => visit edges n path target s) search

/-- Visiting a node keeps what it keeps in each of the three cases: the node is finished, it lies
on the path, or its targets are visited below it. -/
theorem visit_cases {motive : Search κ → Prop} (n : Nat)
    (hfinished : node ∈ search.finished → motive search)
    (hpath : node ∉ search.finished → node ∈ path → motive
      { search with cycles := Sorted.insert (rotate (path.dropWhile (· ≠ node))) search.cycles })
    (hnew : node ∉ search.finished → node ∉ path → motive
      { visitAll edges n (path ++ [node]) (Sorted.ofList ((edges.get? node).getD [])) search with
        finished := node ::
          (visitAll edges n (path ++ [node]) (Sorted.ofList ((edges.get? node).getD []))
            search).finished }) :
    motive (visit edges (n + 1) path node search) := by
  rw [visit]
  split
  · next h => exact hfinished h
  · next h =>
    split
    · next h' => exact hpath h h'
    · next h' => exact hnew h h'

/-! ### What is reported -/

/-- The cycles found are circuits in increasing order. -/
structure Search.Sound (edges : Edges κ) (search : Search κ) : Prop where
  strict : Sorted.Strict search.cycles
  circuits : ∀ nodes ∈ search.cycles, Circuit (Leads edges) nodes

variable [Ranked.Linear κ]

/-- Coming back to a node of the path closes a circuit. -/
theorem circuit_of_path (hnodup : path.Nodup) (hchain : (path ++ [node]).IsChain (Leads edges))
    (hnode : node ∈ path) :
    Circuit (Leads edges) (rotate (path.dropWhile (· ≠ node))) := by
  obtain ⟨front, back, hpath, hdrop⟩ := dropWhile_ne hnode
  rw [hdrop]
  rw [hpath] at hnodup hchain
  refine circuit_rotate (List.cons_ne_nil _ _) (List.nodup_append.1 hnodup).2.1 ?_
  rw [List.append_assoc] at hchain
  exact (Cycle.chain_coe_cons _ _ _).2 hchain.right_of_append

omit [Ranked κ] [Ranked.Linear κ] [DecidableEq κ] in
theorem nodup_concat (hnodup : path.Nodup) (hnode : node ∉ path) : (path ++ [node]).Nodup :=
  List.nodup_append.2 ⟨hnodup, List.nodup_singleton _, by
    rintro other hother _ hlast rfl
    exact hnode (List.mem_singleton.1 hlast ▸ hother)⟩

theorem visit_sound (n : Nat) (hnodup : path.Nodup)
    (hchain : (path ++ [node]).IsChain (Leads edges)) (h : search.Sound edges) :
    (visit edges n path node search).Sound edges := by
  induction n generalizing path node search with
  | zero => exact h
  | succ n ih =>
    refine visit_cases n (fun _ => h) (fun _ hnode => ?_) fun _ hnode => ?_
    · refine ⟨Sorted.strict_insert _ h.strict, fun nodes hnodes => ?_⟩
      rcases Sorted.mem_insert.1 hnodes with rfl | hnodes
      · exact circuit_of_path hnodup hchain hnode
      · exact h.circuits nodes hnodes
    · have hall : (visitAll edges n (path ++ [node])
          (Sorted.ofList ((edges.get? node).getD [])) search).Sound edges := by
        refine List.foldlRecOn (motive := fun s : Search κ => s.Sound edges) _ _ h ?_
        intro s hs target htarget
        refine ih (nodup_concat hnodup hnode) ?_ hs
        have hlead : Leads edges node target := Sorted.mem_ofList.1 htarget
        rw [List.append_assoc, List.singleton_append, List.isChain_split]
        exact ⟨hchain, List.isChain_pair.2 hlead⟩
      exact ⟨hall.strict, hall.circuits⟩

/-! ### What is missed -/

omit [Ranked.Linear κ] in
/-- What is found stays found. -/
theorem cycles_subset_visit (n : Nat) (path : List κ) (node : κ) (search : Search κ) :
    search.cycles ⊆ (visit edges n path node search).cycles := by
  induction n generalizing path node search with
  | zero => exact List.Subset.refl _
  | succ n ih =>
    refine visit_cases (motive := fun s => search.cycles ⊆ s.cycles) n
      (fun _ => List.Subset.refl _) (fun _ _ => ?_) fun _ _ => ?_
    · exact fun nodes hnodes => Sorted.mem_insert.2 (Or.inr hnodes)
    · refine List.foldlRecOn (motive := fun s : Search κ => search.cycles ⊆ s.cycles) _ _
        (List.Subset.refl _) ?_
      exact fun s hs target _ => List.Subset.trans hs (ih _ target s)

/-- Every target of a finished node was finished before the node, which stands in front. -/
def Closed (edges : Edges κ) : List κ → Prop
  | [] => True
  | node :: rest => (∀ target, Leads edges node target → target ∈ rest) ∧ Closed edges rest

omit [Ranked κ] [Ranked.Linear κ] in
theorem Closed.mem_of_leads {finished : List κ} (h : Closed edges finished)
    (hnode : node ∈ finished) (hlead : Leads edges node target) : target ∈ finished := by
  induction finished with
  | nil => cases hnode
  | cons first rest ih =>
    rcases List.mem_cons.1 hnode with rfl | hnode
    · exact List.mem_cons_of_mem _ (h.1 target hlead)
    · exact List.mem_cons_of_mem _ (ih h.2 hnode)

omit [Ranked κ] [Ranked.Linear κ] in
theorem Closed.mem_of_transGen {finished : List κ} (h : Closed edges finished)
    (hnode : node ∈ finished) (hpath : TransGen (Leads edges) node target) : target ∈ finished := by
  induction hpath with
  | single hlead => exact h.mem_of_leads hnode hlead
  | tail _ hlead ih => exact h.mem_of_leads ih hlead

omit [Ranked κ] [Ranked.Linear κ] in
/-- No cycle goes through a finished node. -/
theorem Closed.acyclic {finished : List κ} (h : Closed edges finished) (hnode : node ∈ finished) :
    ¬ TransGen (Leads edges) node node := by
  induction finished with
  | nil => cases hnode
  | cons first rest ih =>
    intro hcycle
    by_cases hrest : node ∈ rest
    · exact ih h.2 hrest hcycle
    · obtain rfl := (List.mem_cons.1 hnode).resolve_right hrest
      -- the cycle leaves for the nodes finished before, and these do not lead back
      obtain ⟨target, hlead, hback⟩ := Relation.TransGen.head'_iff.1 hcycle
      have htarget := h.1 target hlead
      rcases Relation.reflTransGen_iff_eq_or_transGen.1 hback with rfl | hback
      · exact hrest htarget
      · exact hrest (h.2.mem_of_transGen htarget hback)

/-- The search has finished some nodes and everything that they lead to. -/
structure Finishes (edges : Edges κ) (search after : Search κ) (nodes : List κ) : Prop where
  closed : Closed edges after.finished
  kept : search.finished ⊆ after.finished
  done : nodes ⊆ after.finished

omit [Ranked.Linear κ] in
/-- Nodes are finished one after another, as long as no cycle is found. -/
theorem visitAll_finishes {n : Nat} {nodes : List κ}
    (hvisit : ∀ node ∈ nodes, ∀ s : Search κ, Closed edges s.finished →
      (visit edges n path node s).cycles = [] →
        Finishes edges s (visit edges n path node s) [node])
    (hclosed : Closed edges search.finished)
    (hempty : (visitAll edges n path nodes search).cycles = []) :
    Finishes edges search (visitAll edges n path nodes search) nodes := by
  induction nodes generalizing search with
  | nil => exact ⟨hclosed, List.Subset.refl _, List.nil_subset _⟩
  | cons first rest ih =>
    have hsubset : (visit edges n path first search).cycles ⊆
        (visitAll edges n path (first :: rest) search).cycles :=
      List.foldlRecOn (motive := fun s : Search κ =>
        (visit edges n path first search).cycles ⊆ s.cycles) rest _ (List.Subset.refl _)
        fun s hs target _ => List.Subset.trans hs (cycles_subset_visit n path target s)
    rw [hempty] at hsubset
    have hfirst := hvisit first List.mem_cons_self search hclosed (List.subset_nil.1 hsubset)
    have hrest := ih (fun node hnode => hvisit node (List.mem_cons_of_mem _ hnode)) hfirst.closed hempty
    refine ⟨hrest.closed, List.Subset.trans hfirst.kept hrest.kept, ?_⟩
    exact List.cons_subset.2 ⟨hrest.kept (hfirst.done List.mem_cons_self), hrest.done⟩

omit [Ranked κ] [Ranked.Linear κ] in
theorem mem_keys_of_leads (h : Leads edges node target) : node ∈ edges.keys := by
  refine Table.mem_keys_iff.2 ?_
  unfold Leads at h
  cases hnode : edges.get? node with
  | none =>
    rw [hnode] at h
    cases h
  | some targets => rfl

omit [Ranked κ] [Ranked.Linear κ] [DecidableEq κ] in
theorem length_le_pathBound (edges : Edges κ) : edges.length + 2 ≤ pathBound edges := by
  unfold pathBound
  have hfold : ∀ bound : Nat,
      bound ≤ List.foldl (fun bound (entry : κ × List κ) => bound + entry.2.length) bound edges := by
    intro bound
    refine List.foldlRecOn (motive := fun sum : Nat => bound ≤ sum) _ _ (Nat.le_refl _) ?_
    exact fun sum hsum entry _ => Nat.le_add_right_of_le hsum
  exact Nat.add_le_add_right (hfold _) 2

omit [Ranked.Linear κ] in
/-- A visit that finds no cycle finishes its node; the bound leaves room for every node that has
edges and for one more. -/
theorem visit_finishes {n : Nat} (hnodup : path.Nodup) (hpath : path ⊆ edges.keys)
    (hroom : edges.keys.length + 2 ≤ n + path.length) (hclosed : Closed edges search.finished)
    (hempty : (visit edges n path node search).cycles = []) :
    Finishes edges search (visit edges n path node search) [node] := by
  induction n generalizing path node search with
  | zero =>
    have := (hnodup.subperm hpath).length_le
    omega
  | succ n ih =>
    refine visit_cases (motive := fun s => s.cycles = [] → Finishes edges search s [node]) n
      (fun hnode _ => ?_) (fun _ _ hempty => ?_) (fun _ hnode hempty => ?_) hempty
    · exact ⟨hclosed, List.Subset.refl _, List.cons_subset.2 ⟨hnode, List.nil_subset _⟩⟩
    · have hfound : rotate (path.dropWhile (· ≠ node)) ∈
          Sorted.insert (rotate (path.dropWhile (· ≠ node))) search.cycles :=
        Sorted.mem_insert.2 (Or.inl rfl)
      dsimp only at hempty
      rw [hempty] at hfound
      cases hfound
    · have hall : Finishes edges search _ _ := visitAll_finishes (fun target htarget s hs hs' => ?_)
        hclosed hempty
      · refine ⟨⟨fun target hlead => hall.done (Sorted.mem_ofList.2 hlead), hall.closed⟩, ?_, ?_⟩
        · exact List.Subset.trans hall.kept (List.subset_cons_self _ _)
        · exact List.cons_subset.2 ⟨List.mem_cons_self, List.nil_subset _⟩
      · have hlead : Leads edges node target := Sorted.mem_ofList.1 htarget
        refine ih (nodup_concat hnodup hnode) ?_ ?_ hs hs'
        · exact List.append_subset.2 ⟨hpath, List.cons_subset.2
            ⟨mem_keys_of_leads hlead, List.nil_subset _⟩⟩
        · rw [List.length_append, List.length_singleton]
          omega

/-- The search reports cycles of the graph, and some of them if there are any. -/
theorem reports_cycles (edges : Edges κ) : Reports (Leads edges) (cycles edges) := by
  have hsound : (visitAll edges (pathBound edges) [] (Sorted.ofList edges.keys) ⟨[], []⟩).Sound
      edges := by
    refine List.foldlRecOn (motive := fun s : Search κ => s.Sound edges) _ _
      ⟨List.Pairwise.nil, nofun⟩ fun s hs node _ => ?_
    exact visit_sound _ List.nodup_nil (List.isChain_singleton _) hs
  refine ⟨hsound.strict, hsound.circuits, fun hempty node hcycle => ?_, fun hacyclic => ?_⟩
  · have hfinishes : Finishes edges ⟨[], []⟩ _ (Sorted.ofList edges.keys) :=
      visitAll_finishes (fun start hstart s hs hs' => ?_) trivial hempty
    · obtain ⟨target, hlead, -⟩ := Relation.TransGen.head'_iff.1 hcycle
      have hdone := hfinishes.done (Sorted.mem_ofList.2 (mem_keys_of_leads hlead))
      exact hfinishes.closed.acyclic hdone hcycle
    · refine visit_finishes List.nodup_nil (List.nil_subset _) ?_ hs hs'
      have hlength : edges.keys.length = edges.length := List.length_map _
      have := length_le_pathBound edges
      rw [hlength, List.length_nil]
      exact this
  · refine List.eq_nil_iff_forall_not_mem.2 fun nodes hnodes => ?_
    have hcircuit := hsound.circuits nodes hnodes
    obtain ⟨node, hnode⟩ := List.exists_mem_of_ne_nil _ hcircuit.ne_nil
    exact hacyclic node (transGen_of_chain hcircuit.chain hnode)

end Searching

end Provision.Graph
