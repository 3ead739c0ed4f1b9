import Mathlib.Data.List.Basic
import Provision.Language.Printer

/-!
# Subtrees and printed texts

The trees directly below a tree are its children, whatever list, map or clause
holds them.  A property that is asked of a tree and everything below it is then
one inductive predicate, and induction over a tree has one hypothesis about its
children in place of one for each kind of list.  The text of a tree does not
depend on places.
-/

namespace Provision.Language

/-! ## Lists of trees -/

@[simp] theorem bareNodes_eq_map (nodes : List Node) : bareNodes nodes = nodes.map Node.bare := by
  induction nodes with
  | nil => rfl
  | cons node rest ih => rw [bareNodes, ih, List.map_cons]

@[simp] theorem bareOption_eq_map (node : Option Node) : bareOption node = node.map Node.bare := by
  cases node <;> rfl

@[simp] theorem bareEntries_eq_map (entries : List Entry) :
    bareEntries entries = entries.map Entry.bare := by
  induction entries with
  | nil => rfl
  | cons entry rest ih => rw [bareEntries, ih, List.map_cons]

@[simp] theorem bareClauses_eq_map (clauses : List Clause) :
    bareClauses clauses = clauses.map Clause.bare := by
  induction clauses with
  | nil => rfl
  | cons clause rest ih => rw [bareClauses, ih, List.map_cons]

@[simp] theorem bareBranches_eq_map (branches : List Branch) :
    bareBranches branches = branches.map Branch.bare := by
  induction branches with
  | nil => rfl
  | cons branch rest ih => rw [bareBranches, ih, List.map_cons]

@[simp] theorem inlines_eq_map (nodes : List Node) : inlines nodes = nodes.map Node.inline := by
  induction nodes with
  | nil => rfl
  | cons node rest ih => rw [inlines, ih, List.map_cons]

/-- The text of a tree as a name or argument. -/
def Node.word (node : Node) : List Char :=
  wordOr node node.inline

@[simp] theorem words_eq_map (nodes : List Node) : words nodes = nodes.map Node.word := by
  induction nodes with
  | nil => rfl
  | cons node rest ih => rw [words, ih, List.map_cons, Node.word]

/-- The text of a map entry. -/
def Entry.inline (entry : Entry) : List Char :=
  pairText entry.key entry.value.inline

@[simp] theorem entriesText_eq_map (entries : List Entry) :
    entriesText entries = entries.map Entry.inline := by
  induction entries with
  | nil => rfl
  | cons entry rest ih =>
    obtain ⟨key, value, span⟩ := entry
    rw [entriesText, ih, List.map_cons, Entry.inline]

@[simp] theorem statements_eq_flatMap (depth : Nat) (nodes : List Node) :
    statements depth nodes = nodes.flatMap (Node.lines depth) := by
  induction nodes with
  | nil => rfl
  | cons node rest ih => rw [statements, ih, List.flatMap_cons]

/-- The text of one option of a directive, with the blank before it. -/
def Clause.inline (clause : Clause) : List Char :=
  ' ' :: '-' :: (clause.name.toList ++ argumentsText (clause.arguments.map Node.word))

@[simp] theorem clausesText_eq_flatMap (clauses : List Clause) :
    clausesText clauses = clauses.flatMap Clause.inline := by
  induction clauses with
  | nil => rfl
  | cons clause rest ih =>
    obtain ⟨name, arguments⟩ := clause
    rw [clausesText, ih, words_eq_map, List.flatMap_cons, Clause.inline]
    simp

/-- The text of one branch of a directive. -/
def Branch.lines (depth : Nat) (branch : Branch) : List Char :=
  branchText depth branch.name (!branch.arguments.isEmpty)
    (argumentsText (branch.arguments.map Node.word))
    (branch.body.flatMap (Node.lines (depth + 1)))

@[simp] theorem branchesText_eq_flatMap (depth : Nat) (branches : List Branch) :
    branchesText depth branches = branches.flatMap (Branch.lines depth) := by
  induction branches with
  | nil => rfl
  | cons branch rest ih =>
    obtain ⟨name, arguments, body, span⟩ := branch
    rw [branchesText, ih, words_eq_map, statements_eq_flatMap, List.flatMap_cons, Branch.lines]

theorem Entry.bare_eq (entry : Entry) :
    entry.bare = ⟨entry.key, entry.value.bare, Span.generated⟩ := by
  cases entry
  rfl

theorem Clause.bare_eq (clause : Clause) :
    clause.bare = ⟨clause.name, clause.arguments.map Node.bare⟩ := by
  cases clause
  rw [Clause.bare, bareNodes_eq_map]

theorem Branch.bare_eq (branch : Branch) :
    branch.bare = ⟨branch.name, branch.arguments.map Node.bare, branch.body.map Node.bare,
      Span.generated⟩ := by
  cases branch
  rw [Branch.bare, bareNodes_eq_map, bareNodes_eq_map]

theorem Directive.bare_eq (d : Directive) :
    d.bare = ⟨d.name, d.arguments.map Node.bare, d.clauses.map Clause.bare, d.bodyless,
      d.body.map Node.bare, d.branches.map Branch.bare, Span.generated⟩ := by
  cases d
  simp [Directive.bare]

/-! ## Children -/

/-- The trees that a clause holds. -/
def Clause.children (clause : Clause) : List Node :=
  clause.arguments

/-- The trees that a branch holds. -/
def Branch.children (branch : Branch) : List Node :=
  branch.arguments ++ branch.body

/-- The trees that a directive holds. -/
def Directive.children (d : Directive) : List Node :=
  d.arguments ++ d.clauses.flatMap Clause.children ++ d.body ++ d.branches.flatMap Branch.children

/-- The trees directly below a tree. -/
def Node.children : Node → List Node
  | .interpolated parts => parts
  | .list items => items
  | .map entries => entries.map Entry.value
  | .ref _ name _ _ => name.toList
  | .binary _ left right => [left, right]
  | .pair entry => [entry.value]
  | .resource _ name body _ => name :: body
  | .block _ body _ => body
  | .directive d => d.children
  | _ => []

theorem Directive.sizeOf_lt_of_mem_children {d : Directive} {node : Node}
    (h : node ∈ d.children) :
    sizeOf node < sizeOf d := by
  obtain ⟨name, arguments, clauses, bodyless, body, branches, span⟩ := d
  simp only [Directive.children, List.mem_append, List.mem_flatMap] at h
  simp only [Directive.mk.sizeOf_spec]
  rcases h with ((h | ⟨clause, hclause, h⟩) | h) | ⟨branch, hbranch, h⟩
  · have := List.sizeOf_lt_of_mem h
    omega
  · have houter := List.sizeOf_lt_of_mem hclause
    have hinner := List.sizeOf_lt_of_mem h
    obtain ⟨cname, carguments⟩ := clause
    simp only [Clause.mk.sizeOf_spec, Clause.children] at houter hinner
    omega
  · have := List.sizeOf_lt_of_mem h
    omega
  · have houter := List.sizeOf_lt_of_mem hbranch
    obtain ⟨bname, barguments, bbody, bspan⟩ := branch
    simp only [Branch.mk.sizeOf_spec] at houter
    rcases List.mem_append.1 h with h | h
    · have := List.sizeOf_lt_of_mem h
      dsimp only at this
      omega
    · have := List.sizeOf_lt_of_mem h
      dsimp only at this
      omega

theorem Node.sizeOf_lt_of_mem_children {node child : Node} (h : child ∈ node.children) :
    sizeOf child < sizeOf node := by
  cases node with
  | interpolated parts =>
    have := List.sizeOf_lt_of_mem (show child ∈ parts from h)
    simp only [Node.interpolated.sizeOf_spec]
    omega
  | list items =>
    have := List.sizeOf_lt_of_mem (show child ∈ items from h)
    simp only [Node.list.sizeOf_spec]
    omega
  | map entries =>
    obtain ⟨entry, hentry, rfl⟩ := List.mem_map.1 h
    have := List.sizeOf_lt_of_mem hentry
    obtain ⟨key, value, span⟩ := entry
    simp only [Entry.mk.sizeOf_spec] at this
    simp only [Node.map.sizeOf_spec]
    omega
  | ref type name path span =>
    cases name with
    | none => cases h
    | some name =>
      obtain rfl := List.mem_singleton.1 h
      simp only [Node.ref.sizeOf_spec, Option.some.sizeOf_spec]
      omega
  | binary op left right =>
    simp only [Node.binary.sizeOf_spec]
    rcases List.mem_cons.1 h with rfl | h
    · omega
    · obtain rfl := List.mem_singleton.1 h
      omega
  | pair entry =>
    obtain ⟨key, value, span⟩ := entry
    obtain rfl := List.mem_singleton.1 h
    simp only [Node.pair.sizeOf_spec, Entry.mk.sizeOf_spec]
    omega
  | resource type name body span =>
    simp only [Node.resource.sizeOf_spec]
    rcases List.mem_cons.1 h with rfl | h
    · omega
    · have := List.sizeOf_lt_of_mem h
      omega
  | block key body span =>
    have := List.sizeOf_lt_of_mem (show child ∈ body from h)
    simp only [Node.block.sizeOf_spec]
    omega
  | directive d =>
    have := Directive.sizeOf_lt_of_mem_children h
    simp only [Node.directive.sizeOf_spec]
    omega
  | _ => cases h

/-- Induction over a tree: what passes from the children of a tree to the tree holds of every
tree. -/
theorem Node.induction {motive : Node → Prop}
    (step : ∀ node : Node, (∀ child ∈ node.children, motive child) → motive node)
    (node : Node) :
    motive node :=
  step node fun child hchild =>
    have := Node.sizeOf_lt_of_mem_children hchild
    Node.induction step child
termination_by sizeOf node

/-- The trees below a tree without places are those below the tree, without places. -/
theorem Node.children_bare (node : Node) : node.bare.children = node.children.map Node.bare := by
  cases node with
  | interpolated parts => simp [Node.bare, Node.children]
  | list items => simp [Node.bare, Node.children]
  | map entries =>
    simp only [Node.bare, Node.children, bareEntries_eq_map, List.map_map]
    exact List.map_congr_left fun entry _ => by rw [Function.comp, Function.comp, Entry.bare_eq]
  | var path span => rfl
  | ref type name path span => cases name <;> simp [Node.bare, Node.children]
  | binary op left right => simp [Node.bare, Node.children]
  | pair entry => simp [Node.bare, Node.children, Entry.bare_eq]
  | resource type name body span => simp [Node.bare, Node.children]
  | block key body span => simp [Node.bare, Node.children]
  | directive d =>
    simp [Node.bare, Node.children, Directive.bare_eq, Directive.children, List.map_flatMap,
      List.flatMap_map, Clause.bare_eq, Branch.bare_eq, Clause.children, Branch.children]
  | _ => rfl

/-- A property of a tree and of every tree below it. -/
inductive Node.Everywhere (p : Node → Prop) : Node → Prop
  | intro {node : Node} (here : p node) (below : ∀ child ∈ node.children, Everywhere p child) :
    Everywhere p node

namespace Node.Everywhere

variable {p q : Node → Prop} {node : Node}

theorem root (h : Everywhere p node) : p node := by
  cases h with
  | intro here _ => exact here

theorem child (h : Everywhere p node) : ∀ child ∈ node.children, Everywhere p child := by
  cases h with
  | intro _ below => exact below

theorem leaf (here : p node) (hchildren : node.children = []) : Everywhere p node := by
  refine intro here ?_
  rw [hchildren]
  exact fun child hchild => absurd hchild List.not_mem_nil

/-- A property that does not look at places holds below a tree wherever the tree stands. -/
theorem of_bare {node' : Node} (hp : ∀ node node' : Node, node.bare = node'.bare → p node → p node')
    (h : Everywhere p node)
    (hbare : node.bare = node'.bare) :
    Everywhere p node' := by
  induction h generalizing node' with
  | @intro node here below ih =>
    refine intro (hp node node' hbare here) fun child' hchild' => ?_
    have hmem := List.mem_map_of_mem (f := Node.bare) hchild'
    rw [← Node.children_bare, ← hbare, Node.children_bare] at hmem
    obtain ⟨child, hchild, heq⟩ := List.mem_map.1 hmem
    exact ih child hchild heq

theorem mono (h : Everywhere p node) (himp : ∀ node, p node → q node) : Everywhere q node := by
  induction h with
  | intro here _ ih => exact intro (himp _ here) ih

theorem and (hp : Everywhere p node) (hq : Everywhere q node) :
    Everywhere (fun node => p node ∧ q node) node := by
  induction hp with
  | intro here _ ih =>
    exact intro ⟨here, hq.root⟩ fun child hchild => ih child hchild (hq.child child hchild)

end Node.Everywhere

/-! ## Texts and places -/

theorem asText?_bare (node : Node) : node.bare.asText? = node.asText? := by
  cases node <;> rfl

theorem wordOr_bare (node : Node) (written : List Char) :
    wordOr node.bare written = wordOr node written := by
  cases node <;> rfl

theorem needsParens_bare (op : Operator) (right : Bool) (node : Node) :
    needsParens op right node.bare = needsParens op right node := by
  cases node <;> rfl

/-- The text of the parts of a double-quoted string, part by part. -/
def Node.partText : Node → List Char
  | .text s => escapedPart s.toList
  | node => node.inline

@[simp] theorem partsText_eq_flatMap (parts : List Node) :
    partsText parts = parts.flatMap Node.partText := by
  induction parts with
  | nil => rfl
  | cons part rest ih => cases part <;> simp [partsText, Node.partText, ih]

theorem Directive.lines_bare {d : Directive}
    (hword : ∀ child ∈ d.children, child.bare.word = child.word)
    (hlines : ∀ child ∈ d.children, ∀ depth, child.bare.lines depth = child.lines depth)
    (depth : Nat) :
    d.bare.lines depth = d.lines depth := by
  obtain ⟨name, arguments, clauses, bodyless, body, branches, span⟩ := d
  have harguments : arguments.map (Node.word ∘ Node.bare) = arguments.map Node.word :=
    List.map_congr_left fun child h => hword child (by simp [Directive.children, h])
  have hbody : body.flatMap (fun node => node.bare.lines (depth + 1)) =
      body.flatMap (Node.lines (depth + 1)) :=
    List.flatMap_congr fun child h => hlines child (by simp [Directive.children, h]) (depth + 1)
  have hclauses : clauses.flatMap (fun clause => clause.bare.inline) =
      clauses.flatMap Clause.inline := by
    apply List.flatMap_congr
    rintro ⟨cname, carguments⟩ hclause
    have hmap : carguments.map (Node.word ∘ Node.bare) = carguments.map Node.word := by
      apply List.map_congr_left
      intro child h
      apply hword child
      simp only [Directive.children, List.mem_append, List.mem_flatMap]
      exact Or.inl (Or.inl (Or.inr ⟨_, hclause, h⟩))
    simp [Clause.bare, Clause.inline, hmap]
  have hbranches : branches.flatMap (fun branch => branch.bare.lines depth) =
      branches.flatMap (Branch.lines depth) := by
    apply List.flatMap_congr
    rintro ⟨bname, barguments, bbody, bspan⟩ hbranch
    have hmem : ∀ child ∈ barguments ++ bbody, child ∈
        Directive.children ⟨name, arguments, clauses, bodyless, body, branches, span⟩ := by
      intro child h
      simp only [Directive.children, List.mem_append, List.mem_flatMap]
      exact Or.inr ⟨_, hbranch, by simpa [Branch.children] using h⟩
    have hmap : barguments.map (Node.word ∘ Node.bare) = barguments.map Node.word :=
      List.map_congr_left fun child h => hword child (hmem child (by simp [h]))
    have hinner : bbody.flatMap (fun node => node.bare.lines (depth + 1)) =
        bbody.flatMap (Node.lines (depth + 1)) :=
      List.flatMap_congr fun child h => hlines child (hmem child (by simp [h])) (depth + 1)
    simp [Branch.bare, Branch.lines, List.flatMap_map, hmap, hinner]
  simp [Directive.bare, Directive.lines, List.flatMap_map, harguments, hbody, hclauses, hbranches]

/-- The text of a tree is that of the tree without its places. -/
theorem Node.text_bare (node : Node) :
    node.bare.inline = node.inline ∧ ∀ depth, node.bare.lines depth = node.lines depth := by
  induction node using Node.induction with
  | step node ih =>
    have hinline : ∀ child ∈ node.children, child.bare.inline = child.inline :=
      fun child h => (ih child h).1
    have hword : ∀ child ∈ node.children, child.bare.word = child.word := by
      intro child h
      rw [Node.word, Node.word, wordOr_bare, hinline child h]
    have hlines : ∀ child ∈ node.children, ∀ depth, child.bare.lines depth = child.lines depth :=
      fun child h => (ih child h).2
    cases node with
    | interpolated parts =>
      have hparts : parts.flatMap (fun part => part.bare.partText) = parts.flatMap Node.partText := by
        apply List.flatMap_congr
        intro part hpart
        cases part <;> first | rfl | exact hinline _ hpart
      simp [Node.bare, Node.inline, Node.lines, List.flatMap_map, hparts]
    | list items =>
      have hitems : items.map (Node.inline ∘ Node.bare) = items.map Node.inline :=
        List.map_congr_left hinline
      simp [Node.bare, Node.inline, Node.lines, hitems]
    | map entries =>
      have hentries : entries.map (Entry.inline ∘ Entry.bare) = entries.map Entry.inline := by
        apply List.map_congr_left
        rintro ⟨key, value, span⟩ hentry
        exact congrArg (pairText key) (hinline value (List.mem_map.2 ⟨_, hentry, rfl⟩))
      simp [Node.bare, Node.inline, Node.lines, hentries]
    | ref type name path span =>
      cases name with
      | none => exact ⟨rfl, fun _ => rfl⟩
      | some name =>
        have hname : wordOr name.bare name.bare.inline = wordOr name name.inline :=
          hword name (by simp [Node.children])
        simp [Node.bare, Node.inline, Node.lines, nameText, hname]
    | binary op left right =>
      have hleft : left.bare.inline = left.inline := hinline left (by simp [Node.children])
      have hright : right.bare.inline = right.inline := hinline right (by simp [Node.children])
      simp [Node.bare, Node.inline, Node.lines, operandText, needsParens_bare, hleft, hright]
    | pair entry =>
      obtain ⟨key, value, span⟩ := entry
      have hvalue : value.bare.inline = value.inline := hinline value (by simp [Node.children])
      simp [Node.bare, Entry.bare, Node.inline, Node.lines, hvalue]
    | resource type name body span =>
      have hname : wordOr name.bare name.bare.inline = wordOr name name.inline :=
        hword name (by simp [Node.children])
      have hbody : ∀ depth, body.flatMap (fun node => node.bare.lines depth) =
          body.flatMap (Node.lines depth) := fun depth =>
        List.flatMap_congr fun child h => hlines child (by simp [Node.children, h]) depth
      simp [Node.bare, Node.inline, Node.lines, List.flatMap_map, hname, hbody]
    | block key body span =>
      have hbody : ∀ depth, body.flatMap (fun node => node.bare.lines depth) =
          body.flatMap (Node.lines depth) := fun depth =>
        List.flatMap_congr fun child h => hlines child h depth
      simp [Node.bare, Node.inline, Node.lines, List.flatMap_map, hbody]
    | directive d =>
      have hd := Directive.lines_bare hword hlines
      simp [Node.bare, Node.inline, Node.lines, hd]
    | _ => exact ⟨rfl, fun _ => rfl⟩

theorem statements_bareNodes (depth : Nat) (nodes : List Node) :
    statements depth (bareNodes nodes) = statements depth nodes := by
  rw [statements_eq_flatMap, statements_eq_flatMap, bareNodes_eq_map, List.flatMap_map]
  exact List.flatMap_congr fun node _ => (Node.text_bare node).2 depth

/-- Files with the same statements up to places have the same text. -/
theorem SourceFile.print_eq_of_bareNodes_eq {file other : SourceFile}
    (h : bareNodes file.body = bareNodes other.body) :
    file.print = other.print := by
  unfold SourceFile.print
  rw [← statements_bareNodes, h, statements_bareNodes]

end Provision.Language
