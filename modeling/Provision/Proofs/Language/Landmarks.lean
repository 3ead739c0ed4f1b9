import Provision.Proofs.Language.Grammar

/-!
# Landmarks of parsed trees

The statements of a file and the branches of its directives, at any depth, are its
landmarks.  They are listed in the order in which a reader of the text meets them: a
statement before what is below it, and the body of a directive before its branches.
In well-formed trees statements stand in bodies only, so none is left out.
-/

namespace Provision.Language

/-- A statement, or a branch of a directive. -/
inductive Landmark where
  | statement (node : Node)
  | branch (branch : Branch)

/-- The place that a landmark carries. -/
def Landmark.span? : Landmark → Option Span
  | .statement node => node.span?
  | .branch part => some part.span

mutual

/-- The landmarks below a tree. -/
def Node.landmarks : Node → List Landmark
  | .resource _ _ body _ => landmarksOf body
  | .block _ body _ => landmarksOf body
  | .directive d => d.landmarks
  | _ => []

/-- The landmarks below a directive. -/
def Directive.landmarks : Directive → List Landmark
  | ⟨_, _, _, _, body, branches, _⟩ => landmarksOf body ++ landmarksOfBranches branches

/-- The landmarks below a branch. -/
def Branch.landmarks : Branch → List Landmark
  | ⟨_, _, body, _⟩ => landmarksOf body

/-- The statements of a body, each with the landmarks below it behind it. -/
def landmarksOf : List Node → List Landmark
  | [] => []
  | node :: rest => .statement node :: (node.landmarks ++ landmarksOf rest)

/-- The branches of a directive, each with the landmarks below it behind it. -/
def landmarksOfBranches : List Branch → List Landmark
  | [] => []
  | branch :: rest => .branch branch :: (branch.landmarks ++ landmarksOfBranches rest)

end

theorem Directive.landmarks_eq (d : Directive) :
    d.landmarks = landmarksOf d.body ++ landmarksOfBranches d.branches := by
  cases d
  rw [Directive.landmarks]

theorem Branch.landmarks_eq (branch : Branch) : branch.landmarks = landmarksOf branch.body := by
  cases branch
  rw [Branch.landmarks]

theorem landmarksOf_eq_flatMap (nodes : List Node) :
    landmarksOf nodes = nodes.flatMap fun node => .statement node :: node.landmarks := by
  induction nodes with
  | nil => rfl
  | cons node rest ih => rw [landmarksOf, ih, List.flatMap_cons, List.cons_append]

theorem landmarksOfBranches_eq_flatMap (branches : List Branch) :
    landmarksOfBranches branches =
      branches.flatMap fun branch => .branch branch :: branch.landmarks := by
  induction branches with
  | nil => rfl
  | cons branch rest ih => rw [landmarksOfBranches, ih, List.flatMap_cons, List.cons_append]

theorem statements_sublist_landmarksOf (nodes : List Node) :
    (nodes.map Landmark.statement).Sublist (landmarksOf nodes) := by
  induction nodes with
  | nil => exact List.Sublist.slnil
  | cons node rest ih =>
    rw [landmarksOf]
    exact (ih.trans (List.sublist_append_right _ _)).cons_cons _

/-! ## No statement is left out -/

/-- The branches that a tree holds. -/
def Node.branches : Node → List Branch
  | .directive d => d.branches
  | _ => []

/-- A tree is listed when it is a statement, and so are its branches. -/
structure Node.Listed (landmarks : List Landmark) (node : Node) : Prop where
  statement : node.isStatement = true → .statement node ∈ landmarks
  branches : ∀ branch ∈ node.branches, .branch branch ∈ landmarks

section Listed

variable {node child : Node} {landmarks : List Landmark}

theorem subset_landmarksOf {nodes : List Node} (h : node ∈ nodes) :
    .statement node :: node.landmarks ⊆ landmarksOf nodes := by
  rw [landmarksOf_eq_flatMap]
  exact fun landmark hmem => List.mem_flatMap.2 ⟨node, h, hmem⟩

theorem subset_landmarksOfBranches {branch : Branch} {branches : List Branch}
    (h : branch ∈ branches) :
    .branch branch :: branch.landmarks ⊆ landmarksOfBranches branches := by
  rw [landmarksOfBranches_eq_flatMap]
  exact fun landmark hmem => List.mem_flatMap.2 ⟨branch, h, hmem⟩

theorem branch_mem_landmarks {branch : Branch} (h : branch ∈ node.branches) :
    .branch branch ∈ node.landmarks := by
  cases node with
  | directive d =>
    rw [Node.landmarks, Directive.landmarks_eq]
    exact List.mem_append_right _ (subset_landmarksOfBranches h List.mem_cons_self)
  | _ => cases h

theorem isStatement_of_branches {branch : Branch} (h : branch ∈ node.branches) :
    node.isStatement = true := by
  cases node <;> first | rfl | cases h

/-- Below a well-formed tree statements stand in bodies only. -/
theorem child_landmarks_subset (h : node.Formed) (hchild : child ∈ node.children)
    (hstatement : child.isStatement = true) :
    node.isStatement = true ∧ .statement child :: child.landmarks ⊆ node.landmarks := by
  have hvalue : child.isStatement ≠ false := fun hfalse => by
    rw [hfalse] at hstatement
    cases hstatement
  cases node with
  | interpolated parts =>
    cases hpart : child.asText? with
    | none => exact absurd (Node.isStatement_of_isReference (h.2.2 child hchild hpart)).1 hvalue
    | some s =>
      cases child with
      | text => cases hstatement
      | _ => cases hpart
  | list items => exact absurd (h child hchild) hvalue
  | map entries =>
    obtain ⟨entry, hentry, rfl⟩ := List.mem_map.1 hchild
    exact absurd (h entry hentry) hvalue
  | ref type name path span => exact absurd (h.2.1 child (Option.mem_toList.1 hchild)) hvalue
  | binary op left right =>
    rcases List.mem_cons.1 hchild with rfl | hchild
    · exact absurd h.1 hvalue
    · obtain rfl := List.mem_singleton.1 hchild
      exact absurd h.2 hvalue
  | pair entry =>
    obtain rfl := List.mem_singleton.1 hchild
    exact absurd h hvalue
  | resource type name body span =>
    rcases List.mem_cons.1 hchild with rfl | hchild
    · exact absurd h.2.1 hvalue
    · rw [Node.landmarks]
      exact ⟨rfl, subset_landmarksOf hchild⟩
  | block key body span =>
    rw [Node.landmarks]
    exact ⟨rfl, subset_landmarksOf hchild⟩
  | directive d =>
    rw [Node.landmarks, Directive.landmarks_eq]
    refine ⟨rfl, ?_⟩
    simp only [Node.children, Directive.children, List.mem_append, List.mem_flatMap] at hchild
    rcases hchild with ((hchild | ⟨clause, hclause, hchild⟩) | hchild) | ⟨branch, hbranch, hchild⟩
    · exact absurd (h.arguments child hchild) hvalue
    · exact absurd ((h.clauses clause hclause).arguments child hchild) hvalue
    · exact List.subset_append_of_subset_left _ (subset_landmarksOf hchild)
    · rcases List.mem_append.1 hchild with hchild | hchild
      · exact absurd ((h.branches branch hbranch).arguments child hchild) hvalue
      · have hbelow := subset_landmarksOfBranches hbranch
        rw [Branch.landmarks_eq] at hbelow
        exact List.subset_append_of_subset_right _
          (List.Subset.trans (subset_landmarksOf hchild) (List.subset_of_cons_subset hbelow))
  | _ => cases hchild

theorem everywhere_listed (h : node.Everywhere Node.Formed)
    (hnode : node.isStatement = true → .statement node :: node.landmarks ⊆ landmarks) :
    node.Everywhere (Node.Listed landmarks) := by
  induction h with
  | @intro node here _ ih =>
    refine .intro ⟨fun hstatement => hnode hstatement List.mem_cons_self, fun branch hbranch => ?_⟩
      fun child hchild => ih child hchild fun hstatement => ?_
    · exact hnode (isStatement_of_branches hbranch)
        (List.mem_cons_of_mem _ (branch_mem_landmarks hbranch))
    · obtain ⟨hparent, hbelow⟩ := child_landmarks_subset here hchild hstatement
      exact List.Subset.trans hbelow (List.subset_of_cons_subset (hnode hparent))

/-- Whatever statement or branch stands in the trees of a parsed file, it is listed. -/
theorem parse_listed {path source : String} {file : SourceFile}
    (h : parse path source = .ok file) :
    ∀ node ∈ file.body, node.Everywhere (Node.Listed (landmarksOf file.body)) :=
  fun node hnode => everywhere_listed ((parse_isStatement h).2 node hnode).formed fun _ =>
    subset_landmarksOf hnode

end Listed

end Provision.Language
