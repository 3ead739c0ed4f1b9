import Mathlib.Data.List.TakeWhile
import Provision.Proofs.Language.Positions
import Provision.Proofs.Language.Statements

/-!
# The shape of parsed trees

A tree that comes from a text has values where values belong and statements
where statements belong, its names are words, and the parts of its strings
alternate.  These conditions are local to each tree, so that they can be asked
of a tree and of everything below it; every rule of the parser keeps them.
-/

namespace Provision.Language

/-! ## Well-formed trees -/

/-- Trees that stand as statements. -/
def Node.isStatement : Node → Bool
  | .pair _ | .resource .. | .block .. | .directive _ => true
  | _ => false

/-- Trees that stand inside double-quoted strings, apart from the literal pieces. -/
def Node.isReference : Node → Bool
  | .var .. | .ref .. => true
  | _ => false

/-- The shape of an option. -/
structure Clause.Formed (clause : Clause) : Prop where
  name : IsOptionName clause.name.toList
  arguments : ∀ node ∈ clause.arguments, node.isStatement = false

/-- The shape of a branch. -/
structure Branch.Formed (branch : Branch) : Prop where
  name : branch.name = "else"
  arguments : ∀ node ∈ branch.arguments, node.isStatement = false
  body : ∀ node ∈ branch.body, node.isStatement = true

/-- The shape of a directive.  One without a colon is not named like the end of a body. -/
structure Directive.Formed (d : Directive) : Prop where
  name : IsWord d.name.toList
  notCloser : d.bodyless = false → d.name.toList ≠ ['e', 'n', 'd'] ∧
    d.name.toList ≠ ['e', 'l', 's', 'e']
  arguments : ∀ node ∈ d.arguments, node.isStatement = false
  clauses : ∀ clause ∈ d.clauses, clause.Formed
  bodyless : d.bodyless = true → d.body = [] ∧ d.branches = []
  body : ∀ node ∈ d.body, node.isStatement = true
  guarded : d.branches ≠ [] → d.name = "if"
  branches : ∀ branch ∈ d.branches, branch.Formed

/-- The shape of a tree, without what is below its children. -/
def Node.Formed : Node → Prop
  | .interpolated parts =>
    Spliced parts ∧ (∃ part ∈ parts, part.asText? = none) ∧
      ∀ part ∈ parts, part.asText? = none → part.isReference = true
  | .list items => ∀ item ∈ items, item.isStatement = false
  | .map entries => ∀ entry ∈ entries, entry.value.isStatement = false
  | .var path _ => IsPath path
  | .ref type name path _ =>
    IsTypeText type ∧ (∀ node ∈ name, node.isStatement = false) ∧ (path = [] ∨ IsPath path)
  | .binary _ left right => left.isStatement = false ∧ right.isStatement = false
  | .pair entry => entry.value.isStatement = false
  | .resource type name body _ =>
    IsBlockType type ∧ name.isStatement = false ∧ ∀ node ∈ body, node.isStatement = true
  | .block key body _ =>
    IsWord key.toList ∧ (∀ c ∈ key.toList.head?, isNameStart c = true) ∧
      key.toList ≠ ['e', 'n', 'd'] ∧ ∀ node ∈ body, node.isStatement = true
  | .directive d => d.Formed
  | _ => True

/-- A well-formed value. -/
structure Node.IsExpression (node : Node) : Prop where
  value : node.isStatement = false
  formed : node.Everywhere Node.Formed

/-- A well-formed statement. -/
structure Node.IsStatement (node : Node) : Prop where
  statement : node.isStatement = true
  formed : node.Everywhere Node.Formed

namespace Node.IsExpression

theorem leaf {node : Node}
    (hvalue : node.isStatement = false)
    (hformed : node.Formed)
    (hchildren : node.children = []) :
    node.IsExpression :=
  ⟨hvalue, .leaf hformed hchildren⟩

theorem text (s : String) : (Node.text s).IsExpression :=
  leaf rfl trivial rfl

theorem wordNode (word : List Char) : (Language.wordNode word).IsExpression := by
  unfold Language.wordNode
  split
  · exact leaf rfl trivial rfl
  · split
    · exact leaf rfl trivial rfl
    · split <;> exact leaf rfl trivial rfl

end Node.IsExpression

/-! ## What the lexical rules read -/

theorem Cursor.rest_advance_word (c : Cursor) :
    c.rest = c.word ++ (c.advance c.word.length).rest ∧
      Boundary (c.advance c.word.length).rest := by
  have hsplit : c.word ++ c.rest.dropWhile isWordChar = c.rest := List.takeWhile_append_dropWhile
  have hdrop : (c.advance c.word.length).rest = c.rest.dropWhile isWordChar := by
    rw [Cursor.rest_advance]
    conv_lhs => rw [← hsplit]
    exact List.drop_left
  rw [hdrop]
  refine ⟨hsplit.symm, ?_⟩
  intro ch hch
  have hnot := List.head?_dropWhile_not isWordChar c.rest
  rw [hch] at hnot
  simpa using hnot

theorem Cursor.expectWord_ok {file what : String} {c c' : Cursor} {word : List Char}
    (h : c.expectWord file what = .ok (word, c')) :
    IsWord word ∧ c.rest = word ++ c'.rest ∧ Boundary c'.rest := by
  unfold Cursor.expectWord at h
  split at h
  · unfold Cursor.unexpected Cursor.fail at h
    split at h <;> cases h
  · rename_i hne
    cases h
    refine ⟨⟨?_, ?_⟩, c.rest_advance_word⟩
    · intro hnil
      rw [hnil] at hne
      exact hne rfl
    · intro ch hch
      exact List.mem_takeWhile_imp hch

theorem isPath_segments {word : List Char} (h : IsWord word) : IsPath (segments word) :=
  ⟨word, h, rfl⟩

/-! ## Values -/

/-- What the rules for values read with so many steps. -/
structure ReadsValues (file : String) (n : Nat) : Prop where
  binary : ∀ {least c node c'}, binary file n least c = .ok (node, c') → node.IsExpression
  operators : ∀ {least left c node c'}, left.IsExpression →
    operators file n least left c = .ok (node, c') → node.IsExpression
  primary : ∀ {c node c'}, primary file n c = .ok (node, c') → node.IsExpression
  parts : ∀ {c nodes c'}, stringParts file n c = .ok (nodes, c') →
    Spliced nodes ∧ (∀ node ∈ nodes, node.Everywhere Node.Formed) ∧
      ∀ node ∈ nodes, node.asText? = none → node.isReference = true
  items : ∀ {c nodes c'}, listItems file n c = .ok (nodes, c') → ∀ node ∈ nodes, node.IsExpression
  entries : ∀ {c entries c'}, mapEntries file n c = .ok (entries, c') →
    ∀ entry ∈ entries, entry.value.IsExpression
  reference : ∀ {c node c'}, reference file n c = .ok (node, c') →
    node.isReference = true ∧ node.Everywhere Node.Formed

theorem Node.isStatement_of_isReference {node : Node} (h : node.isReference = true) :
    node.isStatement = false ∧ node.asText? = none := by
  cases node <;> first | exact ⟨rfl, rfl⟩ | cases h

theorem isExpression_binary {op : Operator} {left right : Node}
    (hleft : left.IsExpression) (hright : right.IsExpression) :
    (Node.binary op left right).IsExpression := by
  refine ⟨rfl, .intro ⟨hleft.value, hright.value⟩ ?_⟩
  intro child hchild
  simp only [Node.children, List.mem_cons, List.not_mem_nil, or_false] at hchild
  rcases hchild with rfl | rfl
  · exact hleft.formed
  · exact hright.formed

theorem isExpression_list {items : List Node} (h : ∀ item ∈ items, item.IsExpression) :
    (Node.list items).IsExpression :=
  ⟨rfl, .intro (fun item hitem => (h item hitem).value) fun item hitem => (h item hitem).formed⟩

theorem isExpression_map {entries : List Entry}
    (h : ∀ entry ∈ entries, entry.value.IsExpression) :
    (Node.map entries).IsExpression := by
  refine ⟨rfl, .intro (fun entry hentry => (h entry hentry).value) ?_⟩
  intro child hchild
  obtain ⟨entry, hentry, rfl⟩ := List.mem_map.1 hchild
  exact (h entry hentry).formed

/-- The tree of a double-quoted string: a text, or parts with a reference among them. -/
theorem isExpression_interpolation {parts : List Node}
    (hshape : Spliced parts)
    (hformed : ∀ node ∈ parts, node.Everywhere Node.Formed)
    (hreference : ∀ node ∈ parts, node.asText? = none → node.isReference = true) :
    (interpolation parts).IsExpression := by
  unfold interpolation
  split
  · exact Node.IsExpression.text ""
  · exact Node.IsExpression.text _
  · rename_i hnotNil hnotText
    refine ⟨rfl, .intro ⟨hshape, ?_, hreference⟩ hformed⟩
    cases parts with
    | nil => exact absurd rfl hnotNil
    | cons part rest =>
      by_cases hnone : part.asText? = none
      · exact ⟨part, List.mem_cons_self, hnone⟩
      · obtain ⟨s, rfl⟩ : ∃ s, part = .text s := by
          cases part <;> first | exact ⟨_, rfl⟩ | exact absurd rfl hnone
        cases rest with
        | nil => exact absurd rfl (hnotText s)
        | cons next rest => exact ⟨next, by simp, hshape.2.1 next rfl⟩

theorem leadOf_spliced {s : List Char} {part : Node} {rest : List Node}
    (hpart : part.asText? = none) (hrest : Spliced rest) :
    Spliced (leadOf s ++ part :: rest) := by
  have hbehind : Spliced (part :: rest) := (spliced_cons_of_asText?_eq_none hpart).2 hrest
  unfold leadOf
  split
  · exact hbehind
  · rename_i hne
    refine ⟨?_, ?_, hbehind⟩
    · intro hempty
      have hnil : s = [] := by
        rw [← String.toList_ofList (l := s), hempty]
        rfl
      exact hne (List.isEmpty_iff.2 hnil)
    · intro next hnext
      cases hnext
      exact hpart

theorem leadOf_formed (s : List Char) :
    Spliced (leadOf s) ∧ (∀ node ∈ leadOf s, node.Everywhere Node.Formed) ∧
      ∀ node ∈ leadOf s, node.asText? = none → node.isReference = true := by
  unfold leadOf
  split
  · exact ⟨trivial, by simp, by simp⟩
  · rename_i hne
    refine ⟨⟨?_, by simp, trivial⟩, ?_, ?_⟩
    · intro hempty
      have hnil : s = [] := by
        rw [← String.toList_ofList (l := s), hempty]
        rfl
      exact hne (List.isEmpty_iff.2 hnil)
    · intro node hnode
      rw [List.mem_singleton.1 hnode]
      exact (Node.IsExpression.text _).formed
    · intro node hnode hnone
      rw [List.mem_singleton.1 hnode] at hnone
      cases hnone

section Step

variable {file : String} {n : Nat}

theorem operators_isExpression (ih : ReadsValues file n) {least : Nat} {left node : Node}
    {c c' : Cursor}
    (hleft : left.IsExpression)
    (h : operators file (n + 1) least left c = .ok (node, c')) :
    node.IsExpression := by
  rw [operators] at h
  split at h
  · cases h
    exact hleft
  · split at h
    · cases h
      exact hleft
    · obtain ⟨⟨right, behind⟩, hright, hrest⟩ := bind_eq_ok.1 h
      exact ih.operators (isExpression_binary hleft (ih.binary hright)) hrest

theorem primary_isExpression (ih : ReadsValues file n) {node : Node} {c c' : Cursor}
    (h : primary file (n + 1) c = .ok (node, c')) :
    node.IsExpression := by
  rw [primary] at h
  split at h
  · obtain ⟨⟨s, behind⟩, -, hend⟩ := bind_eq_ok.1 h
    cases hend
    exact Node.IsExpression.text _
  · obtain ⟨⟨parts, behind⟩, hparts, hend⟩ := bind_eq_ok.1 h
    cases hend
    obtain ⟨hshape, hformed, hreference⟩ := ih.parts hparts
    exact isExpression_interpolation hshape hformed hreference
  · obtain ⟨⟨items, behind⟩, hitems, hend⟩ := bind_eq_ok.1 h
    cases hend
    exact isExpression_list (ih.items hitems)
  · obtain ⟨⟨entries, behind⟩, hentries, hend⟩ := bind_eq_ok.1 h
    cases hend
    exact isExpression_map (ih.entries hentries)
  · obtain ⟨⟨inner, behind⟩, hinner, hrest⟩ := bind_eq_ok.1 h
    obtain ⟨closed, -, hend⟩ := bind_eq_ok.1 hrest
    cases hend
    exact ih.binary hinner
  · split at h
    · obtain ⟨hreference, hformed⟩ := ih.reference h
      exact ⟨(Node.isStatement_of_isReference hreference).1, hformed⟩
    · split at h
      · cases h
        exact Node.IsExpression.leaf rfl trivial rfl
      · obtain ⟨⟨word, behind⟩, -, hend⟩ := bind_eq_ok.1 h
        cases hend
        exact Node.IsExpression.wordNode word

theorem stringParts_formed (ih : ReadsValues file n) {nodes : List Node} {c c' : Cursor}
    (h : stringParts file (n + 1) c = .ok (nodes, c')) :
    Spliced nodes ∧ (∀ node ∈ nodes, node.Everywhere Node.Formed) ∧
      ∀ node ∈ nodes, node.asText? = none → node.isReference = true := by
  rw [stringParts] at h
  obtain ⟨⟨s, quote⟩, -, hrest⟩ := bind_eq_ok.1 h
  obtain ⟨hleadShape, hleadFormed, hleadReference⟩ := leadOf_formed s
  dsimp only at hrest
  split at hrest
  · cases hrest
    exact leadOf_formed s
  · obtain ⟨⟨part, behind⟩, hpart, hmore⟩ := bind_eq_ok.1 hrest
    obtain ⟨⟨parts, last⟩, hparts, hend⟩ := bind_eq_ok.1 hmore
    cases hend
    obtain ⟨hreference, hformed⟩ := ih.reference hpart
    obtain ⟨hshape, hpartsFormed, hpartsReference⟩ := ih.parts hparts
    refine ⟨leadOf_spliced (Node.isStatement_of_isReference hreference).2 hshape, ?_, ?_⟩
    · intro node hnode
      rcases List.mem_append.1 hnode with hnode | hnode
      · exact hleadFormed node hnode
      · rcases List.mem_cons.1 hnode with rfl | hnode
        · exact hformed
        · exact hpartsFormed node hnode
    · intro node hnode hnone
      rcases List.mem_append.1 hnode with hnode | hnode
      · exact hleadReference node hnode hnone
      · rcases List.mem_cons.1 hnode with rfl | hnode
        · exact hreference
        · exact hpartsReference node hnode hnone

theorem listItems_isExpression (ih : ReadsValues file n) {nodes : List Node} {c c' : Cursor}
    (h : listItems file (n + 1) c = .ok (nodes, c')) :
    ∀ node ∈ nodes, node.IsExpression := by
  rw [listItems] at h
  dsimp only at h
  split at h
  · cases h
    simp
  · obtain ⟨⟨item, behind⟩, hitem, hrest⟩ := bind_eq_ok.1 h
    dsimp only at hrest
    split at hrest
    · obtain ⟨⟨items, last⟩, hitems, hend⟩ := bind_eq_ok.1 hrest
      cases hend
      intro node hnode
      rcases List.mem_cons.1 hnode with rfl | hnode
      · exact ih.binary hitem
      · exact ih.items hitems node hnode
    · exact absurd hrest Cursor.not_unexpected

theorem mapEntries_isExpression (ih : ReadsValues file n) {entries : List Entry} {c c' : Cursor}
    (h : mapEntries file (n + 1) c = .ok (entries, c')) :
    ∀ entry ∈ entries, entry.value.IsExpression := by
  -- what follows the key, whichever way it was read
  have hbehind : ∀ {key : String} {span : Span} {at' : Cursor},
      (at'.skipInline.expect file ':' >>= fun c =>
        binary file n 1 c.skipBlank >>= fun read =>
          if read.2.skipBlank.sees ',' || read.2.skipBlank.sees '\x7d' then
            mapEntries file n (read.2.skipBlank.pass ',') >>= fun more =>
              Except.ok (⟨key, read.1, span⟩ :: more.1, more.2)
          else read.2.skipBlank.unexpected file "`,` or `\x7d`") = .ok (entries, c') →
      ∀ entry ∈ entries, entry.value.IsExpression := by
    intro key span at' h
    obtain ⟨colon, -, h⟩ := bind_eq_ok.1 h
    obtain ⟨⟨value, behind⟩, hvalue, hrest⟩ := bind_eq_ok.1 h
    dsimp only at hrest
    split at hrest
    · obtain ⟨⟨more, last⟩, hmore, hend⟩ := bind_eq_ok.1 hrest
      cases hend
      intro entry hentry
      rcases List.mem_cons.1 hentry with rfl | hentry
      · exact ih.binary hvalue
      · exact ih.entries hmore entry hentry
    · exact absurd hrest Cursor.not_unexpected
  rw [mapEntries] at h
  dsimp only at h
  split at h
  · cases h
    simp
  · split at h
    · obtain ⟨⟨key, behind⟩, -, hrest⟩ := bind_eq_ok.1 h
      exact hbehind hrest
    · obtain ⟨⟨word, behind⟩, -, hrest⟩ := bind_eq_ok.1 h
      exact hbehind hrest

theorem isReference_ref {head kind : List Char} {name : Option Node} {path : List String}
    {span : Span}
    (hhead : IsWord head)
    (hkind : IsWord kind)
    (hname : ∀ node ∈ name, node.IsExpression)
    (hpath : path = [] ∨ IsPath path) :
    (Node.ref (String.ofList (head ++ [':', ':'] ++ kind)) name path span).isReference = true ∧
      (Node.ref (String.ofList (head ++ [':', ':'] ++ kind)) name path span).Everywhere
        Node.Formed := by
  refine ⟨rfl, .intro ⟨⟨head, kind, hhead, hkind, String.toList_ofList⟩,
    fun node hnode => (hname node hnode).value, hpath⟩ ?_⟩
  intro child hchild
  exact (hname child (Option.mem_toList.1 hchild)).formed

theorem reference_formed (ih : ReadsValues file n) {node : Node} {c c' : Cursor}
    (h : reference file (n + 1) c = .ok (node, c')) :
    node.isReference = true ∧ node.Everywhere Node.Formed := by
  rw [reference] at h
  obtain ⟨⟨head, behind⟩, hhead, h⟩ := bind_eq_ok.1 h
  have hheadWord := (Cursor.expectWord_ok hhead).1
  dsimp only at h
  split at h
  · obtain ⟨⟨kind, behindKind⟩, hkind, h⟩ := bind_eq_ok.1 h
    have hkindWord := (Cursor.expectWord_ok hkind).1
    -- what follows the name, whichever way it was read
    have hbehind : ∀ {name : Option Node} {at' : Cursor}, (∀ node ∈ name, node.IsExpression) →
        (if at'.skipInline.sees '|' then
            at'.skipInline.step.skipInline.expectWord file "an attribute name" >>= fun read =>
              Except.ok (segments read.1, read.2) >>= fun read =>
                read.2.skipInline.expect file ')' >>= fun last =>
                  Except.ok (Node.ref (String.ofList (head ++ [':', ':'] ++ kind)) name read.1
                    (c.span file), last)
          else Except.ok ([], at'.skipInline) >>= fun read =>
            read.2.skipInline.expect file ')' >>= fun last =>
              Except.ok (Node.ref (String.ofList (head ++ [':', ':'] ++ kind)) name read.1
                (c.span file), last)) = .ok (node, c') →
        node.isReference = true ∧ node.Everywhere Node.Formed := by
      intro name at' hname h
      split at h
      · obtain ⟨⟨word, behindWord⟩, hword, h⟩ := bind_eq_ok.1 h
        rw [ok_bind] at h
        obtain ⟨last, -, hend⟩ := bind_eq_ok.1 h
        cases hend
        exact isReference_ref hheadWord hkindWord hname
          (Or.inr (isPath_segments (Cursor.expectWord_ok hword).1))
      · rw [ok_bind] at h
        obtain ⟨last, -, hend⟩ := bind_eq_ok.1 h
        cases hend
        exact isReference_ref hheadWord hkindWord hname (Or.inl rfl)
    dsimp only at h
    split at h
    · exact hbehind (by simp) h
    · obtain ⟨⟨name, behindName⟩, hname, h⟩ := bind_eq_ok.1 h
      refine hbehind ?_ h
      intro node hnode
      cases hnode
      exact ih.primary hname
  · obtain ⟨last, -, hend⟩ := bind_eq_ok.1 h
    cases hend
    refine ⟨rfl, .intro (isPath_segments hheadWord) ?_⟩
    intro child hchild
    cases hchild

end Step

/-- Whatever the depth, the rules for values give well-formed values. -/
theorem readsValues (file : String) (n : Nat) : ReadsValues file n := by
  induction n with
  | zero =>
    refine ⟨fun h => ?_, fun _ h => ?_, fun h => ?_, fun h => ?_, fun h => ?_, fun h => ?_,
      fun h => ?_⟩
    · rw [binary] at h
      cases h
    · rw [operators] at h
      cases h
    · rw [primary] at h
      cases h
    · rw [stringParts] at h
      cases h
    · rw [listItems] at h
      cases h
    · rw [mapEntries] at h
      cases h
    · rw [reference] at h
      cases h
  | succ n ih =>
    refine ⟨?_, operators_isExpression ih, primary_isExpression ih, stringParts_formed ih,
      listItems_isExpression ih, mapEntries_isExpression ih, reference_formed ih⟩
    intro least c node c' h
    rw [binary] at h
    obtain ⟨⟨left, behind⟩, hleft, hrest⟩ := bind_eq_ok.1 h
    exact ih.operators (ih.primary hleft) hrest

/-! ## Arguments and options -/

/-- A well-formed option. -/
def Clause.IsOption (clause : Clause) : Prop :=
  IsOptionName clause.name.toList ∧ ∀ node ∈ clause.arguments, node.IsExpression

theorem isOptionName_of_startsOption {file what : String} {c c' : Cursor} {name : List Char}
    (hoption : startsOption c.rest = true)
    (h : c.step.expectWord file what = .ok (name, c')) :
    IsOptionName name := by
  obtain ⟨hword, hrest, hboundary⟩ := Cursor.expectWord_ok h
  refine ⟨hword, ?_⟩
  intro ch hch
  rw [Cursor.rest_step] at hrest
  unfold startsOption at hoption
  split at hoption
  · rename_i other more heq
    rw [heq, List.tail_cons] at hrest
    cases name with
    | nil => cases hch
    | cons first rest =>
      cases hch
      rw [List.cons_append] at hrest
      rw [← (List.cons.inj hrest).1]
      exact hoption
  · cases hoption

theorem isOptionName_in : IsOptionName "in".toList := by
  refine ⟨⟨by decide, List.all_eq_true.1 rfl⟩, ?_⟩
  intro ch hch
  cases hch
  decide

theorem clauses_formed (file : String) (n : Nat) {c c' : Cursor} {arguments : List Node}
    {options : List Clause}
    (h : clauses file n c = .ok ((arguments, options), c')) :
    (∀ node ∈ arguments, node.IsExpression) ∧ ∀ option ∈ options, option.IsOption := by
  induction n generalizing c c' arguments options with
  | zero =>
    rw [clauses] at h
    cases h
  | succ n ih =>
    rw [clauses] at h
    dsimp only at h
    split at h
    · cases h
      exact ⟨by simp, by simp⟩
    · split at h
      · rename_i hoption
        obtain ⟨⟨name, behind⟩, hname, hrest⟩ := bind_eq_ok.1 h
        obtain ⟨⟨⟨more, others⟩, last⟩, hmore, hend⟩ := bind_eq_ok.1 hrest
        cases hend
        obtain ⟨harguments, hoptions⟩ := ih hmore
        refine ⟨by simp, ?_⟩
        intro option hmem
        rcases List.mem_cons.1 hmem with rfl | hmem
        · refine ⟨?_, harguments⟩
          rw [String.toList_ofList]
          exact isOptionName_of_startsOption hoption hname
        · exact hoptions option hmem
      · split at h
        · obtain ⟨⟨⟨more, others⟩, last⟩, hmore, hend⟩ := bind_eq_ok.1 h
          cases hend
          obtain ⟨harguments, hoptions⟩ := ih hmore
          refine ⟨by simp, ?_⟩
          intro option hmem
          rcases List.mem_cons.1 hmem with rfl | hmem
          · exact ⟨isOptionName_in, harguments⟩
          · exact hoptions option hmem
        · obtain ⟨⟨value, behind⟩, hvalue, hrest⟩ := bind_eq_ok.1 h
          obtain ⟨⟨⟨more, others⟩, last⟩, hmore, hend⟩ := bind_eq_ok.1 hrest
          cases hend
          obtain ⟨harguments, hoptions⟩ := ih hmore
          refine ⟨?_, hoptions⟩
          intro node hnode
          rcases List.mem_cons.1 hnode with rfl | hnode
          · exact (readsValues file n).binary hvalue
          · exact harguments node hnode

theorem pairValue_isStatement {file key : String} {n : Nat} {span : Span} {c c' : Cursor}
    {node : Node}
    (h : pairValue file n key span c = .ok (node, c')) :
    node.IsStatement := by
  rw [pairValue] at h
  obtain ⟨⟨value, behind⟩, hvalue, hrest⟩ := bind_eq_ok.1 h
  obtain ⟨last, -, hend⟩ := bind_eq_ok.1 hrest
  cases hend
  have hexpression := (readsValues file n).binary hvalue
  refine ⟨rfl, .intro hexpression.value ?_⟩
  intro child hchild
  obtain rfl := List.mem_singleton.1 hchild
  exact hexpression.formed

theorem guardOf_formed {file : String} {n : Nat} {c c' : Cursor} {arguments : List Node}
    (h : guardOf file n c = .ok (arguments, c')) :
    ∀ node ∈ arguments, node.IsExpression := by
  rw [guardOf] at h
  split at h
  · obtain ⟨⟨⟨more, others⟩, last⟩, hmore, hend⟩ := bind_eq_ok.1 h
    cases hend
    exact (clauses_formed file n hmore).1
  · cases h
    simp

/-! ## Statements -/

/-- A well-formed branch. -/
structure Branch.IsBranch (branch : Branch) : Prop where
  name : branch.name = "else"
  arguments : ∀ node ∈ branch.arguments, node.IsExpression
  body : ∀ node ∈ branch.body, node.IsStatement

/-- What the rules for statements read with so many steps. -/
structure ReadsStatements (file : String) (n : Nat) : Prop where
  body : ∀ {allowElse c nodes ending c'}, body file n allowElse c = .ok ((nodes, ending), c') →
    (∀ node ∈ nodes, node.IsStatement) ∧ (ending = .orElse → allowElse = true)
  block : ∀ {what c nodes c'}, blockBody file n what c = .ok (nodes, c') →
    ∀ node ∈ nodes, node.IsStatement
  statement : ∀ {c node c'}, (∀ closer ∈ closers, c.atKeyword closer = false) →
    statement file n c = .ok (node, c') → node.IsStatement
  resource : ∀ {type span c node c'}, IsBlockType type →
    resource file n type span c = .ok (node, c') → node.IsStatement
  directive : ∀ {span c node c'}, c.atKeyword ['e', 'n', 'd'] = false →
    c.atKeyword ['e', 'l', 's', 'e'] = false →
    directive file n span c = .ok (node, c') → node.IsStatement
  branches : ∀ {name ending c branches c'},
    elseBranches file n name ending c = .ok (branches, c') →
    (∀ branch ∈ branches, branch.IsBranch) ∧ (branches ≠ [] → ending = .orElse)

section Step

variable {file : String} {n : Nat}

theorem body_isStatement (ih : ReadsStatements file n) {allowElse : Bool} {c c' : Cursor}
    {nodes : List Node} {ending : Ending}
    (h : body file (n + 1) allowElse c = .ok ((nodes, ending), c')) :
    (∀ node ∈ nodes, node.IsStatement) ∧ (ending = .orElse → allowElse = true) := by
  rw [body] at h
  dsimp only at h
  split at h
  · cases h
    exact ⟨by simp, by simp⟩
  · split at h
    · obtain ⟨last, -, hend⟩ := bind_eq_ok.1 h
      cases hend
      exact ⟨by simp, by simp⟩
    · split at h
      · obtain ⟨last, -, hend⟩ := bind_eq_ok.1 h
        cases hend
        exact ⟨by simp, by simp⟩
      · split at h
        · split at h
          · rename_i hallow
            cases h
            exact ⟨by simp, fun _ => hallow⟩
          · cases h
        · rename_i hsigned hplain helse
          obtain ⟨⟨node, behind⟩, hnode, hrest⟩ := bind_eq_ok.1 h
          obtain ⟨⟨⟨more, final⟩, last⟩, hmore, hend⟩ := bind_eq_ok.1 hrest
          cases hend
          obtain ⟨hnodes, hending⟩ := ih.body hmore
          refine ⟨?_, hending⟩
          intro other hother
          rcases List.mem_cons.1 hother with rfl | hother
          · refine ih.statement ?_ hnode
            intro closer hmem
            simp only [closers, List.mem_cons, List.not_mem_nil, or_false] at hmem
            rcases hmem with rfl | rfl | rfl
            · exact Bool.eq_false_iff.2 hsigned
            · exact Bool.eq_false_iff.2 hplain
            · exact Bool.eq_false_iff.2 helse
          · exact hnodes other hother

theorem isBlockType_ofList {head kind : List Char}
    (hhead : IsWord head)
    (hkind : IsWord kind)
    (hstart : ∀ ch ∈ head.head?, isNameStart ch = true) :
    IsBlockType (String.ofList (head ++ [':', ':'] ++ kind)) := by
  refine ⟨⟨head, kind, hhead, hkind, String.toList_ofList⟩, ?_⟩
  rw [String.toList_ofList]
  cases head with
  | nil => exact absurd rfl hhead.ne_nil
  | cons first rest =>
    intro ch hch
    cases hch
    exact hstart first rfl

theorem isStatement_block {key : String} {nodes : List Node} {span : Span}
    (hkey : IsWord key.toList)
    (hstart : ∀ ch ∈ key.toList.head?, isNameStart ch = true)
    (hend : key.toList ≠ ['e', 'n', 'd'])
    (hnodes : ∀ node ∈ nodes, node.IsStatement) :
    (Node.block key nodes span).IsStatement :=
  ⟨rfl, .intro ⟨hkey, hstart, hend, fun node hnode => (hnodes node hnode).statement⟩
    fun child hchild => (hnodes child hchild).formed⟩

theorem isNameStart_of_peek {c : Cursor} {word tail : List Char}
    (hany : (c.peek.any fun ch => ch.isAlpha || ch == '_') = true) (hrest : c.rest = word ++ tail) :
    ∀ ch ∈ word.head?, isNameStart ch = true := by
  intro ch hch
  cases word with
  | nil => cases hch
  | cons first more =>
    cases hch
    rw [Cursor.peek, hrest] at hany
    exact hany

/-- A word with neither a word character nor a colon behind it would be the keyword `end`. -/
theorem ne_of_atKeyword_eq_false {c : Cursor} {keyword word tail : List Char}
    (hrest : c.rest = word ++ tail)
    (hboundary : Boundary tail)
    (hcolon : tail.head? ≠ some ':')
    (h : c.atKeyword keyword = false) :
    word ≠ keyword := by
  rintro rfl
  rw [Cursor.atKeyword, hrest, startsWithKeyword_append] at h
  · cases h
  · intro ch hch
    have hne : (ch == ':') = false := by
      apply beq_eq_false_iff_ne.2
      rintro rfl
      exact hcolon hch
    rw [hboundary ch hch, hne]
    rfl

theorem statement_isStatement (ih : ReadsStatements file n) {c c' : Cursor} {node : Node}
    (hclosers : ∀ closer ∈ closers, c.atKeyword closer = false)
    (h : statement file (n + 1) c = .ok (node, c')) :
    node.IsStatement := by
  rw [statement] at h
  dsimp only at h
  split at h
  · rename_i hsign
    obtain ⟨ch, rest, hrest⟩ : ∃ ch rest, c.rest = ch :: rest := by
      cases hrest : c.rest with
      | nil =>
        rw [Cursor.sees, Cursor.peek, hrest] at hsign
        cases hsign
      | cons ch rest => exact ⟨ch, rest, rfl⟩
    have hch : ch = '@' := by
      rw [Cursor.sees_cons hrest] at hsign
      exact beq_iff_eq.1 hsign
    subst hch
    have hstep : ∀ keyword, c.atKeyword ('@' :: keyword) = c.step.atKeyword keyword := by
      intro keyword
      rw [Cursor.atKeyword, hrest, startsWithKeyword_cons, Cursor.atKeyword,
        Cursor.rest_step_cons hrest]
    refine ih.directive ?_ ?_ h
    · rw [← hstep]
      exact hclosers _ (by decide)
    · rw [← hstep]
      exact hclosers _ (by decide)
  · split at h
    · obtain ⟨⟨key, behind⟩, -, h⟩ := bind_eq_ok.1 h
      obtain ⟨colon, -, h⟩ := bind_eq_ok.1 h
      exact pairValue_isStatement h
    · split at h
      · rename_i hany
        obtain ⟨⟨head, behind⟩, hhead, h⟩ := bind_eq_ok.1 h
        obtain ⟨hword, hrest, hboundary⟩ := Cursor.expectWord_ok hhead
        have hstart := isNameStart_of_peek hany hrest
        dsimp only at h
        split at h
        · obtain ⟨⟨kind, behindKind⟩, hkind, h⟩ := bind_eq_ok.1 h
          exact ih.resource (isBlockType_ofList hword (Cursor.expectWord_ok hkind).1 hstart) h
        · split at h
          · exact pairValue_isStatement h
          · rename_i hcolon
            obtain ⟨line, -, h⟩ := bind_eq_ok.1 h
            obtain ⟨⟨nodes, last⟩, hnodes, hend⟩ := bind_eq_ok.1 h
            cases hend
            have hnoColon : behind.rest.head? ≠ some ':' := by
              intro heq
              have htight : Tight behind.rest := by
                intro ch hch
                rw [heq] at hch
                cases hch
                decide
              rw [Cursor.skipInline_tight htight, Cursor.sees, Cursor.peek, heq] at hcolon
              exact hcolon rfl
            have hnotEnd := ne_of_atKeyword_eq_false hrest hboundary hnoColon
              (hclosers ['e', 'n', 'd'] (by decide))
            rw [← String.toList_ofList (l := head)] at hword hstart hnotEnd
            exact isStatement_block hword hstart hnotEnd (ih.block hnodes)
      · exact absurd h Cursor.not_unexpected

theorem resource_isStatement (ih : ReadsStatements file n) {type : String} {span : Span}
    {c c' : Cursor} {node : Node}
    (htype : IsBlockType type)
    (h : resource file (n + 1) type span c = .ok (node, c')) :
    node.IsStatement := by
  rw [resource] at h
  dsimp only at h
  split at h
  · cases h
  · obtain ⟨⟨name, behind⟩, hname, h⟩ := bind_eq_ok.1 h
    obtain ⟨line, -, h⟩ := bind_eq_ok.1 h
    obtain ⟨⟨nodes, last⟩, hnodes, hend⟩ := bind_eq_ok.1 h
    cases hend
    have hexpression := (readsValues file n).primary hname
    have hbody := ih.block hnodes
    refine ⟨rfl, .intro ⟨htype, hexpression.value, fun node hnode => (hbody node hnode).statement⟩
      ?_⟩
    intro child hchild
    rcases List.mem_cons.1 hchild with rfl | hchild
    · exact hexpression.formed
    · exact (hbody child hchild).formed

/-- A directive is well formed when its parts are. -/
theorem isStatement_directive {d : Directive}
    (hname : IsWord d.name.toList)
    (hcloser : d.bodyless = false → d.name.toList ≠ ['e', 'n', 'd'] ∧
      d.name.toList ≠ ['e', 'l', 's', 'e'])
    (harguments : ∀ node ∈ d.arguments, node.IsExpression)
    (hclauses : ∀ clause ∈ d.clauses, clause.IsOption)
    (hbodyless : d.bodyless = true → d.body = [] ∧ d.branches = [])
    (hbody : ∀ node ∈ d.body, node.IsStatement)
    (hguarded : d.branches ≠ [] → d.name = "if")
    (hbranches : ∀ branch ∈ d.branches, branch.IsBranch) :
    (Node.directive d).IsStatement := by
  refine ⟨rfl, .intro ?_ ?_⟩
  · exact {
      name := hname
      notCloser := hcloser
      arguments := fun node hnode => (harguments node hnode).value
      clauses := fun clause hclause => ⟨(hclauses clause hclause).1,
        fun node hnode => ((hclauses clause hclause).2 node hnode).value⟩
      bodyless := hbodyless
      body := fun node hnode => (hbody node hnode).statement
      guarded := hguarded
      branches := fun branch hbranch => ⟨(hbranches branch hbranch).name,
        fun node hnode => ((hbranches branch hbranch).arguments node hnode).value,
        fun node hnode => ((hbranches branch hbranch).body node hnode).statement⟩ }
  · intro child hchild
    simp only [Node.children, Directive.children, List.mem_append, List.mem_flatMap] at hchild
    rcases hchild with ((hchild | ⟨clause, hclause, hchild⟩) | hchild) | ⟨branch, hbranch, hchild⟩
    · exact (harguments child hchild).formed
    · exact ((hclauses clause hclause).2 child hchild).formed
    · exact (hbody child hchild).formed
    · rcases List.mem_append.1 hchild with hchild | hchild
      · exact ((hbranches branch hbranch).arguments child hchild).formed
      · exact ((hbranches branch hbranch).body child hchild).formed

theorem directive_isStatement (ih : ReadsStatements file n) {span : Span} {c c' : Cursor}
    {node : Node}
    (hend : c.atKeyword ['e', 'n', 'd'] = false)
    (helse : c.atKeyword ['e', 'l', 's', 'e'] = false)
    (h : directive file (n + 1) span c = .ok (node, c')) :
    node.IsStatement := by
  rw [directive] at h
  obtain ⟨⟨name, behind⟩, hname, h⟩ := bind_eq_ok.1 h
  obtain ⟨hword, hrest, hboundary⟩ := Cursor.expectWord_ok hname
  obtain ⟨⟨⟨arguments, options⟩, behindHead⟩, hhead, h⟩ := bind_eq_ok.1 h
  obtain ⟨harguments, hoptions⟩ := clauses_formed file n hhead
  obtain ⟨line, -, h⟩ := bind_eq_ok.1 h
  dsimp only at h
  rw [← String.toList_ofList (l := name)] at hword
  split at h
  · rename_i hbodyless
    cases h
    exact isStatement_directive hword (fun hfalse => Bool.noConfusion hfalse)
      harguments hoptions (fun _ => ⟨rfl, rfl⟩) (by simp) (by simp) (by simp)
  · rename_i hbodyless
    obtain ⟨⟨⟨nodes, ending⟩, behindBody⟩, hbody, h⟩ := bind_eq_ok.1 h
    obtain ⟨⟨branches, last⟩, hbranches, hlast⟩ := bind_eq_ok.1 h
    cases hlast
    obtain ⟨hnodes, hallow⟩ := ih.body hbody
    obtain ⟨hbranchesFormed, hending⟩ := ih.branches hbranches
    have hnoColon : behind.rest.head? ≠ some ':' := by
      intro heq
      rw [Cursor.sees, Cursor.peek, heq] at hbodyless
      exact hbodyless rfl
    refine isStatement_directive hword (fun _ => ?_) harguments hoptions (by simp) hnodes ?_
      hbranchesFormed
    · rw [String.toList_ofList]
      exact ⟨ne_of_atKeyword_eq_false hrest hboundary hnoColon hend,
        ne_of_atKeyword_eq_false hrest hboundary hnoColon helse⟩
    · intro hne
      exact beq_iff_eq.1 (hallow (hending hne))

theorem elseBranches_isBranch (ih : ReadsStatements file n) {name : String} {ending : Ending}
    {c c' : Cursor} {branches : List Branch}
    (h : elseBranches file (n + 1) name ending c = .ok (branches, c')) :
    (∀ branch ∈ branches, branch.IsBranch) ∧ (branches ≠ [] → ending = .orElse) := by
  cases ending with
  | closed =>
    rw [elseBranches] at h
    cases h
    exact ⟨by simp, fun hne => absurd rfl hne⟩
  | eof =>
    rw [elseBranches] at h
    cases h
  | orElse =>
    rw [elseBranches] at h
    refine ⟨?_, fun _ => rfl⟩
    obtain ⟨⟨arguments, behind⟩, harguments, h⟩ := bind_eq_ok.1 h
    obtain ⟨line, -, h⟩ := bind_eq_ok.1 h
    obtain ⟨⟨⟨nodes, next⟩, behindBody⟩, hbody, h⟩ := bind_eq_ok.1 h
    obtain ⟨⟨more, last⟩, hmore, hend⟩ := bind_eq_ok.1 h
    cases hend
    intro branch hbranch
    rcases List.mem_cons.1 hbranch with rfl | hbranch
    · exact ⟨rfl, guardOf_formed harguments, (ih.body hbody).1⟩
    · exact (ih.branches hmore).1 branch hbranch

end Step

/-- Whatever the depth, the rules for statements give well-formed statements. -/
theorem readsStatements (file : String) (n : Nat) : ReadsStatements file n := by
  induction n with
  | zero =>
    refine ⟨fun h => ?_, fun h => ?_, fun _ h => ?_, fun _ h => ?_, fun _ _ h => ?_, fun h => ?_⟩
    · rw [body] at h
      cases h
    · rw [blockBody] at h
      cases h
    · rw [statement] at h
      cases h
    · rw [resource] at h
      cases h
    · rw [directive] at h
      cases h
    · rw [elseBranches] at h
      cases h
  | succ n ih =>
    refine ⟨body_isStatement ih, ?_, statement_isStatement ih, resource_isStatement ih,
      directive_isStatement ih, elseBranches_isBranch ih⟩
    intro what c nodes c' h
    rw [blockBody] at h
    obtain ⟨⟨⟨more, ending⟩, behind⟩, hbody, hrest⟩ := bind_eq_ok.1 h
    dsimp only at hrest
    split at hrest
    · cases hrest
      exact (ih.body hbody).1
    · cases hrest

/-- What is parsed is well formed. -/
theorem parse_isStatement {path source : String} {file : SourceFile}
    (h : parse path source = .ok file) :
    file.path = path ∧ ∀ node ∈ file.body, node.IsStatement := by
  rw [parse] at h
  obtain ⟨nodes, hnodes, hend⟩ := bind_eq_ok.1 h
  cases hend
  refine ⟨rfl, ?_⟩
  rw [parseChars] at hnodes
  obtain ⟨⟨⟨more, ending⟩, behind⟩, hbody, hrest⟩ := bind_eq_ok.1 hnodes
  dsimp only at hrest
  split at hrest
  · cases hrest
    exact ((readsStatements path _).body hbody).1
  · cases hrest

end Provision.Language
