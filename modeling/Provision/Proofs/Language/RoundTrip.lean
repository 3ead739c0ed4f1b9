import Provision.Proofs.Language.Grammar

/-!
# Printing and parsing again

The printed text of a well-formed tree is read as the same tree.  The proof is
one induction over the tree; each case applies the rule for its form to what
the induction gives for the children.  Two kinds of trees are left out, because
their text reads as something else: numbers that are not finite, and operators
in the place of a name.
-/

namespace Provision.Language

/-- A number in the tree is finite. -/
def Node.FiniteNumber : Node → Prop
  | .number x => Decimal.isFinite x = true
  | _ => True

/-- Whether a tree has an operator at its root. -/
def Node.isBinary : Node → Bool
  | .binary .. => true
  | _ => false

/-- The name of a resource or of a reference has no operator at its root. -/
def Node.PlainName : Node → Prop
  | .resource _ name _ _ => name.isBinary = false
  | .ref _ name _ _ => ∀ node ∈ name, node.isBinary = false
  | _ => True

/-- How strongly the operator at the root of a tree binds; trees without one bind strongest. -/
def Node.level : Node → Nat
  | .binary op _ _ => op.precedence
  | _ => 6

/-- What is asked of a tree, apart from its children, for its text to be read as it. -/
def Node.Printable (node : Node) : Prop :=
  node.Formed ∧ node.FiniteNumber ∧ node.PlainName

/-- The text is neither an option nor the keyword `in`, whatever follows it. -/
def Plain (text : List Char) : Prop :=
  ∀ tail, Boundary tail →
    startsOption (text ++ tail) = false ∧ startsWithKeyword ['i', 'n'] (text ++ tail) = false

/-- The ways in which the text of a tree is read back. -/
structure Node.ReadsBack (node : Node) : Prop where
  atom : node.isStatement = false → node.isBinary = false → Atom node.inline node.bare
  reference : node.isReference = true → Reference node.inline node.bare
  expression : node.isStatement = false → Expression node.level node.inline node.bare
  plain : node.isStatement = false → Plain node.inline
  statement : node.isStatement = true → ∀ depth,
    ∃ text, node.lines depth = blanks (4 * depth) ++ text ∧ Statement text node.bare

/-! ## Texts that are not taken for options -/

theorem plain_of_head {ch : Char} {rest : List Char} (hminus : ch ≠ '-') (hin : ch ≠ 'i') :
    Plain (ch :: rest) := by
  intro tail _
  constructor
  · unfold startsOption
    split
    · rename_i heq
      exact absurd (List.cons.inj heq).1 hminus
    · rfl
  · apply startsWithKeyword_of_head_ne
    intro heq
    exact hin (Option.some.inj heq)

theorem plain_bareWord {word : List Char} (h : isBareWord word = true) : Plain word := by
  obtain ⟨ch, rest, rfl, hch⟩ := head_of_isBareWord h
  have hne : ch :: rest ≠ ['i', 'n'] := by
    intro heq
    exact not_keyword_of_isBareWord h (heq ▸ by decide)
  intro tail hboundary
  constructor
  · have hminus : ch ≠ '-' := isNameStart_ne hch (by decide)
    unfold startsOption
    split
    · rename_i heq
      exact absurd (List.cons.inj heq).1 hminus
    · rfl
  · exact startsWithKeyword_word (List.all_eq_true.1 rfl) (isWord_of_isBareWord h).all hboundary hne

theorem plain_number {x : Float} (hx : Decimal.isFinite x = true) :
    Plain (Decimal.write Decimal.plain x) := by
  intro tail _
  have hstarts := Decimal.startsNumber_write hx tail
  generalize Decimal.write Decimal.plain x ++ tail = text at hstarts ⊢
  unfold startsNumber at hstarts
  constructor
  · unfold startsOption
    split
    · rename_i c rest
      have hdigit : c.isDigit = true := hstarts
      apply Bool.eq_false_iff.2
      intro halpha
      have hletter : startsNumber [c] = false :=
        startsNumber_letter (Bool.or_eq_true_iff.2 (Or.inl halpha))
      simp only [startsNumber] at hletter
      rw [hdigit] at hletter
      cases hletter
    · rfl
  · apply startsWithKeyword_of_head_ne
    intro heq
    split at hstarts
    · cases heq
    · rename_i c rest _
      cases heq
      exact absurd hstarts (by decide)
    · cases heq

theorem Plain.argument {node : Node} {level : Nat}
    (hexpression : Expression level node.inline node.bare)
    (hplain : Plain node.inline) :
    Argument node.word node.bare := by
  cases node with
  | text s =>
    refine ⟨⟨6, atom_word.expression⟩, ?_⟩
    simp only [Node.word, wordOr]
    split
    · rename_i hbare
      exact plain_bareWord hbare
    · exact hplain
  | _ => exact ⟨⟨level, hexpression⟩, hplain⟩

/-! ## Names, operands and arguments -/

theorem Node.ReadsBack.of_atom {node : Node}
    (hvalue : node.isStatement = false)
    (hbinary : node.isBinary = false)
    (hatom : Atom node.inline node.bare)
    (hreference : node.isReference = true → Reference node.inline node.bare)
    (hplain : Plain node.inline) :
    node.ReadsBack := by
  have hlevel : node.level = 6 := by
    cases node <;> first | rfl | cases hbinary
  refine ⟨fun _ _ => hatom, hreference, fun _ => hlevel ▸ hatom.expression, fun _ => hplain, ?_⟩
  intro hstatement
  rw [hvalue] at hstatement
  cases hstatement

theorem Node.ReadsBack.of_statement {node : Node}
    (hstatement : node.isStatement = true)
    (hlines : ∀ depth, ∃ text,
      node.lines depth = blanks (4 * depth) ++ text ∧ Statement text node.bare) :
    node.ReadsBack := by
  have hvalue : node.isStatement ≠ false := by
    rw [hstatement]
    exact Bool.noConfusion
  refine ⟨fun h => absurd h hvalue, ?_, fun h => absurd h hvalue, fun h => absurd h hvalue,
    fun _ => hlines⟩
  intro hreference
  exact absurd (Node.isStatement_of_isReference hreference).1 hvalue

theorem Node.ReadsBack.name {node : Node} (h : node.ReadsBack)
    (hvalue : node.isStatement = false)
    (hbinary : node.isBinary = false) :
    Atom node.word node.bare := by
  cases node with
  | text s => exact atom_word
  | _ => exact h.atom hvalue hbinary

theorem Node.ReadsBack.argument {node : Node} (h : node.ReadsBack)
    (hvalue : node.isStatement = false) :
    Argument node.word node.bare :=
  (h.plain hvalue).argument (h.expression hvalue)

theorem precedence_le (op : Operator) : op.precedence ≤ 5 := by
  cases op <;> decide

/-- An operand is read up to its operator: without parentheses only when it binds strongly
enough. -/
theorem Node.ReadsBack.operand {node : Node} (h : node.ReadsBack)
    (hvalue : node.isStatement = false)
    (op : Operator) (right : Bool) :
    ∃ level, Expression level (operandText op right node node.inline) node.bare ∧
      op.precedence ≤ level ∧ (right = true → op.precedence < level) := by
  have hop := precedence_le op
  unfold operandText
  split
  · exact ⟨6, (h.expression hvalue).paren.expression, by omega, fun _ => by omega⟩
  · rename_i hparens
    refine ⟨node.level, h.expression hvalue, ?_⟩
    cases node with
    | binary own _ _ =>
      simp only [needsParens, Bool.or_eq_true, decide_eq_true_eq, Bool.and_eq_true, beq_iff_eq,
        not_or, not_and] at hparens
      simp only [Node.level]
      refine ⟨by omega, fun hright => ?_⟩
      have := hparens.2 hright
      omega
    | _ => exact ⟨by simp only [Node.level]; omega, fun _ => by simp only [Node.level]; omega⟩

theorem Node.ReadsBack.operand_plain {node : Node} (h : node.ReadsBack)
    (hvalue : node.isStatement = false)
    (op : Operator) (right : Bool) :
    Plain (operandText op right node node.inline) := by
  unfold operandText
  split
  · exact plain_of_head (by decide) (by decide)
  · exact h.plain hvalue

/-! ## One case for each form -/

theorem readsBack_interpolated {parts : List Node}
    (hformed : (Node.interpolated parts).Formed)
    (ih : ∀ part ∈ parts, part.ReadsBack) :
    (Node.interpolated parts).ReadsBack := by
  obtain ⟨hshape, hreference, hparts⟩ := hformed
  have hatom := atom_interpolated parts hshape hreference fun part hpart hnone =>
    (ih part hpart).reference (hparts part hpart hnone)
  refine .of_atom rfl rfl ?_ Bool.noConfusion ?_
  · simpa only [Node.inline, Node.bare, partsText_eq_flatMap, bareNodes_eq_map] using hatom
  · exact plain_of_head (by decide) (by decide)

theorem readsBack_list {items : List Node}
    (hformed : (Node.list items).Formed)
    (ih : ∀ item ∈ items, item.ReadsBack) :
    (Node.list items).ReadsBack := by
  have hatom : Atom (listText (items.map Node.inline)) (.list (items.map Node.bare)) :=
    atom_list items fun item hitem => (ih item hitem).expression (hformed item hitem)
  refine .of_atom rfl rfl ?_ Bool.noConfusion ?_
  · simpa only [Node.inline, Node.bare, inlines_eq_map, bareNodes_eq_map] using hatom
  · exact plain_of_head (by decide) (by decide)

theorem readsBack_map {entries : List Entry}
    (hformed : (Node.map entries).Formed)
    (ih : ∀ entry ∈ entries, entry.value.ReadsBack) :
    (Node.map entries).ReadsBack := by
  have hatom : Atom (mapText (entries.map Entry.inline)) (.map (entries.map Entry.bare)) := by
    rw [funext Entry.bare_eq]
    exact atom_map entries fun entry hentry =>
      (ih entry hentry).expression (hformed entry hentry)
  refine .of_atom rfl rfl ?_ Bool.noConfusion ?_
  · simpa only [Node.inline, Node.bare, entriesText_eq_map, bareEntries_eq_map] using hatom
  · simp only [Node.inline, entriesText_eq_map]
    cases entries with
    | nil => exact plain_of_head (by decide) (by decide)
    | cons entry rest => exact plain_of_head (by decide) (by decide)

theorem readsBack_var {path : List String} {span : Span} (hformed : (Node.var path span).Formed) :
    (Node.var path span).ReadsBack := by
  have hreference : Reference (varText path) (.var path Span.generated) := reference_var hformed
  exact .of_atom rfl rfl hreference.atom (fun _ => hreference)
    (plain_of_head (by decide) (by decide))

theorem readsBack_ref {type : String} {name : Option Node} {path : List String} {span : Span}
    (hformed : (Node.ref type name path span).Formed)
    (hplain : (Node.ref type name path span).PlainName)
    (ih : ∀ node ∈ name, node.ReadsBack) :
    (Node.ref type name path span).ReadsBack := by
  obtain ⟨htype, hvalue, hpath⟩ := hformed
  have hname : NameReads (name.map Node.word) (name.map Node.bare) := by
    cases name with
    | none => rfl
    | some name =>
      exact ⟨name.bare, rfl, (ih name rfl).name (hvalue name rfl) (hplain name rfl)⟩
  have htext : nameText name = spacedName (name.map Node.word) := by
    cases name <;> rfl
  have hreference : Reference (Node.ref type name path span).inline
      (Node.ref type name path span).bare := by
    rw [Node.inline, Node.bare, htext, bareOption_eq_map]
    exact reference_ref htype hname hpath
  exact .of_atom rfl rfl hreference.atom (fun _ => hreference)
    (plain_of_head (by decide) (by decide))

theorem readsBack_binary {op : Operator} {left right : Node}
    (hformed : (Node.binary op left right).Formed)
    (ihl : left.ReadsBack)
    (ihr : right.ReadsBack) :
    (Node.binary op left right).ReadsBack := by
  obtain ⟨leftLevel, hleft, hlevel, -⟩ := ihl.operand hformed.1 op false
  obtain ⟨rightLevel, hright, -, hbelow⟩ := ihr.operand hformed.2 op true
  refine ⟨fun _ h => Bool.noConfusion h, Bool.noConfusion, fun _ => ?_, fun _ => ?_, Bool.noConfusion⟩
  · exact hleft.binary hright hlevel (hbelow rfl)
  · intro tail _
    rw [Node.inline, binaryText, List.append_assoc]
    exact ihl.operand_plain hformed.1 op false _ (boundary_cons (by decide))

theorem readsBack_pair {entry : Entry}
    (hformed : (Node.pair entry).Formed)
    (ih : entry.value.ReadsBack) :
    (Node.pair entry).ReadsBack := by
  refine .of_statement rfl fun depth => ?_
  refine ⟨pairText entry.key entry.value.inline ++ ['\n'], ?_, ?_⟩
  · obtain ⟨key, value, span⟩ := entry
    rw [Node.lines, indent_eq_blanks, List.append_assoc]
  · rw [Node.bare, Entry.bare_eq]
    exact statement_pair (ih.expression hformed)

theorem readsBack_resource {type : String} {name : Node} {body : List Node} {span : Span}
    (hformed : (Node.resource type name body span).Formed)
    (hplain : (Node.resource type name body span).PlainName)
    (ihname : name.ReadsBack)
    (ih : ∀ node ∈ body, node.ReadsBack) :
    (Node.resource type name body span).ReadsBack := by
  obtain ⟨htype, hvalue, hbody⟩ := hformed
  refine .of_statement rfl fun depth => ?_
  have hitems : ∀ node ∈ body, ∃ text, node.lines (depth + 1) = blanks (4 * (depth + 1)) ++ text ∧
      Statement text node.bare :=
    fun node hnode => (ih node hnode).statement (hbody node hnode) (depth + 1)
  have hstatement := statement_resource depth body htype (ihname.name hvalue hplain) hitems
  refine ⟨_, ?_, by simpa only [Node.bare, bareNodes_eq_map] using hstatement⟩
  rw [Node.lines, resourceText, indent_eq_blanks, statements_eq_flatMap, List.append_assoc,
    List.append_assoc]
  rfl

theorem readsBack_block {key : String} {body : List Node} {span : Span}
    (hformed : (Node.block key body span).Formed)
    (ih : ∀ node ∈ body, node.ReadsBack) :
    (Node.block key body span).ReadsBack := by
  obtain ⟨hkey, hstart, hend, hbody⟩ := hformed
  refine .of_statement rfl fun depth => ?_
  have hitems : ∀ node ∈ body, ∃ text, node.lines (depth + 1) = blanks (4 * (depth + 1)) ++ text ∧
      Statement text node.bare :=
    fun node hnode => (ih node hnode).statement (hbody node hnode) (depth + 1)
  have hstatement := statement_block depth body hkey hstart hend hitems
  refine ⟨_, ?_, by simpa only [Node.bare, bareNodes_eq_map] using hstatement⟩
  rw [Node.lines, blockText, indent_eq_blanks, statements_eq_flatMap, List.append_assoc,
    List.append_assoc]

theorem readsBack_directive {d : Directive}
    (hformed : (Node.directive d).Formed)
    (ih : ∀ node ∈ d.children, node.ReadsBack) :
    (Node.directive d).ReadsBack := by
  have hformed : d.Formed := hformed
  refine .of_statement rfl fun depth => ?_
  have hargument : ∀ node ∈ d.arguments, node.ReadsBack := fun node hnode =>
    ih node (by simp [Directive.children, hnode])
  have hclause : ∀ clause ∈ d.clauses, ∀ node ∈ clause.arguments, node.ReadsBack := by
    intro clause hclause node hnode
    apply ih
    simp only [Directive.children, List.mem_append, List.mem_flatMap]
    exact Or.inl (Or.inl (Or.inr ⟨clause, hclause, hnode⟩))
  have hbody : ∀ node ∈ d.body, node.ReadsBack := fun node hnode =>
    ih node (by simp [Directive.children, hnode])
  have hbranch : ∀ branch ∈ d.branches, ∀ node ∈ branch.children, node.ReadsBack := by
    intro branch hbranch node hnode
    apply ih
    simp only [Directive.children, List.mem_append, List.mem_flatMap]
    exact Or.inr ⟨branch, hbranch, hnode⟩
  apply statement_directive
  refine ⟨hformed.name, hformed.notCloser, ?_, ?_, hformed.bodyless, ?_, hformed.guarded, ?_⟩
  · intro argument h
    exact (hargument argument h).argument (hformed.arguments argument h)
  · intro clause h
    refine ⟨(hformed.clauses clause h).name, fun argument hmem => ?_⟩
    exact (hclause clause h argument hmem).argument ((hformed.clauses clause h).arguments argument hmem)
  · intro node h
    exact (hbody node h).statement (hformed.body node h) (depth + 1)
  · intro branch h
    refine ⟨(hformed.branches branch h).name, ?_, ?_⟩
    · intro argument hmem
      exact (hbranch branch h argument (List.mem_append_left _ hmem)).argument
        ((hformed.branches branch h).arguments argument hmem)
    · intro node hmem
      exact (hbranch branch h node (List.mem_append_right _ hmem)).statement
        ((hformed.branches branch h).body node hmem) (depth + 1)

/-- The text of a well-formed tree is read back as the tree. -/
theorem Node.Everywhere.readsBack {node : Node} (h : node.Everywhere Node.Printable) :
    node.ReadsBack := by
  induction h with
  | @intro node here below ih =>
    obtain ⟨hformed, hfinite, hplain⟩ := here
    cases node with
    | null =>
      exact .of_atom rfl rfl atom_null Bool.noConfusion (plain_of_head (by decide) (by decide))
    | bool b =>
      refine .of_atom rfl rfl (atom_bool b) Bool.noConfusion ?_
      cases b <;> exact plain_of_head (by decide) (by decide)
    | number x =>
      exact .of_atom rfl rfl (atom_number hfinite) Bool.noConfusion (plain_number hfinite)
    | text s =>
      refine .of_atom rfl rfl ?_ Bool.noConfusion (plain_of_head (by decide) (by decide))
      have h := atom_quoted s.toList
      rwa [String.ofList_toList] at h
    | interpolated parts => exact readsBack_interpolated hformed ih
    | list items => exact readsBack_list hformed ih
    | map entries =>
      exact readsBack_map hformed fun entry h => ih _ (List.mem_map_of_mem h)
    | var path span => exact readsBack_var hformed
    | ref type name path span =>
      exact readsBack_ref hformed hplain fun node h => ih node (Option.mem_toList.2 h)
    | binary op left right =>
      exact readsBack_binary hformed (ih left (by simp [Node.children]))
        (ih right (by simp [Node.children]))
    | pair entry => exact readsBack_pair hformed (ih _ List.mem_cons_self)
    | resource type name body span =>
      exact readsBack_resource hformed hplain (ih name List.mem_cons_self) fun node h =>
        ih node (List.mem_cons_of_mem _ h)
    | block key body span => exact readsBack_block hformed ih
    | directive d => exact readsBack_directive hformed ih

/-! ## Files -/

theorem parseChars_print {file : SourceFile}
    (hstatements : ∀ node ∈ file.body, node.isStatement = true)
    (hprintable : ∀ node ∈ file.body, node.Everywhere Node.Printable)
    (path : String) :
    ∃ got, parseChars path file.print.toList = .ok got ∧ bareNodes got = bareNodes file.body := by
  have hitems : ∀ node ∈ file.body, ∃ text, node.lines 0 = blanks (4 * 0) ++ text ∧
      Statement text node.bare :=
    fun node h => (hprintable node h).readsBack.statement (hstatements node h) 0
  have htext : file.print.toList = file.body.flatMap (Node.lines 0) := by
    rw [SourceFile.print, String.toList_ofList, statements_eq_flatMap]
  have hrest : (Cursor.start file.print.toList).rest = file.body.flatMap (Node.lines 0) ++ [] := by
    rw [htext, List.append_nil]
    rfl
  obtain ⟨got, hread, hgot⟩ := body_reads path file.body hitems (closes_eof path false)
    (n := nestingBound file.print.toList) hrest (by
      rw [htext, nestingBound]
      omega)
  refine ⟨got, ?_, by rwa [bareNodes_eq_map, bareNodes_eq_map]⟩
  rw [parseChars, hread, ok_bind]
  rfl

/-- Printing a parsed file and parsing the text again gives the same tree, apart from places, and
with it the same text, when all numbers are finite and no name is an operator expression. -/
theorem parse_print {path source : String} {file : SourceFile}
    (hparse : parse path source = .ok file)
    (hfinite : ∀ node ∈ file.body, node.Everywhere Node.FiniteNumber)
    (hplain : ∀ node ∈ file.body, node.Everywhere Node.PlainName) :
    ∃ again, parse path file.print = .ok again ∧
      again.path = file.path ∧
      bareNodes again.body = bareNodes file.body ∧
      again.print = file.print := by
  obtain ⟨hpath, hstatement⟩ := parse_isStatement hparse
  have hprintable : ∀ node ∈ file.body, node.Everywhere Node.Printable := fun node h =>
    (hstatement node h).formed.and ((hfinite node h).and (hplain node h))
  obtain ⟨got, hread, hgot⟩ :=
    parseChars_print (fun node h => (hstatement node h).statement) hprintable path
  refine ⟨⟨path, got⟩, ?_, hpath.symm, hgot, SourceFile.print_eq_of_bareNodes_eq hgot⟩
  rw [parse, hread, ok_bind]

theorem parse_print_difference :
    ∃ file again, parse "/main" "t::r 'b c'\nv: $(x) * 'and' - 2\nend\n" = .ok file ∧
      parse "/main" file.print = .ok again ∧
      bareNodes again.body = bareNodes file.body ∧
      again.print = file.print := by
  have htwo : Decimal.isFinite (Decimal.ofDigits false ['2'] [] 0) = true := by decide +kernel
  have hbody : ∀ node ∈ [Node.resource "t::r" (.text "b c")
      [.pair ⟨"v", .binary .sub (.binary .mul (.var ["x"] ⟨"/main", 2, 4⟩) (.text "and"))
        (.number (Decimal.ofDigits false ['2'] [] 0)), ⟨"/main", 2, 1⟩⟩] ⟨"/main", 1, 1⟩],
      node.Everywhere fun node => node.FiniteNumber ∧ node.PlainName := by
    refine List.forall_mem_singleton.2 (.intro ⟨trivial, rfl⟩ (List.forall_mem_cons.2
      ⟨.leaf ⟨trivial, trivial⟩ rfl, List.forall_mem_singleton.2 ?_⟩))
    refine .intro ⟨trivial, trivial⟩ (List.forall_mem_singleton.2 ?_)
    refine .intro ⟨trivial, trivial⟩ (List.forall_mem_cons.2 ⟨?_, List.forall_mem_singleton.2 ?_⟩)
    · refine .intro ⟨trivial, trivial⟩ (List.forall_mem_cons.2 ⟨?_, List.forall_mem_singleton.2 ?_⟩)
      · exact .leaf ⟨trivial, trivial⟩ rfl
      · exact .leaf ⟨trivial, trivial⟩ rfl
    · exact .leaf ⟨htwo, trivial⟩ rfl
  obtain ⟨again, hagain, -, hbare, hprint⟩ :=
    parse_print (show parse "/main" "t::r 'b c'\nv: $(x) * 'and' - 2\nend\n" = .ok _ from rfl)
      (fun node h => (hbody node h).mono fun _ h => h.1)
      (fun node h => (hbody node h).mono fun _ h => h.2)
  exact ⟨_, again, rfl, hagain, hbare, hprint⟩

end Provision.Language
