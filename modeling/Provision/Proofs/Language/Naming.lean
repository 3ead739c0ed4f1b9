import Provision.Proofs.Language.RoundTrip

/-!
# Operator expressions as names

A name is read by the rule for expressions without operators around them, but it
is written like a value, without parentheses.  So its text is read as the name
exactly when there is no operator at its root.  Else the reader stops behind the
first operand, and takes that for the name.
-/

namespace Provision.Language

variable {file : String} {n : Nat} {c c' : Cursor} {name node : Node} {type : String}
  {text tail : List Char}

/-! ## The first operand -/

/-- The text of an expression starts with an atom.  It is the whole expression, or a smaller part
of it with a blank behind. -/
theorem Node.Everywhere.exists_first (h : node.Everywhere Node.Printable)
    (hvalue : node.isStatement = false) :
    ∃ text rest part, node.inline = text ++ rest ∧ Atom text part ∧
      (rest = [] ∧ part = node.bare ∧ node.isBinary = false ∨
        (∃ more, rest = ' ' :: more) ∧ sizeOf part < sizeOf node.bare) := by
  induction h with
  | @intro node here below ih =>
    cases hbinary : node.isBinary with
    | false =>
      have hatom := (Everywhere.intro here below).readsBack.atom hvalue hbinary
      exact ⟨node.inline, [], node.bare, (List.append_nil _).symm, hatom, Or.inl ⟨rfl, rfl, rfl⟩⟩
    | true =>
      obtain ⟨op, left, right, rfl⟩ : ∃ op left right, node = .binary op left right := by
        cases node <;> first | exact ⟨_, _, _, rfl⟩ | cases hbinary
      have hmem : left ∈ (Node.binary op left right).children := List.mem_cons_self
      have hleft : left.isStatement = false := here.1.1
      have hsize : sizeOf left.bare < sizeOf (Node.binary op left right).bare := by
        rw [Node.bare, Node.binary.sizeOf_spec]
        omega
      rw [Node.inline, binaryText, operandText]
      split
      · have hparen := ((below left hmem).readsBack.expression hleft).paren
        exact ⟨_, _, left.bare, rfl, hparen, Or.inr ⟨⟨_, rfl⟩, hsize⟩⟩
      · obtain ⟨text, rest, part, htext, hatom, hrest⟩ := ih left hmem hleft
        refine ⟨text, _, part, by rw [htext, List.append_assoc], hatom, Or.inr ?_⟩
        rcases hrest with ⟨rfl, rfl, -⟩ | ⟨⟨more, rfl⟩, hpart⟩
        · exact ⟨⟨_, rfl⟩, hsize⟩
        · exact ⟨⟨_, rfl⟩, hpart.trans hsize⟩

theorem isStatement_of_isBinary (h : name.isBinary = true) : name.isStatement = false := by
  cases name <;> first | rfl | cases h

/-- Where the text of an operator expression stands for a name, another name is read. -/
theorem primary_ne_of_isBinary (h : name.Everywhere Node.Printable) (hbinary : name.isBinary = true)
    (hrest : c.rest = name.inline ++ tail) (hn : 12 * name.inline.length ≤ n)
    (hread : primary file n c = .ok (node, c')) :
    node.bare ≠ name.bare := by
  obtain ⟨text, rest, part, htext, hatom, hpart⟩ := h.exists_first (isStatement_of_isBinary hbinary)
  rw [hbinary] at hpart
  rcases hpart with ⟨-, -, hnot⟩ | ⟨⟨more, rfl⟩, hsize⟩
  · cases hnot
  · rw [htext, List.append_assoc] at hrest
    rw [htext, List.length_append] at hn
    obtain ⟨got, hgot, rfl⟩ := hatom.reads file n c _ (boundary_cons (by decide)) hrest (by omega)
    rw [hgot] at hread
    cases hread
    rintro heq
    rw [heq] at hsize
    exact Nat.lt_irrefl _ hsize

/-! ## Where names are read -/

/-- A reference has the name that is read behind its type. -/
theorem reference_name (htype : IsTypeText type) (hopens : Opens text)
    (hrest : c.rest = '$' :: '(' :: (type.toList ++ ' ' :: (text ++ tail)))
    (hread : reference file (n + 1) c = .ok (node, c')) :
    ∃ start name after path, start.rest = text ++ tail ∧
      primary file n start = .ok (name, after) ∧ node = .ref type (some name) path (c.span file) := by
  obtain ⟨head, kind, hhead, hkind, htext⟩ := htype
  have hofList : String.ofList (head ++ [':', ':'] ++ kind) = type := by
    rw [← htext, String.ofList_toList]
  have hinside : (c.advance 2).rest = head ++ ([':', ':'] ++ (kind ++ ' ' :: (text ++ tail))) := by
    rw [Cursor.rest_advance, hrest, htext]
    simp
  have htight : Tight (c.advance 2).rest :=
    hinside ▸ ((opens_of_isWord hhead).append _).solid.tight
  have hcolons : ((c.advance 2).over head).rest = [':', ':'] ++ (kind ++ ' ' :: (text ++ tail)) :=
    Cursor.rest_over hinside
  have hkindRest : (((c.advance 2).over head).advance 2).rest = kind ++ ' ' :: (text ++ tail) :=
    Cursor.rest_over hcolons
  have hblank := Cursor.rest_over hkindRest
  have hstart := Cursor.rest_step_cons hblank
  rw [reference, Cursor.skipInline_tight htight,
    Cursor.expectWord_word _ _ hhead (boundary_cons (by decide)) hinside, ok_bind] at hread
  dsimp only at hread
  rw [hcolons, if_pos (by simp [List.isPrefixOf]),
    Cursor.expectWord_word _ _ hkind (boundary_cons (by decide)) hkindRest, ok_bind] at hread
  dsimp only at hread
  rw [Cursor.skipInline_blank hblank (hopens.append _).solid.tight,
    hopens.not_sees hstart (by decide), hopens.not_sees hstart (by decide), Bool.or_self,
    if_neg Bool.false_ne_true] at hread
  obtain ⟨⟨name, after⟩, hname, hread⟩ := bind_eq_ok.1 hread
  rw [ok_bind, hofList] at hread
  split at hread
  · obtain ⟨_, -, hread⟩ := bind_eq_ok.1 hread
    obtain ⟨⟨path, _⟩, -, hread⟩ := bind_eq_ok.1 hread
    obtain ⟨_, -, hread⟩ := bind_eq_ok.1 hread
    cases hread
    exact ⟨_, name, after, path, hstart, hname, rfl⟩
  · obtain ⟨⟨path, _⟩, -, hread⟩ := bind_eq_ok.1 hread
    obtain ⟨_, -, hread⟩ := bind_eq_ok.1 hread
    cases hread
    exact ⟨_, name, after, path, hstart, hname, rfl⟩

/-- The block of a resource has the name that is read behind its type. -/
theorem statement_resource_name (htype : IsBlockType type) (hopens : Opens text)
    (hrest : c.rest = type.toList ++ ' ' :: (text ++ tail))
    (hread : statement file (n + 2) c = .ok (node, c')) :
    ∃ start name after body, start.rest = text ++ tail ∧
      primary file n start = .ok (name, after) ∧ node = .resource type name body (c.span file) := by
  obtain ⟨⟨head, kind, hhead, hkind, htext⟩, hfirst⟩ := htype
  have hofList : String.ofList (head ++ [':', ':'] ++ kind) = type := by
    rw [← htext, String.ofList_toList]
  rw [htext] at hrest hfirst
  obtain ⟨ch, word, rfl⟩ := List.exists_cons_of_ne_nil hhead.ne_nil
  have hch : isNameStart ch = true := hfirst ch rfl
  have hrest' : c.rest = ch :: word ++ ([':', ':'] ++ (kind ++ ' ' :: (text ++ tail))) := by
    rw [hrest]
    simp
  have hkindRest : ((c.over (ch :: word)).advance 2).rest = kind ++ ' ' :: (text ++ tail) :=
    Cursor.rest_over (Cursor.rest_over hrest')
  have hblank := Cursor.rest_over hkindRest
  have hstart := Cursor.rest_step_cons hblank
  have hnotEnd : (((c.over (ch :: word)).advance 2).over kind).step.atLineEnd = false := by
    obtain ⟨first, more, rfl, hstarter⟩ := hopens
    exact not_atLineEnd hstart (isStarter_ne hstarter (by decide))
  rw [statement_name file hhead.all hch (boundary_cons (by decide)) hrest'] at hread
  dsimp only at hread
  rw [if_pos (by simp [List.isPrefixOf]),
    Cursor.expectWord_word _ _ hkind (boundary_cons (by decide)) hkindRest, ok_bind] at hread
  dsimp only at hread
  rw [hofList, resource, Cursor.skipInline_blank hblank (hopens.append _).solid.tight] at hread
  dsimp only at hread
  rw [hnotEnd, if_neg Bool.false_ne_true] at hread
  obtain ⟨⟨name, after⟩, hname, hread⟩ := bind_eq_ok.1 hread
  obtain ⟨_, -, hread⟩ := bind_eq_ok.1 hread
  obtain ⟨⟨body, _⟩, -, hread⟩ := bind_eq_ok.1 hread
  cases hread
  exact ⟨_, name, after, body, hstart, hname, rfl⟩

/-! ## Names that are read back -/

theorem word_of_isBinary (h : name.isBinary = true) : name.word = name.inline := by
  cases name <;> first | rfl | cases h

theorem opens_inline (h : name.Everywhere Node.Printable) (hbinary : name.isBinary = true) :
    Opens name.inline :=
  (h.readsBack.expression (isStatement_of_isBinary hbinary)).opens

theorem atom_word_iff (h : name.Everywhere Node.Printable) (hvalue : name.isStatement = false) :
    Atom name.word name.bare ↔ name.isBinary = false := by
  refine ⟨fun hatom => Bool.eq_false_iff.2 fun hbinary => ?_, h.readsBack.name hvalue⟩
  rw [word_of_isBinary hbinary] at hatom
  obtain ⟨got, hread, hgot⟩ := hatom.reads "" (12 * name.inline.length) (Cursor.start name.inline)
    [] nofun (List.append_nil _).symm (Nat.le_refl _)
  exact primary_ne_of_isBinary h hbinary (List.append_nil _).symm (Nat.le_refl _) hread hgot

theorem reference_iff {path : List String} {span : Span} (h : name.Everywhere Node.Printable)
    (hvalue : name.isStatement = false) (htype : IsTypeText type) (hpath : path = [] ∨ IsPath path) :
    Reference (Node.ref type (some name) path span).inline
        (Node.ref type (some name) path span).bare ↔
      name.isBinary = false := by
  constructor
  · refine fun href => Bool.eq_false_iff.2 fun hbinary => ?_
    have htext : (Node.ref type (some name) path span).inline =
        '$' :: '(' :: (type.toList ++ ' ' :: (name.inline ++ (barredPath path ++ [')']))) := by
      rw [Node.inline, nameText, ← Node.word, word_of_isBinary hbinary]
      exact refText_eq type (some name.inline) path
    rw [htext] at href
    let steps := 12 * (type.toList.length + name.inline.length + (barredPath path).length + 4)
    obtain ⟨got, hread, hgot⟩ := href.reads "" (steps + 1) (Cursor.start _) []
      (List.append_nil _).symm (by
        simp only [List.length_append, List.length_cons, List.length_nil, steps]
        omega)
    obtain ⟨start, read, after, path, hstart, hname, rfl⟩ :=
      reference_name htype (opens_inline h hbinary) rfl hread
    injection hgot with _ hsame
    exact primary_ne_of_isBinary h hbinary hstart (by omega) hname (Option.some.inj hsame)
  · intro hbinary
    have hplain : ∀ node ∈ some name, node.isBinary = false := by
      rintro node ⟨⟩
      exact hbinary
    have hformed : (Node.ref type (some name) path span).Formed := by
      refine ⟨htype, ?_, hpath⟩
      rintro node ⟨⟩
      exact hvalue
    refine (readsBack_ref hformed hplain ?_).reference rfl
    rintro node ⟨⟩
    exact h.readsBack

theorem statement_iff {body : List Node} {span : Span} (h : name.Everywhere Node.Printable)
    (hvalue : name.isStatement = false) (htype : IsBlockType type)
    (hbody : ∀ node ∈ body, node.isStatement = true ∧ node.Everywhere Node.Printable)
    (depth : Nat) :
    (∃ text, (Node.resource type name body span).lines depth = blanks (4 * depth) ++ text ∧
        Statement text (Node.resource type name body span).bare) ↔
      name.isBinary = false := by
  constructor
  · rintro ⟨text, hlines, hstatement⟩
    refine Bool.eq_false_iff.2 fun hbinary => ?_
    obtain ⟨behind, htext⟩ : ∃ behind, text = type.toList ++ ' ' :: (name.inline ++ behind) := by
      rw [Node.lines, ← Node.word, word_of_isBinary hbinary, resourceText, indent_eq_blanks,
        List.append_assoc] at hlines
      exact ⟨_, (List.append_cancel_left hlines).symm⟩
    subst htext
    let steps := 12 * (type.toList.length + name.inline.length + behind.length + 4)
    obtain ⟨got, hread, hgot⟩ := hstatement.reads "" (steps + 2) (Cursor.start _) []
      (List.append_nil _).symm (by
        simp only [List.length_append, List.length_cons, steps]
        omega)
    obtain ⟨start, read, after, body, hstart, hname, rfl⟩ :=
      statement_resource_name htype (opens_inline h hbinary) rfl hread
    injection hgot with _ hsame
    exact primary_ne_of_isBinary h hbinary hstart (by omega) hname hsame
  · intro hbinary
    have hformed : (Node.resource type name body span).Formed :=
      ⟨htype, hvalue, fun node hnode => (hbody node hnode).1⟩
    exact (readsBack_resource hformed hbinary h.readsBack fun node hnode =>
      (hbody node hnode).2.readsBack).statement rfl depth

/-- An expression that is read as a name is written so that it is read as the same name again,
up to the same place, exactly when there is no operator at its root; and exactly then are the
references and the blocks with this name read back.  The expressions inside it are subject to the
same condition, and numbers have to be finite. -/
theorem primary_reads_back_iff (hread : primary file n c = .ok (name, c'))
    (hfinite : name.Everywhere Node.FiniteNumber) (hplain : name.Everywhere Node.PlainName) :
    (Atom name.word name.bare ↔ name.isBinary = false) ∧
      (∀ type path span, IsTypeText type → path = [] ∨ IsPath path →
        (Reference (Node.ref type (some name) path span).inline
            (Node.ref type (some name) path span).bare ↔
          name.isBinary = false)) ∧
      ∀ type body span depth, IsBlockType type →
        (∀ node ∈ body, node.isStatement = true ∧ node.Everywhere Node.Printable) →
        ((∃ text, (Node.resource type name body span).lines depth = blanks (4 * depth) ++ text ∧
            Statement text (Node.resource type name body span).bare) ↔
          name.isBinary = false) := by
  have hexpression := (readsValues file n).primary hread
  have hprintable : name.Everywhere Node.Printable :=
    hexpression.formed.and (hfinite.and hplain)
  exact ⟨atom_word_iff hprintable hexpression.value,
    fun _ _ _ htype hpath => reference_iff hprintable hexpression.value htype hpath,
    fun _ _ _ depth htype hbody => statement_iff hprintable hexpression.value htype hbody depth⟩

/-- The name that `[a, (b + c) * d]` is read as. -/
def listedName : Node :=
  .list [.text "a", .binary .mul (.binary .add (.text "b") (.text "c")) (.text "d")]

theorem primary_reads_back_listed :
    primary "/main" 20 (Cursor.start "[a, (b + c) * d]\nend\n".toList) =
        .ok (listedName, (Cursor.start "[a, (b + c) * d]\nend\n".toList).advance 16) ∧
      listedName.word = "['a', ('b' + 'c') * 'd']".toList ∧
      Atom listedName.word listedName.bare ∧
      ∃ text, (Node.resource "m::box" listedName [] Span.generated).lines 0 = blanks 0 ++ text ∧
        Statement text (Node.resource "m::box" listedName [] Span.generated).bare := by
  have hread : primary "/main" 20 (Cursor.start "[a, (b + c) * d]\nend\n".toList) =
      .ok (listedName, (Cursor.start "[a, (b + c) * d]\nend\n".toList).advance 16) := rfl
  have hboth : listedName.Everywhere fun node => node.FiniteNumber ∧ node.PlainName := by
    have htext (s : String) :
        (Node.text s).Everywhere fun node => node.FiniteNumber ∧ node.PlainName :=
      .leaf ⟨trivial, trivial⟩ rfl
    refine .intro ⟨trivial, trivial⟩ (List.forall_mem_cons.2 ⟨htext "a", ?_⟩)
    refine List.forall_mem_singleton.2 (.intro ⟨trivial, trivial⟩ ?_)
    refine List.forall_mem_cons.2 ⟨?_, List.forall_mem_singleton.2 (htext "d")⟩
    exact .intro ⟨trivial, trivial⟩
      (List.forall_mem_cons.2 ⟨htext "b", List.forall_mem_singleton.2 (htext "c")⟩)
  have hword : IsWord ['m'] := ⟨List.cons_ne_nil _ _, List.all_eq_true.1 rfl⟩
  have hkind : IsWord ['b', 'o', 'x'] := ⟨List.cons_ne_nil _ _, List.all_eq_true.1 rfl⟩
  have hstart : ∀ c ∈ "m::box".toList.head?, isNameStart c = true := by
    rintro c ⟨⟩
    rfl
  have htype : IsBlockType "m::box" := ⟨⟨_, _, hword, hkind, rfl⟩, hstart⟩
  obtain ⟨hatom, -, hblock⟩ := primary_reads_back_iff hread (hboth.mono fun _ h => h.1)
    (hboth.mono fun _ h => h.2)
  exact ⟨hread, rfl, hatom.2 rfl,
    (hblock "m::box" [] Span.generated 0 htype (List.forall_mem_nil _)).2 rfl⟩

/-- A sum in parentheses may be the name of a resource.  The printed block has the sum without
them, and is not read again. -/
theorem sum_as_name_is_not_read_again :
    ∃ file, parse "/main" "m::box (a + b)\nend\n" = .ok file ∧
      file.print = "m::box 'a' + 'b'\nend\n" ∧
      parse "/main" file.print =
        .error ⟨⟨"/main", 1, 12⟩, "expected end of line, found `+`"⟩ :=
  ⟨⟨"/main", [.resource "m::box" (.binary .add (.text "a") (.text "b")) [] ⟨"/main", 1, 1⟩]⟩,
    rfl, rfl, rfl⟩

end Provision.Language
