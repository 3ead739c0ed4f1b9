import Provision.Proofs.Decimal.Text
import Provision.Proofs.Language.Lexical
import Provision.Proofs.Language.Tree
import Provision.Proofs.Outcome

/-!
# Reading printed expressions

What it means that a text is read as a tree is stated for any cursor that stands
before the text and any depth of nesting the text can need, twelve for each
character.  An operand is read up to an operator that binds less strongly than
it; the reader then goes on with the operators that follow.  Each form of
expression has a rule that builds its reading from those of its parts.
-/

namespace Provision.Language

/-! ## What is read -/

/-- The first characters of expressions. -/
def isStarter (c : Char) : Bool :=
  isWordChar c || c == '\'' || c == '"' || c == '[' || c == '\x7b' || c == '(' || c == '$'

/-- A text that starts like an expression. -/
def Opens (text : List Char) : Prop :=
  ∃ c rest, text = c :: rest ∧ isStarter c = true

/-- A text that is read as an expression without operators around it.  The tree is given without
places. -/
structure Atom (text : List Char) (target : Node) : Prop where
  opens : Opens text
  reads : ∀ (file : String) (n : Nat) (c : Cursor) (tail : List Char),
    Boundary tail → c.rest = text ++ tail → 12 * text.length ≤ n →
      ∃ got, primary file n c = .ok (got, c.over text) ∧ got.bare = target

/-- Every operator that opens a text behind blanks binds less strongly than `least`. -/
def Quiet (least : Nat) (text : List Char) : Prop :=
  ∀ op length, operator? (text.drop (skipLength false false text)) = some (op, length) →
    op.precedence < least

/-- A text that is read as an operand of operators up to `level`.  The reader goes on with the
operators behind it. -/
structure Expression (level : Nat) (text : List Char) (target : Node) : Prop where
  positive : 1 ≤ level
  opens : Opens text
  reads : ∀ (file : String) (n : Nat) (c : Cursor) (tail : List Char) (least : Nat),
    least ≤ level → Boundary tail → Quiet (level + 1) tail → c.rest = text ++ tail →
      12 * text.length + 2 ≤ n →
      ∃ m got, binary file n least c = operators file m least got (c.over text) ∧
        got.bare = target ∧ n ≤ m + 12 * text.length

/-- A text that is read as a reference, whatever follows it. -/
structure Reference (text : List Char) (target : Node) : Prop where
  opens : ∃ rest, text = '$' :: '(' :: rest
  reads : ∀ (file : String) (n : Nat) (c : Cursor) (tail : List Char),
    c.rest = text ++ tail → 12 * text.length ≤ n + 12 →
      ∃ got, reference file n c = .ok (got, c.over text) ∧ got.bare = target

/-! ## First characters -/

theorem Opens.length_pos {text : List Char} (h : Opens text) : 0 < text.length := by
  obtain ⟨c, rest, rfl, -⟩ := h
  exact Nat.succ_pos _

theorem Opens.append {text : List Char} (h : Opens text) (more : List Char) :
    Opens (text ++ more) := by
  obtain ⟨c, rest, rfl, hc⟩ := h
  exact ⟨c, rest ++ more, rfl, hc⟩

theorem isStarter_ne {c other : Char} (h : isStarter c = true) (hother : isStarter other = false) :
    c ≠ other := by
  rintro rfl
  rw [h] at hother
  cases hother

theorem Opens.solid {text : List Char} (h : Opens text) : Solid text := by
  obtain ⟨c, rest, rfl, hc⟩ := h
  intro d hd
  cases hd
  have hspace : c ≠ ' ' := isStarter_ne hc (by decide)
  have htab : c ≠ '\t' := isStarter_ne hc (by decide)
  have hreturn : c ≠ '\r' := isStarter_ne hc (by decide)
  refine ⟨?_, isStarter_ne hc (by decide), isStarter_ne hc (by decide)⟩
  simp [isInlineBlank, hspace, htab, hreturn]

/-- A character that opens no expression is not seen before one. -/
theorem Opens.not_sees {text tail : List Char} {c : Cursor} {other : Char}
    (h : Opens text)
    (hrest : c.rest = text ++ tail)
    (hother : isStarter other = false) :
    c.sees other = false := by
  obtain ⟨ch, rest, rfl, hch⟩ := h
  rw [Cursor.sees_cons hrest]
  exact beq_eq_false_iff_ne.2 (isStarter_ne hch hother)

theorem opens_of_isWord {word : List Char} (h : IsWord word) : Opens word := by
  cases word with
  | nil => exact absurd rfl h.ne_nil
  | cons c rest =>
    have hc : isWordChar c = true := h.all c List.mem_cons_self
    exact ⟨c, rest, rfl, by simp [isStarter, hc]⟩

theorem solid_cons {c : Char} {text : List Char}
    (h : isInlineBlank c = false ∧ c ≠ '\n' ∧ c ≠ '#') :
    Solid (c :: text) := by
  intro d hd
  cases hd
  exact h

theorem tight_cons {c : Char} {text : List Char} (h : isInlineBlank c = false ∧ c ≠ '#') :
    Tight (c :: text) := by
  intro d hd
  cases hd
  exact h

theorem Expression.solid_append {level : Nat} {text : List Char} {target : Node}
    (h : Expression level text target) (tail : List Char) :
    Solid (text ++ tail) :=
  (h.opens.append tail).solid

/-! ## Operators -/

/-- Characters that stand behind a whole expression. -/
def isCloser (c : Char) : Bool :=
  [',', ']', ')', '\x7d', '\n', '|'].contains c

theorem isCloser_cases {c : Char} (h : isCloser c = true) :
    c = ',' ∨ c = ']' ∨ c = ')' ∨ c = '\x7d' ∨ c = '\n' ∨ c = '|' := by
  simpa [isCloser] using h

theorem boundary_closer {c : Char} (tail : List Char) (h : isCloser c = true) :
    Boundary (c :: tail) := by
  apply boundary_cons
  rcases isCloser_cases h with rfl | rfl | rfl | rfl | rfl | rfl <;> decide

theorem tight_closer {c : Char} (tail : List Char) (h : isCloser c = true) :
    Tight (c :: tail) := by
  apply tight_cons
  rcases isCloser_cases h with rfl | rfl | rfl | rfl | rfl | rfl <;> decide

theorem solid_closer {c : Char} (tail : List Char) (h : isCloser c = true) (hline : c ≠ '\n') :
    Solid (c :: tail) := by
  intro d hd
  cases hd
  exact ⟨(tight_closer tail h c rfl).1, hline, (tight_closer tail h c rfl).2⟩

theorem operator?_closer {c : Char} {tail : List Char} (h : isCloser c = true) :
    operator? (c :: tail) = none := by
  rcases isCloser_cases h with rfl | rfl | rfl | rfl | rfl | rfl <;>
    simp [operator?, startsWithKeyword, List.isPrefixOf]

theorem operator?_symbol (op : Operator) (tail : List Char) :
    operator? (op.symbol.toList ++ ' ' :: tail) = some (op, op.symbol.toList.length) := by
  cases op <;> rfl

theorem quiet_closer {c : Char} {tail : List Char} (least : Nat) (h : isCloser c = true) :
    Quiet least (c :: tail) := by
  intro op length hop
  rw [skipLength_tight (tight_closer tail h), List.drop_zero, operator?_closer h] at hop
  cases hop

theorem skipLength_blank {acrossLines : Bool} {tail : List Char} (h : Solid tail) :
    skipLength acrossLines false (' ' :: tail) = 1 := by
  have hskip := skipLength_indent acrossLines 1 tail
  rw [skipLength_solid acrossLines h] at hskip
  exact hskip

theorem quiet_blank_closer {c : Char} {tail : List Char} (least : Nat)
    (h : isCloser c = true)
    (hline : c ≠ '\n') :
    Quiet least (' ' :: c :: tail) := by
  intro op length hop
  rw [skipLength_blank (solid_closer tail h hline)] at hop
  rw [List.drop_succ_cons, List.drop_zero, operator?_closer h] at hop
  cases hop

theorem symbol_solid (op : Operator) (tail : List Char) :
    Solid (op.symbol.toList ++ tail) := by
  cases op <;> exact solid_cons (by decide)

theorem quiet_symbol {op : Operator} {least : Nat} (h : op.precedence < least)
    (tail : List Char) :
    Quiet least (' ' :: (op.symbol.toList ++ ' ' :: tail)) := by
  intro other length hop
  rw [skipLength_blank (symbol_solid op _)] at hop
  rw [List.drop_succ_cons, List.drop_zero, operator?_symbol] at hop
  cases hop
  exact h

theorem Quiet.mono {least more : Nat} {text : List Char} (h : Quiet least text)
    (hle : least ≤ more) :
    Quiet more text :=
  fun op length hop => Nat.lt_of_lt_of_le (h op length hop) hle

theorem operators_quiet {file : String} {n least : Nat} {left : Node} {c : Cursor}
    (h : Quiet least c.rest) :
    operators file (n + 1) least left c = .ok (left, c) := by
  rw [operators, Cursor.skipInline, Cursor.rest_advance]
  split
  · rfl
  · rename_i op length hop
    rw [if_pos (h op length hop)]

theorem operators_symbol {file : String} {n m least : Nat} {left right : Node} {c : Cursor}
    {op : Operator} {text tail : List Char}
    (hrest : c.rest = ' ' :: (op.symbol.toList ++ ' ' :: (text ++ tail)))
    (hleast : least ≤ op.precedence)
    (hopens : Opens text)
    (hright : binary file n (op.precedence + 1) (c.step.over (op.symbol.toList ++ [' '])) =
      operators file (m + 1) (op.precedence + 1) right
        ((c.step.over (op.symbol.toList ++ [' '])).over text))
    (hquiet : Quiet (op.precedence + 1) tail) :
    operators file (n + 1) least left c =
      operators file n least (.binary op left right)
        (c.over (' ' :: (op.symbol.toList ++ ' ' :: text))) := by
  have hskip : c.skipInline = c.step :=
    Cursor.skipInline_blank hrest (symbol_solid op _).tight
  have hstep : c.step.rest = op.symbol.toList ++ ' ' :: (text ++ tail) :=
    Cursor.rest_step_cons hrest
  have hafter : (c.step.over op.symbol.toList).rest = ' ' :: (text ++ tail) :=
    Cursor.rest_over hstep
  have hblank : (c.step.over op.symbol.toList).skipBlank =
      c.step.over (op.symbol.toList ++ [' ']) := by
    rw [Cursor.skipBlank_blank hafter (hopens.append tail).solid]
    simp
  have hend : ((c.step.over (op.symbol.toList ++ [' '])).over text).rest = tail := by
    apply Cursor.rest_over
    apply Cursor.rest_over
    rw [hstep]
    simp
  rw [operators, hskip, hstep, operator?_symbol]
  dsimp only
  rw [if_neg (by omega), Cursor.advance_length, hblank, hright,
    operators_quiet (hend.symm ▸ hquiet), ok_bind]
  simp

/-! ## Rules for operands -/

theorem Atom.expression {text : List Char} {target : Node} (h : Atom text target) :
    Expression 6 text target := by
  refine ⟨by decide, h.opens, ?_⟩
  intro file n c tail least _ hboundary _ hrest hn
  obtain ⟨n, rfl⟩ := Nat.exists_eq_add_one_of_ne_zero (Nat.ne_of_gt (by omega : 0 < n))
  obtain ⟨got, hread, hgot⟩ := h.reads file n c tail hboundary hrest (by omega)
  have hlength := h.opens.length_pos
  refine ⟨n, got, ?_, hgot, by omega⟩
  rw [binary, hread, ok_bind]

/-- An expression with no operator behind it is read as a whole. -/
theorem Expression.whole {level : Nat} {text : List Char} {target : Node}
    (h : Expression level text target)
    (file : String) {n : Nat} {c : Cursor} {tail : List Char}
    (hboundary : Boundary tail)
    (hquiet : Quiet 1 tail)
    (hrest : c.rest = text ++ tail)
    (hn : 12 * text.length + 2 ≤ n) :
    ∃ got, binary file n 1 c = .ok (got, c.over text) ∧ got.bare = target := by
  obtain ⟨m, got, hread, hgot, hm⟩ :=
    h.reads file n c tail 1 h.positive hboundary (hquiet.mono (by omega)) hrest hn
  obtain ⟨m, rfl⟩ := Nat.exists_eq_add_one_of_ne_zero (Nat.ne_of_gt (by omega : 0 < m))
  refine ⟨got, ?_, hgot⟩
  rw [hread, operators_quiet]
  rw [Cursor.rest_over hrest]
  exact hquiet

theorem Expression.binary {op : Operator} {leftLevel rightLevel : Nat}
    {left right : List Char} {leftTarget rightTarget : Node}
    (hleft : Expression leftLevel left leftTarget)
    (hright : Expression rightLevel right rightTarget)
    (hl : op.precedence ≤ leftLevel)
    (hr : op.precedence < rightLevel) :
    Expression op.precedence (binaryText op left right) (.binary op leftTarget rightTarget) := by
  have hpositive : 1 ≤ op.precedence := by cases op <;> decide
  refine ⟨hpositive, hleft.opens.append _, ?_⟩
  intro file n c tail least hleast hboundary hquiet hrest hn
  have hrest' : c.rest = left ++ ' ' :: (op.symbol.toList ++ ' ' :: (right ++ tail)) := by
    rw [hrest, binaryText]
    simp
  simp only [binaryText, List.length_append, List.length_cons] at hn ⊢
  -- the left operand, up to the operator
  obtain ⟨m, leftGot, hreadLeft, hleftGot, hm⟩ :=
    hleft.reads file n c _ least (by omega) (boundary_cons (by decide))
      (quiet_symbol (by omega) _) hrest' (by omega)
  obtain ⟨m, rfl⟩ := Nat.exists_eq_add_one_of_ne_zero (Nat.ne_of_gt (by omega : 0 < m))
  have hbehind : (c.over left).rest = ' ' :: (op.symbol.toList ++ ' ' :: (right ++ tail)) :=
    Cursor.rest_over hrest'
  -- the right operand, up to an operator that binds at most as strongly
  have hbefore : ((c.over left).step.over (op.symbol.toList ++ [' '])).rest = right ++ tail := by
    apply Cursor.rest_over
    rw [Cursor.rest_step_cons hbehind]
    simp
  obtain ⟨k, rightGot, hreadRight, hrightGot, hk⟩ :=
    hright.reads file m _ tail (op.precedence + 1) (by omega) hboundary
      (hquiet.mono (by omega)) hbefore (by omega)
  obtain ⟨k, rfl⟩ := Nat.exists_eq_add_one_of_ne_zero (Nat.ne_of_gt (by omega : 0 < k))
  refine ⟨m, .binary op leftGot rightGot, ?_, ?_, by omega⟩
  · rw [hreadLeft, operators_symbol hbehind hleast hright.opens hreadRight hquiet,
      Cursor.over_append]
  · rw [Node.bare, hleftGot, hrightGot]

theorem Expression.paren {level : Nat} {text : List Char} {target : Node}
    (h : Expression level text target) :
    Atom ('(' :: (text ++ [')'])) target := by
  refine ⟨⟨'(', _, rfl, by decide⟩, ?_⟩
  intro file n c tail _ hrest hn
  have hlength := h.opens.length_pos
  simp only [List.length_cons, List.length_append, List.length_nil] at hn
  obtain ⟨n, rfl⟩ := Nat.exists_eq_add_one_of_ne_zero (Nat.ne_of_gt (by omega : 0 < n))
  have hinner : c.step.rest = text ++ ')' :: tail := by
    rw [Cursor.rest_step_cons hrest]
    simp
  have hclose : (c.step.over text).rest = ')' :: tail := Cursor.rest_over hinner
  have hsolid : Solid (c.step.over text).rest := by
    rw [hclose]
    exact solid_cons (by decide)
  obtain ⟨got, hread, hgot⟩ :=
    h.whole file (n := n) (boundary_cons (by decide)) (quiet_closer 1 (by decide))
      hinner (by omega)
  refine ⟨got, ?_, hgot⟩
  rw [primary, hrest]
  dsimp only [List.cons_append]
  rw [Cursor.skipBlank_solid (hinner ▸ h.solid_append _), hread, ok_bind]
  dsimp only
  rw [Cursor.skipBlank_solid hsolid, Cursor.expect_cons hclose, ok_bind]
  simp

/-! ## Rules for words, numbers and strings -/

/-- Behind no opening bracket or quote there is a reference, a number or a word. -/
theorem primary_plain {file : String} {n : Nat} {c : Cursor} {ch : Char} {text : List Char}
    (hrest : c.rest = ch :: text)
    (hplain : isWordChar ch = true ∨ ch = '$') :
    primary file (n + 1) c =
      if ['$', '('].isPrefixOf (ch :: text) then reference file n c
      else if startsNumber (ch :: text) then
        .ok (.number (number (ch :: text)).1, c.advance (number (ch :: text)).2)
      else (do
        let (word, c) ← c.expectWord file "a value"
        .ok (wordNode word, c)) := by
  have hne : ∀ other, isWordChar other = false → other ≠ '$' → ch ≠ other := by
    rintro other hother hdollar rfl
    rcases hplain with h | h
    · rw [h] at hother
      cases hother
    · exact hdollar h
  rw [primary, hrest]
  split
  · exact absurd (List.cons.inj ‹_›).1 (hne _ (by decide) (by decide))
  · exact absurd (List.cons.inj ‹_›).1 (hne _ (by decide) (by decide))
  · exact absurd (List.cons.inj ‹_›).1 (hne _ (by decide) (by decide))
  · exact absurd (List.cons.inj ‹_›).1 (hne _ (by decide) (by decide))
  · exact absurd (List.cons.inj ‹_›).1 (hne _ (by decide) (by decide))
  · rfl

theorem not_reference_of_isWordChar {ch : Char} {text : List Char} (h : isWordChar ch = true) :
    ['$', '('].isPrefixOf (ch :: text) = false := by
  have hne : ('$' == ch) = false := by
    apply beq_eq_false_iff_ne.2
    rintro rfl
    exact absurd h (by decide)
  simp [List.isPrefixOf, hne]

/-- A word is read as what it stands for, unless it starts like a number. -/
theorem atom_wordNode {word : List Char}
    (hword : IsWord word)
    (hnumber : ∀ tail, startsNumber (word ++ tail) = false) :
    Atom word (wordNode word) := by
  refine ⟨opens_of_isWord hword, ?_⟩
  intro file n c tail hboundary hrest hn
  have hlength := (opens_of_isWord hword).length_pos
  obtain ⟨n, rfl⟩ := Nat.exists_eq_add_one_of_ne_zero (Nat.ne_of_gt (by omega : 0 < n))
  have hread := Cursor.expectWord_word file "a value" hword hboundary hrest
  have hnot := hnumber tail
  have hbare : (wordNode word).bare = wordNode word := by
    unfold wordNode
    split
    · rfl
    · split
      · rfl
      · split <;> rfl
  refine ⟨wordNode word, ?_, hbare⟩
  cases word with
  | nil => exact absurd rfl hword.ne_nil
  | cons ch rest =>
    have hch : isWordChar ch = true := hword.all ch List.mem_cons_self
    rw [List.cons_append] at hrest hnot
    rw [primary_plain hrest (Or.inl hch), not_reference_of_isWordChar hch, hnot,
      if_neg Bool.false_ne_true, if_neg Bool.false_ne_true, hread, ok_bind]

theorem startsNumber_letter {ch : Char} {text : List Char}
    (h : (ch.isAlpha || ch == '_') = true) :
    startsNumber (ch :: text) = false := by
  have hminus : ch ≠ '-' := by
    rintro rfl
    exact absurd h (by decide)
  have hdigit : ch.isDigit = false := by
    apply Bool.eq_false_iff.2
    intro hdigit
    rcases Bool.or_eq_true_iff.1 h with h | h
    · delta Char.isAlpha Char.isUpper Char.isLower at h
      simp only [Char.isDigit, Bool.or_eq_true, Bool.and_eq_true, decide_eq_true_eq, ge_iff_le,
        UInt32.le_iff_toNat_le] at h hdigit
      have : 'A'.val.toNat = 65 := rfl
      have : 'a'.val.toNat = 97 := rfl
      have : '9'.val.toNat = 57 := rfl
      omega
    · rw [beq_iff_eq.1 h] at hdigit
      exact absurd hdigit (by decide)
  cases text with
  | nil => simp [startsNumber, hdigit]
  | cons d rest => simp [startsNumber, hminus, hdigit]

theorem atom_bareWord {word : List Char} (h : isBareWord word = true) :
    Atom word (.text (String.ofList word)) := by
  obtain ⟨ch, rest, rfl, hch⟩ := head_of_isBareWord h
  rw [← wordNode_of_isBareWord h]
  exact atom_wordNode (isWord_of_isBareWord h) fun tail => startsNumber_letter hch

theorem atom_null : Atom ['n', 'u', 'l', 'l'] .null :=
  atom_wordNode ⟨by decide, List.all_eq_true.1 rfl⟩ fun _ => startsNumber_letter (by decide)

theorem atom_bool (b : Bool) : Atom (boolText b) (.bool b) := by
  cases b with
  | true => exact atom_wordNode ⟨by decide, List.all_eq_true.1 rfl⟩ fun _ => startsNumber_letter (by decide)
  | false => exact atom_wordNode ⟨by decide, List.all_eq_true.1 rfl⟩ fun _ => startsNumber_letter (by decide)

theorem isWordChar_of_mem_write {x : Float} (hx : Decimal.isFinite x = true) :
    ∃ c rest, Decimal.write Decimal.plain x = c :: rest ∧ isWordChar c = true := by
  obtain ⟨numeral, htext, -⟩ := Decimal.write_plain hx
  obtain ⟨c, rest, hhead, hc⟩ := numeral.head_isDigit []
  rw [List.append_nil] at hhead
  rw [htext, hhead]
  cases Decimal.isNegative x with
  | true => exact ⟨'-', c :: rest, rfl, by decide⟩
  | false => exact ⟨c, rest, rfl, isWordChar_of_isDigit hc⟩

theorem atom_number {x : Float} (hx : Decimal.isFinite x = true) :
    Atom (Decimal.write Decimal.plain x) (.number x) := by
  obtain ⟨ch, rest, htext, hch⟩ := isWordChar_of_mem_write hx
  refine ⟨⟨ch, rest, htext, by simp [isStarter, hch]⟩, ?_⟩
  intro file n c tail hboundary hrest hn
  rw [htext, List.length_cons] at hn
  obtain ⟨n, rfl⟩ := Nat.exists_eq_add_one_of_ne_zero (Nat.ne_of_gt (by omega : 0 < n))
  have hstarts := Decimal.startsNumber_write hx tail
  have htail : ∀ d ∈ tail.head?, d.isDigit = false ∧ d ≠ '.' := by
    intro d hd
    have hd := hboundary d hd
    constructor
    · apply Bool.eq_false_iff.2
      intro hdigit
      rw [isWordChar_of_isDigit hdigit] at hd
      cases hd
    · rintro rfl
      exact absurd hd (by decide)
  have hnumber := Decimal.number_write hx htail
  refine ⟨.number x, ?_, rfl⟩
  have hrest' : c.rest = ch :: (rest ++ tail) := by
    rw [hrest, htext, List.cons_append]
  have hwhole : Decimal.write Decimal.plain x ++ tail = ch :: (rest ++ tail) := by
    rw [htext, List.cons_append]
  rw [hwhole] at hstarts hnumber
  rw [primary_plain hrest' (Or.inl hch), not_reference_of_isWordChar hch, hstarts, hnumber,
    if_neg Bool.false_ne_true, if_pos rfl, Cursor.advance_length]

/-- A text that single quotes turn into a string. -/
theorem atom_singleQuoted {text s : List Char}
    (h : ∀ tail, singleQuoted (text ++ '\'' :: tail) = .ok (s, text.length + 1)) :
    Atom ('\'' :: (text ++ ['\''])) (.text (String.ofList s)) := by
  refine ⟨⟨'\'', _, rfl, by decide⟩, ?_⟩
  intro file n c tail _ hrest hn
  simp only [List.length_cons, List.length_append] at hn
  obtain ⟨n, rfl⟩ := Nat.exists_eq_add_one_of_ne_zero (Nat.ne_of_gt (by omega : 0 < n))
  have hrest' : c.rest = '\'' :: (text ++ '\'' :: tail) := by
    rw [hrest]
    simp
  refine ⟨.text (String.ofList s), ?_, rfl⟩
  rw [primary, hrest']
  simp only [h, lexeme]
  rw [ok_bind, Cursor.over_cons, Cursor.over_append, Cursor.advance_add, Cursor.advance_length]
  rfl

theorem atom_quoted (s : List Char) : Atom (quotedText s) (.text (String.ofList s)) :=
  atom_singleQuoted (singleQuoted_escaped s)

/-- A name or argument is a word where the string reads back from it. -/
theorem atom_word {s : String} : Atom (Node.text s).word (.text s) := by
  have hs : String.ofList s.toList = s := String.ofList_toList
  simp only [Node.word, wordOr, Node.inline]
  split
  · rename_i hbare
    have h := atom_bareWord hbare
    rwa [hs] at h
  · have h := atom_quoted s.toList
    rwa [hs] at h

end Provision.Language
