import Provision.Proofs.Language.Compound

/-!
# Reading printed statements

Statements are read line by line.  A body is read statement by statement up to
what ends it; blocks, resources, directives and branches put a body between
their own lines.  The arguments and options of a directive stand on one line,
where a blank and a minus sign before a letter open an option and every other
text is an argument.
-/

namespace Provision.Language

/-- The blanks that were not read yet when an argument is looked for. -/
abbrev blanks (k : Nat) : List Char :=
  List.replicate k ' '

theorem blanks_succ (k : Nat) : blanks (k + 1) = blanks k ++ [' '] :=
  List.replicate_succ'

theorem Cursor.skipInline_blanks {c : Cursor} {k : Nat} {tail : List Char}
    (h : c.rest = blanks k ++ tail)
    (htail : Tight tail) :
    c.skipInline = c.over (blanks k) := by
  rw [Cursor.skipInline, h, skipLength_indent, skipLength_tight htail, Cursor.over,
    List.length_replicate, Nat.add_zero]

/-! ## Arguments and options -/

/-- A text that is read as an argument of a directive: neither an option nor the keyword `in`
opens it. -/
structure Argument (text : List Char) (target : Node) : Prop where
  expression : ∃ level, Expression level text target
  plain : ∀ tail, Boundary tail →
    startsOption (text ++ tail) = false ∧ startsWithKeyword ['i', 'n'] (text ++ tail) = false

/-- The name of an option. -/
def IsOptionName (name : List Char) : Prop :=
  IsWord name ∧ ∀ c ∈ name.head?, c.isAlpha = true

theorem clauses_skipInline {file : String} {n : Nat} {c c' : Cursor}
    (h : c.skipInline = c'.skipInline) :
    clauses file (n + 1) c = clauses file (n + 1) c' := by
  rw [clauses, clauses, h]

theorem clauses_end (file : String) {n k : Nat} {c : Cursor} {tail : List Char}
    (hrest : c.rest = blanks k ++ '\n' :: tail) :
    clauses file (n + 1) c = .ok (([], []), c.over (blanks k)) := by
  have hline := Cursor.rest_over hrest
  have hend : (c.over (blanks k)).atLineEnd = true := by
    simp [Cursor.atLineEnd, Cursor.peek, hline]
  rw [clauses, Cursor.skipInline_blanks hrest (tight_newline tail)]
  dsimp only
  rw [hend, if_pos rfl]

theorem not_atLineEnd {c : Cursor} {ch : Char} {text : List Char}
    (h : c.rest = ch :: text)
    (hline : ch ≠ '\n') :
    c.atLineEnd = false := by
  simp [Cursor.atLineEnd, Cursor.peek, h, hline]

theorem clauses_option {file : String} {n k : Nat} {c c' : Cursor} {name more : List Char}
    {arguments : List Node} {options : List Clause}
    (hname : IsOptionName name)
    (hmore : Boundary more)
    (hrest : c.rest = blanks k ++ '-' :: (name ++ more))
    (hnext : clauses file n ((c.over (blanks k)).step.over name) =
      .ok ((arguments, options), c')) :
    clauses file (n + 1) c = .ok (([], ⟨String.ofList name, arguments⟩ :: options), c') := by
  have hminus := Cursor.rest_over hrest
  have hoption : startsOption (c.over (blanks k)).rest = true := by
    cases name with
    | nil => exact absurd rfl hname.1.ne_nil
    | cons ch rest =>
      rw [hminus]
      exact hname.2 ch rfl
  rw [clauses, Cursor.skipInline_blanks hrest (tight_cons (by decide))]
  dsimp only
  rw [not_atLineEnd hminus (by decide), if_neg Bool.false_ne_true, hoption, if_pos rfl,
    Cursor.expectWord_word _ _ hname.1 hmore (Cursor.rest_step_cons hminus), ok_bind]
  dsimp only
  rw [hnext, ok_bind]

/-- One argument of a directive, in front of anything that ends an expression. -/
theorem clauses_argument (file : String) {n k : Nat} {c : Cursor} {text more : List Char}
    {target : Node}
    (hargument : Argument text target)
    (hboundary : Boundary more)
    (hquiet : Quiet 1 more)
    (hrest : c.rest = blanks k ++ (text ++ more))
    (hn : 12 * text.length + 2 ≤ n) :
    ∃ got, got.bare = target ∧
      ∀ arguments options c',
        clauses file n (((c.over (blanks k)).over text).skipInline.pass ',') =
          .ok ((arguments, options), c') →
        clauses file (n + 1) c = .ok ((got :: arguments, options), c') := by
  obtain ⟨level, hexpression⟩ := hargument.expression
  obtain ⟨hoption, hin⟩ := hargument.plain more hboundary
  have hstart := Cursor.rest_over hrest
  obtain ⟨ch, rest, htext, hch⟩ := hexpression.opens
  have hfirst : (c.over (blanks k)).rest = ch :: (rest ++ more) := by
    rw [hstart, htext]
    rfl
  have hline : (c.over (blanks k)).atLineEnd = false :=
    not_atLineEnd hfirst (isStarter_ne hch (by decide))
  obtain ⟨got, hread, hgot⟩ := hexpression.whole file (n := n) hboundary hquiet hstart hn
  refine ⟨got, hgot, ?_⟩
  intro arguments options c' hnext
  rw [clauses, Cursor.skipInline_blanks hrest (hexpression.solid_append more).tight]
  dsimp only
  rw [hline, if_neg Bool.false_ne_true, hstart, hoption, if_neg Bool.false_ne_true,
    Cursor.atKeyword, hstart, hin, if_neg Bool.false_ne_true, hread, ok_bind]
  dsimp only
  rw [hnext, ok_bind]

theorem quiet_newline (least : Nat) (tail : List Char) : Quiet least ('\n' :: tail) :=
  quiet_closer least (by decide)

theorem quiet_option {name : List Char} (least : Nat) (hname : IsOptionName name)
    (tail : List Char) :
    Quiet least (' ' :: '-' :: (name ++ tail)) := by
  intro op length hop
  rw [skipLength_blank (solid_cons (by decide)), List.drop_succ_cons, List.drop_zero] at hop
  cases name with
  | nil => exact absurd rfl hname.1.ne_nil
  | cons ch rest =>
    have hch : ch.isAlpha = true := hname.2 ch rfl
    simp [operator?, hch] at hop

/-- The options of a directive, up to the end of the line. -/
def optionsText (options : List Clause) : List Char :=
  options.flatMap Clause.inline

theorem optionsText_cons (option : Clause) (options : List Clause) :
    optionsText (option :: options) =
      ' ' :: '-' :: (option.name.toList ++
        (argumentsText (option.arguments.map Node.word) ++ optionsText options)) := by
  simp [optionsText, Clause.inline]

/-- What is asked of the options of a directive. -/
def OptionsRead (options : List Clause) : Prop :=
  ∀ option ∈ options, IsOptionName option.name.toList ∧
    ∀ argument ∈ option.arguments, Argument argument.word argument.bare

theorem optionsText_tail {options : List Clause} (h : OptionsRead options) (tail : List Char) :
    Boundary (optionsText options ++ '\n' :: tail) ∧
      Quiet 1 (optionsText options ++ '\n' :: tail) ∧
      (optionsText options ++ '\n' :: tail = '\n' :: tail ∨
        ∃ more, optionsText options ++ '\n' :: tail = ' ' :: '-' :: more) := by
  cases options with
  | nil => exact ⟨boundary_cons (by decide), quiet_newline 1 tail, Or.inl rfl⟩
  | cons option rest =>
    rw [optionsText_cons]
    refine ⟨boundary_cons (by decide), ?_, Or.inr ⟨_, rfl⟩⟩
    simp only [List.cons_append, List.append_assoc]
    exact quiet_option 1 (h option List.mem_cons_self).1 _

/-- Arguments with commas between them and the options behind them. -/
theorem clauses_arguments (file : String) {options : List Clause} {tail : List Char}
    (hoptions : OptionsRead options)
    (hnext : ∀ n k c, c.rest = blanks k ++ (optionsText options ++ '\n' :: tail) →
      12 * (optionsText options).length + 3 ≤ n →
        ∃ gots, clauses file n c = .ok (([], gots), c.over (blanks k ++ optionsText options)) ∧
          gots.map Clause.bare = options.map Clause.bare)
    (arguments : List Node)
    (harguments : ∀ argument ∈ arguments, Argument argument.word argument.bare)
    {n k : Nat} {c : Cursor}
    (hrest : c.rest = blanks k ++ (Text.join [',', ' '] (arguments.map Node.word) ++
      (optionsText options ++ '\n' :: tail)))
    (hn : 12 * ((Text.join [',', ' '] (arguments.map Node.word)).length +
      (optionsText options).length) + 3 ≤ n) :
    ∃ got gots, clauses file n c = .ok ((got, gots), c.over (blanks k ++
        (Text.join [',', ' '] (arguments.map Node.word) ++ optionsText options))) ∧
      got.map Node.bare = arguments.map Node.bare ∧
      gots.map Clause.bare = options.map Clause.bare := by
  induction arguments generalizing n k c with
  | nil =>
    obtain ⟨gots, hread, hgots⟩ := hnext n k c hrest (by omega)
    exact ⟨[], gots, hread, rfl, hgots⟩
  | cons argument rest ih =>
    have hargument := harguments argument List.mem_cons_self
    obtain ⟨level, hexpression⟩ := hargument.expression
    have hlength := hexpression.opens.length_pos
    obtain ⟨n, rfl⟩ := Nat.exists_eq_add_one_of_ne_zero (Nat.ne_of_gt (by omega : 0 < n))
    cases rest with
    | nil =>
      simp only [List.map_cons, List.map_nil, Text.join] at hrest hn ⊢
      obtain ⟨hboundary, hquiet, hshape⟩ := optionsText_tail hoptions tail
      obtain ⟨got, hgot, hstep⟩ := clauses_argument file (n := n) hargument hboundary hquiet hrest
        (by omega)
      have hbehind := Cursor.rest_over (Cursor.rest_over hrest)
      obtain ⟨gots, hread, hgots⟩ := hnext n 0 _ hbehind (by omega)
      refine ⟨[got], gots, ?_, by simp [hgot], hgots⟩
      have hskip : clauses file n
          ((((c.over (blanks k)).over argument.word)).skipInline.pass ',') =
            clauses file n ((c.over (blanks k)).over argument.word) := by
        obtain ⟨n, rfl⟩ := Nat.exists_eq_add_one_of_ne_zero (Nat.ne_of_gt (by omega : 0 < n))
        apply clauses_skipInline
        rcases hshape with hshape | ⟨more, hshape⟩
        · have htight := Cursor.skipInline_tight (hbehind ▸ hshape ▸ tight_newline tail)
          rw [htight, Cursor.pass_of_ne (by rw [hbehind, hshape]; simp), htight]
        · rw [hshape] at hbehind
          have hminus := Cursor.rest_step_cons hbehind
          rw [Cursor.skipInline_blank hbehind (tight_cons (by decide)),
            Cursor.pass_of_ne (by rw [hminus]; simp),
            Cursor.skipInline_tight (hminus ▸ tight_cons (by decide))]
      rw [hstep [] gots _ (hskip.trans hread)]
      simp
    | cons next rest =>
      rw [List.map_cons, join_cons] at hrest hn
      simp only [List.map_cons, List.isEmpty_cons, Bool.false_eq_true, if_false, List.append_assoc,
        List.cons_append, List.nil_append, List.length_append, List.length_cons] at hrest hn
      obtain ⟨got, hgot, hstep⟩ := clauses_argument file (n := n) hargument
        (boundary_cons (by decide)) (quiet_closer 1 (by decide)) hrest (by omega)
      have hcomma := Cursor.rest_over (Cursor.rest_over hrest)
      obtain ⟨got', gots, hread, hgot', hgots⟩ := ih
        (fun x hx => harguments x (List.mem_cons_of_mem _ hx)) (n := n) (k := 1)
        (Cursor.rest_step_cons hcomma) (by
          simp only [List.map_cons]
          omega)
      refine ⟨got :: got', gots, ?_, by rw [List.map_cons, hgot, hgot']; rfl, hgots⟩
      rw [hstep got' gots _ (by
        rw [Cursor.skipInline_tight (hcomma ▸ tight_cons (by decide)), Cursor.pass_cons hcomma,
          hread])]
      simp only [List.map_cons, join_cons]
      simp

theorem argumentsText_eq (texts : List (List Char)) :
    argumentsText texts = blanks (if texts.isEmpty then 0 else 1) ++ Text.join [',', ' '] texts := by
  cases texts <;> rfl

theorem clauses_options (file : String) {tail : List Char} (options : List Clause)
    (hoptions : OptionsRead options) :
    ∀ n k c, c.rest = blanks k ++ (optionsText options ++ '\n' :: tail) →
      12 * (optionsText options).length + 3 ≤ n →
        ∃ gots, clauses file n c = .ok (([], gots), c.over (blanks k ++ optionsText options)) ∧
          gots.map Clause.bare = options.map Clause.bare := by
  induction options with
  | nil =>
    intro n k c hrest hn
    obtain ⟨n, rfl⟩ := Nat.exists_eq_add_one_of_ne_zero (Nat.ne_of_gt (by omega : 0 < n))
    refine ⟨[], ?_, rfl⟩
    rw [clauses_end file hrest]
    simp [optionsText]
  | cons option rest ih =>
    intro n k c hrest hn
    obtain ⟨hname, harguments⟩ := hoptions option List.mem_cons_self
    have hrestOptions : OptionsRead rest := fun x hx => hoptions x (List.mem_cons_of_mem _ hx)
    rw [optionsText_cons, argumentsText_eq] at hrest hn ⊢
    simp only [List.length_cons, List.length_append] at hn
    obtain ⟨n, rfl⟩ := Nat.exists_eq_add_one_of_ne_zero (Nat.ne_of_gt (by omega : 0 < n))
    have hpad : c.rest = blanks (k + 1) ++ '-' :: (option.name.toList ++
        (blanks (if (option.arguments.map Node.word).isEmpty then 0 else 1) ++
          (Text.join [',', ' '] (option.arguments.map Node.word) ++
            (optionsText rest ++ '\n' :: tail)))) := by
      rw [hrest, blanks_succ]
      simp
    have hboundary : Boundary (blanks (if (option.arguments.map Node.word).isEmpty then 0 else 1) ++
          (Text.join [',', ' '] (option.arguments.map Node.word) ++
            (optionsText rest ++ '\n' :: tail))) := by
      cases option.arguments with
      | nil => exact (optionsText_tail hrestOptions tail).1
      | cons argument more => exact boundary_cons (by decide)
    have hbehind := Cursor.rest_over (Cursor.rest_step_cons (Cursor.rest_over hpad))
    obtain ⟨got, gots, hread, hgot, hgots⟩ := clauses_arguments file hrestOptions
      (ih hrestOptions) option.arguments harguments (n := n) hbehind (by omega)
    refine ⟨⟨option.name, got⟩ :: gots, ?_, ?_⟩
    · have hofList : String.ofList option.name.toList = option.name := String.ofList_toList
      rw [clauses_option hname hboundary hpad hread, hofList, blanks_succ]
      simp
    · simp [Clause.bare_eq, hgot, hgots]

/-- The arguments and options of a directive, up to the end of the line. -/
theorem clauses_reads (file : String) {arguments : List Node} {options : List Clause}
    (harguments : ∀ argument ∈ arguments, Argument argument.word argument.bare)
    (hoptions : OptionsRead options)
    {n : Nat} {c : Cursor} {tail : List Char}
    (hrest : c.rest = argumentsText (arguments.map Node.word) ++
      (optionsText options ++ '\n' :: tail))
    (hn : 12 * ((argumentsText (arguments.map Node.word)).length +
      (optionsText options).length) + 3 ≤ n) :
    ∃ got gots, clauses file n c = .ok ((got, gots), c.over
        (argumentsText (arguments.map Node.word) ++ optionsText options)) ∧
      got.map Node.bare = arguments.map Node.bare ∧
      gots.map Clause.bare = options.map Clause.bare := by
  rw [argumentsText_eq] at hrest hn ⊢
  rw [List.length_append] at hn
  rw [List.append_assoc] at hrest
  obtain ⟨got, gots, hread, hgot, hgots⟩ := clauses_arguments file hoptions
    (clauses_options file options hoptions) arguments harguments (n := n) hrest (by omega)
  refine ⟨got, gots, ?_, hgot, hgots⟩
  rw [hread, List.append_assoc]

/-! ## Bodies -/

/-- What marks the end of a body, or of the part of it before a branch. -/
def closers : List (List Char) :=
  [['@', 'e', 'n', 'd'], ['e', 'n', 'd'], ['@', 'e', 'l', 's', 'e']]

/-- A text of whole lines that is read as a statement.  What is read behind it does not matter. -/
structure Statement (text : List Char) (target : Node) : Prop where
  solid : Solid text
  ne_nil : text ≠ []
  notCloser : ∀ tail, ∀ closer ∈ closers, startsWithKeyword closer (text ++ tail) = false
  reads : ∀ (file : String) (n : Nat) (c : Cursor) (tail : List Char),
    c.rest = text ++ tail → 12 * text.length + 4 ≤ n →
      ∃ got, statement file n c = .ok (got, c.over text) ∧ got.bare = target

theorem indent_eq_blanks (depth : Nat) : indent depth = blanks (4 * depth) := rfl

theorem Solid.append {text : List Char} (h : Solid text) (hne : text ≠ []) (more : List Char) :
    Solid (text ++ more) := by
  cases text with
  | nil => exact absurd rfl hne
  | cons c rest => exact fun d hd => h d hd

/-- One statement of a body. -/
theorem body_statement (file : String) {n k : Nat} (allowElse : Bool) {c : Cursor}
    {text more : List Char} {target : Node}
    (hstatement : Statement text target)
    (hrest : c.rest = blanks k ++ (text ++ more))
    (hn : 12 * text.length + 4 ≤ n) :
    ∃ got, got.bare = target ∧
      ∀ nodes ending c', body file n allowElse ((c.over (blanks k)).over text) =
          .ok ((nodes, ending), c') →
        body file (n + 1) allowElse c = .ok ((got :: nodes, ending), c') := by
  have hstart := Cursor.rest_over hrest
  have hsolid := hstatement.solid.append hstatement.ne_nil more
  obtain ⟨got, hread, hgot⟩ := hstatement.reads file n _ more hstart hn
  have hpeek : ((c.over (blanks k)).peek == none) = false := by
    rw [Cursor.peek, hstart]
    cases htext : text with
    | nil => exact absurd htext hstatement.ne_nil
    | cons ch rest => rfl
  have hcloser : ∀ closer ∈ closers, (c.over (blanks k)).atKeyword closer = false := by
    intro closer hmem
    rw [Cursor.atKeyword, hstart]
    exact hstatement.notCloser more closer hmem
  refine ⟨got, hgot, ?_⟩
  intro nodes ending c' hnodes
  rw [body, Cursor.skipBlank_indent hrest hsolid]
  dsimp only
  rw [hpeek, hcloser _ (by decide), hcloser _ (by decide), hcloser _ (by decide),
    if_neg Bool.false_ne_true, if_neg Bool.false_ne_true, if_neg Bool.false_ne_true,
    if_neg Bool.false_ne_true, hread, ok_bind]
  dsimp only
  rw [hnodes, ok_bind]

section Bodies

variable {α : Type} {write : α → List Char} {meaning : α → Node} {k : Nat}

/-- A text that ends a body is read as that ending, up to its last line. -/
structure Closes (file : String) (allowElse : Bool) (more after : List Char) (ending : Ending) :
    Prop where
  reads : ∀ n c, c.rest = more → 0 < n →
    body file n allowElse c = .ok (([], ending), c.over after)

/-- Statements up to what ends the body. -/
theorem body_reads (file : String) (items : List α)
    (hitems : ∀ item ∈ items, ∃ text, write item = blanks k ++ text ∧
      Statement text (meaning item))
    {allowElse : Bool} {more after : List Char} {ending : Ending}
    (hcloses : Closes file allowElse more after ending)
    {n : Nat} {c : Cursor}
    (hrest : c.rest = items.flatMap write ++ more)
    (hn : 12 * (items.flatMap write).length + 5 ≤ n) :
    ∃ got, body file n allowElse c =
        .ok ((got, ending), (c.over (items.flatMap write)).over after) ∧
      got.map Node.bare = items.map meaning := by
  induction items generalizing n c with
  | nil => exact ⟨[], hcloses.reads n c hrest (by omega), rfl⟩
  | cons item rest ih =>
    obtain ⟨text, htext, hstatement⟩ := hitems item List.mem_cons_self
    have hlength : 0 < text.length := List.length_pos_of_ne_nil hstatement.ne_nil
    rw [List.flatMap_cons, htext] at hrest hn ⊢
    simp only [List.append_assoc, List.length_append] at hrest hn
    obtain ⟨n, rfl⟩ := Nat.exists_eq_add_one_of_ne_zero (Nat.ne_of_gt (by omega : 0 < n))
    obtain ⟨got, hgot, hstep⟩ := body_statement file (n := n) allowElse hstatement hrest (by omega)
    obtain ⟨gots, hreads, hgots⟩ := ih (fun x hx => hitems x (List.mem_cons_of_mem _ hx))
      (Cursor.rest_over (Cursor.rest_over hrest)) (n := n) (by omega)
    refine ⟨got :: gots, ?_, by rw [List.map_cons, hgot, hgots]; rfl⟩
    rw [hstep gots ending _ hreads]
    simp

end Bodies

/-- The end of the text ends the body of a file. -/
theorem closes_eof (file : String) (allowElse : Bool) : Closes file allowElse [] [] .eof := by
  constructor
  intro n c hrest hn
  obtain ⟨n, rfl⟩ := Nat.exists_eq_add_one_of_ne_zero (Nat.ne_of_gt hn)
  have hsolid : Solid c.rest := by
    rw [hrest]
    intro d hd
    cases hd
  have hpeek : (c.peek == none) = true := by
    rw [Cursor.peek, hrest]
    rfl
  rw [body, Cursor.skipBlank_solid hsolid]
  dsimp only
  rw [hpeek, if_pos rfl]
  rfl

theorem startsWithKeyword_append {keyword tail : List Char}
    (htail : ∀ c ∈ tail.head?, (isWordChar c || c == ':') = false) :
    startsWithKeyword keyword (keyword ++ tail) = true := by
  rw [startsWithKeyword, Bool.and_eq_true]
  refine ⟨List.isPrefixOf_iff_prefix.2 (List.prefix_append _ _), ?_⟩
  rw [List.drop_left]
  cases tail with
  | nil => rfl
  | cons c rest =>
    have hc := htail c rfl
    simp [hc]

theorem startsWithKeyword_line (keyword tail : List Char) :
    startsWithKeyword keyword (keyword ++ '\n' :: tail) = true := by
  apply startsWithKeyword_append
  intro c hc
  cases hc
  rfl

/-- `end` on a line of its own closes a body. -/
theorem closes_end (file : String) (allowElse : Bool) (k : Nat) (tail : List Char) :
    Closes file allowElse (blanks k ++ (['e', 'n', 'd'] ++ '\n' :: tail))
      (blanks k ++ ['e', 'n', 'd', '\n']) .closed := by
  constructor
  intro n c hrest hn
  obtain ⟨n, rfl⟩ := Nat.exists_eq_add_one_of_ne_zero (Nat.ne_of_gt hn)
  have hstart := Cursor.rest_over hrest
  have hline : ((c.over (blanks k)).advance 3).rest = '\n' :: tail := Cursor.rest_over hstart
  have hpeek : ((c.over (blanks k)).peek == none) = false := by
    rw [Cursor.peek, hstart]
    rfl
  have hsigned : (c.over (blanks k)).atKeyword ['@', 'e', 'n', 'd'] = false := by
    rw [Cursor.atKeyword, hstart]
    exact startsWithKeyword_of_head_ne (by simp)
  have hplain : (c.over (blanks k)).atKeyword ['e', 'n', 'd'] = true := by
    rw [Cursor.atKeyword, hstart]
    exact startsWithKeyword_line _ _
  rw [body, Cursor.skipBlank_indent hrest (solid_cons (by decide))]
  dsimp only
  rw [hpeek, hsigned, hplain, if_neg Bool.false_ne_true, if_neg Bool.false_ne_true, if_pos rfl,
    Cursor.expectLineEnd_newline hline, ok_bind, Cursor.over_append]
  rfl

/-- `@end` on a line of its own closes a body. -/
theorem closes_signed_end (file : String) (allowElse : Bool) (k : Nat) (tail : List Char) :
    Closes file allowElse (blanks k ++ (['@', 'e', 'n', 'd'] ++ '\n' :: tail))
      (blanks k ++ ['@', 'e', 'n', 'd', '\n']) .closed := by
  constructor
  intro n c hrest hn
  obtain ⟨n, rfl⟩ := Nat.exists_eq_add_one_of_ne_zero (Nat.ne_of_gt hn)
  have hstart := Cursor.rest_over hrest
  have hline : ((c.over (blanks k)).advance 4).rest = '\n' :: tail := Cursor.rest_over hstart
  have hpeek : ((c.over (blanks k)).peek == none) = false := by
    rw [Cursor.peek, hstart]
    rfl
  have hsigned : (c.over (blanks k)).atKeyword ['@', 'e', 'n', 'd'] = true := by
    rw [Cursor.atKeyword, hstart]
    exact startsWithKeyword_line _ _
  rw [body, Cursor.skipBlank_indent hrest (solid_cons (by decide))]
  dsimp only
  rw [hpeek, hsigned, if_neg Bool.false_ne_true, if_pos rfl,
    Cursor.expectLineEnd_newline hline, ok_bind, Cursor.over_append]
  rfl

/-- `@else` ends the part of a body before a branch. -/
theorem closes_else (file : String) (k : Nat) {tail : List Char}
    (htail : ∀ c ∈ tail.head?, (isWordChar c || c == ':') = false) :
    Closes file true (blanks k ++ (['@', 'e', 'l', 's', 'e'] ++ tail))
      (blanks k ++ ['@', 'e', 'l', 's', 'e']) .orElse := by
  constructor
  intro n c hrest hn
  obtain ⟨n, rfl⟩ := Nat.exists_eq_add_one_of_ne_zero (Nat.ne_of_gt hn)
  have hstart := Cursor.rest_over hrest
  have hpeek : ((c.over (blanks k)).peek == none) = false := by
    rw [Cursor.peek, hstart]
    rfl
  have hend : (c.over (blanks k)).atKeyword ['@', 'e', 'n', 'd'] = false := by
    rw [Cursor.atKeyword, hstart]
    simp [startsWithKeyword, List.isPrefixOf]
  have hplain : (c.over (blanks k)).atKeyword ['e', 'n', 'd'] = false := by
    rw [Cursor.atKeyword, hstart]
    exact startsWithKeyword_of_head_ne (by simp)
  have helse : (c.over (blanks k)).atKeyword ['@', 'e', 'l', 's', 'e'] = true := by
    rw [Cursor.atKeyword, hstart]
    exact startsWithKeyword_append htail
  rw [body, Cursor.skipBlank_indent hrest (solid_cons (by decide))]
  dsimp only
  rw [hpeek, hend, hplain, helse, if_neg Bool.false_ne_true, if_neg Bool.false_ne_true,
    if_neg Bool.false_ne_true, if_pos rfl, if_pos rfl, Cursor.over_append]
  rfl

/-! ## What opens a statement -/

/-- The first character of a key or a type. -/
def isNameStart (c : Char) : Bool :=
  c.isAlpha || c == '_'

theorem isNameStart_ne {c other : Char} (h : isNameStart c = true)
    (hother : isNameStart other = false) :
    c ≠ other := by
  rintro rfl
  rw [h] at hother
  cases hother

theorem startsWithKeyword_colon {keyword word : List Char} (tail : List Char)
    (hkeyword : ∀ c ∈ keyword, isWordChar c = true)
    (hword : ∀ c ∈ word, isWordChar c = true) :
    startsWithKeyword keyword (word ++ ':' :: tail) = false := by
  by_cases hsame : word = keyword
  · subst hsame
    rw [startsWithKeyword, List.drop_left]
    simp
  · exact startsWithKeyword_word hkeyword hword (boundary_cons (by decide)) hsame

/-- A name that is not `end`, or has a colon behind it, is no closer. -/
theorem notCloser_name {ch : Char} {rest tail : List Char}
    (hword : ∀ c ∈ ch :: rest, isWordChar c = true)
    (hch : isNameStart ch = true)
    (hend : (∃ more, tail = ':' :: more) ∨ (Boundary tail ∧ ch :: rest ≠ ['e', 'n', 'd'])) :
    ∀ closer ∈ closers, startsWithKeyword closer (ch :: rest ++ tail) = false := by
  have hsign : some ch ≠ some '@' := fun h =>
    isNameStart_ne hch (by decide) (Option.some.inj h)
  intro closer hmem
  simp only [closers, List.mem_cons, List.not_mem_nil, or_false] at hmem
  rcases hmem with rfl | rfl | rfl
  · exact startsWithKeyword_of_head_ne hsign
  · rcases hend with ⟨more, rfl⟩ | ⟨hboundary, hne⟩
    · exact startsWithKeyword_colon more (List.all_eq_true.1 rfl) hword
    · exact startsWithKeyword_word (List.all_eq_true.1 rfl) hword hboundary hne
  · exact startsWithKeyword_of_head_ne hsign

theorem notCloser_quote (tail : List Char) :
    ∀ closer ∈ closers, startsWithKeyword closer ('\'' :: tail) = false := by
  intro closer hmem
  simp only [closers, List.mem_cons, List.not_mem_nil, or_false] at hmem
  rcases hmem with rfl | rfl | rfl <;> exact startsWithKeyword_of_head_ne (by simp)

theorem solid_name {ch : Char} {rest : List Char} (hch : isNameStart ch = true) :
    Solid (ch :: rest) := by
  have hword : isWordChar ch = true := by
    rcases Bool.or_eq_true_iff.1 hch with h | h
    · exact isWordChar_of_isAlpha h
    · simp [isWordChar, h]
  exact Opens.solid ⟨ch, rest, rfl, by simp [isStarter, hword]⟩

/-! ## Rules for pairs, blocks and resources -/

theorem pairValue_reads (file key : String) (span : Span) {level n : Nat} {c : Cursor}
    {text tail : List Char} {target : Node}
    (hvalue : Expression level text target)
    (hrest : c.rest = ' ' :: (text ++ '\n' :: tail))
    (hn : 12 * text.length + 2 ≤ n) :
    ∃ got, pairValue file n key span c =
        .ok (.pair ⟨key, got, span⟩, c.over (' ' :: (text ++ ['\n']))) ∧ got.bare = target := by
  have hinside := Cursor.rest_step_cons hrest
  have hline := Cursor.rest_over hinside
  obtain ⟨got, hread, hgot⟩ := hvalue.whole file (n := n) (boundary_cons (by decide))
    (quiet_newline 1 tail) hinside hn
  refine ⟨got, ?_, hgot⟩
  rw [pairValue, Cursor.skipInline_blank hrest (hvalue.solid_append _).tight, hread, ok_bind]
  dsimp only
  rw [Cursor.expectLineEnd_newline hline, ok_bind]
  simp

theorem not_sees_name {c : Cursor} {ch other : Char} {text : List Char}
    (hrest : c.rest = ch :: text)
    (hch : isNameStart ch = true)
    (hother : isNameStart other = false) :
    c.sees other = false := by
  rw [Cursor.sees_cons hrest]
  exact beq_eq_false_iff_ne.2 (isNameStart_ne hch hother)

/-- A statement that a name opens goes on with what follows the name. -/
theorem statement_name (file : String) {n : Nat} {c : Cursor} {ch : Char} {rest tail : List Char}
    (hword : ∀ c ∈ ch :: rest, isWordChar c = true)
    (hch : isNameStart ch = true)
    (hboundary : Boundary tail)
    (hrest : c.rest = ch :: rest ++ tail) :
    statement file (n + 1) c =
      let c' := c.over (ch :: rest)
      if [':', ':'].isPrefixOf tail then (do
        let (kind, c') ← (c'.advance 2).expectWord file "a resource kind"
        resource file n (String.ofList (ch :: rest ++ [':', ':'] ++ kind)) (c.span file) c')
      else
        let c' := c'.skipInline
        if c'.sees ':' then pairValue file n (String.ofList (ch :: rest)) (c.span file) c'.step
        else (do
          let c' ← c'.expectLineEnd file
          let (nodes, c') ← blockBody file n
            ("block `" ++ String.ofList (ch :: rest) ++ "`") c'
          .ok (.block (String.ofList (ch :: rest)) nodes (c.span file), c')) := by
  have hquotes : (c.sees '\'' || c.sees '"') = false := by
    rw [not_sees_name hrest hch (by decide), not_sees_name hrest hch (by decide)]
    rfl
  have hany : (c.peek.any fun ch => ch.isAlpha || ch == '_') = true := by
    rw [Cursor.peek, hrest]
    exact hch
  have hbehind := Cursor.rest_over hrest
  rw [statement]
  dsimp only
  rw [not_sees_name hrest hch (by decide), if_neg Bool.false_ne_true, hquotes,
    if_neg Bool.false_ne_true, hany, if_pos rfl,
    Cursor.expectWord_word _ _ ⟨List.cons_ne_nil _ _, hword⟩ hboundary hrest, ok_bind]
  dsimp only
  rw [hbehind]

theorem statement_pair {level : Nat} {key : String} {text : List Char} {target : Node}
    (hvalue : Expression level text target) :
    Statement (pairText key text ++ ['\n']) (.pair ⟨key, target, Span.generated⟩) := by
  by_cases hbare : isBareWord key.toList = true
  · obtain ⟨ch, rest, hkey, hch⟩ := head_of_isBareWord hbare
    have hword : ∀ c ∈ ch :: rest, isWordChar c = true :=
      hkey ▸ (isWord_of_isBareWord hbare).all
    have hofList : String.ofList (ch :: rest) = key := by
      rw [← hkey, String.ofList_toList]
    have htext : pairText key text ++ ['\n'] =
        ch :: rest ++ ':' :: (' ' :: (text ++ ['\n'])) := by
      rw [pairText, keyText, if_pos hbare, hkey]
      simp
    rw [htext]
    refine ⟨solid_name hch, List.cons_ne_nil _ _, ?_, ?_⟩
    · intro tail
      rw [List.append_assoc]
      exact notCloser_name hword hch (Or.inl ⟨_, rfl⟩)
    · intro file n c tail hrest hn
      simp only [List.length_append, List.length_cons, List.length_nil] at hn
      obtain ⟨n, rfl⟩ := Nat.exists_eq_add_one_of_ne_zero (Nat.ne_of_gt (by omega : 0 < n))
      have hrest' : c.rest = ch :: rest ++ ':' :: (' ' :: (text ++ '\n' :: tail)) := by
        rw [hrest]
        simp
      have hcolon := Cursor.rest_over hrest'
      obtain ⟨got, hread, hgot⟩ := pairValue_reads file key (c.span file) (n := n) hvalue (Cursor.rest_step_cons hcolon) (by omega)
      refine ⟨.pair ⟨key, got, c.span file⟩, ?_, by rw [Node.bare, Entry.bare, hgot]⟩
      rw [statement_name file hword hch (boundary_cons (by decide)) hrest']
      dsimp only
      rw [if_neg (by simp [List.isPrefixOf]),
        Cursor.skipInline_tight (hcolon ▸ tight_cons (by decide)), Cursor.sees_cons hcolon,
        beq_self_eq_true, if_pos rfl, hofList, hread]
      simp
  · have htext : pairText key text ++ ['\n'] =
        quotedText key.toList ++ ':' :: (' ' :: (text ++ ['\n'])) := by
      rw [pairText, keyText, if_neg hbare]
      simp
    rw [htext]
    refine ⟨solid_cons (by decide), List.cons_ne_nil _ _, fun tail => notCloser_quote _, ?_⟩
    intro file n c tail hrest hn
    simp only [List.length_append, List.length_cons, List.length_nil] at hn
    obtain ⟨n, rfl⟩ := Nat.exists_eq_add_one_of_ne_zero (Nat.ne_of_gt (by omega : 0 < n))
    have hrest' : c.rest = quotedText key.toList ++ ':' :: (' ' :: (text ++ '\n' :: tail)) := by
      rw [hrest]
      simp
    have hcolon := Cursor.rest_over hrest'
    have hsign : c.sees '@' = false := Cursor.sees_cons hrest' '@'
    have hquote : (c.sees '\'' || c.sees '"') = true := by
      rw [Cursor.sees_cons hrest']
      rfl
    obtain ⟨got, hread, hgot⟩ := pairValue_reads file key (c.span file) (n := n) hvalue (Cursor.rest_step_cons hcolon) (by omega)
    refine ⟨.pair ⟨key, got, c.span file⟩, ?_, by rw [Node.bare, Entry.bare, hgot]⟩
    rw [statement]
    dsimp only
    rw [hsign, if_neg Bool.false_ne_true, hquote, if_pos rfl,
      stringKey_quoted file (boundary_cons (by decide)) hrest' (by omega), ok_bind]
    dsimp only
    rw [Cursor.skipInline_tight (hcolon ▸ tight_cons (by decide)), Cursor.expect_cons hcolon,
      ok_bind, hread]
    simp

section Blocks

variable {α : Type} {write : α → List Char} {meaning : α → Node} {k : Nat}

theorem blockBody_reads (file what : String) (depth : Nat) (items : List α)
    (hitems : ∀ item ∈ items, ∃ text, write item = blanks k ++ text ∧
      Statement text (meaning item))
    {n : Nat} {c : Cursor} {tail : List Char}
    (hrest : c.rest = items.flatMap write ++ (indent depth ++ (['e', 'n', 'd'] ++ '\n' :: tail)))
    (hn : 12 * (items.flatMap write).length + 6 ≤ n) :
    ∃ got, blockBody file n what c =
        .ok (got, (c.over (items.flatMap write)).over (indent depth ++ ['e', 'n', 'd', '\n'])) ∧
      got.map Node.bare = items.map meaning := by
  obtain ⟨n, rfl⟩ := Nat.exists_eq_add_one_of_ne_zero (Nat.ne_of_gt (by omega : 0 < n))
  obtain ⟨got, hread, hgot⟩ := body_reads file items hitems
    (closes_end file false (4 * depth) tail) hrest (n := n) (by omega)
  refine ⟨got, ?_, hgot⟩
  rw [blockBody, hread, ok_bind]
  rfl

theorem statement_block (depth : Nat) {key : String} (items : List α)
    (hkey : IsWord key.toList)
    (hstart : ∀ c ∈ key.toList.head?, isNameStart c = true)
    (hend : key.toList ≠ ['e', 'n', 'd'])
    (hitems : ∀ item ∈ items, ∃ text, write item = blanks k ++ text ∧
      Statement text (meaning item)) :
    Statement (key.toList ++ '\n' :: (items.flatMap write ++ (indent depth ++
      ['e', 'n', 'd', '\n']))) (.block key (items.map meaning) Span.generated) := by
  have hofList : String.ofList key.toList = key := String.ofList_toList
  generalize key.toList = word at hkey hstart hend hofList ⊢
  cases word with
  | nil => exact absurd rfl hkey.ne_nil
  | cons ch rest =>
    have hch : isNameStart ch = true := hstart ch rfl
    refine ⟨solid_name hch, List.cons_ne_nil _ _, ?_, ?_⟩
    · intro tail
      rw [List.append_assoc]
      exact notCloser_name hkey.all hch (Or.inr ⟨boundary_cons (by decide), hend⟩)
    · intro file n c tail hrest hn
      simp only [List.length_append, List.length_cons, List.length_nil] at hn
      obtain ⟨n, rfl⟩ := Nat.exists_eq_add_one_of_ne_zero (Nat.ne_of_gt (by omega : 0 < n))
      have hrest' : c.rest = ch :: rest ++ '\n' :: (items.flatMap write ++ (indent depth ++
          (['e', 'n', 'd'] ++ '\n' :: tail))) := by
        rw [hrest]
        simp
      have hline := Cursor.rest_over hrest'
      obtain ⟨got, hread, hgot⟩ := blockBody_reads file
        ("block `" ++ String.ofList (ch :: rest) ++ "`") depth items hitems (n := n)
        (Cursor.rest_step_cons hline) (by omega)
      refine ⟨.block key got (c.span file), ?_, by rw [Node.bare, bareNodes_eq_map, hgot]⟩
      rw [statement_name file hkey.all hch (boundary_cons (by decide)) hrest']
      dsimp only
      rw [if_neg (by simp [List.isPrefixOf]), Cursor.skipInline_tight (hline ▸ tight_newline _),
        Cursor.sees_cons hline, if_neg (by decide), Cursor.expectLineEnd_newline hline, ok_bind,
        hread, ok_bind, hofList]
      simp

/-- A type as the blocks of resources name it. -/
def IsBlockType (type : String) : Prop :=
  IsTypeText type ∧ ∀ c ∈ type.toList.head?, isNameStart c = true

theorem statement_resource (depth : Nat) {type : String} {name : List Char} {nameTarget : Node}
    (items : List α)
    (htype : IsBlockType type)
    (hname : Atom name nameTarget)
    (hitems : ∀ item ∈ items, ∃ text, write item = blanks k ++ text ∧
      Statement text (meaning item)) :
    Statement (type.toList ++ ' ' :: (name ++ '\n' :: (items.flatMap write ++ (indent depth ++
      ['e', 'n', 'd', '\n']))))
      (.resource type nameTarget (items.map meaning) Span.generated) := by
  obtain ⟨⟨head, kind, hhead, hkind, htext⟩, hstart⟩ := htype
  have hofList : String.ofList (head ++ [':', ':'] ++ kind) = type := by
    rw [← htext, String.ofList_toList]
  rw [htext] at hstart ⊢
  cases head with
  | nil => exact absurd rfl hhead.ne_nil
  | cons ch rest =>
    have hch : isNameStart ch = true := hstart ch rfl
    refine ⟨solid_name hch, List.cons_ne_nil _ _, ?_, ?_⟩
    · intro tail
      simp only [List.append_assoc]
      exact notCloser_name hhead.all hch (Or.inl ⟨_, rfl⟩)
    · intro file n c tail hrest hn
      have hnameLength := hname.opens.length_pos
      simp only [List.length_append, List.length_cons, List.length_nil] at hn
      obtain ⟨n, rfl⟩ := Nat.exists_eq_add_one_of_ne_zero (Nat.ne_of_gt (by omega : 0 < n))
      obtain ⟨n, rfl⟩ := Nat.exists_eq_add_one_of_ne_zero (Nat.ne_of_gt (by omega : 0 < n))
      have hrest' : c.rest = ch :: rest ++ ([':', ':'] ++ (kind ++ ' ' :: (name ++ '\n' ::
          (items.flatMap write ++ (indent depth ++ (['e', 'n', 'd'] ++ '\n' :: tail)))))) := by
        rw [hrest]
        simp
      have hcolons := Cursor.rest_over hrest'
      have hkindRest : ((c.over (ch :: rest)).advance 2).rest = kind ++ ' ' :: (name ++ '\n' ::
          (items.flatMap write ++ (indent depth ++ (['e', 'n', 'd'] ++ '\n' :: tail)))) :=
        Cursor.rest_over hcolons
      have hblank := Cursor.rest_over hkindRest
      have hinside := Cursor.rest_step_cons hblank
      have hline := Cursor.rest_over hinside
      have hnotEnd : (((c.over (ch :: rest)).advance 2).over kind).step.atLineEnd = false := by
        obtain ⟨first, more, hfirst, hstarter⟩ := hname.opens
        rw [hfirst] at hinside
        exact not_atLineEnd hinside (isStarter_ne hstarter (by decide))
      obtain ⟨nameGot, hreadName, hnameGot⟩ := hname.reads file n _ _ (boundary_cons (by decide))
        hinside (by omega)
      obtain ⟨got, hread, hgot⟩ := blockBody_reads file ("resource `" ++ type ++ "`") depth items
        hitems (n := n) (Cursor.rest_step_cons hline) (by omega)
      refine ⟨.resource type nameGot got (c.span file), ?_, by
        rw [Node.bare, bareNodes_eq_map, hgot, hnameGot]⟩
      rw [statement_name file hhead.all hch (boundary_cons (by decide)) hrest']
      dsimp only
      rw [if_pos (by simp [List.isPrefixOf]),
        Cursor.expectWord_word _ _ hkind (boundary_cons (by decide)) hkindRest, ok_bind]
      dsimp only
      rw [hofList, resource,
        Cursor.skipInline_blank hblank ((hname.opens.append _).solid).tight]
      dsimp only
      rw [hnotEnd, if_neg Bool.false_ne_true, hreadName, ok_bind]
      dsimp only
      rw [Cursor.expectLineEnd_newline hline, ok_bind, hread, ok_bind]
      simp

end Blocks

/-! ## Rules for directives -/

theorem startsWithKeyword_cons (ch : Char) (keyword text : List Char) :
    startsWithKeyword (ch :: keyword) (ch :: text) = startsWithKeyword keyword text := by
  simp [startsWithKeyword, List.isPrefixOf]

/-- What is asked of the arguments and the body of a branch. -/
structure BranchReads (depth : Nat) (branch : Branch) : Prop where
  name_eq : branch.name = "else"
  arguments : ∀ argument ∈ branch.arguments, Argument argument.word argument.bare
  body : ∀ node ∈ branch.body, ∃ text, node.lines (depth + 1) = blanks (4 * (depth + 1)) ++ text ∧
    Statement text node.bare

/-- A branch behind its `@else`. -/
def branchRest (depth : Nat) (branch : Branch) : List Char :=
  (if branch.arguments.isEmpty then []
    else [' ', 'i', 'f'] ++ argumentsText (branch.arguments.map Node.word)) ++
    '\n' :: branch.body.flatMap (Node.lines (depth + 1))

theorem branchLines_eq {depth : Nat} {branch : Branch} (h : BranchReads depth branch) :
    branch.lines depth =
      blanks (4 * depth) ++ (['@', 'e', 'l', 's', 'e'] ++ branchRest depth branch) := by
  have hname : branch.name.toList = ['e', 'l', 's', 'e'] := by
    rw [h.name_eq]
    rfl
  rw [Branch.lines, branchText, hname, branchRest, indent_eq_blanks]
  cases branch.arguments <;> simp

/-- What is read where the body, or a branch, gives way to the branches behind it. -/
def branchesOpen (depth : Nat) : List Branch → List Char
  | [] => blanks (4 * depth) ++ ['@', 'e', 'n', 'd', '\n']
  | _ :: _ => blanks (4 * depth) ++ ['@', 'e', 'l', 's', 'e']

/-- The rest of the branches behind `branchesOpen`. -/
def branchesRest (depth : Nat) : List Branch → List Char
  | [] => []
  | branch :: rest => branchRest depth branch ++
      (rest.flatMap (Branch.lines depth) ++ (blanks (4 * depth) ++ ['@', 'e', 'n', 'd', '\n']))

/-- How a body ends that the branches follow. -/
def branchesEnding : List Branch → Ending
  | [] => .closed
  | _ :: _ => .orElse

theorem branchesOpen_append {depth : Nat} {branches : List Branch}
    (h : ∀ branch ∈ branches, BranchReads depth branch) :
    branchesOpen depth branches ++ branchesRest depth branches =
      branches.flatMap (Branch.lines depth) ++
        (blanks (4 * depth) ++ ['@', 'e', 'n', 'd', '\n']) := by
  cases branches with
  | nil => simp [branchesOpen, branchesRest]
  | cons branch rest =>
    simp [branchesOpen, branchesRest, branchLines_eq (h branch List.mem_cons_self)]

theorem closes_branches (file : String) (allowElse : Bool) (depth : Nat) (branches : List Branch)
    (hallow : branches ≠ [] → allowElse = true) (tail : List Char) :
    Closes file allowElse (branchesOpen depth branches ++ (branchesRest depth branches ++ tail))
      (branchesOpen depth branches) (branchesEnding branches) := by
  cases branches with
  | nil =>
    have h := closes_signed_end file allowElse (4 * depth) tail
    simpa [branchesOpen, branchesRest, branchesEnding] using h
  | cons branch rest =>
    rw [hallow (List.cons_ne_nil _ _)]
    have htail : ∀ c ∈ (branchesRest depth (branch :: rest) ++ tail).head?,
        (isWordChar c || c == ':') = false := by
      intro c hc
      simp only [branchesRest, branchRest] at hc
      cases hargs : branch.arguments with
      | nil =>
        rw [hargs] at hc
        cases hc
        rfl
      | cons argument more =>
        rw [hargs] at hc
        cases hc
        rfl
    have h := closes_else file (4 * depth) htail
    simpa [branchesOpen, branchesEnding] using h

theorem guardOf_reads (file : String) {arguments : List Node}
    (harguments : ∀ argument ∈ arguments, Argument argument.word argument.bare)
    {n : Nat} {c : Cursor} {tail : List Char}
    (hrest : c.rest = (if arguments.isEmpty then []
      else [' ', 'i', 'f'] ++ argumentsText (arguments.map Node.word)) ++ '\n' :: tail)
    (hn : 12 * (argumentsText (arguments.map Node.word)).length + 3 ≤ n) :
    ∃ got, guardOf file n c.skipInline = .ok (got, c.over (if arguments.isEmpty then []
        else [' ', 'i', 'f'] ++ argumentsText (arguments.map Node.word))) ∧
      got.map Node.bare = arguments.map Node.bare := by
  cases arguments with
  | nil =>
    have hline : c.rest = '\n' :: tail := hrest
    have hif : c.atKeyword ['i', 'f'] = false := by
      rw [Cursor.atKeyword, hline]
      exact startsWithKeyword_of_head_ne (by simp)
    refine ⟨[], ?_, rfl⟩
    rw [Cursor.skipInline_tight (hline ▸ tight_newline tail), guardOf, hif]
    rfl
  | cons argument rest =>
    have hrest' : c.rest = ' ' :: (['i', 'f'] ++ (argumentsText
        ((argument :: rest).map Node.word) ++ (optionsText [] ++ '\n' :: tail))) := by
      rw [hrest]
      simp [optionsText]
    have hstep := Cursor.rest_step_cons hrest'
    have hif : c.step.atKeyword ['i', 'f'] = true := by
      rw [Cursor.atKeyword, hstep]
      apply startsWithKeyword_append
      intro d hd
      cases hd
      rfl
    have hnone : OptionsRead [] := fun option h => absurd h List.not_mem_nil
    obtain ⟨got, gots, hread, hgot, -⟩ :=
      clauses_reads file harguments hnone (n := n) (Cursor.rest_over hstep) (by
        simp only [optionsText, List.flatMap_nil, List.length_nil]
        omega)
    refine ⟨got, ?_, hgot⟩
    rw [Cursor.skipInline_blank hrest' (tight_cons (by decide)), guardOf, hif, if_pos rfl,
      show c.step.advance 2 = c.step.over ['i', 'f'] from rfl, hread, ok_bind]
    simp [optionsText]

theorem elseBranches_reads (file name : String) (depth : Nat) (branches : List Branch)
    (hbranches : ∀ branch ∈ branches, BranchReads depth branch)
    {n : Nat} {c : Cursor} {tail : List Char}
    (hrest : c.rest = branchesRest depth branches ++ tail)
    (hn : 12 * (branchesRest depth branches).length + 6 ≤ n) :
    ∃ got, elseBranches file n name (branchesEnding branches) c =
        .ok (got, c.over (branchesRest depth branches)) ∧
      got.map Branch.bare = branches.map Branch.bare := by
  obtain ⟨n, rfl⟩ := Nat.exists_eq_add_one_of_ne_zero (Nat.ne_of_gt (by omega : 0 < n))
  induction branches generalizing n c with
  | nil => exact ⟨[], rfl, rfl⟩
  | cons branch rest ih =>
    have hbranch := hbranches branch List.mem_cons_self
    have hrestBranches : ∀ x ∈ rest, BranchReads depth x :=
      fun x hx => hbranches x (List.mem_cons_of_mem _ hx)
    have hopen := branchesOpen_append hrestBranches
    have hrest' : c.rest = (if branch.arguments.isEmpty then []
        else [' ', 'i', 'f'] ++ argumentsText (branch.arguments.map Node.word)) ++
        '\n' :: (branch.body.flatMap (Node.lines (depth + 1)) ++
          (branchesOpen depth rest ++ (branchesRest depth rest ++ tail))) := by
      rw [hrest, branchesRest, ← hopen, branchRest]
      simp
    rw [branchesRest, ← hopen] at hn ⊢
    simp only [branchRest, List.length_append, List.length_cons] at hn
    have hguardLength : (argumentsText (branch.arguments.map Node.word)).length ≤
        (if branch.arguments.isEmpty then []
          else [' ', 'i', 'f'] ++ argumentsText (branch.arguments.map Node.word)).length := by
      cases branch.arguments with
      | nil => simp [argumentsText]
      | cons argument more =>
        simp only [List.isEmpty_cons, Bool.false_eq_true, if_false, List.length_append]
        omega
    obtain ⟨arguments, hreadGuard, harguments⟩ := guardOf_reads file hbranch.arguments (n := n)
      hrest' (by omega)
    have hline := Cursor.rest_over hrest'
    have hinside := Cursor.rest_step_cons hline
    obtain ⟨nodes, hreadBody, hnodes⟩ := body_reads file branch.body hbranch.body
      (closes_branches file true depth rest (fun _ => rfl) tail) hinside (n := n) (by omega)
    have hbehind := Cursor.rest_over (Cursor.rest_over hinside)
    obtain ⟨n, rfl⟩ := Nat.exists_eq_add_one_of_ne_zero (Nat.ne_of_gt (by omega : 0 < n))
    obtain ⟨got, hreadRest, hgot⟩ := ih hrestBranches hbehind n (by omega)
    refine ⟨⟨"else", arguments, nodes, c.span file⟩ :: got, ?_, ?_⟩
    · rw [branchesEnding, elseBranches]
      dsimp only
      rw [hreadGuard, ok_bind]
      dsimp only
      rw [Cursor.expectLineEnd_newline hline, ok_bind, hreadBody, ok_bind]
      dsimp only
      rw [hreadRest, ok_bind, branchRest]
      simp
    · rw [List.map_cons, List.map_cons, hgot, Branch.bare_eq, Branch.bare_eq, harguments, hnodes,
        hbranch.name_eq]

/-- What is asked of the parts of a directive. -/
structure DirectiveReads (depth : Nat) (d : Directive) : Prop where
  name_word : IsWord d.name.toList
  name_ne : d.bodyless = false → d.name.toList ≠ ['e', 'n', 'd'] ∧
    d.name.toList ≠ ['e', 'l', 's', 'e']
  arguments : ∀ argument ∈ d.arguments, Argument argument.word argument.bare
  options : OptionsRead d.clauses
  bodyless : d.bodyless = true → d.body = [] ∧ d.branches = []
  body : ∀ node ∈ d.body, ∃ text, node.lines (depth + 1) = blanks (4 * (depth + 1)) ++ text ∧
    Statement text node.bare
  guarded : d.branches ≠ [] → d.name = "if"
  branches : ∀ branch ∈ d.branches, BranchReads depth branch

theorem argumentsText_tail {arguments : List Node} {options : List Clause}
    (hoptions : OptionsRead options) (tail : List Char) :
    Boundary (argumentsText (arguments.map Node.word) ++ (optionsText options ++ '\n' :: tail)) ∧
      (argumentsText (arguments.map Node.word) ++ (optionsText options ++ '\n' :: tail)).head? ≠
        some ':' := by
  cases arguments with
  | nil =>
    cases options with
    | nil => exact ⟨boundary_cons (by decide), by simp [argumentsText, optionsText]⟩
    | cons option rest =>
      rw [optionsText_cons]
      exact ⟨boundary_cons (by decide), by simp [argumentsText]⟩
  | cons argument rest => exact ⟨boundary_cons (by decide), by simp [argumentsText]⟩

theorem statement_directive {depth : Nat} {d : Directive} (h : DirectiveReads depth d) :
    ∃ text, d.lines depth = blanks (4 * depth) ++ text ∧ Statement text (.directive d.bare) := by
  obtain ⟨name, arguments, clauses, bodyless, body, branches, span⟩ := d
  obtain ⟨hname, hnameNe, harguments, hoptions, hbodyless, hbody, hguarded, hbranches⟩ := h
  dsimp only at hname hnameNe harguments hoptions hbodyless hbody hguarded hbranches
  have hofList : String.ofList name.toList = name := String.ofList_toList
  refine ⟨'@' :: (name.toList ++ ((if bodyless then [':'] else []) ++ (argumentsText
    (arguments.map Node.word) ++ (optionsText clauses ++ '\n' ::
      (if bodyless then [] else body.flatMap (Node.lines (depth + 1)) ++
        (branchesOpen depth branches ++ branchesRest depth branches)))))), ?_, ?_⟩
  · rw [branchesOpen_append hbranches]
    simp [Directive.lines, directiveText, optionsText, indent_eq_blanks]
  · refine ⟨solid_cons (by decide), List.cons_ne_nil _ _, ?_, ?_⟩
    · intro tail closer hmem
      have hplain : ∀ keyword : List Char, (∀ c ∈ keyword, isWordChar c = true) →
          (bodyless = false → name.toList ≠ keyword) →
          startsWithKeyword keyword (name.toList ++ ((if bodyless then [':'] else []) ++
            (argumentsText (arguments.map Node.word) ++ (optionsText clauses ++ '\n' ::
              (if bodyless then [] else body.flatMap (Node.lines (depth + 1)) ++
                (branchesOpen depth branches ++ branchesRest depth branches))))) ++ tail) =
            false := by
        intro keyword hkeyword hne
        cases bodyless with
        | true =>
          simp only [if_true, List.append_assoc, List.cons_append, List.nil_append]
          exact startsWithKeyword_colon _ hkeyword hname.all
        | false =>
          simp only [Bool.false_eq_true, if_false, List.append_assoc, List.cons_append,
            List.nil_append]
          exact startsWithKeyword_word hkeyword hname.all (argumentsText_tail hoptions _).1
            (hne rfl)
      simp only [closers, List.mem_cons, List.not_mem_nil, or_false] at hmem
      rcases hmem with rfl | rfl | rfl
      · rw [List.cons_append, startsWithKeyword_cons]
        exact hplain _ (List.all_eq_true.1 rfl) fun h => (hnameNe h).1
      · exact startsWithKeyword_of_head_ne (by simp)
      · rw [List.cons_append, startsWithKeyword_cons]
        exact hplain _ (List.all_eq_true.1 rfl) fun h => (hnameNe h).2
    · intro file n c tail hrest hn
      have hnameLength := (opens_of_isWord hname).length_pos
      simp only [List.length_append, List.length_cons] at hn
      obtain ⟨n, rfl⟩ := Nat.exists_eq_add_one_of_ne_zero (Nat.ne_of_gt (by omega : 0 < n))
      obtain ⟨n, rfl⟩ := Nat.exists_eq_add_one_of_ne_zero (Nat.ne_of_gt (by omega : 0 < n))
      have hsign : c.sees '@' = true := Cursor.sees_cons hrest '@'
      have hstep : c.step.rest = name.toList ++ ((if bodyless then [':'] else []) ++ (argumentsText
          (arguments.map Node.word) ++ (optionsText clauses ++ '\n' ::
            ((if bodyless then [] else body.flatMap (Node.lines (depth + 1)) ++
              (branchesOpen depth branches ++ branchesRest depth branches)) ++ tail)))) := by
        rw [Cursor.rest_step_cons hrest]
        simp
      have hboundary : Boundary ((if bodyless then [':'] else []) ++ (argumentsText
          (arguments.map Node.word) ++ (optionsText clauses ++ '\n' ::
            ((if bodyless then [] else body.flatMap (Node.lines (depth + 1)) ++
              (branchesOpen depth branches ++ branchesRest depth branches)) ++ tail)))) := by
        cases bodyless with
        | true => exact boundary_cons (by decide)
        | false => exact (argumentsText_tail hoptions _).1
      have hcolon := Cursor.rest_over hstep
      have hhead := Cursor.rest_over hcolon
      obtain ⟨got, gots, hread, hgot, hgots⟩ := clauses_reads file harguments hoptions (n := n)
        hhead (by omega)
      have hline := Cursor.rest_over (Cursor.rest_over hhead)
      rw [← Cursor.over_append] at hline
      have hinside := Cursor.rest_step_cons hline
      have hsees : (c.step.over name.toList).sees ':' = bodyless := by
        cases bodyless with
        | true => exact Cursor.sees_cons hcolon ':'
        | false =>
          rw [Cursor.sees, Cursor.peek, hcolon]
          exact beq_eq_false_iff_ne.2 (argumentsText_tail hoptions _).2
      have hpass : (c.step.over name.toList).pass ':' =
          (c.step.over name.toList).over (if bodyless then [':'] else []) := by
        rw [Cursor.pass, hsees]
        cases bodyless <;> rfl
      rw [statement]
      dsimp only
      rw [hsign, if_pos rfl, directive, Cursor.expectWord_word _ _ hname hboundary hstep, ok_bind]
      dsimp only
      rw [hpass, hread, ok_bind]
      dsimp only
      rw [Cursor.expectLineEnd_newline hline, ok_bind, hsees, hofList]
      cases bodyless with
      | true =>
        obtain ⟨rfl, rfl⟩ := hbodyless rfl
        rw [if_pos rfl] at hinside ⊢
        refine ⟨.directive ⟨name, got, gots, true, [], [], c.span file⟩, ?_, ?_⟩
        · rw [if_pos rfl]
          simp
        · simp [Node.bare, Directive.bare_eq, hgot, hgots]
      | false =>
        simp only [Bool.false_eq_true, if_false, List.length_append] at hinside hn ⊢
        rw [List.append_assoc, List.append_assoc] at hinside
        have hallow : branches ≠ [] → (name == "if") = true := fun hne =>
          beq_iff_eq.2 (hguarded hne)
        obtain ⟨nodes, hreadBody, hnodes⟩ := body_reads file body hbody
          (closes_branches file (name == "if") depth branches hallow tail) hinside (n := n)
          (by omega)
        have hbehind := Cursor.rest_over (Cursor.rest_over hinside)
        obtain ⟨gotBranches, hreadBranches, hgotBranches⟩ := elseBranches_reads file name depth
          branches hbranches hbehind (n := n) (by omega)
        refine ⟨.directive ⟨name, got, gots, false, nodes, gotBranches, c.span file⟩, ?_, ?_⟩
        · rw [hreadBody, ok_bind]
          dsimp only
          rw [hreadBranches, ok_bind]
          simp
        · simp [Node.bare, Directive.bare_eq, hgot, hgots, hnodes, hgotBranches]

end Provision.Language
