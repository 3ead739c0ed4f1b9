import Mathlib.Data.List.TakeWhile
import Provision.Proofs.Language.Lexical
import Provision.Proofs.Path

/-!
# Layout

Two texts are alike when they differ only in how later lines are indented and in
lines that hold nothing but blanks and a comment.  The lexical rules read no
further than the line they stand on, so they take the same from alike texts.
-/

namespace Provision.Language

/-! ## Relaid lines -/

/-- Only blanks are on the line, or blanks and a comment. -/
def IsIdleLine (line : List Char) : Prop :=
  ∀ c ∈ (line.dropWhile isInlineBlank).head?, c = '#'

theorem isIdleLine_iff {line : List Char} :
    ((line.dropWhile isInlineBlank).head?.all fun c => c == '#') = true ↔ IsIdleLine line := by
  cases h : (line.dropWhile isInlineBlank).head? <;> simp [IsIdleLine, h]

instance : DecidablePred IsIdleLine := fun _ => decidable_of_iff _ isIdleLine_iff

/-- The lines arise from one another by other blanks at their starts, and by inserting and removing
idle lines. -/
inductive Relaid : List (List Char) → List (List Char) → Prop
  | nil : Relaid [] []
  | line {indent indent' line : List Char} {lines lines' : List (List Char)}
      (hindent : ∀ c ∈ indent, isInlineBlank c = true)
      (hindent' : ∀ c ∈ indent', isInlineBlank c = true) :
      Relaid lines lines' → Relaid ((indent ++ line) :: lines) ((indent' ++ line) :: lines')
  | inserted {idle : List Char} {lines lines' : List (List Char)} (hidle : IsIdleLine idle) :
      Relaid lines lines' → Relaid lines (idle :: lines')
  | removed {idle : List Char} {lines lines' : List (List Char)} (hidle : IsIdleLine idle) :
      Relaid lines lines' → Relaid (idle :: lines) lines'

theorem Relaid.symm {lines lines' : List (List Char)} (h : Relaid lines lines') :
    Relaid lines' lines := by
  induction h with
  | nil => exact .nil
  | line hindent hindent' _ ih => exact .line hindent' hindent ih
  | inserted hidle _ ih => exact .removed hidle ih
  | removed hidle _ ih => exact .inserted hidle ih

/-! ## Alike texts -/

/-- A text from its first character that is neither blank nor in a comment. -/
def afterBlank (text : List Char) : List Char :=
  text.drop (skipLength true false text)

/-- The line, or the text, ends where the text starts. -/
def EndsLine (text : List Char) : Prop :=
  ∀ c ∈ text.head?, c = '\n'

/-- The texts agree up to the end of the line; behind it they agree from the next character on that
is neither blank nor in a comment. -/
inductive Alike : List Char → List Char → Prop
  | nil : Alike [] []
  | char {c : Char} {text text' : List Char} (hc : c ≠ '\n') :
      Alike text text' → Alike (c :: text) (c :: text')
  | line {text text' : List Char} (hend : EndsLine text) (hend' : EndsLine text') :
      Alike (afterBlank text) (afterBlank text') → Alike text text'

theorem Alike.symm {text text' : List Char} (h : Alike text text') : Alike text' text := by
  induction h with
  | nil => exact .nil
  | char hc _ ih => exact .char hc ih
  | line hend hend' _ ih => exact .line hend' hend ih

/-! ### Blanks -/

@[simp] theorem afterBlank_nil : afterBlank [] = [] := rfl

@[simp] theorem afterBlank_newline (text : List Char) : afterBlank ('\n' :: text) = afterBlank text := by
  simp [afterBlank, skipLength, isInlineBlank]

theorem afterBlank_blank {c : Char} (h : isInlineBlank c = true) (text : List Char) :
    afterBlank (c :: text) = afterBlank text := by
  simp [afterBlank, skipLength, h]

theorem afterBlank_indent {indent : List Char} (h : ∀ c ∈ indent, isInlineBlank c = true)
    (text : List Char) :
    afterBlank (indent ++ text) = afterBlank text := by
  induction indent with
  | nil => rfl
  | cons c rest ih =>
    rw [List.cons_append, afterBlank_blank (h c List.mem_cons_self)]
    exact ih fun c hc => h c (List.mem_cons_of_mem _ hc)

theorem afterBlank_comment (text : List Char) :
    afterBlank ('#' :: text) = text.drop (skipLength true true text) := by
  simp [afterBlank, skipLength, isInlineBlank]

theorem afterBlank_solid {c : Char} (hblank : isInlineBlank c = false) (hline : c ≠ '\n')
    (hcomment : c ≠ '#') (text : List Char) :
    afterBlank (c :: text) = c :: text := by
  simp [afterBlank, skipLength, hblank, hline, hcomment]

/-- A comment ends where its line does. -/
theorem afterComment_of_endsLine {text : List Char} (h : EndsLine text) :
    text.drop (skipLength true true text) = afterBlank text := by
  cases text with
  | nil => rfl
  | cons c rest =>
    obtain rfl := h c rfl
    simp [afterBlank, skipLength, isInlineBlank]

theorem afterComment_char {c : Char} (h : c ≠ '\n') (text : List Char) :
    (c :: text).drop (skipLength true true (c :: text)) = text.drop (skipLength true true text) := by
  simp [skipLength, h]

theorem Alike.afterComment {text text' : List Char} (h : Alike text text') :
    Alike (text.drop (skipLength true true text)) (text'.drop (skipLength true true text')) := by
  induction h with
  | nil => exact .nil
  | char hc _ ih =>
    rw [afterComment_char hc, afterComment_char hc]
    exact ih
  | line hend hend' h _ =>
    rw [afterComment_of_endsLine hend, afterComment_of_endsLine hend']
    exact h

/-- Alike texts are alike behind what blanks and comments they start with. -/
theorem Alike.afterBlank {text text' : List Char} (h : Alike text text') :
    Alike (afterBlank text) (Language.afterBlank text') := by
  induction h with
  | nil => exact .nil
  | @char c text text' hc h ih =>
    by_cases hblank : isInlineBlank c = true
    · rw [afterBlank_blank hblank, afterBlank_blank hblank]
      exact ih
    · by_cases hcomment : c = '#'
      · subst hcomment
        rw [afterBlank_comment, afterBlank_comment]
        exact h.afterComment
      · rw [afterBlank_solid (Bool.of_not_eq_true hblank) hc hcomment,
          afterBlank_solid (Bool.of_not_eq_true hblank) hc hcomment]
        exact .char hc h
  | line _ _ h _ => exact h

/-- Behind blanks and comments there is no line break. -/
theorem head?_afterBlank (text : List Char) : (afterBlank text).head? ≠ some '\n' := by
  have hboth : ∀ inComment, (text.drop (skipLength true inComment text)).head? ≠ some '\n' := by
    induction text with
    | nil =>
      intro inComment h
      cases inComment <;> cases h
    | cons c rest ih =>
      intro inComment
      have hcomment := ih true
      have hbetween := ih false
      cases inComment <;> simp only [skipLength] <;> grind
  exact hboth false

/-! ### Texts of relaid lines -/

theorem afterBlank_idle {idle text : List Char} (hidle : IsIdleLine idle) (hline : '\n' ∉ idle)
    (hend : EndsLine text) :
    afterBlank (idle ++ text) = afterBlank text := by
  rw [← List.takeWhile_append_dropWhile (p := isInlineBlank) (l := idle), List.append_assoc,
    afterBlank_indent fun c hc => List.mem_takeWhile_imp hc]
  have hnot : '\n' ∉ idle.dropWhile isInlineBlank := fun h =>
    hline ((List.dropWhile_suffix _).subset h)
  cases hrest : idle.dropWhile isInlineBlank with
  | nil => rfl
  | cons c comment =>
    obtain rfl : c = '#' := hidle c (by rw [hrest]; rfl)
    rw [hrest] at hnot
    have hcomment : '\n' ∉ comment := fun h => hnot (List.mem_cons_of_mem _ h)
    rw [List.cons_append, afterBlank_comment]
    clear hrest hnot
    induction comment with
    | nil => exact afterComment_of_endsLine hend
    | cons c comment ih =>
      rw [List.cons_append, afterComment_char (List.ne_of_not_mem_cons hcomment).symm]
      exact ih (List.not_mem_of_not_mem_cons hcomment)

/-- What follows a line: nothing behind the last one, and the break and the other lines behind one
that is not. -/
def behindLine (lines : List (List Char)) : List Char :=
  if lines.isEmpty then [] else '\n' :: Text.join ['\n'] lines

theorem join_lines_cons (line : List Char) (lines : List (List Char)) :
    Text.join ['\n'] (line :: lines) = line ++ behindLine lines := by
  cases lines with
  | nil => simp [Text.join, behindLine]
  | cons next rest => simp [Text.join, behindLine]

theorem endsLine_behindLine (lines : List (List Char)) : EndsLine (behindLine lines) := by
  intro c hc
  cases lines with
  | nil => cases hc
  | cons line rest => exact (Option.some.inj hc).symm

theorem afterBlank_behindLine (lines : List (List Char)) :
    afterBlank (behindLine lines) = afterBlank (Text.join ['\n'] lines) := by
  cases lines with
  | nil => rfl
  | cons line rest => exact afterBlank_newline _

theorem alike_append {line text text' : List Char} (hline : '\n' ∉ line) (h : Alike text text') :
    Alike (line ++ text) (line ++ text') := by
  induction line with
  | nil => exact h
  | cons c line ih =>
    exact .char (List.ne_of_not_mem_cons hline).symm (ih (List.not_mem_of_not_mem_cons hline))

/-- Texts of relaid lines are alike behind the blanks and comments that they start with. -/
theorem Relaid.alike {lines lines' : List (List Char)} (h : Relaid lines lines')
    (hlines : ∀ line ∈ lines, '\n' ∉ line) (hlines' : ∀ line ∈ lines', '\n' ∉ line) :
    Alike (Language.afterBlank (Text.join ['\n'] lines))
      (Language.afterBlank (Text.join ['\n'] lines')) := by
  induction h with
  | nil => exact .nil
  | line hindent hindent' _ ih =>
    obtain ⟨hline, hlines⟩ := List.forall_mem_cons.1 hlines
    obtain ⟨-, hlines'⟩ := List.forall_mem_cons.1 hlines'
    have hrest := ih hlines hlines'
    rw [← afterBlank_behindLine, ← afterBlank_behindLine] at hrest
    rw [join_lines_cons, join_lines_cons, List.append_assoc, List.append_assoc, afterBlank_indent hindent,
      afterBlank_indent hindent']
    refine (alike_append (fun h => hline (List.mem_append_right _ h)) ?_).afterBlank
    exact .line (endsLine_behindLine _) (endsLine_behindLine _) hrest
  | inserted hidle _ ih =>
    obtain ⟨hline, hlines'⟩ := List.forall_mem_cons.1 hlines'
    rw [join_lines_cons, afterBlank_idle hidle hline (endsLine_behindLine _), afterBlank_behindLine]
    exact ih hlines hlines'
  | removed hidle _ ih =>
    obtain ⟨hline, hlines⟩ := List.forall_mem_cons.1 hlines
    rw [join_lines_cons, afterBlank_idle hidle hline (endsLine_behindLine _), afterBlank_behindLine]
    exact ih hlines hlines'

/-! ## Lexical rules -/

/-- A text up to the end of its first line. -/
def lineOf (text : List Char) : List Char :=
  text.takeWhile (· ≠ '\n')

@[simp] theorem lineOf_nil : lineOf [] = [] := rfl

@[simp] theorem lineOf_newline (text : List Char) : lineOf ('\n' :: text) = [] := rfl

theorem lineOf_char {c : Char} (h : c ≠ '\n') (text : List Char) :
    lineOf (c :: text) = c :: lineOf text :=
  List.takeWhile_cons_of_pos (decide_eq_true h)

theorem lineOf_of_endsLine {text : List Char} (h : EndsLine text) : lineOf text = [] := by
  cases text with
  | nil => rfl
  | cons c rest =>
    obtain rfl := h c rfl
    rfl

namespace Alike

variable {text text' : List Char}

theorem lineOf (h : Alike text text') : lineOf text = Language.lineOf text' := by
  induction h with
  | nil => rfl
  | char hc _ ih => rw [lineOf_char hc, lineOf_char hc, ih]
  | line hend hend' _ _ => rw [lineOf_of_endsLine hend, lineOf_of_endsLine hend']

theorem head_eq (h : Alike text text') {c : Char} (hc : c ≠ '\n') :
    text.head? = some c ↔ text'.head? = some c := by
  cases h with
  | nil => exact Iff.rfl
  | char _ _ => exact Iff.rfl
  | line hend hend' _ =>
    exact ⟨fun h => absurd (hend c h) hc, fun h => absurd (hend' c h) hc⟩

/-- The character that opens a text and does not end the line opens all texts alike to it. -/
theorem of_cons {c : Char} (h : Alike (c :: text) text') (hc : c ≠ '\n') :
    ∃ rest, text' = c :: rest ∧ Alike text rest := by
  cases h with
  | char _ h => exact ⟨_, rfl, h⟩
  | line hend _ _ => exact absurd (hend c rfl) hc

theorem endsLine (h : Alike text text') (hend : EndsLine text) : EndsLine text' := by
  cases h with
  | nil => exact hend
  | char _ _ => exact hend
  | line _ hend' _ => exact hend'

/-- Behind the end of a line alike texts are alike, but for blanks and comments. -/
theorem afterLine (h : Alike text text') (hend : EndsLine text) :
    Alike (Language.afterBlank text.tail) (Language.afterBlank text'.tail) := by
  cases h with
  | nil => exact .nil
  | char hc _ => exact absurd (hend _ rfl) hc
  | line hend hend' h =>
    have htail : ∀ {text}, EndsLine text → Language.afterBlank text.tail = Language.afterBlank text := by
      intro text hend
      cases text with
      | nil => rfl
      | cons c rest =>
        obtain rfl := hend c rfl
        exact (afterBlank_newline rest).symm
    rw [htail hend, htail hend']
    exact h

/-- What was taken from the line leaves alike texts. -/
theorem drop (h : Alike text text') {n : Nat} (hn : n ≤ (Language.lineOf text).length) :
    Alike (text.drop n) (text'.drop n) := by
  induction h generalizing n with
  | nil => simpa using Alike.nil
  | char hc h ih =>
    cases n with
    | zero => exact .char hc h
    | succ n =>
      rw [lineOf_char hc, List.length_cons] at hn
      exact ih (by omega)
  | line hend hend' h _ =>
    rw [lineOf_of_endsLine hend, List.length_nil, Nat.le_zero] at hn
    subst hn
    exact .line hend hend' h

end Alike

theorem takeWhile_lineOf {p : Char → Bool} (hp : p '\n' = false) (text : List Char) :
    (lineOf text).takeWhile p = text.takeWhile p := by
  induction text with
  | nil => rfl
  | cons c rest ih =>
    by_cases hc : c = '\n'
    · subst hc
      rw [lineOf_newline, List.takeWhile_cons_of_neg (by simp [hp])]
      rfl
    · rw [lineOf_char hc, List.takeWhile_cons, List.takeWhile_cons, ih]

theorem length_takeWhile_lineOf {p : Char → Bool} (hp : p '\n' = false) (text : List Char) :
    (text.takeWhile p).length ≤ (lineOf text).length := by
  rw [← takeWhile_lineOf hp]
  exact (List.takeWhile_prefix p).length_le

theorem lineOf_drop {text : List Char} {n : Nat} (hn : n ≤ (lineOf text).length) :
    lineOf (text.drop n) = (lineOf text).drop n := by
  induction text generalizing n with
  | nil => simp
  | cons c rest ih =>
    cases n with
    | zero => rfl
    | succ n =>
      by_cases hc : c = '\n'
      · subst hc
        cases hn
      · rw [lineOf_char hc] at hn ⊢
        exact ih (Nat.le_of_succ_le_succ hn)

theorem skipInline_lineOf (inComment : Bool) (text : List Char) :
    skipLength false inComment (lineOf text) = skipLength false inComment text := by
  induction text generalizing inComment with
  | nil => rfl
  | cons c rest ih =>
    by_cases hc : c = '\n'
    · subst hc
      cases inComment <;> rfl
    · rw [lineOf_char hc]
      cases inComment <;> simp [skipLength, hc, ih]

theorem skipLength_le (acrossLines inComment : Bool) (text : List Char) :
    skipLength acrossLines inComment text ≤ text.length := by
  induction text generalizing inComment with
  | nil => cases inComment <;> exact Nat.le_refl _
  | cons c rest ih =>
    have hcomment := ih true
    have hbetween := ih false
    cases inComment <;> simp only [skipLength, List.length_cons] <;> grind

theorem skipInline_le (text : List Char) : skipLength false false text ≤ (lineOf text).length := by
  rw [← skipInline_lineOf]
  exact skipLength_le _ _ _

theorem startsWithKeyword_lineOf (keyword : List Char) (h : '\n' ∉ keyword) (text : List Char) :
    startsWithKeyword keyword (lineOf text) = startsWithKeyword keyword text := by
  unfold startsWithKeyword
  induction keyword generalizing text with
  | nil =>
    cases text with
    | nil => rfl
    | cons c rest =>
      by_cases hc : c = '\n'
      · subst hc
        rfl
      · rw [lineOf_char hc]
        rfl
  | cons k keyword ih =>
    have hk : '\n' ≠ k := List.ne_of_not_mem_cons h
    cases text with
    | nil => rfl
    | cons c rest =>
      by_cases hc : c = '\n'
      · subst hc
        simp [List.isPrefixOf, hk.symm]
      · have hrest := ih (List.not_mem_of_not_mem_cons h) rest
        rw [lineOf_char hc, List.isPrefixOf, List.isPrefixOf, List.length_cons, List.drop_succ_cons,
          List.drop_succ_cons, Bool.and_assoc, Bool.and_assoc, hrest]

theorem head?_lineOf_any {p : Char → Bool} (hp : p '\n' = false) (text : List Char) :
    (lineOf text).head?.any p = text.head?.any p := by
  cases text with
  | nil => rfl
  | cons c rest =>
    by_cases hc : c = '\n'
    · subst hc
      simp [hp]
    · rw [lineOf_char hc]
      rfl

theorem startsOption_cons (c : Char) (rest : List Char) :
    startsOption (c :: rest) = (c == '-' && rest.head?.any Char.isAlpha) := by
  by_cases hc : c = '-'
  · subst hc
    cases rest <;> rfl
  · unfold startsOption
    split <;> simp_all

theorem startsNumber_cons (c : Char) (rest : List Char) :
    startsNumber (c :: rest) = if c = '-' then rest.head?.any Char.isDigit else c.isDigit := by
  by_cases hc : c = '-'
  · subst hc
    cases rest <;> rfl
  · unfold startsNumber
    split <;> simp_all

theorem startsOption_lineOf (text : List Char) : startsOption (lineOf text) = startsOption text := by
  cases text with
  | nil => rfl
  | cons c rest =>
    by_cases hc : c = '\n'
    · subst hc
      rfl
    · rw [lineOf_char hc, startsOption_cons, startsOption_cons, head?_lineOf_any (by decide)]

theorem startsNumber_lineOf (text : List Char) : startsNumber (lineOf text) = startsNumber text := by
  cases text with
  | nil => rfl
  | cons c rest =>
    by_cases hc : c = '\n'
    · subst hc
      rfl
    · rw [lineOf_char hc, startsNumber_cons, startsNumber_cons, head?_lineOf_any (by decide)]

theorem operator?_of_not_symbol {c : Char} (h : c ∉ ['=', '!', '<', '>', '+', '*', '/', '-'])
    (rest : List Char) :
    operator? (c :: rest) =
      if startsWithKeyword ['a', 'n', 'd'] (c :: rest) then some (.and, 3)
      else if startsWithKeyword ['o', 'r'] (c :: rest) then some (.or, 2)
      else none := by
  unfold operator?
  split <;> simp_all

/-- The operator that starts with a symbol is told by the character behind it. -/
theorem operator?_of_symbol {c : Char} (h : c ∈ ['=', '!', '<', '>', '+', '*', '/', '-']) (d : Char)
    (rest rest' : List Char) :
    operator? (c :: d :: rest) = operator? (c :: d :: rest') := by
  simp only [List.mem_cons, List.not_mem_nil, or_false] at h
  unfold operator? startsWithKeyword
  rcases h with rfl | rfl | rfl | rfl | rfl | rfl | rfl | rfl <;> grind [List.isPrefixOf]

theorem operator?_lineOf (text : List Char) : operator? (lineOf text) = operator? text := by
  rcases text with _ | ⟨c, rest⟩
  · rfl
  · by_cases hc : c = '\n'
    · subst hc
      rfl
    · by_cases hsymbol : c ∈ ['=', '!', '<', '>', '+', '*', '/', '-']
      · rw [lineOf_char hc]
        rcases rest with _ | ⟨d, rest⟩
        · rfl
        · by_cases hd : d = '\n'
          · subst hd
            simp only [List.mem_cons, List.not_mem_nil, or_false] at hsymbol
            rcases hsymbol with rfl | rfl | rfl | rfl | rfl | rfl | rfl | rfl <;> rfl
          · rw [lineOf_char hd]
            exact operator?_of_symbol hsymbol d _ _
      · have hand := startsWithKeyword_lineOf ['a', 'n', 'd'] (by decide) (c :: rest)
        have hor := startsWithKeyword_lineOf ['o', 'r'] (by decide) (c :: rest)
        rw [lineOf_char hc] at hand hor ⊢
        rw [operator?_of_not_symbol hsymbol, operator?_of_not_symbol hsymbol, hand, hor]

theorem length_le_of_startsWithKeyword {keyword text : List Char}
    (h : startsWithKeyword keyword text = true) :
    keyword.length ≤ text.length := by
  unfold startsWithKeyword at h
  rw [Bool.and_eq_true] at h
  exact (List.isPrefixOf_iff_prefix.1 h.1).length_le

theorem length_le_of_operator? {text : List Char} {op : Operator} {length : Nat}
    (h : operator? text = some (op, length)) :
    0 < length ∧ length ≤ text.length := by
  unfold operator? at h
  split at h
  case h_10 =>
    split at h
    · cases h
    · cases h
      simp
  case h_12 text _ _ _ _ _ _ _ _ _ _ _ =>
    split at h
    · next hand =>
      cases h
      exact ⟨by decide, length_le_of_startsWithKeyword hand⟩
    · split at h
      · next hor =>
        cases h
        exact ⟨by decide, length_le_of_startsWithKeyword hor⟩
      · cases h
  all_goals
    cases h
    simp

/-- An operator is taken from the line. -/
theorem operator?_length {text : List Char} {op : Operator} {length : Nat}
    (h : operator? text = some (op, length)) :
    0 < length ∧ length ≤ (lineOf text).length :=
  length_le_of_operator? (operator?_lineOf text ▸ h)

/-- A text that opens another one and has no line break is taken from the line. -/
theorem length_le_of_isPrefixOf {front text : List Char} (hfront : '\n' ∉ front)
    (h : front.isPrefixOf text = true) :
    front.length ≤ (lineOf text).length := by
  obtain ⟨rest, rfl⟩ := List.isPrefixOf_iff_prefix.1 h
  clear h
  induction front with
  | nil => exact Nat.zero_le _
  | cons c front ih =>
    rw [List.cons_append, lineOf_char (List.ne_of_not_mem_cons hfront).symm]
    exact Nat.succ_le_succ (ih (List.not_mem_of_not_mem_cons hfront))

/-! ### Numbers and strings -/

theorem head?_lineOf {c : Char} (h : c ≠ '\n') (text : List Char) :
    (lineOf text).head? = some c ↔ text.head? = some c := by
  cases text with
  | nil => exact Iff.rfl
  | cons d rest =>
    by_cases hd : d = '\n'
    · subst hd
      simp [h.symm]
    · rw [lineOf_char hd]
      rfl

theorem digitRun_lineOf (text : List Char) : digitRun (lineOf text) = digitRun text :=
  takeWhile_lineOf (by decide) text

/-- The digits behind a point that opens a text. -/
def fractionOf : List Char → List Char
  | '.' :: rest => digitRun rest
  | _ => []

theorem fractionOf_lineOf (text : List Char) : fractionOf (lineOf text) = fractionOf text := by
  cases text with
  | nil => rfl
  | cons c rest =>
    by_cases hc : c = '\n'
    · subst hc
      rfl
    · rw [lineOf_char hc]
      by_cases hpoint : c = '.'
      · subst hpoint
        exact digitRun_lineOf rest
      · unfold fractionOf
        split <;> simp_all

theorem lineOf_tail {text : List Char} (h : text.head? = some '-') :
    lineOf text.tail = (lineOf text).tail := by
  cases text with
  | nil => rfl
  | cons c rest =>
    obtain rfl := Option.some.inj h
    rfl

theorem length_fractionOf (text : List Char) :
    (if (fractionOf text).isEmpty then 0 else (fractionOf text).length + 1) ≤ text.length := by
  unfold fractionOf
  split
  · split
    · exact Nat.zero_le _
    · exact Nat.succ_le_succ (List.takeWhile_prefix _).length_le
  · exact Nat.zero_le _

theorem number_eq (text : List Char) :
    number text =
      (let negative := text.head? == some '-'
      let body := if negative then text.tail else text
      let fraction := fractionOf (body.drop (digitRun body).length)
      (Decimal.ofDigits negative (digitRun body) fraction 0,
        (if negative then 1 else 0) + (digitRun body).length +
          if fraction.isEmpty then 0 else fraction.length + 1)) :=
  rfl

theorem number_lineOf (text : List Char) : number (lineOf text) = number text := by
  have hnegative : ((lineOf text).head? == some '-') = (text.head? == some '-') := by
    rw [Bool.eq_iff_iff, beq_iff_eq, beq_iff_eq, head?_lineOf (by decide)]
  have hbody : (if text.head? == some '-' then (lineOf text).tail else lineOf text) =
      lineOf (if text.head? == some '-' then text.tail else text) := by
    split
    · next h => exact (lineOf_tail (beq_iff_eq.1 h)).symm
    · rfl
  have hafter : ∀ text, (lineOf text).drop (digitRun text).length =
      lineOf (text.drop (digitRun text).length) :=
    fun text => (lineOf_drop (length_takeWhile_lineOf (by decide) text)).symm
  rw [number_eq, number_eq]
  simp only [hnegative, hbody, digitRun_lineOf, hafter, fractionOf_lineOf]

theorem length_number (text : List Char) : (number text).2 ≤ text.length := by
  have hbody : ∀ body : List Char, (digitRun body).length +
      (if (fractionOf (body.drop (digitRun body).length)).isEmpty then 0
        else (fractionOf (body.drop (digitRun body).length)).length + 1) ≤ body.length := by
    intro body
    have hwhole : (digitRun body).length ≤ body.length := (List.takeWhile_prefix _).length_le
    have hfraction := length_fractionOf (body.drop (digitRun body).length)
    rw [List.length_drop] at hfraction
    omega
  rw [number_eq]
  dsimp only
  split
  · next hnegative =>
    obtain ⟨rest, rfl⟩ := List.head?_eq_some_iff.1 (beq_iff_eq.1 hnegative)
    have hrest := hbody rest
    rw [List.tail_cons, List.length_cons]
    omega
  · have htext := hbody text
    omega

theorem ne_newline_of_escape {quotes : List Char} (hquotes : '\n' ∉ quotes) {c ch : Char}
    (h : escape? quotes c = some ch) :
    c ≠ '\n' := by
  rintro rfl
  rw [escape?, if_neg (by decide), if_neg (by decide), if_neg (by decide), if_neg hquotes] at h
  cases h

theorem singleQuoted_char {c : Char} (hline : c ≠ '\n') (hquote : c ≠ '\'') (hescape : c ≠ '\\')
    (rest : List Char) :
    singleQuoted (c :: rest) =
      match singleQuoted rest with
      | .ok (text, n) => .ok (c :: text, n + 1)
      | .error (n, message) => .error (n + 1, message) :=
  singleQuoted.eq_6 c rest hline hquote (fun h => absurd h hescape) fun _ _ h => absurd h hescape

theorem literalPart_char {c : Char} (hline : c ≠ '\n') (hquote : c ≠ '"') (hescape : c ≠ '\\')
    {rest : List Char} (hreference : c = '$' → rest.head? ≠ some '(') :
    literalPart (c :: rest) =
      match literalPart rest with
      | .ok (text, n) => .ok (c :: text, n + 1)
      | .error (n, message) => .error (n + 1, message) :=
  literalPart.eq_7 c rest hline hquote
    (fun tail hc hrest => hreference hc (by rw [hrest]; rfl))
    (fun h => absurd h hescape) fun _ _ h => absurd h hescape

/-- A number is taken from the line, and it takes something. -/
theorem number_length (text : List Char) : (number text).2 ≤ (lineOf text).length := by
  rw [← number_lineOf]
  exact length_number _

theorem number_pos {text : List Char} (h : startsNumber text = true) : 0 < (number text).2 := by
  cases text with
  | nil => cases h
  | cons c rest =>
    rw [startsNumber_cons] at h
    rw [number_eq]
    by_cases hc : c = '-'
    · subst hc
      have hhead : (('-' :: rest).head? == some '-') = true := rfl
      simp only [hhead, if_true]
      omega
    · rw [if_neg hc] at h
      have hhead : ((c :: rest).head? == some '-') = false := by simp [hc]
      simp only [hhead, Bool.false_eq_true, if_false, digitRun, List.takeWhile_cons_of_pos h,
        List.length_cons]
      omega

/-- Alike texts hold the same string behind an opening quote. -/
theorem Alike.singleQuoted {text text' s : List Char} {n : Nat} (h : Alike text text')
    (hread : singleQuoted text = .ok (s, n)) :
    Language.singleQuoted text' = .ok (s, n) ∧ n ≤ (Language.lineOf text).length := by
  fun_induction Language.singleQuoted text generalizing text' s n with
  | case1 => cases hread
  | case2 => cases hread
  | case3 rest =>
    cases hread
    obtain ⟨rest', rfl, -⟩ := h.of_cons (by decide)
    rw [lineOf_char (by decide)]
    exact ⟨rfl, by simp⟩
  | case4 => cases hread
  | case5 => cases hread
  | case6 c rest ch hescape text m hrest ih =>
    cases hread
    have hc : c ≠ '\n' := ne_newline_of_escape (by decide) hescape
    obtain ⟨_, rfl, hinner⟩ := h.of_cons (by decide)
    obtain ⟨rest', rfl, htail⟩ := hinner.of_cons hc
    obtain ⟨hread, hn⟩ := ih htail hrest
    rw [lineOf_char (by decide), lineOf_char hc, Language.singleQuoted, hescape]
    dsimp only
    rw [hread]
    exact ⟨rfl, by simpa using hn⟩
  | case7 => cases hread
  | case8 c rest hline hquote hlast hescape text m hrest ih =>
    cases hread
    have hc : c ≠ '\\' := by
      rintro rfl
      cases rest with
      | nil => exact hlast rfl rfl
      | cons d rest => exact hescape d rest rfl rfl
    obtain ⟨rest', rfl, htail⟩ := h.of_cons hline
    obtain ⟨hread, hn⟩ := ih htail hrest
    rw [lineOf_char hline, singleQuoted_char hline hquote hc, hread]
    exact ⟨rfl, by simpa using hn⟩
  | case9 => cases hread

/-- Alike texts go on with the same literal part of a string. -/
theorem Alike.literalPart {text text' s : List Char} {n : Nat} (h : Alike text text')
    (hread : literalPart text = .ok (s, n)) :
    Language.literalPart text' = .ok (s, n) ∧ n ≤ (Language.lineOf text).length := by
  fun_induction Language.literalPart text generalizing text' s n with
  | case1 => cases hread
  | case2 => cases hread
  | case3 rest =>
    cases hread
    obtain ⟨rest', rfl, -⟩ := h.of_cons (by decide)
    exact ⟨rfl, Nat.zero_le _⟩
  | case4 rest =>
    cases hread
    obtain ⟨_, rfl, hinner⟩ := h.of_cons (by decide)
    obtain ⟨rest', rfl, -⟩ := hinner.of_cons (by decide)
    exact ⟨rfl, Nat.zero_le _⟩
  | case5 => cases hread
  | case6 => cases hread
  | case7 c rest ch hescape text m hrest ih =>
    cases hread
    have hc : c ≠ '\n' := ne_newline_of_escape (by decide) hescape
    obtain ⟨_, rfl, hinner⟩ := h.of_cons (by decide)
    obtain ⟨rest', rfl, htail⟩ := hinner.of_cons hc
    obtain ⟨hread, hn⟩ := ih htail hrest
    rw [lineOf_char (by decide), lineOf_char hc, Language.literalPart, hescape]
    dsimp only
    rw [hread]
    exact ⟨rfl, by simpa using hn⟩
  | case8 => cases hread
  | case9 c rest hline hquote hreference hlast hescape text m hrest ih =>
    cases hread
    have hc : c ≠ '\\' := by
      rintro rfl
      cases rest with
      | nil => exact hlast rfl rfl
      | cons d rest => exact hescape d rest rfl rfl
    obtain ⟨rest', rfl, htail⟩ := h.of_cons hline
    obtain ⟨hread, hn⟩ := ih htail hrest
    have hdollar : c = '$' → rest'.head? ≠ some '(' := by
      intro hc hparen
      rw [← htail.head_eq (by decide)] at hparen
      obtain ⟨tail, rfl⟩ := List.head?_eq_some_iff.1 hparen
      exact hreference tail hc rfl
    rw [lineOf_char hline, literalPart_char hline hquote hc hdollar, hread]
    exact ⟨rfl, by simpa using hn⟩
  | case10 => cases hread

/-- The literal part of a string stops at the closing quote or at a reference. -/
theorem literalPart_stops {text s : List Char} {n : Nat} (h : literalPart text = .ok (s, n)) :
    (text.drop n).head? = some '"' ∨ ['$', '('].isPrefixOf (text.drop n) = true := by
  fun_induction literalPart text generalizing s n with
  | case1 => cases h
  | case2 => cases h
  | case3 rest =>
    cases h
    exact Or.inl rfl
  | case4 rest =>
    cases h
    exact Or.inr rfl
  | case5 => cases h
  | case6 => cases h
  | case7 c rest ch hescape text m hrest ih =>
    cases h
    exact ih hrest
  | case8 => cases h
  | case9 c rest hline hquote hreference hlast hescape text m hrest ih =>
    cases h
    exact ih hrest
  | case10 => cases h

end Provision.Language
