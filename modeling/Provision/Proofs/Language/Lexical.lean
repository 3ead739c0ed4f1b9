import Provision.Language.Parser
import Provision.Language.Printer

/-!
# Reading printed words, strings and blanks

Every lexical rule of the parser takes from a text what the printer wrote and
stops there.  Statements about reading have one form: the rest of a cursor is
some text and a tail, and afterwards the cursor stands behind the text.  What a
rule needs of the tail is that no word goes on in it.
-/

namespace Provision.Language

/-- A cursor behind a text that comes next. -/
def Cursor.over (c : Cursor) (text : List Char) : Cursor :=
  c.advance text.length

namespace Cursor

@[simp] theorem over_nil (c : Cursor) : c.over [] = c := rfl

@[simp] theorem over_cons (c : Cursor) (ch : Char) (text : List Char) :
    c.over (ch :: text) = c.step.over text := rfl

@[simp] theorem over_append (c : Cursor) (a b : List Char) :
    c.over (a ++ b) = (c.over a).over b := by
  rw [Cursor.over, List.length_append, advance_add, Cursor.over, Cursor.over]

theorem rest_over {c : Cursor} {text tail : List Char} (h : c.rest = text ++ tail) :
    (c.over text).rest = tail := by
  rw [Cursor.over, rest_advance, h, List.drop_left]

theorem advance_length (c : Cursor) (text : List Char) : c.advance text.length = c.over text := rfl

theorem rest_step_cons {c : Cursor} {ch : Char} {tail : List Char} (h : c.rest = ch :: tail) :
    c.step.rest = tail := by
  rw [rest_step, h, List.tail_cons]

theorem sees_cons {c : Cursor} {ch : Char} {tail : List Char} (h : c.rest = ch :: tail)
    (other : Char) :
    c.sees other = (ch == other) := by
  rw [sees, peek, h, List.head?_cons]
  rfl

theorem pass_cons {c : Cursor} {ch : Char} {tail : List Char} (h : c.rest = ch :: tail) :
    c.pass ch = c.step := by
  rw [pass, sees_cons h, beq_self_eq_true, if_pos rfl]

theorem pass_of_ne {c : Cursor} {ch : Char} (h : c.rest.head? ≠ some ch) : c.pass ch = c := by
  have hsees : c.sees ch = false := beq_eq_false_iff_ne.2 h
  rw [pass, hsees, if_neg Bool.false_ne_true]

theorem expect_cons {file : String} {c : Cursor} {ch : Char} {tail : List Char}
    (h : c.rest = ch :: tail) :
    c.expect file ch = .ok c.step := by
  rw [expect, sees_cons h, beq_self_eq_true, if_pos rfl]

end Cursor

/-! ## Blanks -/

/-- No blank, line break or comment opens a text. -/
def Solid (text : List Char) : Prop :=
  ∀ c ∈ text.head?, isInlineBlank c = false ∧ c ≠ '\n' ∧ c ≠ '#'

/-- Nothing that is skipped within a line opens a text. -/
def Tight (text : List Char) : Prop :=
  ∀ c ∈ text.head?, isInlineBlank c = false ∧ c ≠ '#'

theorem Solid.tight {text : List Char} (h : Solid text) : Tight text :=
  fun c hc => ⟨(h c hc).1, (h c hc).2.2⟩

theorem tight_newline (tail : List Char) : Tight ('\n' :: tail) := by
  intro c hc
  cases hc
  decide

theorem skipLength_solid {text : List Char} (acrossLines : Bool) (h : Solid text) :
    skipLength acrossLines false text = 0 := by
  cases text with
  | nil => rfl
  | cons c rest =>
    obtain ⟨hblank, hline, hcomment⟩ := h c rfl
    simp [skipLength, hblank, hline, hcomment]

theorem skipLength_tight {text : List Char} (h : Tight text) :
    skipLength false false text = 0 := by
  cases text with
  | nil => rfl
  | cons c rest =>
    obtain ⟨hblank, hcomment⟩ := h c rfl
    simp [skipLength, hblank, hcomment]

theorem skipLength_indent (acrossLines : Bool) (n : Nat) (text : List Char) :
    skipLength acrossLines false (List.replicate n ' ' ++ text) =
      n + skipLength acrossLines false text := by
  induction n with
  | zero => simp
  | succ n ih =>
    have hblank : isInlineBlank ' ' = true := rfl
    rw [List.replicate_succ, List.cons_append, skipLength, if_pos hblank, ih]
    omega

namespace Cursor

theorem skipInline_tight {c : Cursor} (h : Tight c.rest) : c.skipInline = c := by
  rw [skipInline, skipLength_tight h, advance_zero]

theorem skipInline_blank {c : Cursor} {tail : List Char} (h : c.rest = ' ' :: tail)
    (htail : Tight tail) :
    c.skipInline = c.step := by
  have hskip := skipLength_indent false 1 tail
  rw [skipLength_tight htail] at hskip
  rw [skipInline, h]
  exact congrArg (fun n => c.advance n) hskip

theorem skipBlank_solid {c : Cursor} (h : Solid c.rest) : c.skipBlank = c := by
  rw [skipBlank, skipLength_solid true h, advance_zero]

theorem skipBlank_indent {c : Cursor} {n : Nat} {tail : List Char}
    (h : c.rest = List.replicate n ' ' ++ tail)
    (htail : Solid tail) :
    c.skipBlank = c.over (List.replicate n ' ') := by
  rw [skipBlank, h, skipLength_indent, skipLength_solid true htail, Cursor.over,
    List.length_replicate,
    Nat.add_zero]

theorem skipBlank_blank {c : Cursor} {tail : List Char} (h : c.rest = ' ' :: tail)
    (htail : Solid tail) :
    c.skipBlank = c.step :=
  skipBlank_indent (n := 1) h htail

theorem expectLineEnd_newline {file : String} {c : Cursor} {tail : List Char}
    (h : c.rest = '\n' :: tail) :
    c.expectLineEnd file = .ok c.step := by
  have htight : Tight c.rest := h ▸ tight_newline tail
  have hend : c.atLineEnd = true := by
    simp [atLineEnd, peek, h]
  rw [expectLineEnd, skipInline_tight htight]
  exact if_pos hend

end Cursor

/-! ## Words -/

/-- No word goes on at the start of a text. -/
def Boundary (text : List Char) : Prop :=
  ∀ c ∈ text.head?, isWordChar c = false

/-- A text that is read as one word. -/
structure IsWord (word : List Char) : Prop where
  ne_nil : word ≠ []
  all : ∀ c ∈ word, isWordChar c = true

theorem boundary_cons {c : Char} {text : List Char} (h : isWordChar c = false) :
    Boundary (c :: text) := by
  intro d hd
  cases hd
  exact h

theorem takeWhile_word {word tail : List Char} (hword : ∀ c ∈ word, isWordChar c = true)
    (htail : Boundary tail) :
    (word ++ tail).takeWhile isWordChar = word := by
  rw [List.takeWhile_append_of_pos hword]
  cases tail with
  | nil => simp
  | cons c rest =>
    have hc : isWordChar c = false := htail c rfl
    simp [hc]

theorem Cursor.expectWord_word (file what : String) {c : Cursor} {word tail : List Char}
    (hword : IsWord word)
    (htail : Boundary tail)
    (h : c.rest = word ++ tail) :
    c.expectWord file what = .ok (word, c.over word) := by
  have hnext : c.word = word := by
    rw [Cursor.word, h]
    exact takeWhile_word hword.all htail
  have hne : word.isEmpty = false := List.isEmpty_eq_false_iff.2 hword.ne_nil
  rw [Cursor.expectWord, hnext, hne]
  rfl

/-- A keyword is seen at the start of a word only when it is that word. -/
theorem startsWithKeyword_word {keyword word tail : List Char}
    (hkeyword : ∀ c ∈ keyword, isWordChar c = true)
    (hword : ∀ c ∈ word, isWordChar c = true)
    (htail : Boundary tail)
    (hne : word ≠ keyword) :
    startsWithKeyword keyword (word ++ tail) = false := by
  apply Bool.eq_false_iff.2
  intro h
  rw [startsWithKeyword, Bool.and_eq_true, List.isPrefixOf_iff_prefix] at h
  obtain ⟨⟨more, hmore⟩, hend⟩ := h
  rw [← hmore, List.drop_left] at hend
  -- the keyword ends where the word ends
  have hboundary : Boundary more := by
    intro c hc
    rw [hc] at hend
    simp only [Bool.not_eq_true', Bool.or_eq_false_iff] at hend
    exact hend.1
  have hsame := takeWhile_word hkeyword hboundary
  rw [hmore, takeWhile_word hword htail] at hsame
  exact hne hsame

/-- Keywords of letters are not seen at a character that is no part of a word. -/
theorem startsWithKeyword_of_head_ne {k : Char} {keyword text : List Char}
    (h : text.head? ≠ some k) :
    startsWithKeyword (k :: keyword) text = false := by
  cases text with
  | nil => rfl
  | cons c rest =>
    have hne : (k == c) = false := beq_eq_false_iff_ne.2 fun heq => h (congrArg some heq.symm)
    simp [startsWithKeyword, List.isPrefixOf, hne]

theorem isWordChar_of_isAlpha {c : Char} (h : c.isAlpha = true) : isWordChar c = true := by
  simp [isWordChar, Char.isAlphanum, h]

theorem isWordChar_of_isDigit {c : Char} (h : c.isDigit = true) : isWordChar c = true := by
  simp [isWordChar, Char.isAlphanum, h]

/-! ## Bare words -/

theorem isWord_of_isBareWord {word : List Char} (h : isBareWord word = true) : IsWord word := by
  cases word with
  | nil => cases h
  | cons c rest =>
    simp only [isBareWord, Bool.and_eq_true, Bool.or_eq_true, List.all_eq_true] at h
    obtain ⟨⟨hfirst, hrest⟩, -⟩ := h
    refine ⟨List.cons_ne_nil c rest, ?_⟩
    intro d hd
    rcases List.mem_cons.1 hd with rfl | hd
    · rcases hfirst with hfirst | hfirst
      · exact isWordChar_of_isAlpha hfirst
      · simp [isWordChar, hfirst]
    · simpa [isWordChar] using hrest d hd

theorem head_of_isBareWord {word : List Char} (h : isBareWord word = true) :
    ∃ c rest, word = c :: rest ∧ (c.isAlpha || c == '_') = true := by
  cases word with
  | nil => cases h
  | cons c rest =>
    simp only [isBareWord, Bool.and_eq_true] at h
    exact ⟨c, rest, rfl, h.1.1⟩

theorem not_keyword_of_isBareWord {word : List Char} (h : isBareWord word = true) :
    word ∉ keywords := by
  cases word with
  | nil => cases h
  | cons c rest =>
    simp only [isBareWord, Bool.and_eq_true, Bool.not_eq_true', List.contains_eq_mem,
      decide_eq_false_iff_not] at h
    exact h.2

theorem wordNode_of_isBareWord {word : List Char} (h : isBareWord word = true) :
    wordNode word = .text (String.ofList word) := by
  have hkeyword := not_keyword_of_isBareWord h
  have hne : ∀ keyword ∈ keywords, word ≠ keyword := by
    rintro keyword hmem rfl
    exact hkeyword hmem
  rw [wordNode, if_neg (hne _ (by decide)), if_neg (hne _ (by decide)),
    if_neg (hne _ (by decide))]

/-! ## Strings -/

theorem singleQuoted_escaped (s tail : List Char) :
    singleQuoted (escaped s ++ '\'' :: tail) = .ok (s, (escaped s).length + 1) := by
  induction s with
  | nil => rfl
  | cons c rest ih =>
    unfold escaped
    split
    · rename_i hquote
      have hescape : escape? ['\''] c = some c := by
        rcases hquote with rfl | rfl <;> decide
      simp [singleQuoted, hescape, ih]
    · rename_i hquote
      split
      · rename_i hline
        have hescape : escape? ['\''] 'n' = some c := by
          rw [hline]
          decide
        simp [singleQuoted, hescape, ih]
      · rename_i hline
        split
        · rename_i htab
          have hescape : escape? ['\''] 't' = some c := by
            rw [htab]
            decide
          simp [singleQuoted, hescape, ih]
        · rw [not_or] at hquote
          rw [List.cons_append, singleQuoted]
          · simp [ih]
          all_goals simp_all

theorem literalPart_escapedPart (s : List Char) {tail : List Char}
    (htail : (∃ rest, tail = '"' :: rest) ∨ ∃ rest, tail = '$' :: '(' :: rest) :
    literalPart (escapedPart s ++ tail) = .ok (s, (escapedPart s).length) := by
  induction s with
  | nil =>
    rcases htail with ⟨rest, rfl⟩ | ⟨rest, rfl⟩ <;> rfl
  | cons c rest ih =>
    unfold escapedPart
    split
    · rename_i hquote
      have hescape : escape? ['"', '$'] c = some c := by
        rcases hquote with rfl | rfl | rfl <;> decide
      simp [literalPart, hescape, ih]
    · rename_i hquote
      split
      · rename_i hline
        have hescape : escape? ['"', '$'] 'n' = some c := by
          rw [hline]
          decide
        simp [literalPart, hescape, ih]
      · rename_i hline
        split
        · rename_i htab
          have hescape : escape? ['"', '$'] 't' = some c := by
            rw [htab]
            decide
          simp [literalPart, hescape, ih]
        · rw [not_or, not_or] at hquote
          rw [List.cons_append, literalPart]
          · simp [ih]
          all_goals simp_all

/-! ## Paths and type names -/

theorem split_ne_nil (mark : Char) (text : List Char) : Text.split mark text ≠ [] := by
  induction text with
  | nil => exact List.cons_ne_nil _ _
  | cons c rest ih =>
    unfold Text.split
    split
    · exact List.cons_ne_nil _ _
    · split <;> exact List.cons_ne_nil _ _

/-- Joining the pieces of a text gives the text. -/
theorem join_split (mark : Char) (text : List Char) :
    Text.join [mark] (Text.split mark text) = text := by
  induction text with
  | nil => rfl
  | cons c rest ih =>
    unfold Text.split
    have hne := split_ne_nil mark rest
    cases hsplit : Text.split mark rest with
    | nil => exact absurd hsplit hne
    | cons piece pieces =>
      rw [hsplit] at ih
      split
      · rename_i hmark
        rw [Text.join, ih, hmark]
        rfl
      · cases pieces with
        | nil =>
          rw [Text.join] at ih ⊢
          rw [ih]
        | cons next more =>
          rw [Text.join] at ih ⊢
          rw [List.cons_append, List.cons_append, ih]

/-- The segments of a word. -/
def IsPath (path : List String) : Prop :=
  ∃ word, IsWord word ∧ path = segments word

theorem pathText_segments (word : List Char) : pathText (segments word) = word := by
  have hmap : ((Text.split '.' word).map String.ofList).map String.toList =
      Text.split '.' word := by
    rw [List.map_map]
    exact (List.map_congr_left fun piece _ => String.toList_ofList).trans (List.map_id _)
  rw [pathText, segments, hmap, join_split]

/-- Two words with two colons between them. -/
def IsTypeText (type : String) : Prop :=
  ∃ head kind, IsWord head ∧ IsWord kind ∧ type.toList = head ++ [':', ':'] ++ kind

end Provision.Language
