import Mathlib.Data.List.DropRight
import Provision.Proofs.Language.Positions

/-!
# Cursors and the texts behind them

A cursor is told by the part of a text that it has passed: its line counts the line
breaks there, and its column the characters behind the last of them.  What stands on
its line so far is then the last line of that part.
-/

namespace Provision.Language

/-! ## Last lines -/

/-- What stands on the last line of a text. -/
def lastLine (text : List Char) : List Char :=
  text.rtakeWhile (· != '\n')

theorem lastLine_newline (text : List Char) : lastLine (text ++ ['\n']) = [] :=
  List.rtakeWhile_concat_neg _ _ _ (by decide)

theorem lastLine_char (text : List Char) {ch : Char} (h : ch ≠ '\n') :
    lastLine (text ++ [ch]) = lastLine text ++ [ch] :=
  List.rtakeWhile_concat_pos _ _ _ (by simpa using h)

/-- Nothing but blanks stands on the last line of a text. -/
def Indents (text : List Char) : Prop :=
  ∀ ch ∈ lastLine text, isInlineBlank ch = true

theorem Indents.newline (text : List Char) : Indents (text ++ ['\n']) := by
  intro ch hch
  rw [lastLine_newline] at hch
  cases hch

theorem Indents.blank {text : List Char} {ch : Char} (h : Indents text)
    (hch : isInlineBlank ch = true) :
    Indents (text ++ [ch]) := by
  have hne : ch ≠ '\n' := by
    rintro rfl
    cases hch
  intro other hother
  rw [lastLine_char text hne] at hother
  rcases List.mem_append.1 hother with hother | hother
  · exact h other hother
  · exact List.mem_singleton.1 hother ▸ hch

/-- Blanks, comments and line breaks that are passed over leave nothing but blanks on the last line,
unless they run to the end of the text. -/
theorem Indents.skipped {inComment : Bool} {front text : List Char}
    (h : inComment = false → Indents front)
    (hmore : text.drop (skipLength true inComment text) ≠ []) :
    Indents (front ++ text.take (skipLength true inComment text)) := by
  induction text generalizing inComment front with
  | nil => exact absurd List.drop_nil hmore
  | cons ch rest ih =>
    have hpass : ∀ mode, skipLength true inComment (ch :: rest) = skipLength true mode rest + 1 →
        (mode = false → Indents (front ++ [ch])) →
        Indents (front ++ (ch :: rest).take (skipLength true inComment (ch :: rest))) := by
      intro mode hlength hfront
      rw [hlength] at hmore ⊢
      rw [List.take_succ_cons, List.append_cons]
      exact ih hfront hmore
    by_cases hline : ch = '\n'
    · subst hline
      refine hpass false ?_ fun _ => .newline front
      cases inComment <;> rfl
    · cases inComment with
      | true => exact hpass true (by simp [skipLength, hline]) fun hfalse => Bool.noConfusion hfalse
      | false =>
        by_cases hblank : isInlineBlank ch = true
        · exact hpass false (by simp [skipLength, hblank]) fun _ => (h rfl).blank hblank
        · by_cases hcomment : ch = '#'
          · subst hcomment
            exact hpass true rfl fun hfalse => Bool.noConfusion hfalse
          · have hstop : skipLength true false (ch :: rest) = 0 := by
              simp [skipLength, hblank, hline, hcomment]
            rw [hstop, List.take_zero, List.append_nil]
            exact h rfl

namespace Cursor

/-- The cursor between two parts of a text.  Its line counts the line breaks before it, and its
column the characters behind the last of them. -/
def between (front rest : List Char) : Cursor :=
  ⟨rest, front.count '\n' + 1, (lastLine front).length + 1⟩

theorem step_between (front : List Char) (ch : Char) (rest : List Char) :
    (between front (ch :: rest)).step = between (front ++ [ch]) rest := by
  by_cases hline : ch = '\n'
  · subst hline
    simp [between, step, lastLine_newline]
  · have hcount : [ch].count '\n' = 0 := List.count_eq_zero.2 (by simpa using Ne.symm hline)
    rw [between, step_char _ _ hline, between, lastLine_char front hline, List.count_append, hcount,
      List.length_append]
    rfl

theorem over_between (front read rest : List Char) :
    (between front (read ++ rest)).over read = between (front ++ read) rest := by
  induction read generalizing front with
  | nil =>
    rw [List.append_nil]
    rfl
  | cons ch read ih =>
    rw [over_cons, List.cons_append, step_between, ih, List.append_assoc, List.singleton_append]

/-- The cursor stands in the text, right behind a front part of it. -/
def Behind (c : Cursor) (text front : List Char) : Prop :=
  text = front ++ c.rest ∧ c = between front c.rest

/-- The cursor stands in the text. -/
def In (c : Cursor) (text : List Char) : Prop :=
  ∃ front, c.Behind text front

/-- The cursor stands at the start of a line, or at the end of the text. -/
def AtLineStart (c : Cursor) (text : List Char) : Prop :=
  ∃ front, c.Behind text front ∧ (lastLine front = [] ∨ c.rest = [])

/-- Only blanks and the lead stand before the cursor on its line. -/
def Introduced (c : Cursor) (text lead : List Char) : Prop :=
  ∃ front, c.Behind text (front ++ lead) ∧ Indents front

/-- What the end of a body says of the cursor behind it. -/
def Ends (c : Cursor) (text : List Char) : Ending → Prop
  | .eof => True
  | .closed => c.AtLineStart text
  | .orElse => c.Introduced text ['@', 'e', 'l', 's', 'e']

variable {file : String} {text front : List Char} {c after : Cursor}

theorem behind_start (text : List Char) : (start text).Behind text [] :=
  ⟨rfl, rfl⟩

theorem Behind.over {read rest : List Char} (h : c.Behind text front) (hrest : c.rest = read ++ rest) :
    (c.over read).Behind text (front ++ read) := by
  obtain ⟨htext, hc⟩ := h
  have hover : c.over read = between (front ++ read) rest := by
    rw [hc, hrest, over_between]
  rw [hover]
  exact ⟨by rw [htext, hrest, List.append_assoc]; rfl, rfl⟩

theorem In.reaches (h : c.In text) (hr : c.Reaches after) : after.In text := by
  obtain ⟨front, hfront⟩ := h
  obtain ⟨read, hrest, rfl⟩ := hr
  exact ⟨front ++ read, hfront.over hrest⟩

theorem AtLineStart.inText (h : c.AtLineStart text) : c.In text := by
  obtain ⟨front, hfront, -⟩ := h
  exact ⟨front, hfront⟩

theorem Introduced.inText {lead : List Char} (h : c.Introduced text lead) : c.In text := by
  obtain ⟨front, hfront, -⟩ := h
  exact ⟨front ++ lead, hfront⟩

theorem atLineStart_of_expectLineEnd (hc : c.In text) (h : c.expectLineEnd file = .ok after) :
    after.AtLineStart text := by
  obtain ⟨front, hfront⟩ := hc.reaches (reaches_skipInline c)
  unfold expectLineEnd at h
  dsimp only at h
  split at h
  · next hend =>
    cases h
    cases hrest : c.skipInline.rest with
    | nil =>
      rw [step_of_rest_eq_nil hrest]
      exact ⟨front, hfront, Or.inr hrest⟩
    | cons ch rest =>
      have hline : ch = '\n' := by simpa [atLineEnd, peek, hrest] using hend
      subst hline
      exact ⟨front ++ ['\n'], hfront.over hrest, Or.inl (lastLine_newline front)⟩
  · exact absurd h not_unexpected

/-- What is not skipped at the start of a line has only blanks before it. -/
theorem AtLineStart.introduced_skipBlank (h : c.AtLineStart text) (hrest : c.skipBlank.rest ≠ []) :
    c.skipBlank.Introduced text [] := by
  obtain ⟨front, hfront, hline⟩ := h
  obtain ⟨n, hn⟩ : ∃ n, skipLength true false c.rest = n := ⟨_, rfl⟩
  rw [skipBlank, hn] at hrest ⊢
  rw [rest_advance] at hrest
  have hindents : Indents front := by
    rcases hline with hline | hline
    · intro ch hch
      rw [hline] at hch
      cases hch
    · rw [hline] at hrest
      exact absurd List.drop_nil hrest
  have hlength : (c.rest.take n).length = n := by
    rw [List.length_take]
    exact Nat.min_eq_left (Nat.le_of_lt (Nat.lt_of_not_le fun hle =>
      hrest (List.drop_eq_nil_of_le hle)))
  have hbehind := hfront.over (List.take_append_drop n c.rest).symm
  rw [Cursor.over, hlength] at hbehind
  refine ⟨front ++ c.rest.take n, ?_, ?_⟩
  · rw [List.append_nil]
    exact hbehind
  · rw [← hn] at hrest ⊢
    exact Indents.skipped (fun _ => hindents) hrest

theorem rest_of_atKeyword {keyword : List Char} (h : c.atKeyword keyword = true) :
    ∃ tail, c.rest = keyword ++ tail := by
  rw [atKeyword, startsWithKeyword, Bool.and_eq_true, List.isPrefixOf_iff_prefix] at h
  obtain ⟨⟨tail, htail⟩, -⟩ := h
  exact ⟨tail, htail.symm⟩

end Cursor

end Provision.Language
