import Mathlib.Data.Prod.Lex
import Provision.Proofs.Language.Lexical
import Provision.Proofs.Outcome

/-!
# Moving ahead

Reading only moves ahead: wherever a rule of the grammar answers, its cursor stands
on the text it was given, at the same character or at a later one.  Each character
that is passed leads to a later place, when lines are compared before columns.
-/

namespace Provision.Language

/-! ## Cursors on one text -/

namespace Cursor

/-- The line and column of a cursor, compared by line first. -/
def place (c : Cursor) : ℕ ×ₗ ℕ :=
  toLex (c.line, c.column)

/-- The place in a file at a line and column. -/
def spanAt (file : String) (place : ℕ ×ₗ ℕ) : Span :=
  ⟨file, (ofLex place).1, (ofLex place).2⟩

theorem spanAt_injective (file : String) : Function.Injective (spanAt file) := by
  intro p q h
  injection h with _ hline hcolumn
  exact ofLex.injective (Prod.ext hline hcolumn)

/-- The other cursor stands on the same text, here or further on. -/
def Reaches (c after : Cursor) : Prop :=
  ∃ read, c.rest = read ++ after.rest ∧ after = c.over read

variable {file : String} {c next after : Cursor}

theorem Reaches.refl (c : Cursor) : c.Reaches c :=
  ⟨[], rfl, rfl⟩

theorem Reaches.trans (h : c.Reaches next) (h' : next.Reaches after) : c.Reaches after := by
  obtain ⟨read, hrest, rfl⟩ := h
  obtain ⟨more, hmore, rfl⟩ := h'
  refine ⟨read ++ more, ?_, (over_append c read more).symm⟩
  rw [List.append_assoc, ← hmore, ← hrest]

theorem step_of_rest_eq_nil (h : c.rest = []) : c.step = c := by
  unfold step
  rw [h]

theorem reaches_step (c : Cursor) : c.Reaches c.step := by
  cases hrest : c.rest with
  | nil =>
    rw [step_of_rest_eq_nil hrest]
    exact .refl c
  | cons ch rest => exact ⟨[ch], by rw [hrest, rest_step_cons hrest, List.singleton_append], rfl⟩

theorem reaches_advance (n : Nat) (c : Cursor) : c.Reaches (c.advance n) := by
  induction n generalizing c with
  | zero => exact .refl c
  | succ n ih => exact (reaches_step c).trans (ih c.step)

theorem reaches_skipInline (c : Cursor) : c.Reaches c.skipInline :=
  reaches_advance _ c

theorem reaches_skipBlank (c : Cursor) : c.Reaches c.skipBlank :=
  reaches_advance _ c

theorem reaches_pass (c : Cursor) (ch : Char) : c.Reaches (c.pass ch) := by
  unfold pass
  split
  · exact reaches_step c
  · exact .refl c

theorem not_unexpected {α : Type} {expected : String} {a : α} :
    (c.unexpected file expected : Except ParseError α) ≠ .ok a := by
  unfold unexpected fail
  split <;> (intro h; cases h)

theorem eq_step_of_expect {ch : Char} (h : c.expect file ch = .ok after) :
    c.sees ch = true ∧ after = c.step := by
  unfold expect at h
  split at h
  · next hsees =>
    cases h
    exact ⟨hsees, rfl⟩
  · exact absurd h not_unexpected

theorem rest_of_sees {ch : Char} (h : c.sees ch = true) : c.rest = ch :: c.step.rest := by
  rw [rest_step]
  cases hrest : c.rest with
  | nil => simp [sees, peek, hrest] at h
  | cons first rest =>
    rw [sees_cons hrest, beq_iff_eq] at h
    rw [h, List.tail_cons]

theorem rest_of_expect {ch : Char} (h : c.expect file ch = .ok after) :
    c.rest = ch :: after.rest := by
  obtain ⟨hsees, rfl⟩ := eq_step_of_expect h
  exact rest_of_sees hsees

theorem reaches_of_expect {ch : Char} (h : c.expect file ch = .ok after) : c.Reaches after := by
  rw [(eq_step_of_expect h).2]
  exact reaches_step c

theorem reaches_of_expectWord {what : String} {word : List Char}
    (h : c.expectWord file what = .ok (word, after)) :
    c.Reaches after := by
  unfold expectWord at h
  split at h
  · exact absurd h not_unexpected
  · cases h
    exact reaches_advance _ c

theorem reaches_of_expectLineEnd (h : c.expectLineEnd file = .ok after) : c.Reaches after := by
  unfold expectLineEnd at h
  dsimp only at h
  split at h
  · cases h
    exact (reaches_skipInline c).trans (reaches_step _)
  · exact absurd h not_unexpected

/-! ## Later places -/

theorem step_char {ch : Char} {rest : List Char} (line column : Nat) (h : ch ≠ '\n') :
    (⟨ch :: rest, line, column⟩ : Cursor).step = ⟨rest, line, column + 1⟩ := by
  unfold step
  split
  · next heq => cases heq
  · next heq => exact absurd (List.cons.inj heq).1 h
  · next heq => rw [(List.cons.inj heq).2]

theorem place_lt_step (h : c.rest ≠ []) : c.place < c.step.place := by
  obtain ⟨rest, line, column⟩ := c
  cases rest with
  | nil => exact absurd rfl h
  | cons ch rest =>
    by_cases hline : ch = '\n'
    · subst hline
      exact Prod.Lex.left _ _ (Nat.lt_succ_self line)
    · rw [step_char line column hline]
      exact Prod.Lex.right _ (Nat.lt_succ_self column)

theorem place_le_step (c : Cursor) : c.place ≤ c.step.place := by
  by_cases h : c.rest = []
  · rw [step_of_rest_eq_nil h]
  · exact (place_lt_step h).le

theorem Reaches.place_le (h : c.Reaches after) : c.place ≤ after.place := by
  obtain ⟨read, -, rfl⟩ := h
  induction read generalizing c with
  | nil => exact le_refl _
  | cons ch read ih => exact (place_le_step c).trans ih

theorem rest_ne_nil_of_sees {ch : Char} (h : c.sees ch = true) : c.rest ≠ [] := by
  rw [rest_of_sees h]
  exact List.cons_ne_nil _ _

theorem place_lt_of_expect {ch : Char} (h : c.expect file ch = .ok after) :
    c.place < after.place := by
  obtain ⟨hsees, rfl⟩ := eq_step_of_expect h
  exact place_lt_step (rest_ne_nil_of_sees hsees)

theorem place_lt_of_expectWord {what : String} {word : List Char}
    (h : c.expectWord file what = .ok (word, after)) :
    c.place < after.place := by
  unfold expectWord at h
  split at h
  · exact absurd h not_unexpected
  · next hword =>
    cases h
    obtain ⟨n, hn⟩ : ∃ n, c.word.length = n + 1 :=
      Nat.exists_eq_add_one_of_ne_zero fun hzero => hword (by simp [List.length_eq_zero_iff.1 hzero])
    have hrest : c.rest ≠ [] := by
      intro hempty
      simp [word, hempty] at hn
    rw [hn]
    exact (place_lt_step hrest).trans_le (reaches_advance n c.step).place_le

theorem place_lt_of_expectLineEnd (h : c.expectLineEnd file = .ok after) (hrest : after.rest ≠ []) :
    c.place < after.place := by
  unfold expectLineEnd at h
  dsimp only at h
  split at h
  · cases h
    have hmore : c.skipInline.rest ≠ [] := by
      intro hempty
      rw [step_of_rest_eq_nil hempty] at hrest
      exact hrest hempty
    exact (reaches_skipInline c).place_le.trans_lt (place_lt_step hmore)
  · exact absurd h not_unexpected

end Cursor

/-- What is read ends at a cursor that the given one reaches. -/
def Advances {α : Type} (origin : Cursor) (result : Except ParseError (α × Cursor)) : Prop :=
  ∀ a after, result = .ok (a, after) → origin.Reaches after

namespace Advances

variable {α β : Type} {file : String} {origin c : Cursor}

theorem ok (a : α) (h : origin.Reaches c) : Advances origin (.ok (a, c)) := by
  intro a after hrun
  cases hrun
  exact h

theorem fail {message : String} : Advances origin (c.fail file message : Except ParseError (α × _)) := by
  intro a after hrun
  cases hrun

theorem unexpected {expected : String} :
    Advances origin (c.unexpected file expected : Except ParseError (α × _)) :=
  fun _ _ hrun => absurd hrun Cursor.not_unexpected

theorem bind {m : Except ParseError (α × Cursor)} {f : α × Cursor → Except ParseError (β × Cursor)}
    (hm : Advances origin m)
    (hf : ∀ a after, origin.Reaches after → Advances origin (f (a, after))) :
    Advances origin (m >>= f) := by
  intro b last hrun
  obtain ⟨⟨a, after⟩, hfirst, hrest⟩ := bind_eq_ok.1 hrun
  exact hf a after (hm a after hfirst) b last hrest

theorem expect {ch : Char} {f : Cursor → Except ParseError (β × Cursor)} (h : origin.Reaches c)
    (hf : ∀ after, origin.Reaches after → Advances origin (f after)) :
    Advances origin (c.expect file ch >>= f) := by
  intro b last hrun
  obtain ⟨after, hfirst, hrest⟩ := bind_eq_ok.1 hrun
  exact hf after (h.trans (Cursor.reaches_of_expect hfirst)) b last hrest

theorem expectLineEnd {f : Cursor → Except ParseError (β × Cursor)} (h : origin.Reaches c)
    (hf : ∀ after, origin.Reaches after → Advances origin (f after)) :
    Advances origin (c.expectLineEnd file >>= f) := by
  intro b last hrun
  obtain ⟨after, hfirst, hrest⟩ := bind_eq_ok.1 hrun
  exact hf after (h.trans (Cursor.reaches_of_expectLineEnd hfirst)) b last hrest

theorem expectWord {what : String} (h : origin.Reaches c) :
    Advances origin (c.expectWord file what) :=
  fun _ _ hrun => h.trans (Cursor.reaches_of_expectWord hrun)

theorem lexeme {result : Except Fault (α × Nat)} (h : origin.Reaches c) :
    Advances origin (Language.lexeme file c result) := by
  cases result with
  | error fault => exact fail
  | ok read => exact ok _ (h.trans (Cursor.reaches_advance _ c))

end Advances

/-! ## Expressions -/

/-- With so many steps to nest, the rules for expressions move ahead. -/
structure ExpressionsAdvance (file : String) (n : Nat) : Prop where
  binary : ∀ {origin c}, origin.Reaches c → ∀ least, Advances origin (binary file n least c)
  operators : ∀ {origin c}, origin.Reaches c → ∀ least left,
    Advances origin (operators file n least left c)
  primary : ∀ {origin c}, origin.Reaches c → Advances origin (primary file n c)
  stringParts : ∀ {origin c}, origin.Reaches c → Advances origin (stringParts file n c)
  listItems : ∀ {origin c}, origin.Reaches c → Advances origin (listItems file n c)
  mapEntries : ∀ {origin c}, origin.Reaches c → Advances origin (mapEntries file n c)
  stringKey : ∀ {origin c}, origin.Reaches c → Advances origin (stringKey file n c)
  reference : ∀ {origin c}, origin.Reaches c → Advances origin (reference file n c)

section Expressions

variable {file : String} {n : Nat} {origin c : Cursor}

open Cursor

theorem operators_advances (ih : ExpressionsAdvance file n) (h : origin.Reaches c) (least : Nat)
    (left : Node) :
    Advances origin (operators file (n + 1) least left c) := by
  have hinline := h.trans (reaches_skipInline c)
  rw [operators]
  split
  · exact .ok _ h
  · split
    · exact .ok _ h
    · next op length _ _ =>
      have hright := hinline.trans ((reaches_advance length _).trans (reaches_skipBlank _))
      exact (ih.binary hright _).bind fun right after hafter => ih.operators hafter _ _

theorem primary_advances (ih : ExpressionsAdvance file n) (h : origin.Reaches c) :
    Advances origin (primary file (n + 1) c) := by
  have hstep := h.trans (reaches_step c)
  rw [primary]
  split
  · exact (Advances.lexeme hstep).bind fun s after hafter => .ok _ hafter
  · exact (ih.stringParts hstep).bind fun parts after hafter => .ok _ hafter
  · exact (ih.listItems hstep).bind fun items after hafter => .ok _ hafter
  · exact (ih.mapEntries hstep).bind fun entries after hafter => .ok _ hafter
  · refine (ih.binary (hstep.trans (reaches_skipBlank _)) _).bind fun inner after hafter => ?_
    exact .expect (hafter.trans (reaches_skipBlank _)) fun last hlast => .ok _ hlast
  · split
    · exact ih.reference h
    · split
      · exact .ok _ (h.trans (reaches_advance _ c))
      · exact (Advances.expectWord h).bind fun word after hafter => .ok _ hafter

theorem stringParts_advances (ih : ExpressionsAdvance file n) (h : origin.Reaches c) :
    Advances origin (stringParts file (n + 1) c) := by
  rw [stringParts]
  refine (Advances.lexeme h).bind fun s after hafter => ?_
  dsimp only
  split
  · exact .ok _ (hafter.trans (reaches_step after))
  · refine (ih.reference hafter).bind fun part next hnext => ?_
    exact (ih.stringParts hnext).bind fun parts last hlast => .ok _ hlast

theorem listItems_advances (ih : ExpressionsAdvance file n) (h : origin.Reaches c) :
    Advances origin (listItems file (n + 1) c) := by
  have hblank := h.trans (reaches_skipBlank c)
  rw [listItems]
  dsimp only
  split
  · exact .ok _ (hblank.trans (reaches_step _))
  · refine (ih.binary hblank _).bind fun item after hafter => ?_
    dsimp only
    split
    · have hnext := hafter.trans ((reaches_skipBlank _).trans (reaches_pass _ ','))
      exact (ih.listItems hnext).bind fun items last hlast => .ok _ hlast
    · exact .unexpected

theorem mapEntries_advances (ih : ExpressionsAdvance file n) (h : origin.Reaches c) :
    Advances origin (mapEntries file (n + 1) c) := by
  have hblank := h.trans (reaches_skipBlank c)
  rw [mapEntries]
  dsimp only
  split
  · exact .ok _ (hblank.trans (reaches_step _))
  · have hentry : ∀ (key : String) after, origin.Reaches after → Advances origin (do
        let c' ← after.skipInline.expect file ':'
        let read ← binary file n 1 c'.skipBlank
        let c' := read.2.skipBlank
        if c'.sees ',' || c'.sees '\x7d' then do
          let more ← mapEntries file n (c'.pass ',')
          .ok (⟨key, read.1, c.skipBlank.span file⟩ :: more.1, more.2)
        else c'.unexpected file "`,` or `\x7d`") := by
      intro key after hafter
      refine .expect (hafter.trans (reaches_skipInline _)) fun colon hcolon => ?_
      refine (ih.binary (hcolon.trans (reaches_skipBlank _)) _).bind fun value next hnext => ?_
      dsimp only
      split
      · have hrest := hnext.trans ((reaches_skipBlank _).trans (reaches_pass _ ','))
        exact (ih.mapEntries hrest).bind fun entries last hlast => .ok _ hlast
      · exact .unexpected
    split
    · exact (ih.stringKey hblank).bind hentry
    · exact (Advances.expectWord hblank).bind fun word after hafter => hentry _ after hafter

theorem stringKey_advances (ih : ExpressionsAdvance file n) (h : origin.Reaches c) :
    Advances origin (stringKey file (n + 1) c) := by
  rw [stringKey]
  refine (ih.primary h).bind fun node after hafter => ?_
  dsimp only
  split
  · exact .ok _ hafter
  · exact .fail

theorem reference_advances (ih : ExpressionsAdvance file n) (h : origin.Reaches c) :
    Advances origin (reference file (n + 1) c) := by
  have hinside := h.trans ((reaches_advance 2 c).trans (reaches_skipInline _))
  rw [reference]
  refine (Advances.expectWord hinside).bind fun head after hafter => ?_
  dsimp only
  split
  · have hkind := hafter.trans (reaches_advance 2 after)
    refine (Advances.expectWord hkind).bind fun kind afterKind hafterKind => ?_
    have hname := hafterKind.trans (reaches_skipInline _)
    have hclosed : ∀ (name : Option Node) (path : List String) next, origin.Reaches next →
        Advances origin (do
          let c' ← next.skipInline.expect file ')'
          .ok (Node.ref (String.ofList (head ++ [':', ':'] ++ kind)) name path (c.span file), c')) :=
      fun name path next hnext =>
        .expect (hnext.trans (reaches_skipInline _)) fun last hlast => .ok _ hlast
    have hpath : ∀ (name : Option Node) afterName, origin.Reaches afterName →
        Advances origin (do
          let c' := afterName.skipInline
          let path ←
            if c'.sees '|' then do
              let word ← c'.step.skipInline.expectWord file "an attribute name"
              .ok (segments word.1, word.2)
            else .ok ([], c')
          let c' ← path.2.skipInline.expect file ')'
          .ok (Node.ref (String.ofList (head ++ [':', ':'] ++ kind)) name path.1 (c.span file),
            c')) := by
      intro name afterName hafterName
      have hinline := hafterName.trans (reaches_skipInline _)
      dsimp only
      split
      · refine (Advances.expectWord (hinline.trans ((reaches_step _).trans
          (reaches_skipInline _)))).bind fun word next hnext => ?_
        exact hclosed name _ next hnext
      · exact hclosed name [] _ hinline
    split
    · exact hpath none _ hname
    · exact (ih.primary hname).bind fun name afterName hafterName => hpath _ afterName hafterName
  · exact .expect (hafter.trans (reaches_skipInline _)) fun last hlast => .ok _ hlast

theorem expressionsAdvance (file : String) (n : Nat) : ExpressionsAdvance file n := by
  induction n with
  | zero =>
    exact ⟨fun _ _ => .fail, fun _ _ _ => .fail, fun _ => .fail, fun _ => .fail, fun _ => .fail,
      fun _ => .fail, fun _ => .fail, fun _ => .fail⟩
  | succ n ih =>
    refine ⟨fun h least => ?_, operators_advances ih, primary_advances ih, stringParts_advances ih,
      listItems_advances ih, mapEntries_advances ih, stringKey_advances ih, reference_advances ih⟩
    rw [binary]
    exact (ih.primary h).bind fun left after hafter => ih.operators hafter _ _

theorem clauses_advances (n : Nat) (h : origin.Reaches c) : Advances origin (clauses file n c) := by
  induction n generalizing c with
  | zero => exact .fail
  | succ n ih =>
    have hinline := h.trans (reaches_skipInline c)
    rw [clauses]
    dsimp only
    split
    · exact .ok _ hinline
    · split
      · refine (Advances.expectWord (hinline.trans (reaches_step _))).bind fun name after hafter => ?_
        exact (ih hafter).bind fun read last hlast => .ok _ hlast
      · split
        · exact (ih (hinline.trans (reaches_advance 2 _))).bind fun read last hlast => .ok _ hlast
        · refine ((expressionsAdvance file n).binary hinline _).bind fun value after hafter => ?_
          have hnext := hafter.trans ((reaches_skipInline _).trans (reaches_pass _ ','))
          exact (ih hnext).bind fun read last hlast => .ok _ hlast

theorem pairValue_advances (n : Nat) (key : String) (span : Span) (h : origin.Reaches c) :
    Advances origin (pairValue file n key span c) := by
  unfold pairValue
  refine ((expressionsAdvance file n).binary (h.trans (reaches_skipInline c)) _).bind
    fun value after hafter => ?_
  exact .expectLineEnd hafter fun last hlast => .ok _ hlast

theorem guardOf_advances (n : Nat) (h : origin.Reaches c) : Advances origin (guardOf file n c) := by
  unfold guardOf
  split
  · exact (clauses_advances n (h.trans (reaches_advance 2 c))).bind fun read last hlast =>
      .ok _ hlast
  · exact .ok _ h

end Expressions

end Provision.Language
