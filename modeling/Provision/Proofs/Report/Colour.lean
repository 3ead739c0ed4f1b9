import Mathlib.Data.List.TakeDrop
import Provision.Proofs.Decimal.Text
import Provision.Proofs.Path
import Provision.Report.Rendering

/-!
# Colour adds escape codes alone

A coloured report without its escape codes is the plain report, column by column.
The codes are taken out by a reader that knows nothing of pieces and paints, so the
texts of the report must hold no escape character of their own.
-/

namespace Provision

open Report (escape)

/-! ## Texts without escape characters -/

/-- No escape character stands in a text. -/
def EscapeFree (text : String) : Prop :=
  escape ∉ text.toList

instance (text : String) : Decidable (EscapeFree text) :=
  inferInstanceAs (Decidable (escape ∉ text.toList))

/-- No escape character stands in the texts of a value. -/
inductive Value.EscapeFree : Value → Prop
  | null : EscapeFree .null
  | bool (b : Bool) : EscapeFree (.bool b)
  | number (x : Float) : EscapeFree (.number x)
  | text {s : String} (htext : Provision.EscapeFree s) : EscapeFree (.text s)
  | list {items : List Value} (hitems : ∀ item ∈ items, EscapeFree item) : EscapeFree (.list items)
  | map {entries : List (String × Value)} (hkeys : ∀ entry ∈ entries, Provision.EscapeFree entry.1)
      (hentries : ∀ entry ∈ entries, EscapeFree entry.2) : EscapeFree (.map entries)
  | resource {key : Key} (hkey : Provision.EscapeFree key.text) : EscapeFree (.resource key)

/-- No escape character stands in the texts of a planned change. -/
structure PlannedChange.EscapeFree (change : PlannedChange) : Prop where
  key : Provision.EscapeFree change.key.text
  file : Provision.EscapeFree change.file.text
  names : ∀ field ∈ change.fields, Provision.EscapeFree field.field
  current : ∀ field ∈ change.fields, field.current.EscapeFree
  pending : ∀ field ∈ change.fields, field.pending.EscapeFree
  workflow : ∀ workflow ∈ change.workflow, Provision.EscapeFree workflow
  hint : ∀ hint ∈ change.hint, Provision.EscapeFree hint

/-- No escape character stands in the texts of a plan. -/
structure Plan.EscapeFree (plan : Plan) : Prop where
  changes : ∀ change ∈ plan.changes, change.EscapeFree
  warnings : ∀ warning ∈ plan.warnings, Provision.EscapeFree warning
  errors : ∀ error ∈ plan.errors, Provision.EscapeFree error

/-- No escape character stands in the texts of a result. -/
structure ChangeResult.EscapeFree (result : ChangeResult) : Prop where
  key : Provision.EscapeFree result.key.text
  stages : ∀ stage ∈ result.stages, Provision.EscapeFree stage
  error : ∀ error ∈ result.error, Provision.EscapeFree error

/-- No escape character stands in the texts of the account of a run. -/
structure ApplyReport.EscapeFree (report : ApplyReport) : Prop where
  plan : report.plan.EscapeFree
  results : ∀ result ∈ report.results, result.EscapeFree
  errors : ∀ error ∈ report.errors, Provision.EscapeFree error

section Texts

variable {s t : String} {text : List Char}

@[simp] theorem escapeFree_append : EscapeFree (s ++ t) ↔ EscapeFree s ∧ EscapeFree t := by
  unfold EscapeFree
  rw [String.toList_append, List.mem_append, not_or]

@[simp] theorem escapeFree_ofList : EscapeFree (String.ofList text) ↔ escape ∉ text := by
  rw [EscapeFree, String.toList_ofList]

theorem ne_escape_of_isDigit {c : Char} (h : c.isDigit = true) : escape ≠ c := by
  rintro rfl
  cases h

theorem escapeFree_toString (n : Nat) : EscapeFree (toString n) := by
  have htext : toString n = String.ofList (Decimal.natDigits n) := rfl
  rw [htext, escapeFree_ofList]
  exact fun hmem => ne_escape_of_isDigit (Decimal.isDigit_of_mem_natDigits hmem) rfl

theorem escapeFree_joinTexts {mark : String} (hmark : EscapeFree mark) {texts : List String}
    (h : ∀ text ∈ texts, EscapeFree text) : EscapeFree (joinTexts mark texts) := by
  induction texts with
  | nil => exact List.not_mem_nil
  | cons first rest ih =>
    obtain ⟨hfirst, hrest⟩ := List.forall_mem_cons.1 h
    cases rest with
    | nil => exact hfirst
    | cons next rest =>
      rw [joinTexts, escapeFree_append, escapeFree_append]
      exact ⟨⟨hfirst, hmark⟩, ih hrest⟩

/-- A number is written with digits, a sign and a point, or is one of three words. -/
theorem escapeFree_numberText (x : Float) : EscapeFree (numberText x) := by
  rw [numberText, escapeFree_ofList]
  cases hfinite : Decimal.isFinite x with
  | true =>
    intro hmem
    rcases Decimal.isDigit_or_of_mem_write hfinite hmem with h | h | h
    · exact ne_escape_of_isDigit h rfl
    · exact absurd h (by decide)
    · exact absurd h (by decide)
  | false =>
    rw [Decimal.write, hfinite, if_neg Bool.false_ne_true]
    split
    · decide
    · split <;> decide

theorem mem_of_mem_quoted {c : Char} (hc : c ≠ '\\') (h : c ∈ Value.quoted text) : c ∈ text := by
  induction text with
  | nil => exact h
  | cons first rest ih =>
    rw [Value.quoted] at h
    rw [List.mem_cons]
    split at h
    · rw [List.mem_cons, List.mem_cons] at h
      rcases h with h | h | h
      · exact absurd h hc
      · exact Or.inl h
      · exact Or.inr (ih h)
    · rw [List.mem_cons] at h
      exact h.imp_right ih

theorem Value.EscapeFree.display {value : Value} (h : value.EscapeFree) :
    Provision.EscapeFree value.display := by
  induction h with
  | null => decide
  | bool b => cases b <;> decide
  | number x => exact escapeFree_numberText x
  | @text s htext =>
    rw [Value.display, escapeFree_append, escapeFree_append]
    refine ⟨⟨by decide, escapeFree_ofList.2 fun hmem => ?_⟩, by decide⟩
    exact htext (mem_of_mem_quoted (by decide) hmem)
  | @list items _ ih =>
    rw [Value.display, displayItems_eq_map, escapeFree_append, escapeFree_append]
    refine ⟨⟨by decide, escapeFree_joinTexts (by decide) ?_⟩, by decide⟩
    exact List.forall_mem_map.2 ih
  | @map entries hkeys _ ih =>
    cases entries with
    | nil => decide
    | cons entry rest =>
      rw [Value.display, displayEntries_eq_map, escapeFree_append, escapeFree_append]
      refine ⟨⟨by decide, escapeFree_joinTexts (by decide) ?_⟩, by decide⟩
      refine List.forall_mem_map.2 fun other hother => ?_
      rw [escapeFree_append, escapeFree_append]
      exact ⟨⟨hkeys other hother, by decide⟩, ih other hother⟩
  | @resource key hkey =>
    rw [Value.display, escapeFree_append, escapeFree_append]
    exact ⟨⟨by decide, hkey⟩, by decide⟩

end Texts

namespace Text

theorem mem_of_mem_split {mark c : Char} {text piece : List Char} (hpiece : piece ∈ split mark text)
    (hc : c ∈ piece) : c ∈ text := by
  induction text generalizing piece with
  | nil =>
    rw [split, List.mem_singleton] at hpiece
    exact hpiece ▸ hc
  | cons first rest ih =>
    by_cases hfirst : first = mark
    · rw [split, if_pos hfirst] at hpiece
      rcases List.mem_cons.1 hpiece with rfl | hpiece
      · cases hc
      · exact List.mem_cons_of_mem _ (ih hpiece hc)
    · obtain ⟨head, pieces, hsplit⟩ := List.exists_cons_of_ne_nil (split_ne_empty mark rest)
      rw [split_cons_of_ne hfirst hsplit] at hpiece
      rcases List.mem_cons.1 hpiece with rfl | hpiece
      · rcases List.mem_cons.1 hc with rfl | hc
        · exact List.mem_cons_self
        · exact List.mem_cons_of_mem _ (ih (hsplit ▸ List.mem_cons_self) hc)
      · exact List.mem_cons_of_mem _ (ih (hsplit ▸ List.mem_cons_of_mem _ hpiece) hc)

end Text

namespace Path

theorem mem_segments_of_name {segments : List (List Char)} {segment : List Char}
    (h : Component.name segment ∈ segments.filterMap component?) : segment ∈ segments := by
  obtain ⟨other, hmem, hother⟩ := List.mem_filterMap.1 h
  unfold component? at hother
  split at hother
  · cases hother
  · split at hother
    · cases hother
    · cases hother
      exact hmem

/-- A name in a path holds characters of the path. -/
theorem mem_text_of_name {path : Path} {segment : List Char}
    (h : .name segment ∈ path.components) {c : Char} (hc : c ∈ segment) : c ∈ path.text.toList := by
  unfold components componentsOf at h
  split at h
  · next rest htext =>
    rw [htext]
    obtain hroot | h := List.mem_cons.1 h
    · cases hroot
    · exact List.mem_cons_of_mem _ (Text.mem_of_mem_split (mem_segments_of_name h) hc)
  · refine @Text.mem_of_mem_split '/' _ _ segment ?_ hc
    unfold ofSegments at h
    split at h
    · next heq =>
      obtain hhere | h := List.mem_cons.1 h
      · cases hhere
      · exact heq ▸ List.mem_cons_of_mem _ (mem_segments_of_name h)
    · exact mem_segments_of_name h

end Path

namespace Report

/-! ## Taking the codes out -/

/-- How many characters belong to the escape code that opens a text: the escape character, a
bracket, digits and an `m`.  None when there is no such code. -/
def codeLength : List Char → Nat
  | c :: '[' :: rest =>
    let digits := rest.takeWhile Char.isDigit
    if c = escape ∧ digits ≠ [] ∧ rest[digits.length]? = some 'm' then digits.length + 3 else 0
  | _ => 0

/-- A text without its escape codes.  So many characters at its start belong to a code that opened
before. -/
def skippingCodes : Nat → List Char → List Char
  | _, [] => []
  | skip + 1, _ :: rest => skippingCodes skip rest
  | 0, c :: rest =>
    match codeLength (c :: rest) with
    | 0 => c :: skippingCodes 0 rest
    | skip + 1 => skippingCodes skip rest

/-- A text without its escape codes. -/
def withoutCodes (text : String) : String :=
  String.ofList (skippingCodes 0 text.toList)

section Codes

variable {front back : List Char}

theorem skippingCodes_append (front back : List Char) :
    skippingCodes front.length (front ++ back) = skippingCodes 0 back := by
  induction front with
  | nil => rfl
  | cons c rest ih =>
    rw [List.length_cons, List.cons_append, skippingCodes]
    exact ih

theorem codeLength_of_ne {c : Char} (h : escape ≠ c) (rest : List Char) :
    codeLength (c :: rest) = 0 := by
  rcases rest with _ | ⟨d, rest⟩
  · rfl
  · by_cases hd : d = '['
    · subst hd
      exact if_neg fun hcode => h hcode.1.symm
    · rw [codeLength]
      rintro c rest heq
      cases heq
      exact hd rfl

theorem skippingCodes_plain (h : escape ∉ front) (back : List Char) :
    skippingCodes 0 (front ++ back) = front ++ skippingCodes 0 back := by
  induction front with
  | nil => rfl
  | cons c rest ih =>
    obtain ⟨hc, hrest⟩ := not_or.1 (List.mem_cons.not.1 h)
    rw [List.cons_append, skippingCodes, codeLength_of_ne hc, ih hrest]
    rfl

theorem skippingCodes_escapeCode {number : List Char} (hne : number ≠ [])
    (hdigits : ∀ c ∈ number, c.isDigit = true) (back : List Char) :
    skippingCodes 0 (escapeCode number ++ back) = skippingCodes 0 back := by
  have htake : (number ++ 'm' :: back).takeWhile Char.isDigit = number := by
    rw [List.takeWhile_append_of_pos hdigits, List.takeWhile_cons_of_neg (by decide),
      List.append_nil]
  have hlength : codeLength (escape :: '[' :: (number ++ 'm' :: back)) = number.length + 3 := by
    rw [codeLength, htake, if_pos ⟨rfl, hne, by simp⟩]
  have hcode : escapeCode number ++ back = escape :: '[' :: (number ++ 'm' :: back) := by
    simp [escapeCode]
  rw [hcode, skippingCodes, hlength]
  have hskip := skippingCodes_append ('[' :: (number ++ ['m'])) back
  simpa using hskip

theorem skippingCodes_codes (paint : Paint) (back : List Char) :
    skippingCodes 0 (paint.codes ++ back) = skippingCodes 0 back := by
  obtain ⟨colour, bold, dim⟩ := paint
  have hcolour (colour : Colour) (back : List Char) :
      skippingCodes 0 (escapeCode colour.code ++ back) = skippingCodes 0 back :=
    skippingCodes_escapeCode (by cases colour <;> decide)
      (by cases colour <;> exact List.all_eq_true.1 rfl) back
  have hwhen (on : Bool) {digit : Char} (hdigit : digit.isDigit = true) (back : List Char) :
      skippingCodes 0 ((if on then escapeCode [digit] else []) ++ back) = skippingCodes 0 back := by
    cases on with
    | false => rfl
    | true => exact skippingCodes_escapeCode (List.cons_ne_nil _ _) (by simpa using hdigit) back
  cases colour with
  | none =>
    rw [Paint.codes, List.nil_append, List.append_assoc, hwhen bold (by decide),
      hwhen dim (by decide)]
  | some colour =>
    rw [Paint.codes, List.append_assoc, List.append_assoc, hcolour, hwhen bold (by decide),
      hwhen dim (by decide)]

end Codes

/-! ## Pieces -/

/-- The text of a piece without its paint. -/
def Piece.text : Piece → String
  | plain text => text
  | painted _ text => text

/-- No escape character stands in the texts of some pieces. -/
def Clean (pieces : List Piece) : Prop :=
  ∀ piece ∈ pieces, EscapeFree piece.text

instance (pieces : List Piece) : Decidable (Clean pieces) :=
  inferInstanceAs (Decidable (∀ piece ∈ pieces, EscapeFree piece.text))

@[simp] theorem text_plain (text : String) : (Piece.plain text).text = text := rfl

@[simp] theorem text_painted (paint : Paint) (text : String) :
    (Piece.painted paint text).text = text := rfl

section Pieces

variable {piece : Piece} {pieces more : List Piece}

@[simp] theorem clean_nil : Clean [] :=
  List.forall_mem_nil _

@[simp] theorem clean_cons : Clean (piece :: pieces) ↔ EscapeFree piece.text ∧ Clean pieces :=
  List.forall_mem_cons

@[simp] theorem clean_append : Clean (pieces ++ more) ↔ Clean pieces ∧ Clean more :=
  List.forall_mem_append

theorem clean_flatMap {α : Type} {items : List α} {show_ : α → List Piece}
    (h : ∀ item ∈ items, Clean (show_ item)) : Clean (items.flatMap show_) := by
  intro piece hpiece
  obtain ⟨item, hitem, hpiece⟩ := List.mem_flatMap.1 hpiece
  exact h item hitem piece hpiece

theorem clean_ite {condition : Prop} [Decidable condition] (h : condition → Clean pieces)
    (hmore : ¬condition → Clean more) : Clean (if condition then pieces else more) := by
  split
  · exact h ‹_›
  · exact hmore ‹_›

/-- Without its codes a piece is written as it is without colour. -/
theorem skippingCodes_piece (h : EscapeFree piece.text) (back : List Char) :
    skippingCodes 0 (piece.write true ++ back) = piece.write false ++ skippingCodes 0 back := by
  cases piece with
  | plain text => exact skippingCodes_plain h back
  | painted paint text =>
    have htext : escape ∉ text.toList := h
    have hreset : skippingCodes 0 (escapeCode ['0'] ++ back) = skippingCodes 0 back :=
      skippingCodes_escapeCode (List.cons_ne_nil _ _) (List.forall_mem_singleton.2 rfl) back
    rw [Piece.write, Piece.write, if_pos rfl, if_neg Bool.false_ne_true, List.append_assoc,
      List.append_assoc, skippingCodes_codes, skippingCodes_plain htext, hreset]

theorem withoutCodes_write (h : Clean pieces) :
    withoutCodes (write true pieces) = write false pieces := by
  unfold withoutCodes write
  rw [String.toList_ofList]
  refine congrArg String.ofList ?_
  induction pieces with
  | nil => rfl
  | cons piece rest ih =>
    obtain ⟨hpiece, hrest⟩ := clean_cons.1 h
    rw [List.flatMap_cons, List.flatMap_cons, skippingCodes_piece hpiece, ih hrest]

theorem escapeFree_write (h : Clean pieces) : EscapeFree (write false pieces) := by
  rw [write, escapeFree_ofList, List.mem_flatMap]
  rintro ⟨piece, hpiece, hmem⟩
  cases piece with
  | plain text => exact h _ hpiece hmem
  | painted paint text =>
    rw [Piece.write, if_neg Bool.false_ne_true] at hmem
    exact h _ hpiece hmem

/-! ## Columns -/

/-- A text filled with blanks up to a width that counts what is seen of it, without its codes.
With the text on the left, at least one blank follows. -/
def padded (width : Nat) (right : Bool) (text : List Char) : List Char :=
  let seen := (skippingCodes 0 text).length
  let blanks := List.replicate (width - seen) ' '
  if right then blanks ++ text
  else if seen < width then text ++ blanks
  else text ++ [' ']

/-- What is seen of a painted text is the text. -/
theorem skippingCodes_write (colour : Bool) (h : EscapeFree piece.text) :
    skippingCodes 0 (piece.write colour) = piece.text.toList := by
  have hplain : piece.write false = piece.text.toList := by
    cases piece <;> rfl
  cases colour with
  | false => rw [hplain, ← List.append_nil piece.text.toList, skippingCodes_plain h, skippingCodes]
  | true =>
    rw [← List.append_nil (piece.write true), skippingCodes_piece h, hplain, skippingCodes,
      List.append_nil]

/-- Signs and labels stand in columns of what is seen of them. -/
theorem columns_padded (colour : Bool) {piece : String → Piece}
    (hpiece : ∀ text, (piece text).text = text) {text : String} (h : EscapeFree text) :
    (signColumn piece text).flatMap (Piece.write colour) =
      padded 3 true ((piece text).write colour) ∧
    (labelColumn piece text).flatMap (Piece.write colour) =
      padded 10 false ((piece text).write colour) := by
  have hseen : (skippingCodes 0 ((piece text).write colour)).length = text.length := by
    rw [skippingCodes_write colour ((hpiece text).symm ▸ h), hpiece, String.length_toList]
  have hfill (width : Nat) : (Piece.plain (fill width text)).write colour =
      List.replicate (width - text.length) ' ' := String.toList_ofList
  refine ⟨?_, ?_⟩
  · rw [signColumn, List.flatMap_cons, List.flatMap_singleton, padded, hseen, hfill]
    rfl
  · rw [labelColumn, List.flatMap_cons, List.flatMap_singleton, padded, hseen]
    by_cases hshort : text.length < 10
    · rw [if_pos hshort, if_pos hshort, hfill]
      rfl
    · rw [if_neg hshort, if_neg hshort]
      rfl

end Pieces

/-! ## The texts of a report -/

section Reports

variable {options : Options} {pieces : List Piece}

theorem escapeFree_fill (width : Nat) (text : String) : EscapeFree (fill width text) := by
  rw [fill, escapeFree_ofList]
  exact fun hmem => absurd (List.eq_of_mem_replicate hmem) (by decide)

theorem clean_header {command : String} {target : Option String} (hcommand : EscapeFree command)
    (htarget : ∀ text ∈ target, EscapeFree text) : Clean (header command target) := by
  cases target with
  | none => simp +decide [header, heading, lineBreak, hcommand]
  | some text => simp +decide [header, heading, faint, lineBreak, hcommand, htarget text rfl]

theorem clean_notes {warnings errors : List String} (hwarnings : ∀ w ∈ warnings, EscapeFree w)
    (herrors : ∀ e ∈ errors, EscapeFree e) : Clean (notes warnings errors) := by
  refine clean_ite (fun _ => clean_nil) fun _ => ?_
  refine clean_append.2 ⟨clean_cons.2 ⟨by decide, clean_flatMap fun w hw => ?_⟩,
    clean_flatMap fun e he => ?_⟩
  · simp +decide [warning, hwarnings w hw]
  · simp +decide [failure, herrors e he]

theorem clean_faintLine {text : String} (h : EscapeFree text) : Clean (faintLine text) := by
  simp +decide [faintLine, faint, lineBreak, h]

theorem escapeFree_fileName {path : Path} (h : EscapeFree path.text) {segment : List Char}
    (hsegment : path.fileName? = some segment) : EscapeFree (String.ofList segment) := by
  have hlast : path.components.getLast? = some (.name segment) := by
    unfold Path.fileName? at hsegment
    split at hsegment
    · next heq =>
      rw [← Option.some.inj hsegment]
      exact heq
    · cases hsegment
  rw [escapeFree_ofList]
  exact fun hmem => h (Path.mem_text_of_name (List.mem_of_getLast? hlast) hmem)

theorem clean_originLine {change : PlannedChange} (h : EscapeFree change.file.text) :
    Clean (originLine change) := by
  refine clean_faintLine ?_
  rw [escapeFree_append, escapeFree_append, escapeFree_append]
  refine ⟨⟨⟨by decide, escapeFree_toString _⟩, by decide⟩, ?_⟩
  split
  · exact escapeFree_fileName h ‹_›
  · exact h

theorem mem_of_mem_withoutBreaks {text : List Char} (h : escape ∈ withoutBreaks text) :
    escape ∈ text := by
  induction text with
  | nil => exact h
  | cons c rest ih =>
    rw [withoutBreaks] at h
    rw [List.mem_cons]
    split at h
    · rw [List.mem_cons, List.mem_cons] at h
      exact Or.inr (ih ((h.resolve_left (by decide)).resolve_left (by decide)))
    · exact (List.mem_cons.1 h).imp_right ih

theorem escapeFree_shortened (verbose : Bool) {value : Value} (h : value.EscapeFree) :
    EscapeFree (shortened verbose value) := by
  have hfull : escape ∉ withoutBreaks value.display.toList :=
    fun hmem => h.display (mem_of_mem_withoutBreaks hmem)
  unfold shortened
  dsimp only
  split
  · exact escapeFree_ofList.2 hfull
  · rw [escapeFree_ofList, List.mem_append, not_or]
    exact ⟨fun hmem => hfull (List.mem_of_mem_take hmem), by decide⟩

theorem clean_fieldLine (verbose : Bool) (kind : ChangeKind) {change : FieldChange}
    (hname : EscapeFree change.field) (hcurrent : change.current.EscapeFree)
    (hpending : change.pending.EscapeFree) : Clean (fieldLine verbose kind change) := by
  have hfrom := escapeFree_shortened verbose hcurrent
  have hto := escapeFree_shortened verbose hpending
  unfold fieldLine
  refine clean_ite (fun _ => ?_) fun _ => ?_
  · simp +decide [hname, hto]
  · have hmarker : Clean (if change.updatable || kind ≠ .replace then []
        else [.plain " ", inKind .replace "(forces replacement)"]) :=
      clean_ite (fun _ => clean_nil) fun _ => by decide
    simp +decide only [clean_append, clean_cons, text_plain, text_painted, faint, primary,
      lineBreak, escapeFree_append, hname, hfrom, hto, hmarker]

theorem clean_signColumn {piece : String → Piece} (hpiece : ∀ text, (piece text).text = text)
    {text : String} (h : EscapeFree text) : Clean (signColumn piece text) := by
  simp only [signColumn, clean_cons, text_plain, hpiece]
  exact ⟨escapeFree_fill 3 text, h, clean_nil⟩

theorem clean_labelColumn {piece : String → Piece} (hpiece : ∀ text, (piece text).text = text)
    {text : String} (h : EscapeFree text) : Clean (labelColumn piece text) := by
  simp only [labelColumn, clean_cons, text_plain, hpiece]
  refine ⟨h, ?_, clean_nil⟩
  split
  · exact escapeFree_fill 10 text
  · decide

/-- What stands in front of a change or a result: a sign and a label. -/
theorem clean_columns (sign label : String → Piece) (hsign : ∀ text, (sign text).text = text)
    (hlabel : ∀ text, (label text).text = text) {s l : String} (hs : EscapeFree s)
    (hl : EscapeFree l) : Clean (signColumn sign s ++ .plain " " :: labelColumn label l) :=
  clean_append.2 ⟨clean_signColumn hsign hs,
    clean_cons.2 ⟨by decide, clean_labelColumn hlabel hl⟩⟩

theorem escapeFree_kind (kind : ChangeKind) :
    EscapeFree (kindSign kind) ∧ EscapeFree kind.text ∧ EscapeFree (kindDone kind) := by
  cases kind <;> decide

theorem clean_keyLine {key : Key} (h : EscapeFree key.text) :
    Clean [primary key.text, lineBreak] :=
  clean_cons.2 ⟨h, by decide⟩

theorem clean_changeLines (verbose : Bool) {change : PlannedChange} (h : change.EscapeFree) :
    Clean (changeLines verbose change) := by
  have hcolumns := clean_cons.2 ⟨(by decide : EscapeFree (Piece.plain "  ").text),
    clean_columns (fun s => .painted { colour := some (kindColour change.kind), bold := true } s)
      (inKind change.kind) (fun _ => rfl) (fun _ => rfl) (escapeFree_kind change.kind).1
      (escapeFree_kind change.kind).2.1⟩
  unfold changeLines
  refine clean_append.2 ⟨clean_append.2 ⟨clean_append.2 ⟨clean_append.2 ⟨
    clean_append.2 ⟨hcolumns, clean_keyLine h.key⟩, ?origin⟩, ?fields⟩, ?workflow⟩, ?hint⟩
  case origin => exact clean_ite (fun _ => clean_originLine h.file) fun _ => clean_nil
  case fields =>
    exact clean_ite (fun _ => clean_flatMap fun field hfield => clean_fieldLine verbose change.kind
      (h.names field hfield) (h.current field hfield) (h.pending field hfield)) fun _ => clean_nil
  case workflow =>
    split
    · next workflow heq =>
      exact clean_faintLine (escapeFree_append.2 ⟨by decide, h.workflow workflow heq⟩)
    · exact clean_nil
  case hint =>
    split
    · next hint heq => simp +decide [warning, h.hint hint heq]
    · exact clean_nil

/-! ### Tallies -/

theorem clean_commaSeparated (h : Clean pieces) : Clean (commaSeparated pieces) := by
  induction pieces with
  | nil => exact clean_nil
  | cons piece rest ih =>
    obtain ⟨hpiece, hrest⟩ := clean_cons.1 h
    cases rest with
    | nil => exact h
    | cons next rest =>
      exact clean_cons.2 ⟨hpiece, clean_cons.2 ⟨by decide, ih hrest⟩⟩

theorem clean_tallyLine {title : String} (htitle : EscapeFree title)
    {parts : List (Nat × (String → Piece) × String)}
    (hparts : ∀ part ∈ parts, (∀ text, (part.2.1 text).text = text) ∧ EscapeFree part.2.2) :
    Clean (tallyLine title parts) := by
  have hcounted : Clean (parts.filterMap fun part =>
      if part.1 = 0 then none else some (part.2.1 (toString part.1 ++ " " ++ part.2.2))) := by
    intro piece hpiece
    obtain ⟨part, hpart, heq⟩ := List.mem_filterMap.1 hpiece
    obtain ⟨htext, hname⟩ := hparts part hpart
    split at heq
    · cases heq
    · cases heq
      rw [htext, escapeFree_append, escapeFree_append]
      exact ⟨⟨escapeFree_toString _, by decide⟩, hname⟩
  unfold tallyLine
  refine clean_cons.2 ⟨htitle, clean_append.2 ⟨clean_cons.2 ⟨by decide, ?_⟩, by decide⟩⟩
  exact clean_ite (fun _ => by decide) fun _ => clean_commaSeparated hcounted

theorem clean_planTally (plan : Plan) : Clean (planTally plan) := by
  refine clean_tallyLine (by decide) ?_
  simp +decide [inKind, red, faint]

theorem clean_applyTally (results : List ChangeResult) : Clean (applyTally results) := by
  refine clean_tallyLine (by decide) ?_
  simp +decide [inKind, red, faint]

/-! ### Plans and results -/

theorem clean_planPieces {plan : Plan} (h : plan.EscapeFree)
    (htarget : ∀ text ∈ options.target, EscapeFree text) : Clean (planPieces options plan) := by
  have hnotes := clean_notes h.warnings h.errors
  have hchanges : Clean (plan.changes.flatMap (changeLines options.verbose)) :=
    clean_flatMap fun change hchange => clean_changeLines options.verbose (h.changes change hchange)
  have hunchanged : Clean (if plan.unchanged ≠ 0 && options.verbose then
      [.plain "  ", faint (toString plan.unchanged ++ " unchanged"), lineBreak] else []) := by
    refine clean_ite (fun _ => ?_) fun _ => clean_nil
    simp +decide only [faint, lineBreak, clean_cons, text_painted, escapeFree_append,
      escapeFree_toString]
  refine clean_append.2 ⟨clean_header (by decide) htarget, clean_ite (fun _ => ?_) fun _ => ?_⟩
  · exact clean_append.2 ⟨clean_cons.2 ⟨by decide, hnotes⟩, hunchanged⟩
  · refine clean_append.2 ⟨clean_append.2 ⟨clean_cons.2 ⟨by decide, hnotes⟩, hchanges⟩, ?_⟩
    exact clean_cons.2 ⟨by decide, clean_planTally plan⟩

theorem clean_resultColumns (result : ChangeResult) : Clean (resultColumns result) := by
  obtain ⟨hsign, -, hdone⟩ := escapeFree_kind result.kind
  unfold resultColumns
  split
  · exact clean_columns _ _ (fun _ => rfl) (fun _ => rfl) hsign hdone
  all_goals exact clean_columns _ _ (fun _ => rfl) (fun _ => rfl) (by decide) (by decide)

theorem clean_errorLine {result : ChangeResult} (h : ∀ error ∈ result.error, EscapeFree error) :
    Clean (errorLine result) := by
  unfold errorLine
  cases herror : result.error with
  | none => exact clean_nil
  | some error =>
    have htext := h error herror
    refine clean_ite (fun _ => ?_) fun _ => ?_
    · simp +decide [red, lineBreak, htext]
    · simp +decide [warning, htext]

theorem clean_resultLines (verbose : Bool) {plan : Plan} {result : ChangeResult}
    (hplan : plan.EscapeFree) (h : result.EscapeFree) :
    Clean (resultLines verbose plan result) := by
  unfold resultLines
  refine clean_append.2 ⟨clean_append.2 ⟨clean_append.2 ⟨clean_append.2 ⟨
    clean_cons.2 ⟨by decide, clean_resultColumns result⟩, clean_keyLine h.key⟩, ?stages⟩,
    clean_errorLine h.error⟩, ?origin⟩
  case stages =>
    exact clean_ite (fun _ => clean_nil) fun _ => clean_faintLine
      (escapeFree_append.2 ⟨by decide, escapeFree_joinTexts (by decide) h.stages⟩)
  case origin =>
    split
    · next change heq =>
      have hchange := List.mem_reverse.1 (List.mem_of_find?_eq_some heq)
      exact clean_originLine (hplan.changes change hchange).file
    · exact clean_nil

theorem clean_applyPieces {report : ApplyReport} (h : report.EscapeFree)
    (htarget : ∀ text ∈ options.target, EscapeFree text) : Clean (applyPieces options report) := by
  have hnotes : Clean (notes [] report.errors) := clean_notes (List.forall_mem_nil _) h.errors
  have hresults : Clean (report.results.flatMap (resultLines options.verbose report.plan)) :=
    clean_flatMap fun result hresult =>
      clean_resultLines options.verbose h.plan (h.results result hresult)
  refine clean_append.2 ⟨clean_header (by decide) htarget, clean_ite (fun _ => ?_) fun _ => ?_⟩
  · exact clean_cons.2 ⟨by decide, hnotes⟩
  · refine clean_append.2 ⟨clean_append.2 ⟨clean_cons.2 ⟨by decide, hnotes⟩, hresults⟩, ?_⟩
    exact clean_cons.2 ⟨by decide, clean_applyTally report.results⟩

end Reports

/-- Without its escape codes a coloured report is the plain one, which has none, for any target and
whether the report is verbose or not.  Its signs and labels are filled up to the width of what is
seen of them, painted or not. -/
theorem colour_adds_codes_alone (options : Options)
    (htarget : ∀ text ∈ options.target, EscapeFree text) :
    (∀ plan : Plan, plan.EscapeFree →
      withoutCodes (renderPlan .text { options with colour := true } plan) =
          renderPlan .text { options with colour := false } plan ∧
        EscapeFree (renderPlan .text { options with colour := false } plan)) ∧
    (∀ report : ApplyReport, report.EscapeFree →
      withoutCodes (renderApplied .text { options with colour := true } report) =
          renderApplied .text { options with colour := false } report ∧
        EscapeFree (renderApplied .text { options with colour := false } report)) ∧
    ∀ (colour : Bool) (paint : Paint) (text : String), EscapeFree text →
      (signColumn (.painted paint) text).flatMap (Piece.write colour) =
          padded 3 true ((Piece.painted paint text).write colour) ∧
        (labelColumn (.painted paint) text).flatMap (Piece.write colour) =
          padded 10 false ((Piece.painted paint text).write colour) := by
  refine ⟨fun plan hplan => ?_, fun report hreport => ?_, fun colour paint text htext =>
    columns_padded colour (fun _ => rfl) htext⟩
  · have hclean : Clean (planPieces { options with colour := false } plan) :=
      clean_planPieces hplan htarget
    exact ⟨withoutCodes_write hclean, escapeFree_write hclean⟩
  · have hclean : Clean (applyPieces { options with colour := false } report) :=
      clean_applyPieces hreport htarget
    exact ⟨withoutCodes_write hclean, escapeFree_write hclean⟩

def gateKey : Key := ⟨⟨"yard::gate", by decide⟩, "north"⟩

/-- A gate that is to be replaced, as it would take another colour. -/
def gatePlan : Plan where
  changes := [{
    id := 1
    kind := .replace
    key := gateKey
    file := ⟨"/srv/yard.cairn"⟩
    fields := [⟨"colour", .text "red", .list [.text "blue", .bool true], false⟩]
    workflow := some "swing"
    hint := none }]
  warnings := ["windy"]

/-- The account of a run that failed to replace the gate. -/
def gateReport : ApplyReport where
  plan := gatePlan
  results := [⟨1, .replace, gateKey, .failed, ["lift"], some "stuck"⟩]
  errors := ["stuck"]

theorem escapeFree_gatePlan : gatePlan.EscapeFree where
  changes := by
    refine List.forall_mem_singleton.2
      ⟨by decide, by decide, by decide, ?_, ?_, by decide, by decide⟩
    · exact List.forall_mem_singleton.2 (.text (by decide))
    · refine List.forall_mem_singleton.2 (.list ?_)
      simp only [List.forall_mem_cons, List.not_mem_nil, false_imp_iff, implies_true, and_true]
      exact ⟨.text (by decide), .bool true⟩
  warnings := by decide
  errors := by decide

theorem colour_adds_codes_alone_gate :
    withoutCodes (renderPlan .text { colour := true, target := some "web" } gatePlan) =
      "plan web\n\n\n  warn: windy\n  -/+ replace   yard::gate north\n" ++
      "      colour: 'red' -> ['blue', true] (forces replacement)\n      via workflow swing\n" ++
      "\nPlan: 1 to replace\n" ∧
    withoutCodes (renderApplied .text { colour := true, target := some "web" } gateReport) =
      "apply web\n\n\n  error: stuck\n    ! failed    yard::gate north\n" ++
      "      stages: lift\n      stuck\n\nApplied: 1 failed\n" ∧
    renderPlan .text { colour := true, target := some "web" } gatePlan ≠
      renderPlan .text { colour := false, target := some "web" } gatePlan := by
  have hreport : gateReport.EscapeFree :=
    ⟨escapeFree_gatePlan, List.forall_mem_singleton.2 ⟨by decide, by decide, by decide⟩, by decide⟩
  obtain ⟨hplans, hreports, -⟩ :=
    colour_adds_codes_alone { target := some "web" } (by decide)
  rw [(hplans gatePlan escapeFree_gatePlan).1, (hreports gateReport hreport).1]
  exact ⟨by decide +kernel, by decide +kernel, by decide +kernel⟩

end Report

end Provision
