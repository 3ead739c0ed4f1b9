import Provision.Proofs.Language.Layout
import Provision.Proofs.State.Readback

/-!
# Plain values are displayed as they are read

Messages show values in configuration syntax.  Unlike the printer, they leave the
keys of maps as they are, and in texts only quotes and backslashes are escaped.  That is enough as long as the keys are words and no text has a line
break: the text of such a value is read as the expression of the value.
-/

namespace Provision

open Provision.Language

/-! ## What is displayed -/

theorem toList_joinTexts (mark : String) (texts : List String) :
    (joinTexts mark texts).toList = Text.join mark.toList (texts.map String.toList) := by
  fun_induction joinTexts mark texts with
  | case1 => rfl
  | case2 piece => rfl
  | case3 piece next rest ih =>
    rw [String.toList_append, String.toList_append, ih]
    rfl

namespace Value

/-- An entry of a map as it is displayed. -/
def displayedEntry (entry : String × Value) : List Char :=
  entry.1.toList ++ ':' :: ' ' :: entry.2.display.toList

theorem toList_display_text (s : String) :
    (display (.text s)).toList = '\'' :: (quoted s.toList ++ ['\'']) := by
  rw [display, String.toList_append, String.toList_append]
  show '\'' :: ((String.ofList (quoted s.toList)).toList ++ ['\'']) = _
  rw [String.toList_ofList]

theorem toList_display_list (items : List Value) :
    (display (.list items)).toList = listText (items.map fun item => item.display.toList) := by
  rw [display, String.toList_append, String.toList_append, toList_joinTexts, displayItems_eq_map,
    List.map_map]
  rfl

theorem toList_display_map (entries : List (String × Value)) :
    (display (.map entries)).toList = mapText (entries.map displayedEntry) := by
  have hentry : (String.toList ∘ fun entry : String × Value => entry.1 ++ ": " ++ entry.2.display) =
      displayedEntry := by
    funext entry
    rw [Function.comp_apply, String.toList_append, String.toList_append, List.append_assoc]
    rfl
  cases entries with
  | nil => rfl
  | cons entry rest =>
    rw [display, String.toList_append, String.toList_append, toList_joinTexts,
      displayEntries_eq_map, List.map_map, hentry]
    rfl

/-- A value whose texts have one line each and whose keys are words. -/
inductive Plain : Value → Prop
  | null : Plain .null
  | bool (b : Bool) : Plain (.bool b)
  | number (x : Float) : Plain (.number x)
  | text {s : String} (hline : '\n' ∉ s.toList) : Plain (.text s)
  | list {items : List Value} (hitems : ∀ item ∈ items, Plain item) : Plain (.list items)
  | map {entries : List (String × Value)} (hkeys : ∀ entry ∈ entries, IsWord entry.1.toList)
      (hentries : ∀ entry ∈ entries, Plain entry.2) : Plain (.map entries)

end Value

/-! ## Plain values are read back -/

theorem singleQuoted_plain {s : List Char} (h : '\n' ∉ s) (tail : List Char) :
    singleQuoted (Value.quoted s ++ '\'' :: tail) = .ok (s, (Value.quoted s).length + 1) := by
  induction s with
  | nil => rfl
  | cons c rest ih =>
    rw [List.mem_cons, not_or] at h
    have hrest := ih h.2
    rw [Value.quoted]
    split
    · next hquote =>
      have hescape : escape? ['\''] c = some c := by
        rcases hquote with rfl | rfl <;> decide
      simp [singleQuoted, hescape, hrest]
    · next hquote =>
      rw [not_or] at hquote
      rw [List.cons_append, singleQuoted_char (Ne.symm h.1) hquote.2 hquote.1, hrest]
      simp

namespace Value

theorem Plain.atom {value : Value} (h : value.Plain) (hwritable : value.Writable) :
    Atom value.display.toList (valueNode value).bare := by
  induction h with
  | null => exact atom_null
  | bool b =>
    have htext : (display (.bool b)).toList = boolText b := by cases b <;> rfl
    rw [htext]
    exact atom_bool b
  | number x =>
    cases hwritable with
    | number hfinite =>
      rw [display, numberText, String.toList_ofList]
      exact atom_number hfinite
  | @text s hline =>
    have hatom := atom_singleQuoted (singleQuoted_plain hline)
    rw [String.ofList_toList] at hatom
    rw [toList_display_text]
    exact hatom
  | @list items _ ih =>
    cases hwritable with
    | list hitems =>
      have hatom := atom_list items fun item hitem => (ih item hitem (hitems item hitem)).expression
      rw [toList_display_list, valueNode, Node.bare, valueNodes_eq_map, bareNodes_eq_map,
        List.map_map]
      exact hatom
  | @map entries hkeys _ ih =>
    cases hwritable with
    | map _ hentries =>
      have hatom := atom_entries entries (fun entry hentry => keyReading_word (hkeys entry hentry))
        fun entry hentry => (ih entry hentry (hentries entry hentry)).expression
      rw [toList_display_map, valueNode, Node.bare, valueEntries_eq_map, bareEntries_eq_map,
        List.map_map]
      exact hatom

end Value

/-! ## A pair at the end of a text -/

section Parsing

variable {path : String} {text : List Char}

/-- A text that is one pair is read as the value behind the colon. -/
theorem body_pair (path : String) (text : List Char) :
    body path (12 * text.length + 48) false (Cursor.start ('x' :: ':' :: ' ' :: text)) = (do
      let (node, c) ← pairValue path (12 * text.length + 46) "x" ⟨path, 1, 1⟩ ⟨' ' :: text, 1, 3⟩
      let ((nodes, ending), c) ← body path (12 * text.length + 47) false c
      .ok ((node :: nodes, ending), c)) := by
  have hrest : (Cursor.start ('x' :: ':' :: ' ' :: text)).rest = ['x'] ++ ':' :: ' ' :: text := rfl
  have hstatement : statement path (12 * text.length + 47)
      (Cursor.start ('x' :: ':' :: ' ' :: text)) =
      pairValue path (12 * text.length + 46) "x" ⟨path, 1, 1⟩ ⟨' ' :: text, 1, 3⟩ := by
    rw [statement_name path (by simp; decide) (by decide) (boundary_cons (by decide)) hrest]
    rfl
  have hcloser : ∀ closer ∈ closers,
      (Cursor.start ('x' :: ':' :: ' ' :: text)).atKeyword closer = false :=
    @notCloser_name 'x' [] _ (by simp; decide) (by decide) (Or.inl ⟨_, rfl⟩)
  rw [body, Cursor.skipBlank_solid (solid_cons (by decide))]
  dsimp only
  rw [hcloser _ (by decide), hcloser _ (by decide), hcloser _ (by decide), hstatement]
  rfl

theorem nestingBound_pair (text : List Char) :
    nestingBound ('x' :: ':' :: ' ' :: text) = 12 * text.length + 48 := by
  simp only [nestingBound, List.length_cons]
  omega

theorem skipInline_value (htext : Tight text) :
    (⟨' ' :: text, 1, 3⟩ : Cursor).skipInline = ⟨text, 1, 4⟩ :=
  Cursor.skipInline_blank rfl htext

theorem parse_of_binary {node : Node} {after : Cursor} (htext : Tight text)
    (hread : binary path (12 * text.length + 46) 1 ⟨text, 1, 4⟩ = .ok (node, after))
    (hafter : after.rest = []) {source : String}
    (hsource : source.toList = 'x' :: ':' :: ' ' :: text) :
    parse path source = .ok ⟨path, [.pair ⟨"x", node, ⟨path, 1, 1⟩⟩]⟩ := by
  have hend : after.expectLineEnd path = .ok after := by
    have htight : Tight after.rest := by
      rw [hafter]
      rintro c ⟨⟩
    have hline : after.atLineEnd = true := by
      rw [Cursor.atLineEnd, Cursor.peek, hafter]
      rfl
    have hstep : after.step = after := by
      unfold Cursor.step
      rw [hafter]
    rw [Cursor.expectLineEnd, Cursor.skipInline_tight htight, if_pos hline, hstep]
  have hnone := (closes_eof path false).reads (12 * text.length + 47) after hafter (Nat.succ_pos _)
  rw [parse, parseChars, hsource, nestingBound_pair, body_pair, pairValue, skipInline_value htext,
    hread, ok_bind]
  dsimp only
  rw [hend, ok_bind, ok_bind]
  dsimp only
  rw [hnone]
  rfl

theorem binary_of_parse {node : Node} {span : Span} (htext : Tight text) {source : String}
    (hsource : source.toList = 'x' :: ':' :: ' ' :: text)
    (hparse : parse path source = .ok ⟨path, [.pair ⟨"x", node, span⟩]⟩) :
    ∃ after, binary path (12 * text.length + 46) 1 ⟨text, 1, 4⟩ = .ok (node, after) := by
  rw [parse, parseChars, hsource, nestingBound_pair, body_pair, pairValue,
    skipInline_value htext] at hparse
  obtain ⟨nodes, hnodes, hparse⟩ := bind_eq_ok.1 hparse
  cases hparse
  obtain ⟨⟨⟨nodes, ending⟩, last⟩, hbody, hnodes⟩ := bind_eq_ok.1 hnodes
  obtain ⟨⟨pair, line⟩, hpair, hbody⟩ := bind_eq_ok.1 hbody
  obtain ⟨⟨⟨more, ending'⟩, last'⟩, -, hbody⟩ := bind_eq_ok.1 hbody
  obtain ⟨⟨value, after⟩, hread, hpair⟩ := bind_eq_ok.1 hpair
  obtain ⟨end', -, hpair⟩ := bind_eq_ok.1 hpair
  cases hpair
  cases hbody
  dsimp only at hnodes
  split at hnodes
  · cases hnodes
    exact ⟨after, hread⟩
  · cases hnodes

end Parsing

end Provision
