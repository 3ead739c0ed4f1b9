import Mathlib.Data.List.Basic
import Mathlib.Data.List.TakeWhile
import Mathlib.Tactic.Tauto
import Provision.Key
import Provision.Proofs.Language.Lexical
import Provision.Proofs.Outcome

/-!
# Keys and their texts

The text of a key is its type, a space and its name.  No type holds a blank, so
the text comes apart at that space again.  But what reads it drops the blanks at
both ends of the name, and a name may have some.
-/

namespace Provision

open Provision.Language (IsWord IsTypeText)

/-! ## Blanks at the ends of a text -/

namespace Text

/-- A text that neither starts nor ends with a blank, and is not empty. -/
structure Trimmed (text : List Char) : Prop where
  ne_nil : text ≠ []
  head : ∀ c ∈ text.head?, isBlank c = false
  last : ∀ c ∈ text.getLast?, isBlank c = false

theorem dropWhile_of_head {text : List Char} (h : ∀ c ∈ text.head?, isBlank c = false) :
    text.dropWhile isBlank = text := by
  cases text with
  | nil => rfl
  | cons c rest => rw [List.dropWhile_cons, h c rfl, if_neg Bool.false_ne_true]

/-- Of a text with blanks around it the blanks are dropped. -/
theorem trim_around {lead core trail : List Char} (hlead : ∀ c ∈ lead, isBlank c = true)
    (hcore : Trimmed core) (htrail : ∀ c ∈ trail, isBlank c = true) :
    trim (lead ++ (core ++ trail)) = core := by
  have hstart : trimStart (lead ++ (core ++ trail)) = core ++ trail := by
    unfold trimStart
    rw [List.dropWhile_append_of_pos hlead]
    refine dropWhile_of_head fun c hc => hcore.head c ?_
    rwa [List.head?_append_of_ne_nil _ hcore.ne_nil] at hc
  have hend : (core ++ trail).reverse.dropWhile isBlank = core.reverse := by
    rw [List.reverse_append,
      List.dropWhile_append_of_pos fun c hc => htrail c (List.mem_reverse.1 hc)]
    refine dropWhile_of_head fun c hc => hcore.last c ?_
    rwa [List.head?_reverse] at hc
  unfold trim trimEnd
  rw [hstart, hend, List.reverse_reverse]

theorem Trimmed.trim_eq {text : List Char} (h : Trimmed text) : trim text = text := by
  have haround : trim ([] ++ (text ++ [])) = text :=
    trim_around (List.forall_mem_nil _) h (List.forall_mem_nil _)
  rwa [List.nil_append, List.append_nil] at haround

/-- Behind its leading blanks a text starts with another character. -/
theorem exists_lead {text : List Char} (h : text.all isBlank = false) :
    ∃ lead first rest, text = lead ++ first :: rest ∧ (∀ c ∈ lead, isBlank c = true) ∧
      isBlank first = false := by
  have hsplit := List.takeWhile_append_dropWhile (p := isBlank) (l := text)
  cases hrest : text.dropWhile isBlank with
  | nil =>
    rw [List.dropWhile_eq_nil_iff, ← List.all_eq_true, h] at hrest
    cases hrest
  | cons first rest =>
    have hnot := List.head?_dropWhile_not isBlank text
    rw [hrest] at hsplit hnot
    exact ⟨_, first, rest, hsplit.symm, fun c hc => List.mem_takeWhile_imp hc, by simpa using hnot⟩

/-- A text that is not all blank is one without blanks at its ends, with blanks around it. -/
theorem exists_around {text : List Char} (h : text.all isBlank = false) :
    ∃ lead core trail, text = lead ++ (core ++ trail) ∧ (∀ c ∈ lead, isBlank c = true) ∧
      Trimmed core ∧ ∀ c ∈ trail, isBlank c = true := by
  obtain ⟨lead, first, rest, rfl, hlead, hfirst⟩ := exists_lead h
  have hback : (first :: rest).reverse.all isBlank = false := by
    rw [List.all_reverse, List.all_cons, hfirst, Bool.false_and]
  obtain ⟨trail, last, front, hreverse, htrail, hlast⟩ := exists_lead hback
  have hrest : first :: rest = (front.reverse ++ [last]) ++ trail.reverse := by
    rw [← List.reverse_reverse (first :: rest), hreverse]
    simp
  refine ⟨lead, front.reverse ++ [last], trail.reverse, by rw [hrest], hlead, ⟨?_, ?_, ?_⟩, ?_⟩
  · simp
  · intro c hc
    have hhead := congrArg List.head? hrest
    rw [List.head?_append_of_ne_nil _ (by simp), hc] at hhead
    cases hhead
    exact hfirst
  · intro c hc
    rw [List.getLast?_concat] at hc
    cases hc
    exact hlast
  · exact fun c hc => htrail c (List.mem_reverse.1 hc)

theorem trim_of_all {text : List Char} (h : text.all isBlank = true) : trim text = [] := by
  have hstart : trimStart text = [] := List.dropWhile_eq_nil_iff.2 (List.all_eq_true.1 h)
  unfold trim
  rw [hstart]
  rfl

/-- What is left when blanks are dropped has none at its ends, unless nothing is left. -/
theorem trimmed_trim {text : List Char} (h : text.all isBlank = false) : Trimmed (trim text) := by
  obtain ⟨lead, core, trail, rfl, hlead, hcore, htrail⟩ := exists_around h
  rw [trim_around hlead hcore htrail]
  exact hcore

theorem Trimmed.not_all {text : List Char} (h : Trimmed text) : text.all isBlank = false := by
  cases text with
  | nil => exact absurd rfl h.ne_nil
  | cons c rest => rw [List.all_cons, h.head c rfl, Bool.false_and]

theorem splitFirst_append {mark : Char} {front : List Char} (h : mark ∉ front) (back : List Char) :
    splitFirst mark (front ++ mark :: back) = some (front, back) := by
  induction front with
  | nil => rw [List.nil_append, splitFirst, if_pos rfl]
  | cons c rest ih =>
    rw [List.mem_cons, not_or] at h
    rw [List.cons_append, splitFirst, if_neg (Ne.symm h.1), ih h.2]
    rfl

theorem splitDoubleColon_eq_some {text front back : List Char}
    (h : splitDoubleColon text = some (front, back)) :
    text = front ++ [':', ':'] ++ back := by
  induction text generalizing front with
  | nil => cases h
  | cons c rest ih =>
    unfold splitDoubleColon at h
    split at h
    · next hcolon =>
      cases h
      obtain ⟨next, rest, rfl⟩ := List.exists_cons_of_ne_nil (l := rest) (by
        rintro rfl
        cases hcolon.2)
      have hnext : next = ':' := Option.some.inj hcolon.2
      rw [hcolon.1, hnext]
      rfl
    · obtain ⟨⟨before, after⟩, hsplit, heq⟩ := Option.map_eq_some_iff.1 h
      cases heq
      rw [ih hsplit]
      rfl

end Text

/-! ## Names of types -/

theorem isWord_of_isTypeSegment {segment : List Char} (h : isTypeSegment segment = true) :
    IsWord segment := by
  unfold isTypeSegment at h
  rw [Bool.and_eq_true, Bool.not_eq_true', List.isEmpty_eq_false_iff] at h
  refine ⟨h.1, fun c hc => ?_⟩
  have hchar := List.all_eq_true.1 h.2 c hc
  unfold isTypeNameChar at hchar
  unfold Language.isWordChar
  simp only [Bool.or_eq_true] at hchar ⊢
  tauto

namespace TypeName

/-- The two halves of the name of a type. -/
theorem text_eq (name : TypeName) :
    ∃ space kind, IsWord space ∧ IsWord kind ∧ name.space = String.ofList space ∧
      name.text.toList = space ++ [':', ':'] ++ kind := by
  have hname := name.wellFormed
  unfold isTypeName at hname
  cases hsplit : Text.splitDoubleColon name.text.toList with
  | none =>
    rw [hsplit] at hname
    cases hname
  | some halves =>
    obtain ⟨space, kind⟩ := halves
    rw [hsplit, Bool.and_eq_true] at hname
    refine ⟨space, kind, isWord_of_isTypeSegment hname.1, isWord_of_isTypeSegment hname.2, ?_,
      Text.splitDoubleColon_eq_some hsplit⟩
    unfold TypeName.space
    rw [hsplit]

theorem isTypeText (name : TypeName) : IsTypeText name.text := by
  obtain ⟨space, kind, hspace, hkind, -, htext⟩ := name.text_eq
  exact ⟨space, kind, hspace, hkind, htext⟩

theorem ofText_text (name : TypeName) : TypeName.ofText name.text = .ok name :=
  dif_pos name.wellFormed

end TypeName

theorem isBlank_of_isWordChar {c : Char} (h : Language.isWordChar c = true) :
    isBlank c = false := by
  have hrange : 33 ≤ c.toNat ∧ c.toNat ≤ 122 := by
    unfold Language.isWordChar Char.isAlphanum Char.isAlpha Char.isUpper Char.isLower
      Char.isDigit at h
    simp only [Bool.or_eq_true, Bool.and_eq_true, decide_eq_true_eq, beq_iff_eq, ge_iff_le,
      UInt32.le_iff_toNat_le] at h
    rcases h with (((((((h | h) | h) | rfl) | rfl) | rfl) | rfl) | rfl)
    · exact ⟨Nat.le_trans (by decide) h.1, Nat.le_trans h.2 (by decide)⟩
    · exact ⟨Nat.le_trans (by decide) h.1, Nat.le_trans h.2 (by decide)⟩
    · exact ⟨Nat.le_trans (by decide) h.1, Nat.le_trans h.2 (by decide)⟩
    all_goals decide
  unfold isBlank
  simp only [Bool.or_eq_false_iff, Bool.and_eq_false_iff, decide_eq_false_iff_not,
    beq_eq_false_iff_ne]
  omega

/-- No character in the name of a type is blank, and there is one. -/
theorem TypeName.solid (name : TypeName) :
    name.text.toList ≠ [] ∧ ∀ c ∈ name.text.toList, isBlank c = false := by
  obtain ⟨space, kind, hspace, hkind, -, htext⟩ := name.text_eq
  rw [htext]
  refine ⟨by simp, fun c hc => ?_⟩
  rcases List.mem_append.1 hc with hc | hc
  · rcases List.mem_append.1 hc with hc | hc
    · exact isBlank_of_isWordChar (hspace.all c hc)
    · have hcolons : ∀ c ∈ [':', ':'], isBlank c = false :=
        List.forall_mem_cons.2 ⟨rfl, List.forall_mem_singleton.2 rfl⟩
      exact hcolons c hc
  · exact isBlank_of_isWordChar (hkind.all c hc)

/-! ## Reading keys -/

namespace Key

variable {type : TypeName} {name text : String} {key : Key}

theorem make_eq_ok : make type name = .ok key ↔ isBlankText name = false ∧ key = ⟨type, name⟩ := by
  unfold make
  split
  · next hblank => simp [hblank]
  · next hblank => simp [hblank, eq_comm]

/-- The text of a key is read as the key without the blanks at the ends of its name. -/
theorem ofText_text (h : isBlankText key.name = false) :
    ofText key.text = .ok ⟨key.type, trimText key.name⟩ := by
  obtain ⟨lead, core, trail, hname, hlead, hcore, htrail⟩ := Text.exists_around h
  obtain ⟨hne, hsolid⟩ := key.type.solid
  -- what is read: the text up to the last character of the name that is not blank
  have htrimmed : Text.Trimmed (key.type.text.toList ++ ' ' :: (lead ++ core)) := by
    refine ⟨by simp, fun c hc => ?_, fun c hc => hcore.last c ?_⟩
    · rw [List.head?_append_of_ne_nil _ hne] at hc
      exact hsolid c (List.mem_of_mem_head? hc)
    · rwa [← List.cons_append, ← List.append_assoc,
        List.getLast?_append_of_ne_nil _ hcore.ne_nil] at hc
  have htext : key.text.toList =
      [] ++ ((key.type.text.toList ++ ' ' :: (lead ++ core)) ++ trail) := by
    unfold Key.text
    rw [String.toList_append, String.toList_append, hname]
    simp
  have htrim : Text.trim key.text.toList = key.type.text.toList ++ ' ' :: (lead ++ core) := by
    rw [htext, Text.trim_around (List.forall_mem_nil _) htrimmed htrail]
  have hspace : ' ' ∉ key.type.text.toList := fun hmem =>
    absurd (hsolid ' ' hmem) (by decide)
  have hread : Text.trim (lead ++ core) = Text.trim key.name.toList := by
    have hfront : Text.trim (lead ++ (core ++ [])) = core :=
      Text.trim_around hlead hcore (List.forall_mem_nil _)
    rw [List.append_nil] at hfront
    rw [hfront, hname, Text.trim_around hlead hcore htrail]
  unfold ofText
  rw [htrim, Text.splitFirst_append hspace]
  dsimp only
  rw [String.ofList_toList, key.type.ofText_text, ok_bind, hread]
  refine make_eq_ok.2 ⟨?_, rfl⟩
  unfold isBlankText
  rw [String.toList_ofList]
  exact (Text.trimmed_trim h).not_all

/-- A key that is read has no blanks at the ends of its name. -/
theorem trimmed_of_ofText (h : ofText text = .ok key) : Text.Trimmed key.name.toList := by
  unfold ofText at h
  split at h
  · cases h
  · next type name _ =>
    obtain ⟨found, -, hmake⟩ := bind_eq_ok.1 h
    obtain ⟨hblank, rfl⟩ := make_eq_ok.1 hmake
    dsimp only
    rw [String.toList_ofList]
    cases hall : name.all isBlank with
    | false => exact Text.trimmed_trim hall
    | true =>
      rw [Text.trim_of_all hall] at hblank
      cases hblank

/-- The text of a key that may be made of a type and a name is read as that type and the name
without the blanks at its ends, hence as the key itself exactly when there are none; and every key
that is read from some text is read from its own text again. -/
theorem ofText_text_trims (type : TypeName) (name text : String) (key : Key) :
    (make type name = .ok key →
      ofText key.text = .ok ⟨type, trimText name⟩ ∧
        (ofText key.text = .ok key ↔ trimText name = name)) ∧
      (ofText text = .ok key → ofText key.text = .ok key) := by
  constructor
  · intro hmake
    obtain ⟨hblank, rfl⟩ := make_eq_ok.1 hmake
    have hread : ofText (Key.text ⟨type, name⟩) = .ok ⟨type, trimText name⟩ := ofText_text hblank
    refine ⟨hread, ?_⟩
    rw [hread, Except.ok.injEq, Key.mk.injEq]
    exact and_iff_right rfl
  · intro hread
    have htrimmed := trimmed_of_ofText hread
    rw [ofText_text htrimmed.not_all]
    unfold trimText
    rw [htrimmed.trim_eq, String.ofList_toList]

/-- The key of a jar of some name. -/
def jar (name : String) : Key :=
  ⟨⟨"pantry::jar", rfl⟩, name⟩

theorem ofText_text_trims_jars :
    (make (jar "plum jam").type "plum jam" = .ok (jar "plum jam") ∧
        ofText (jar "plum jam").text = .ok (jar "plum jam")) ∧
      ofText "\tpantry::jar  salt " = .ok (jar "salt") ∧
        ofText (jar "salt").text = .ok (jar "salt") := by
  have hmake : make (jar "plum jam").type "plum jam" = .ok (jar "plum jam") := by decide
  have hread : ofText "\tpantry::jar  salt " = .ok (jar "salt") := by decide
  have hjam := ((ofText_text_trims _ _ "" _).1 hmake).2
  have hsalt := (ofText_text_trims (jar "").type "" _ _).2 hread
  exact ⟨⟨hmake, hjam.2 (by decide)⟩, hread, hsalt⟩

/-- A name may start with a blank, but the text of its key is read without it. -/
theorem leading_blank_is_dropped :
    make (jar " salt").type " salt" = .ok (jar " salt") ∧
      ofText (jar " salt").text = .ok (jar "salt") ∧ jar "salt" ≠ jar " salt" := by
  decide

end Key

end Provision
