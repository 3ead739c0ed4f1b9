import Provision.Proofs.Language.Grammar

/-!
# Reading keys in quotes

A key in quotes is read like a value, but it has to come out as one text.  So it is
told by the lexical rule for its quotes alone: a double-quoted key has no references.
-/

namespace Provision.Language

/-- A text starts with a string in quotes, and goes on behind it with the tail. -/
inductive Quoted (key : List Char) : List Char → List Char → Prop
  | single {rest : List Char} {n : Nat} (h : singleQuoted rest = .ok (key, n)) :
    Quoted key ('\'' :: rest) (rest.drop n)
  | double {rest tail : List Char} {n : Nat} (h : literalPart rest = .ok (key, n))
    (hclose : rest.drop n = '"' :: tail) : Quoted key ('"' :: rest) tail

variable {file : String} {n : Nat} {c after : Cursor}

theorem Cursor.rest_of_lexeme {s : List Char} {result : Except Fault (List Char × Nat)}
    (h : lexeme file c result = .ok (s, after)) :
    ∃ n, result = .ok (s, n) ∧ after.rest = c.rest.drop n := by
  cases result with
  | error fault => cases h
  | ok read =>
    cases h
    exact ⟨read.2, rfl, Cursor.rest_advance _ _⟩

theorem interpolation_leadOf (s : List Char) :
    interpolation (leadOf s) = .text (String.ofList s) := by
  cases s with
  | nil => rfl
  | cons c rest => rfl

/-- A double-quoted string that stands for a text is one literal part. -/
theorem literal_of_stringParts {parts : List Node} {s : String}
    (h : stringParts file n c = .ok (parts, after)) (htext : interpolation parts = .text s) :
    ∃ k, literalPart c.rest = .ok (s.toList, k) ∧ c.rest.drop k = '"' :: after.rest := by
  cases n with
  | zero => cases h
  | succ n =>
    rw [stringParts] at h
    obtain ⟨⟨lead, middle⟩, hlexeme, h⟩ := bind_eq_ok.1 h
    obtain ⟨k, hpart, hmiddle⟩ := Cursor.rest_of_lexeme hlexeme
    dsimp only at h
    split at h
    · next hsees =>
      cases h
      cases (interpolation_leadOf lead).symm.trans htext
      rw [String.toList_ofList]
      exact ⟨k, hpart, hmiddle ▸ Cursor.rest_of_sees hsees⟩
    · obtain ⟨⟨part, next⟩, hreference, h⟩ := bind_eq_ok.1 h
      obtain ⟨⟨more, last⟩, -, h⟩ := bind_eq_ok.1 h
      cases h
      -- a reference among the parts leaves no text
      have hnone := (Node.isStatement_of_isReference ((readsValues file n).reference hreference).1).2
      rw [interpolation_of_asText?_eq_none ⟨part, by simp, hnone⟩] at htext
      cases htext

theorem quoted_of_stringKey {key : String} (hquote : (c.sees '\'' || c.sees '"') = true)
    (h : stringKey file n c = .ok (key, after)) :
    Quoted key.toList c.rest after.rest := by
  cases n with
  | zero => cases h
  | succ n =>
    rw [stringKey] at h
    obtain ⟨⟨node, next⟩, hread, h⟩ := bind_eq_ok.1 h
    dsimp only at h
    split at h
    · cases h
      cases n with
      | zero => cases hread
      | succ n =>
        rcases Bool.or_eq_true_iff.1 hquote with hsees | hsees
        · have hrest := Cursor.rest_of_sees hsees
          rw [primary, hrest] at hread
          obtain ⟨⟨s, last⟩, hlexeme, hread⟩ := bind_eq_ok.1 hread
          cases hread
          obtain ⟨k, hsingle, hlast⟩ := Cursor.rest_of_lexeme hlexeme
          rw [String.toList_ofList, hrest, hlast]
          exact .single hsingle
        · have hrest := Cursor.rest_of_sees hsees
          rw [primary, hrest] at hread
          obtain ⟨⟨parts, last⟩, hparts, hread⟩ := bind_eq_ok.1 hread
          injection hread with hread
          injection hread with htext hlast
          subst hlast
          obtain ⟨k, hliteral, hclose⟩ := literal_of_stringParts hparts htext
          rw [hrest]
          exact .double hliteral hclose
    · cases h

end Provision.Language
