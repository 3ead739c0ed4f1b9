import Mathlib.Data.List.TakeWhile
import Provision.Json.Reader
import Provision.Proofs.Decimal.Text

/-!
# The parts of a document read back

A string is read from the text it is quoted as, and a number from the text it is
written as, up to where a comma, a line break or the end of the text follows.
Natural numbers are kept as long as they fit into 64 bits.  Reading other numbers
rounds twice, so not every one of them comes back.
-/

namespace Provision.Json

open Provision.Decimal (natDigits isDigit_of_mem_natDigits natDigits_ne_nil natOfDigits_eq
  natOfDigits_natDigits)

/-! ## Strings -/

theorem hexValue?_hexDigit {n : Nat} (h : n < 16) : hexValue? (hexDigit n) = some n := by
  have hall : ∀ n < 16, hexValue? (hexDigit n) = some n := by decide
  exact hall n h

theorem hexQuad?_control {n : Nat} (h : n < 32) (tail : List Char) :
    hexQuad? ('0' :: '0' :: hexDigit (n / 16) :: hexDigit (n % 16) :: tail) = some (n, tail) := by
  have hzero : hexValue? '0' = some 0 := by decide
  have hhigh := hexValue?_hexDigit (n := n / 16) (by omega)
  have hlow := hexValue?_hexDigit (n := n % 16) (by omega)
  have hvalue : ((0 * 16 + 0) * 16 + n / 16) * 16 + n % 16 = n := by omega
  simp only [hexQuad?, hzero, hhigh, hlow, Option.bind_eq_bind, Option.bind_some, hvalue]

/-- How a character is quoted: after a backslash, with digits, or as it is. -/
theorem escapedChar_cases (c : Char) :
    (∃ d, d ≠ 'u' ∧ simpleEscape? d = some c ∧ escapedChar c = ['\\', d]) ∨
    (c.toNat < 32 ∧ escapedChar c =
      ['\\', 'u', '0', '0', hexDigit (c.toNat / 16), hexDigit (c.toNat % 16)]) ∨
    (c ≠ '"' ∧ c ≠ '\\' ∧ ¬ c.toNat < 32 ∧ escapedChar c = [c]) := by
  by_cases hquote : c = '"'
  · exact .inl ⟨'"', by subst hquote; decide⟩
  by_cases hslash : c = '\\'
  · exact .inl ⟨'\\', by subst hslash; decide⟩
  by_cases hline : c = '\n'
  · exact .inl ⟨'n', by subst hline; decide⟩
  by_cases hreturn : c = '\r'
  · exact .inl ⟨'r', by subst hreturn; decide⟩
  by_cases htab : c = '\t'
  · exact .inl ⟨'t', by subst htab; decide⟩
  by_cases hback : c.toNat = 8
  · obtain rfl : c = Char.ofNat 8 := by rw [← hback, Char.ofNat_toNat]
    exact .inl ⟨'b', by decide⟩
  by_cases hfeed : c.toNat = 12
  · obtain rfl : c = Char.ofNat 12 := by rw [← hfeed, Char.ofNat_toNat]
    exact .inl ⟨'f', by decide⟩
  rw [escapedChar, if_neg hquote, if_neg hslash, if_neg hline, if_neg hreturn, if_neg htab,
    if_neg hback, if_neg hfeed]
  by_cases hcontrol : c.toNat < 32
  · exact .inr (.inl ⟨hcontrol, if_pos hcontrol⟩)
  · exact .inr (.inr ⟨hquote, hslash, hcontrol, if_neg hcontrol⟩)

/-- A part of a quoted string stands for a character by itself. -/
def Mark.Says (mark : Mark) (c : Char) : Prop :=
  mark = .char c ∨ mark = .escape c.toNat ∧ c.toNat < 32

theorem readMarks_escapedChar (c : Char) :
    ∃ mark : Mark, mark.Says c ∧ ∀ fuel tail, readMarks (fuel + 1) (escapedChar c ++ tail) =
      (readMarks fuel tail).map fun read => (mark :: read.1, read.2) := by
  obtain ⟨d, hu, hescape, htext⟩ | ⟨hcontrol, htext⟩ | ⟨hquote, hslash, hplain, htext⟩ :=
    escapedChar_cases c
  · refine ⟨.char c, .inl rfl, fun fuel tail => ?_⟩
    show readMarks (fuel + 1) (escapedChar c ++ tail) = _
    rw [htext, List.cons_append, List.cons_append, List.nil_append, readMarks, hescape]
    · cases readMarks fuel tail <;> rfl
    · exact fun heq => hu heq
  · refine ⟨.escape c.toNat, .inr ⟨rfl, hcontrol⟩, fun fuel tail => ?_⟩
    simp only [htext, List.cons_append, List.nil_append, readMarks, hexQuad?_control hcontrol,
      Option.bind_eq_bind, Option.bind_some]
    cases readMarks fuel tail <;> rfl
  · refine ⟨.char c, .inl rfl, fun fuel tail => ?_⟩
    rw [htext, List.cons_append, List.nil_append, readMarks, if_neg (not_or.2 ⟨hslash, hplain⟩)]
    · cases readMarks fuel tail <;> rfl
    · exact hquote
    · exact fun rest heq => (hslash heq).elim
    · exact fun c rest heq => (hslash heq).elim

/-- The parts of a quoted string stand for its characters one by one. -/
theorem readMarks_escaped (s tail : List Char) (fuel : Nat) (h : s.length < fuel) :
    ∃ marks : List Mark, List.Forall₂ Mark.Says marks s ∧
      readMarks fuel (s.flatMap escapedChar ++ '"' :: tail) = some (marks, tail) := by
  induction s generalizing fuel with
  | nil =>
    cases fuel with
    | zero => exact absurd h (Nat.not_lt_zero _)
    | succ fuel => exact ⟨[], .nil, rfl⟩
  | cons c rest ih =>
    cases fuel with
    | zero => exact absurd h (Nat.not_lt_zero _)
    | succ fuel =>
      obtain ⟨mark, hmark, hread⟩ := readMarks_escapedChar c
      obtain ⟨marks, hmarks, hrest⟩ := ih fuel (Nat.lt_of_succ_lt_succ h)
      refine ⟨mark :: marks, .cons hmark hmarks, ?_⟩
      rw [List.flatMap_cons, List.append_assoc, hread, hrest]
      rfl

/-- An escape that is no half of a character stands for its character whatever follows. -/
theorem characters?_control {n : Nat} (h : n < 32) (marks : List Mark) :
    characters? (.escape n :: marks) = (characters? marks).map (Char.ofNat n :: ·) := by
  have hfirst : isFirstHalf n = false := by
    rw [isFirstHalf, Bool.and_eq_false_iff]
    exact .inl (decide_eq_false (by omega))
  have hsecond : isSecondHalf n = false := by
    rw [isSecondHalf, Bool.and_eq_false_iff]
    exact .inl (decide_eq_false (by omega))
  match marks with
  | [] => simp [characters?, hfirst, hsecond]
  | .char c :: rest => simp [characters?, hfirst, hsecond]
  | .escape second :: rest => simp [characters?, hfirst, hsecond]

theorem characters?_says {marks : List Mark} {s : List Char}
    (h : List.Forall₂ Mark.Says marks s) : characters? marks = some s := by
  induction h with
  | nil => rfl
  | @cons mark c marks s hmark _ ih =>
    obtain rfl | ⟨rfl, hcontrol⟩ := hmark
    · rw [characters?, ih]
      rfl
    · rw [characters?_control hcontrol, ih, Char.ofNat_toNat]
      rfl

theorem length_le_flatMap_escapedChar (s : List Char) :
    s.length ≤ (s.flatMap escapedChar).length := by
  induction s with
  | nil => exact Nat.le_refl _
  | cons c rest ih =>
    have hpos : 1 ≤ (escapedChar c).length := by
      obtain ⟨d, -, -, htext⟩ | ⟨-, htext⟩ | ⟨-, -, -, htext⟩ := escapedChar_cases c <;>
        simp [htext]
    rw [List.flatMap_cons, List.length_append, List.length_cons]
    omega

/-- A string is read from the text it is quoted as. -/
theorem readMarks_quoted (s : String) (tail : List Char) :
    ∃ marks, textOf? marks = some s ∧
      readMarks ((s.toList.flatMap escapedChar ++ '"' :: tail).length + 1)
        (s.toList.flatMap escapedChar ++ '"' :: tail) = some (marks, tail) := by
  have hlength := length_le_flatMap_escapedChar s.toList
  obtain ⟨marks, hmarks, hread⟩ := readMarks_escaped s.toList tail
    ((s.toList.flatMap escapedChar ++ '"' :: tail).length + 1) (by
      rw [List.length_append]
      omega)
  refine ⟨marks, ?_, hread⟩
  rw [textOf?, characters?_says hmarks, Option.map_some, String.ofList_toList]

/-! ## Numbers -/

/-- A text with which a number does not go on. -/
def Ends (tail : List Char) : Prop :=
  ∀ c ∈ tail.head?, c.isDigit = false ∧ c ≠ '.' ∧ c ≠ 'e' ∧ c ≠ 'E'

variable {text tail rest : List Char} {parts : NumberText}

theorem takeWhile_digits_append (htail : Ends tail) (text : List Char) :
    (text ++ tail).takeWhile Char.isDigit = text.takeWhile Char.isDigit := by
  induction text with
  | nil =>
    cases tail with
    | nil => rfl
    | cons c rest => simp [(htail c rfl).1]
  | cons c rest ih =>
    rw [List.cons_append, List.takeWhile_cons, List.takeWhile_cons, ih]

theorem dropWhile_digits_append (htail : Ends tail) (text : List Char) :
    (text ++ tail).dropWhile Char.isDigit = text.dropWhile Char.isDigit ++ tail := by
  induction text with
  | nil =>
    cases tail with
    | nil => rfl
    | cons c rest => simp [(htail c rfl).1]
  | cons c rest ih =>
    rw [List.cons_append, List.dropWhile_cons, List.dropWhile_cons, ih]
    split <;> rfl

/-- Whether an exponent has a minus sign, and the text behind its sign. -/
def exponentSign : List Char → Bool × List Char
  | '-' :: rest => (true, rest)
  | '+' :: rest => (false, rest)
  | rest => (false, rest)

/-- The digits behind a point if there is one, and the text behind them. -/
def readFraction : List Char → Option (List Char × List Char)
  | '.' :: behind =>
    if (behind.takeWhile Char.isDigit).isEmpty then none
    else some (behind.takeWhile Char.isDigit, behind.dropWhile Char.isDigit)
  | rest => some ([], rest)

/-- The exponent if there is one, and the text behind it. -/
def readPower : List Char → Option (Option Int × List Char)
  | 'e' :: behind | 'E' :: behind =>
    (readExponent behind).map fun power => (some power.1, power.2)
  | rest => some (none, rest)

theorem readExponent_eq (text : List Char) :
    readExponent text =
      if ((exponentSign text).2.takeWhile Char.isDigit).isEmpty then none
      else
        let e : Int := Decimal.natOfDigits ((exponentSign text).2.takeWhile Char.isDigit)
        some (if (exponentSign text).1 then -e else e,
          (exponentSign text).2.dropWhile Char.isDigit) := by
  rfl

theorem splitNumber_eq (text : List Char) :
    splitNumber text =
      let negative := text.head? == some '-'
      let body := if negative then text.tail else text
      let whole := body.takeWhile Char.isDigit
      if whole.isEmpty || (whole.head? == some '0' && whole.length != 1) then none
      else
        (readFraction (body.dropWhile Char.isDigit)).bind fun fraction =>
          (readPower fraction.2).map fun power =>
            (⟨negative, whole, fraction.1, power.1⟩, power.2) := by
  unfold splitNumber
  dsimp only
  generalize (if (text.head? == some '-') = true then text.tail else text) = body
  split
  · rfl
  generalize body.dropWhile Char.isDigit = rest
  have hpower (f : Option Int × List Char → NumberText × List Char) (rest : List Char) :
      (match rest with
        | 'e' :: behind => (readExponent behind).bind fun power => some (f (some power.1, power.2))
        | 'E' :: behind => (readExponent behind).bind fun power => some (f (some power.1, power.2))
        | _ => some (f (none, rest))) = (readPower rest).map f := by
    unfold readPower
    split
    · cases readExponent _ <;> rfl
    · cases readExponent _ <;> rfl
    · rfl
  split
  · rw [readFraction]
    split
    · rfl
    · rw [Option.bind_some, ← hpower]
      rfl
  · rename_i hpoint
    rw [readFraction, Option.bind_some, ← hpower]
    · rfl
    · exact hpoint

theorem exponentSign_append (hne : text ≠ []) (tail : List Char) :
    exponentSign (text ++ tail) = ((exponentSign text).1, (exponentSign text).2 ++ tail) := by
  cases text with
  | nil => exact absurd rfl hne
  | cons c rest =>
    by_cases hminus : c = '-'
    · subst hminus
      rfl
    by_cases hplus : c = '+'
    · subst hplus
      rfl
    have hplain (rest : List Char) : exponentSign (c :: rest) = (false, c :: rest) := by
      rw [exponentSign]
      · exact fun _ heq => hminus (List.cons.inj heq).1
      · exact fun _ heq => hplus (List.cons.inj heq).1
    rw [List.cons_append, hplain, hplain]
    rfl

theorem readExponent_append {power : Int × List Char} (htail : Ends tail)
    (h : readExponent text = some power) :
    readExponent (text ++ tail) = some (power.1, power.2 ++ tail) := by
  have hne : text ≠ [] := by
    rintro rfl
    cases h
  rw [readExponent_eq] at h ⊢
  rw [exponentSign_append hne, takeWhile_digits_append htail, dropWhile_digits_append htail]
  split at h
  · cases h
  · rename_i hdigits
    rw [if_neg hdigits]
    cases h
    rfl

theorem readFraction_append {fraction : List Char × List Char} (htail : Ends tail)
    (h : readFraction text = some fraction) :
    readFraction (text ++ tail) = some (fraction.1, fraction.2 ++ tail) := by
  unfold readFraction at h
  split at h
  · split at h
    · cases h
    · rename_i hdigits
      cases h
      rw [List.cons_append, readFraction, takeWhile_digits_append htail,
        dropWhile_digits_append htail, if_neg hdigits]
  · rename_i hpoint
    cases h
    rw [readFraction]
    intro behind heq
    cases text with
    | nil => exact (htail '.' (by rw [List.nil_append] at heq; rw [heq]; rfl)).2.1 rfl
    | cons c rest =>
      cases heq
      exact hpoint rest rfl

theorem readPower_append {power : Option Int × List Char} (htail : Ends tail)
    (h : readPower text = some power) :
    readPower (text ++ tail) = some (power.1, power.2 ++ tail) := by
  have hbehind {behind : List Char}
      (h : ((readExponent behind).map fun power => (some power.1, power.2)) = some power) :
      ((readExponent (behind ++ tail)).map fun power => (some power.1, power.2)) =
        some (power.1, power.2 ++ tail) := by
    obtain ⟨exponent, hexponent, rfl⟩ := Option.map_eq_some_iff.1 h
    rw [readExponent_append htail hexponent]
    rfl
  unfold readPower at h
  split at h
  · exact hbehind h
  · exact hbehind h
  · rename_i hsmall hlarge
    cases h
    rw [readPower]
    all_goals
      intro behind heq
      cases text with
      | nil =>
        rw [List.nil_append] at heq
        have hhead := htail _ (by rw [heq]; rfl)
        simp at hhead
      | cons c rest =>
        cases heq
        first
          | exact hsmall rest rfl
          | exact hlarge rest rfl

/-- A number that is split off a text is split off when something else follows the text. -/
theorem splitNumber_append {split : NumberText × List Char} (htail : Ends tail)
    (h : splitNumber text = some split) :
    splitNumber (text ++ tail) = some (split.1, split.2 ++ tail) := by
  have hne : text ≠ [] := by
    rintro rfl
    cases h
  rw [splitNumber_eq] at h ⊢
  obtain ⟨c, more, rfl⟩ := List.exists_cons_of_ne_nil hne
  dsimp only [List.cons_append, List.head?_cons, List.tail_cons] at h ⊢
  have hbody : (if (some c == some '-') = true then more ++ tail else c :: (more ++ tail)) =
      (if (some c == some '-') = true then more else c :: more) ++ tail := by
    split <;> rfl
  rw [hbody, takeWhile_digits_append htail, dropWhile_digits_append htail]
  generalize (if (some c == some '-') = true then more else c :: more) = body at h ⊢
  split at h
  · cases h
  · rename_i hwhole
    obtain ⟨fraction, hfraction, hrest⟩ := Option.bind_eq_some_iff.1 h
    obtain ⟨power, hpower, rfl⟩ := Option.map_eq_some_iff.1 hrest
    rw [if_neg hwhole, readFraction_append htail hfraction, Option.bind_some,
      readPower_append htail hpower]
    rfl

/-! ### Natural numbers -/

/-- Only zero is written with a zero in front. -/
theorem head?_natDigits {n : Nat} (h : 0 < n) : (natDigits n).head? ≠ some '0' := by
  induction n using Nat.strongRecOn with
  | ind n ih =>
    by_cases hsmall : n < 10
    · have hall : ∀ n < 10, 0 < n → (natDigits n).head? ≠ some '0' := by decide
      exact hall n hsmall h
    · have hsplit := Nat.toDigits_of_base_le (by decide : 1 < 10) (Nat.le_of_not_lt hsmall)
      obtain ⟨c, rest, hdigits⟩ := List.exists_cons_of_ne_nil (natDigits_ne_nil (n / 10))
      have hhead := ih (n / 10) (by omega) (by omega)
      unfold natDigits at hdigits hhead ⊢
      rw [hdigits] at hhead
      rw [hsplit, hdigits]
      exact hhead

theorem splitNumber_natDigits (n : Nat) :
    splitNumber (natDigits n) = some (⟨false, natDigits n, [], none⟩, []) := by
  obtain ⟨c, rest, hdigits⟩ := List.exists_cons_of_ne_nil (natDigits_ne_nil n)
  have hall : ∀ c ∈ natDigits n, c.isDigit = true := fun c => isDigit_of_mem_natDigits
  have hminus : ((natDigits n).head? == some '-') = false := by
    rw [hdigits] at hall ⊢
    have hc := hall c List.mem_cons_self
    rw [List.head?_cons, beq_eq_false_iff_ne]
    intro heq
    cases heq
    exact absurd hc (by decide)
  have htake : (natDigits n).takeWhile Char.isDigit = natDigits n :=
    List.takeWhile_eq_self_iff.2 hall
  have hdrop : (natDigits n).dropWhile Char.isDigit = [] :=
    List.dropWhile_eq_nil_iff.2 hall
  have hzero : ((natDigits n).head? == some '0' && (natDigits n).length != 1) = false := by
    rcases Nat.eq_zero_or_pos n with rfl | hpos
    · rfl
    · rw [beq_eq_false_iff_ne.2 (head?_natDigits hpos)]
      rfl
  have hempty : (natDigits n).isEmpty = false :=
    List.isEmpty_eq_false_iff.2 (natDigits_ne_nil n)
  rw [splitNumber_eq]
  simp only [hminus, Bool.false_eq_true, if_false, htake, hdrop, hempty, hzero, Bool.or_self]
  rfl

theorem le_ofDigitChars (digits : List Char) (n : Nat) : n ≤ Nat.ofDigitChars 10 digits n := by
  induction digits generalizing n with
  | nil => exact Nat.le_refl n
  | cons c rest ih =>
    rw [Nat.ofDigitChars_cons]
    exact Nat.le_trans (by omega) (ih _)

theorem keepDigits_of_lt {digits : List Char} {n : Nat}
    (h : Nat.ofDigitChars 10 digits n < 2 ^ 64) :
    keepDigits n digits = (Nat.ofDigitChars 10 digits n, 0) := by
  induction digits generalizing n with
  | nil => rfl
  | cons c rest ih =>
    rw [Nat.ofDigitChars_cons, Nat.mul_comm] at h
    have hfits := Nat.lt_of_le_of_lt (le_ofDigitChars rest _) h
    have hstep : keepDigits n (c :: rest) = keepDigits (n * 10 + (c.toNat - '0'.toNat)) rest :=
      if_pos hfits
    rw [hstep, ih h, Nat.ofDigitChars_cons, Nat.mul_comm 10 n]

/-- A natural number is kept as long as it fits into 64 bits. -/
theorem numberOf_natDigits {n : Nat} (h : n < 2 ^ 64) :
    numberOf ⟨false, natDigits n, [], none⟩ = .natural n := by
  have hvalue : Nat.ofDigitChars 10 (natDigits n) 0 = n := natOfDigits_natDigits n
  have hkept : keepDigits 0 (natDigits n) = (n, 0) := by
    rw [keepDigits_of_lt (by rwa [hvalue]), hvalue]
  rw [numberOf]
  dsimp only
  rw [hkept]
  rfl

/-! ### Other numbers -/

/-- A number comes back from the text it is written as. -/
def ReadsBack (x : Float) : Prop :=
  read? (number x).compactText = some (.number x)

/-- The number that was read, if it was one. -/
def number? : Option Reading → Option Float
  | some (.number x) => some x
  | _ => none

theorem readsBack_iff {x : Float} :
    ReadsBack x ↔ number? (read? (number x).compactText) = some x := by
  unfold ReadsBack
  constructor
  · intro h
    rw [h]
    rfl
  · intro h
    unfold number? at h
    split at h
    · rename_i heq
      cases h
      exact heq
    · cases h

instance : DecidablePred ReadsBack := fun _ => decidable_of_iff _ readsBack_iff.symm

theorem isSpace_of_isDigit {c : Char} (h : c.isDigit = true) : isSpace c = false := by
  unfold isSpace
  simp only [Bool.or_eq_false_iff, beq_eq_false_iff_ne, ne_eq]
  refine ⟨⟨⟨?_, ?_⟩, ?_⟩, ?_⟩ <;>
  · rintro rfl
    exact absurd h (by decide)

/-- A text without blanks. -/
def Solid (text : List Char) : Prop :=
  ∀ c ∈ text, isSpace c = false

theorem solid_append {text other : List Char} :
    Solid (text ++ other) ↔ Solid text ∧ Solid other := by
  unfold Solid
  simp only [List.mem_append, or_imp, forall_and]

theorem solid_cons {c : Char} {text : List Char} :
    Solid (c :: text) ↔ isSpace c = false ∧ Solid text := by
  unfold Solid
  simp only [List.mem_cons, forall_eq_or_imp]

theorem Solid.of_all {text : List Char} (h : (text.all fun c => !isSpace c) = true) : Solid text :=
  fun c hc => by simpa using List.all_eq_true.1 h c hc

theorem Solid.of_digits {digits : List Char} (h : ∀ c ∈ digits, c.isDigit = true) :
    Solid digits :=
  fun c hc => isSpace_of_isDigit (h c hc)

theorem solid_natDigits (n : Nat) : Solid (natDigits n) :=
  .of_digits fun _ => isDigit_of_mem_natDigits

theorem solid_zeros (n : Nat) : Solid (List.replicate n '0') := by
  refine .of_digits fun c hc => ?_
  rw [List.eq_of_mem_replicate hc]
  rfl

theorem solid_positionalText (pointZero : Bool) (digits : Decimal.Digits) :
    Solid (Decimal.positionalText pointZero digits) := by
  have hdigits := solid_natDigits digits.significand
  unfold Decimal.positionalText
  dsimp only
  split
  · rw [solid_append, solid_append]
    refine ⟨⟨hdigits, solid_zeros _⟩, ?_⟩
    split <;> exact Solid.of_all rfl
  · split
    · rw [solid_append, solid_cons]
      exact ⟨fun c hc => hdigits c (List.mem_of_mem_take hc), by decide,
        fun c hc => hdigits c (List.mem_of_mem_drop hc)⟩
    · rw [solid_cons, solid_cons, solid_append]
      exact ⟨by decide, by decide, solid_zeros _, hdigits⟩

theorem solid_exponentText (plusSign : Bool) (digits : Decimal.Digits) :
    Solid (Decimal.exponentText plusSign digits) := by
  have hdigits := solid_natDigits digits.significand
  unfold Decimal.exponentText
  dsimp only
  rw [solid_append, solid_cons, solid_append]
  refine ⟨?_, by decide, ?_, solid_natDigits _⟩
  · split
    · rename_i first second rest heq
      rw [heq, solid_cons, solid_cons] at hdigits
      rw [solid_cons, solid_cons, solid_cons]
      exact ⟨hdigits.1, by decide, hdigits.2.1, hdigits.2.2⟩
    · exact hdigits
  · split
    · exact Solid.of_all rfl
    · split <;> exact Solid.of_all rfl

theorem solid_write (x : Float) : Solid (Decimal.write Decimal.document x) := by
  have hnull : Solid ['n', 'u', 'l', 'l'] := Solid.of_all rfl
  unfold Decimal.write
  split
  · dsimp only
    generalize hdigits : Decimal.shortest Decimal.document.tie (Decimal.magnitude x) = digits
    have htext : Solid (if Decimal.document.positional (digits.exponent +
          (((natDigits digits.significand).length : Int) - 1))
        then Decimal.positionalText Decimal.document.pointZero digits
        else Decimal.exponentText Decimal.document.plusSign digits) := by
      split
      · exact solid_positionalText _ digits
      · exact solid_exponentText _ digits
    split
    · exact solid_cons.2 ⟨by decide, htext⟩
    · exact htext
  · split
    · exact hnull
    · split <;> exact hnull

theorem skipSpace_of_solid (h : Solid text) : skipSpace text = text := by
  cases text with
  | nil => rfl
  | cons c rest =>
    rw [skipSpace, List.dropWhile_cons, (solid_cons.1 h).1]
    rfl

theorem readExponent_suffix {power : Int × List Char} (h : readExponent text = some power) :
    power.2 <:+ text := by
  have hsign : (exponentSign text).2 <:+ text := by
    unfold exponentSign
    split
    · exact List.suffix_cons _ _
    · exact List.suffix_cons _ _
    · exact List.suffix_refl _
  rw [readExponent_eq] at h
  split at h
  · cases h
  · cases h
    exact (List.dropWhile_suffix _).trans hsign

theorem readFraction_suffix {fraction : List Char × List Char}
    (h : readFraction text = some fraction) : fraction.2 <:+ text := by
  unfold readFraction at h
  split at h
  · split at h
    · cases h
    · cases h
      exact (List.dropWhile_suffix _).trans (List.suffix_cons _ _)
  · cases h
    exact List.suffix_refl _

theorem readPower_suffix {power : Option Int × List Char} (h : readPower text = some power) :
    power.2 <:+ text := by
  unfold readPower at h
  split at h
  · obtain ⟨exponent, hexponent, rfl⟩ := Option.map_eq_some_iff.1 h
    exact (readExponent_suffix hexponent).trans (List.suffix_cons _ _)
  · obtain ⟨exponent, hexponent, rfl⟩ := Option.map_eq_some_iff.1 h
    exact (readExponent_suffix hexponent).trans (List.suffix_cons _ _)
  · cases h
    exact List.suffix_refl _

theorem splitNumber_suffix {split : NumberText × List Char} (h : splitNumber text = some split) :
    split.2 <:+ text := by
  rw [splitNumber_eq] at h
  dsimp only at h
  have hbody : (if (text.head? == some '-') = true then text.tail else text) <:+ text := by
    split
    · exact List.tail_suffix text
    · exact List.suffix_refl text
  generalize (if (text.head? == some '-') = true then text.tail else text) = body at h hbody
  split at h
  · cases h
  · obtain ⟨fraction, hfraction, hrest⟩ := Option.bind_eq_some_iff.1 h
    obtain ⟨power, hpower, rfl⟩ := Option.map_eq_some_iff.1 hrest
    exact ((readPower_suffix hpower).trans (readFraction_suffix hfraction)).trans
      ((List.dropWhile_suffix _).trans hbody)

/-- A number is only read where a number can be split off. -/
theorem splitNumber_of_readValue {fuel depth : Nat} {x : Float}
    (h : readValue fuel depth text = some (.number x, rest)) :
    ∃ parts, splitNumber (skipSpace text) = some (parts, rest) ∧ numberOf parts = .number x := by
  cases fuel with
  | zero => cases h
  | succ fuel =>
    unfold readValue at h
    split at h
    · cases h
    · cases h
    · cases h
    · obtain ⟨⟨marks, behind⟩, -, hstring⟩ := Option.bind_eq_some_iff.1 h
      simp only [Option.some.injEq, Prod.mk.injEq, stringOf] at hstring
      obtain ⟨hstring, -⟩ := hstring
      split at hstring <;> cases hstring
    · split at h
      · unfold within at h
        split at h <;> cases h
      · obtain ⟨⟨items, behind⟩, -, hitems⟩ := Option.bind_eq_some_iff.1 h
        unfold within at hitems
        dsimp only at hitems
        split at hitems <;> cases hitems
    · split at h
      · unfold within at h
        split at h <;> cases h
      · obtain ⟨⟨members, behind⟩, -, hmembers⟩ := Option.bind_eq_some_iff.1 h
        unfold within at hmembers
        dsimp only at hmembers
        split at hmembers <;> cases hmembers
    · obtain ⟨⟨parts, behind⟩, hsplit, hnumber⟩ := Option.bind_eq_some_iff.1 h
      simp only [Option.some.injEq, Prod.mk.injEq] at hnumber
      obtain ⟨hnumber, rfl⟩ := hnumber
      exact ⟨parts, hsplit, hnumber⟩

/-- The text of a number that reads back is split off as a whole. -/
theorem ReadsBack.split {x : Float} (h : ReadsBack x) :
    ∃ parts, splitNumber (Decimal.write Decimal.document x) = some (parts, []) ∧
      numberOf parts = .number x := by
  unfold ReadsBack read? at h
  obtain ⟨⟨reading, rest⟩, hread, hrest⟩ := Option.bind_eq_some_iff.1 h
  have htext : (number x).compactText.toList = Decimal.write Decimal.document x :=
    String.toList_ofList
  rw [htext] at hread
  dsimp only at hrest
  split at hrest
  · rename_i hempty
    cases hrest
    obtain ⟨parts, hsplit, hnumber⟩ := splitNumber_of_readValue hread
    rw [skipSpace_of_solid (solid_write x)] at hsplit
    have hsolid : Solid rest := fun c hc =>
      solid_write x c ((splitNumber_suffix hsplit).mem hc)
    rw [skipSpace_of_solid hsolid, List.isEmpty_iff] at hempty
    subst hempty
    exact ⟨parts, hsplit, hnumber⟩
  · cases hrest

end Provision.Json
