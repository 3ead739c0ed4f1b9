import Mathlib
import Provision.Proofs.Language.Layout
import Provision.Proofs.Language.Places
import Provision.Proofs.Outcome

/-!
# Layout does not count

A parse follows another one when it answers the same, up to places, wherever the
other answers.  Every rule of the grammar follows itself on alike texts: it takes
the same branch, takes the same characters from the line and leaves alike texts.
So relaid sources are both rejected or have the same trees up to places.
-/

namespace Provision.Language

/-! ## Cursors on alike texts -/

/-- The texts are alike behind the blanks and comments that they start with. -/
def StartAlike (text text' : List Char) : Prop :=
  Alike (afterBlank text) (afterBlank text')

theorem Alike.start {text text' : List Char} (h : Alike text text') : StartAlike text text' :=
  h.afterBlank

theorem Cursor.atLineEnd_iff {c : Cursor} : c.atLineEnd = true ↔ EndsLine c.rest := by
  obtain ⟨rest, line, column⟩ := c
  cases rest <;> simp [atLineEnd, peek, EndsLine]

namespace Alike

variable {c c' : Cursor}

theorem sees (h : Alike c.rest c'.rest) {ch : Char} (hch : ch ≠ '\n') : c'.sees ch = c.sees ch := by
  unfold Cursor.sees Cursor.peek
  rw [Bool.eq_iff_iff, beq_iff_eq, beq_iff_eq, h.head_eq hch]

theorem atKeyword (h : Alike c.rest c'.rest) {keyword : List Char} (hkeyword : '\n' ∉ keyword) :
    c'.atKeyword keyword = c.atKeyword keyword := by
  unfold Cursor.atKeyword
  rw [← startsWithKeyword_lineOf _ hkeyword, ← h.lineOf, startsWithKeyword_lineOf _ hkeyword]

theorem isPrefixOf {text text' front : List Char} (h : Alike text text') (hfront : '\n' ∉ front) :
    front.isPrefixOf text' = front.isPrefixOf text := by
  induction h generalizing front with
  | nil => rfl
  | @char c _ _ _ _ ih =>
    cases front with
    | nil => rfl
    | cons d front =>
      rw [List.isPrefixOf, List.isPrefixOf, ih (List.not_mem_of_not_mem_cons hfront)]
  | line hend hend' _ _ =>
    cases front with
    | nil => rfl
    | cons d front =>
      have hnot : ∀ {text}, EndsLine text → List.isPrefixOf (d :: front) text = false := by
        intro text hend
        cases text with
        | nil => rfl
        | cons c rest =>
          obtain rfl := hend c rfl
          simp [List.isPrefixOf, (List.ne_of_not_mem_cons hfront).symm]
      rw [hnot hend, hnot hend']

theorem atLineEnd (h : Alike c.rest c'.rest) : c'.atLineEnd = c.atLineEnd := by
  rw [Bool.eq_iff_iff, Cursor.atLineEnd_iff, Cursor.atLineEnd_iff]
  exact ⟨h.symm.endsLine, h.endsLine⟩

theorem word (h : Alike c.rest c'.rest) : c'.word = c.word := by
  unfold Cursor.word
  rw [← takeWhile_lineOf (by decide), ← h.lineOf, takeWhile_lineOf (by decide)]

theorem advance (h : Alike c.rest c'.rest) {n : Nat} (hn : n ≤ (Language.lineOf c.rest).length) :
    Alike (c.advance n).rest (c'.advance n).rest := by
  rw [Cursor.rest_advance, Cursor.rest_advance]
  exact h.drop hn

theorem skipInline (h : Alike c.rest c'.rest) : Alike c.skipInline.rest c'.skipInline.rest := by
  have hsame : skipLength false false c'.rest = skipLength false false c.rest := by
    rw [← skipInline_lineOf, ← h.lineOf, skipInline_lineOf]
  unfold Cursor.skipInline
  rw [hsame]
  exact h.advance (skipInline_le _)

/-- The character that is seen opens both texts, and what is behind it is alike. -/
theorem step (h : Alike c.rest c'.rest) {ch : Char} (hch : ch ≠ '\n') (hsees : c.sees ch = true) :
    Alike c.step.rest c'.step.rest ∧ c'.step.rest.length < c'.rest.length := by
  obtain ⟨rest, hrest⟩ := List.head?_eq_some_iff.1 (beq_iff_eq.1 hsees)
  rw [hrest] at h
  obtain ⟨rest', hrest', htail⟩ := h.of_cons hch
  rw [Cursor.rest_step, Cursor.rest_step, hrest, hrest']
  exact ⟨htail, Nat.lt_succ_self _⟩

theorem peek_any (h : Alike c.rest c'.rest) {p : Char → Bool} (hp : p '\n' = false) :
    c'.peek.any p = c.peek.any p := by
  unfold Cursor.peek
  rw [← head?_lineOf_any hp, ← h.lineOf, head?_lineOf_any hp]

/-- A keyword that is seen opens both texts, and what is behind it is alike. -/
theorem keyword (h : Alike c.rest c'.rest) {keyword : List Char} {n : Nat}
    (hkeyword : '\n' ∉ keyword) (hat : c.atKeyword keyword = true) (hn : keyword.length = n) :
    Alike (c.advance n).rest (c'.advance n).rest ∧
      (c'.advance n).rest.length + n = c'.rest.length := by
  subst hn
  have hat' := (h.atKeyword hkeyword).trans hat
  have hlength := length_le_of_startsWithKeyword hat'
  unfold Cursor.atKeyword at hat
  rw [← startsWithKeyword_lineOf _ hkeyword] at hat
  refine ⟨h.advance (length_le_of_startsWithKeyword hat), ?_⟩
  rw [Cursor.rest_advance, List.length_drop]
  omega

theorem pass (h : Alike c.rest c'.rest) {ch : Char} (hch : ch ≠ '\n') :
    Alike (c.pass ch).rest (c'.pass ch).rest := by
  unfold Cursor.pass
  rw [h.sees hch]
  split
  · next hsees => exact (h.step hch hsees).1
  · exact h

end Alike

theorem StartAlike.skipBlank {c c' : Cursor} (h : StartAlike c.rest c'.rest) :
    Alike c.skipBlank.rest c'.skipBlank.rest := by
  unfold Cursor.skipBlank
  rw [Cursor.rest_advance, Cursor.rest_advance]
  exact h

/-- Nothing is left of one text behind blanks and comments when nothing is left of the other. -/
theorem StartAlike.peek_none {c c' : Cursor} (h : StartAlike c.rest c'.rest) :
    (c'.skipBlank.peek == none) = (c.skipBlank.peek == none) := by
  have hend : ∀ c : Cursor, c.skipBlank.atLineEnd = (c.skipBlank.peek == none) := by
    intro c
    have hline : (c.skipBlank.peek == some '\n') = false := by
      rw [beq_eq_false_iff_ne, Cursor.peek, Cursor.skipBlank, Cursor.rest_advance]
      exact head?_afterBlank c.rest
    rw [Cursor.atLineEnd, hline, Bool.or_false]
  rw [← hend, ← hend, h.skipBlank.atLineEnd]

theorem Cursor.length_skipInline (c : Cursor) :
    c.skipInline.rest.length ≤ c.rest.length := by
  simp [skipInline]

theorem Cursor.length_skipBlank (c : Cursor) : c.skipBlank.rest.length ≤ c.rest.length := by
  simp [skipBlank]

theorem Cursor.length_advance (n : Nat) (c : Cursor) :
    (c.advance n).rest.length ≤ c.rest.length := by
  simp

theorem Cursor.length_pass (ch : Char) (c : Cursor) :
    (c.pass ch).rest.length ≤ c.rest.length := by
  unfold pass
  split <;> simp

/-! ## Following -/

/-- Whatever the first parse answers, the second answers something related. -/
def Follows {α : Type} (R : α → α → Prop) (x x' : Except ParseError α) : Prop :=
  ∀ a, x = .ok a → ∃ a', x' = .ok a' ∧ R a a'

/-- The second reading is the same under `view` and stops at a related text that is shorter than a
bound. -/
structure SameReading {α β : Type} (stop : List Char → List Char → Prop) (view : α → β) (bound : Nat)
    (r r' : α × Cursor) : Prop where
  same : view r'.1 = view r.1
  stop : stop r.2.rest r'.2.rest
  shorter : r'.2.rest.length < bound

namespace Follows

variable {α β γ : Type} {file : String} {c c' : Cursor} {R : α → α → Prop} {S : β → β → Prop}

theorem ok {a a' : α} (h : R a a') : Follows R (.ok a) (.ok a') := by
  intro b hb
  cases hb
  exact ⟨a', rfl, h⟩

theorem fail {message : String} {x : Except ParseError α} : Follows R (c.fail file message) x := by
  intro a ha
  cases ha

theorem unexpected {expected : String} {x : Except ParseError α} :
    Follows R (c.unexpected file expected) x := by
  intro a ha
  unfold Cursor.unexpected at ha
  split at ha <;> cases ha

theorem ite {p p' : Prop} [Decidable p] [Decidable p'] {x x' y y' : Except ParseError α}
    (hiff : p' ↔ p) (hpos : p → Follows R x x') (hneg : ¬ p → Follows R y y') :
    Follows R (if p then x else y) (if p' then x' else y') := by
  by_cases h : p
  · rw [if_pos h, if_pos (hiff.2 h)]
    exact hpos h
  · rw [if_neg h, if_neg (mt hiff.1 h)]
    exact hneg h

theorem bind {m m' : Except ParseError α} {f f' : α → Except ParseError β} (hm : Follows R m m')
    (hf : ∀ a a', R a a' → Follows S (f a) (f' a')) :
    Follows S (m >>= f) (m' >>= f') := by
  intro b hb
  obtain ⟨a, ha, hb⟩ := bind_eq_ok.1 hb
  obtain ⟨a', ha', hR⟩ := hm a ha
  rw [ha', ok_bind]
  exact hf a a' hR b hb

theorem mono {R' : α → α → Prop} {x x' : Except ParseError α} (h : Follows R x x')
    (himp : ∀ a a', R a a' → R' a a') :
    Follows R' x x' := by
  intro a ha
  obtain ⟨a', ha', hR⟩ := h a ha
  exact ⟨a', ha', himp a a' hR⟩

/-- A looser bound will do. -/
theorem shorter {stop : List Char → List Char → Prop} {view : α → γ} {bound bound' : Nat}
    {x x' : Except ParseError (α × Cursor)} (h : Follows (SameReading stop view bound) x x')
    (hle : bound ≤ bound') :
    Follows (SameReading stop view bound') x x' :=
  h.mono fun _ _ hr => ⟨hr.same, hr.stop, hr.shorter.trans_le hle⟩

/-- A reading is followed by what comes next, on what it leaves. -/
theorem read {stop : List Char → List Char → Prop} {view : α → γ} {bound : Nat}
    {m m' : Except ParseError (α × Cursor)} {f f' : α × Cursor → Except ParseError β}
    (hm : Follows (SameReading stop view bound) m m')
    (hf : ∀ a a' d d', view a' = view a → stop d.rest d'.rest → d'.rest.length < bound →
      Follows S (f (a, d)) (f' (a', d'))) :
    Follows S (m >>= f) (m' >>= f') :=
  hm.bind fun a a' h => hf a.1 a'.1 a.2 a'.2 h.same h.stop h.shorter

theorem done {stop : List Char → List Char → Prop} {view : α → γ} {bound : Nat} {a a' : α}
    (hsame : view a' = view a) (hstop : stop c.rest c'.rest) (hshort : c'.rest.length < bound) :
    Follows (SameReading stop view bound) (.ok (a, c)) (.ok (a', c')) :=
  .ok ⟨hsame, hstop, hshort⟩

theorem word (h : Alike c.rest c'.rest) (what : String) :
    Follows (SameReading Alike id c'.rest.length) (c.expectWord file what)
      (c'.expectWord file what) := by
  unfold Cursor.expectWord
  rw [h.word]
  refine .ite Iff.rfl (fun _ => .unexpected) fun hword => .ok ⟨rfl, h.advance ?_, ?_⟩
  · exact length_takeWhile_lineOf (by decide) _
  · have hpos : 0 < c.word.length := List.length_pos_iff.2 fun hnil => hword (by rw [hnil]; rfl)
    have hle : c.word.length ≤ c'.rest.length :=
      h.word ▸ (List.takeWhile_prefix isWordChar).length_le
    rw [Cursor.rest_advance, List.length_drop]
    omega

theorem expect (h : Alike c.rest c'.rest) {ch : Char} (hch : ch ≠ '\n')
    {f f' : Cursor → Except ParseError β}
    (hf : ∀ d d', Alike d.rest d'.rest → d'.rest.length < c'.rest.length → Follows S (f d) (f' d')) :
    Follows S (c.expect file ch >>= f) (c'.expect file ch >>= f') := by
  have hread : Follows (fun d d' => Alike d.rest d'.rest ∧ d'.rest.length < c'.rest.length)
      (c.expect file ch) (c'.expect file ch) := by
    unfold Cursor.expect
    exact .ite (by rw [h.sees hch]) (fun hsees => .ok (h.step hch hsees)) fun _ => .unexpected
  exact hread.bind fun d d' hd => hf d d' hd.1 hd.2

theorem expectLineEnd (h : Alike c.rest c'.rest) {f f' : Cursor → Except ParseError β}
    (hf : ∀ d d', StartAlike d.rest d'.rest → d'.rest.length ≤ c'.rest.length →
      Follows S (f d) (f' d')) :
    Follows S (c.expectLineEnd file >>= f) (c'.expectLineEnd file >>= f') := by
  have hread : Follows (fun d d' => StartAlike d.rest d'.rest ∧ d'.rest.length ≤ c'.rest.length)
      (c.expectLineEnd file) (c'.expectLineEnd file) := by
    unfold Cursor.expectLineEnd
    refine .ite (by rw [h.skipInline.atLineEnd]) (fun hend => .ok ⟨?_, ?_⟩) fun _ => .unexpected
    · rw [Cursor.rest_step, Cursor.rest_step]
      exact h.skipInline.afterLine (Cursor.atLineEnd_iff.1 hend)
    · have hskip := c'.length_skipInline
      simp
      omega
  exact hread.bind fun d d' hd => hf d d' hd.1 hd.2

theorem lexeme {result result' : Except Fault (α × Nat)} (h : Alike c.rest c'.rest)
    (hread : ∀ a n, result = .ok (a, n) →
      result' = .ok (a, n) ∧ n ≤ (lineOf c.rest).length) :
    Follows (SameReading Alike id (c'.rest.length + 1)) (Language.lexeme file c result)
      (Language.lexeme file c' result') := by
  intro r hr
  rcases result with fault | ⟨a, n⟩
  · cases hr
  · obtain ⟨hresult, hn⟩ := hread a n rfl
    cases hr
    rw [hresult]
    exact ⟨_, rfl, rfl, h.advance hn, Nat.lt_succ_of_le (c'.length_advance n)⟩

end Follows

/-! ## Expressions -/

/-- With so many steps to nest, the rules for expressions follow themselves on alike texts that are
short enough for the steps of the second parse. -/
structure ExpressionsFollow (file : String) (n : Nat) : Prop where
  binary : ∀ {c c' : Cursor} {n' : Nat}, Alike c.rest c'.rest → 12 * c'.rest.length + 3 ≤ n' →
    ∀ least, Follows (SameReading Alike Node.bare c'.rest.length) (binary file n least c)
      (binary file n' least c')
  operators : ∀ {c c' : Cursor} {n' : Nat}, Alike c.rest c'.rest → 12 * c'.rest.length + 1 ≤ n' →
    ∀ least {left left' : Node}, left'.bare = left.bare →
      Follows (SameReading Alike Node.bare (c'.rest.length + 1)) (operators file n least left c)
        (operators file n' least left' c')
  primary : ∀ {c c' : Cursor} {n' : Nat}, Alike c.rest c'.rest → 12 * c'.rest.length + 2 ≤ n' →
    Follows (SameReading Alike Node.bare c'.rest.length) (primary file n c) (primary file n' c')
  stringParts : ∀ {c c' : Cursor} {n' : Nat}, Alike c.rest c'.rest → 12 * c'.rest.length + 2 ≤ n' →
    Follows (SameReading Alike (List.map Node.bare) (c'.rest.length + 1)) (stringParts file n c)
      (stringParts file n' c')
  listItems : ∀ {c c' : Cursor} {n' : Nat}, StartAlike c.rest c'.rest →
    12 * c'.rest.length + 4 ≤ n' →
    Follows (SameReading Alike (List.map Node.bare) (c'.rest.length + 1)) (listItems file n c)
      (listItems file n' c')
  mapEntries : ∀ {c c' : Cursor} {n' : Nat}, StartAlike c.rest c'.rest →
    12 * c'.rest.length + 4 ≤ n' →
    Follows (SameReading Alike (List.map Entry.bare) (c'.rest.length + 1)) (mapEntries file n c)
      (mapEntries file n' c')
  stringKey : ∀ {c c' : Cursor} {n' : Nat}, Alike c.rest c'.rest → 12 * c'.rest.length + 3 ≤ n' →
    Follows (SameReading Alike id c'.rest.length) (stringKey file n c) (stringKey file n' c')
  reference : ∀ {c c' : Cursor} {n' : Nat}, Alike c.rest c'.rest → 12 * c'.rest.length + 1 ≤ n' →
    ['$', '('].isPrefixOf c.rest = true → Follows (SameReading Alike Node.bare c'.rest.length) (reference file n c) (reference file n' c')

section Expressions

variable {file : String} {n n' : Nat} {c c' : Cursor}

theorem operators_follows (ih : ExpressionsFollow file n) (h : Alike c.rest c'.rest)
    (hn : 12 * c'.rest.length + 1 ≤ n' + 1) (least : Nat) {left left' : Node}
    (hleft : left'.bare = left.bare) :
    Follows (SameReading Alike Node.bare (c'.rest.length + 1)) (operators file (n + 1) least left c)
      (operators file (n' + 1) least left' c') := by
  have hinline := h.skipInline
  have hoperator : operator? c'.skipInline.rest = operator? c.skipInline.rest := by
    rw [← operator?_lineOf, ← hinline.lineOf, operator?_lineOf]
  have hstay : Follows (SameReading Alike Node.bare (c'.rest.length + 1))
      (.ok (left, c)) (.ok (left', c')) :=
    .ok ⟨hleft, h, Nat.lt_succ_self _⟩
  rw [operators, operators, hoperator]
  cases hread : operator? c.skipInline.rest with
  | none => exact hstay
  | some found =>
    obtain ⟨op, length⟩ := found
    refine .ite Iff.rfl (fun _ => hstay) fun _ => ?_
    obtain ⟨hpos, hlength⟩ := operator?_length hread
    have hright := (hinline.advance hlength).start.skipBlank
    have hshort : (c'.skipInline.advance length).skipBlank.rest.length < c'.rest.length := by
      have hblank := (c'.skipInline.advance length).length_skipBlank
      have hskip := c'.length_skipInline
      rw [hinline.lineOf] at hlength
      have hline : (lineOf c'.skipInline.rest).length ≤ c'.skipInline.rest.length :=
        (List.takeWhile_prefix _).length_le
      rw [Cursor.rest_advance, List.length_drop] at hblank
      omega
    refine (ih.binary hright (by omega) _).read fun right right' d d' hsame halike hd => ?_
    refine (ih.operators halike (by omega) least ?_).shorter (by omega)
    simp only [Node.bare, hleft, hsame]

theorem bare_interpolation (parts : List Node) :
    (interpolation parts).bare = interpolation (parts.map Node.bare) := by
  rcases parts with _ | ⟨part, _ | ⟨next, rest⟩⟩
  · rfl
  · cases part <;> simp [interpolation, Node.bare]
  · simp [interpolation, Node.bare]

theorem interpolation_congr {parts parts' : List Node}
    (h : parts'.map Node.bare = parts.map Node.bare) :
    (interpolation parts').bare = (interpolation parts).bare := by
  rw [bare_interpolation, bare_interpolation, h]

/-- What does not open a string, a list, a map or a group is a reference, a number or a word. -/
theorem primary_of_plain
    (h : ∀ ch ∈ ['\'', '"', '[', '\x7b', '('], c.rest.head? ≠ some ch) :
    primary file (n + 1) c =
      if ['$', '('].isPrefixOf c.rest then reference file n c
      else if startsNumber c.rest then .ok (.number (number c.rest).1, c.advance (number c.rest).2)
      else c.expectWord file "a value" >>= fun read => .ok (wordNode read.1, read.2) := by
  rw [primary]
  split
  case h_6 => rfl
  all_goals
    rename_i hrest
    rw [hrest] at h
    exact absurd rfl (h _ (by simp))

/-- A special character opens both texts. -/
theorem Alike.opened (h : Alike c.rest c'.rest) {ch : Char} {rest : List Char} (hch : ch ≠ '\n')
    (hrest : c.rest = ch :: rest) :
    ∃ rest', c'.rest = ch :: rest' ∧ Alike rest rest' ∧ Alike c.step.rest c'.step.rest ∧
      c'.step.rest.length + 1 = c'.rest.length := by
  rw [hrest] at h
  obtain ⟨rest', hrest', htail⟩ := h.of_cons hch
  rw [Cursor.rest_step, Cursor.rest_step, hrest, hrest']
  exact ⟨rest', rfl, htail, htail, rfl⟩

/-- References, numbers and words. -/
theorem plain_follows (ih : ExpressionsFollow file n) (h : Alike c.rest c'.rest)
    (hn : 12 * c'.rest.length + 2 ≤ n' + 1)
    (hplain : ∀ ch ∈ ['\'', '"', '[', '\x7b', '('], c.rest.head? ≠ some ch) :
    Follows (SameReading Alike Node.bare c'.rest.length) (primary file (n + 1) c)
      (primary file (n' + 1) c') := by
  have hplain' : ∀ ch ∈ ['\'', '"', '[', '\x7b', '('], c'.rest.head? ≠ some ch := by
    intro ch hch hhead
    have hline : ch ≠ '\n' := by
      rintro rfl
      simp at hch
    exact hplain ch hch ((h.head_eq hline).2 hhead)
  have hnumber : number c'.rest = number c.rest := by
    rw [← number_lineOf, ← h.lineOf, number_lineOf]
  rw [primary_of_plain hplain, primary_of_plain hplain', hnumber]
  refine .ite (by rw [h.isPrefixOf (by decide)]) (fun hopens => ?_) fun _ =>
    .ite (by rw [← startsNumber_lineOf, ← h.lineOf, startsNumber_lineOf]) (fun hstarts => ?_)
      fun _ => ?_
  · exact ih.reference h (by omega) hopens
  · refine .done rfl (h.advance (number_length c.rest)) ?_
    have hpos := number_pos hstarts
    have hlength : (number c.rest).2 ≤ c'.rest.length :=
      (number_length c.rest).trans (h.lineOf ▸ (List.takeWhile_prefix _).length_le)
    rw [Cursor.rest_advance, List.length_drop]
    omega
  · refine (Follows.word h "a value").read fun word word' d d' hword halike hd => ?_
    obtain rfl : word' = word := hword
    dsimp only
    exact .done rfl halike (by omega)

theorem primary_follows (ih : ExpressionsFollow file n) (h : Alike c.rest c'.rest)
    (hn : 12 * c'.rest.length + 2 ≤ n' + 1) :
    Follows (SameReading Alike Node.bare c'.rest.length) (primary file (n + 1) c)
      (primary file (n' + 1) c') := by
  by_cases hplain : ∀ ch ∈ ['\'', '"', '[', '\x7b', '('], c.rest.head? ≠ some ch
  · exact plain_follows ih h hn hplain
  obtain ⟨bound, hbound⟩ : ∃ bound, c'.rest.length = bound := ⟨_, rfl⟩
  rw [hbound] at hn ⊢
  rw [primary]
  split
  · next rest hrest =>
    obtain ⟨rest', hrest', htail, hstep, hlength⟩ := h.opened (by decide) hrest
    rw [primary, hrest']
    refine Follows.read (.lexeme hstep fun a m hread => ?_) fun s s' d d' hs halike hd =>
      .done ?_ halike (by omega)
    · rw [Cursor.rest_step, hrest]
      exact htail.singleQuoted hread
    · rw [show s' = s from hs]
  · next rest hrest =>
    obtain ⟨rest', hrest', -, hstep, hlength⟩ := h.opened (by decide) hrest
    rw [primary, hrest']
    refine (ih.stringParts hstep (by omega)).read fun parts parts' d d' hparts halike hd => ?_
    exact .done (interpolation_congr hparts) halike (by omega)
  · next rest hrest =>
    obtain ⟨rest', hrest', -, hstep, hlength⟩ := h.opened (by decide) hrest
    rw [primary, hrest']
    refine (ih.listItems hstep.start (by omega)).read fun items items' d d' hitems halike hd => ?_
    exact .done (by simp [Node.bare, hitems]) halike (by omega)
  · next rest hrest =>
    obtain ⟨rest', hrest', -, hstep, hlength⟩ := h.opened (by decide) hrest
    rw [primary, hrest']
    refine (ih.mapEntries hstep.start (by omega)).read fun entries entries' d d' hentries halike hd => ?_
    exact .done (by simp [Node.bare, hentries]) halike (by omega)
  · next rest hrest =>
    obtain ⟨rest', hrest', -, hstep, hlength⟩ := h.opened (by decide) hrest
    rw [primary, hrest']
    have hblank := c'.step.length_skipBlank
    refine (ih.binary hstep.start.skipBlank (by omega) 1).read
      fun inner inner' d d' hinner halike hd => ?_
    have hskip := d'.length_skipBlank
    exact .expect halike.start.skipBlank (by decide) fun e e' halike he =>
      .done hinner halike (by omega)
  · next hsingle hdouble hlist hmap hparen =>
    -- no special character opens the text
    refine (hplain fun ch hch hhead => ?_).elim
    obtain ⟨rest, hrest⟩ := List.head?_eq_some_iff.1 hhead
    simp only [List.mem_cons, List.not_mem_nil, or_false] at hch
    rcases hch with rfl | rfl | rfl | rfl | rfl
    · exact hsingle rest hrest
    · exact hdouble rest hrest
    · exact hlist rest hrest
    · exact hmap rest hrest
    · exact hparen rest hrest

theorem stringParts_follows (ih : ExpressionsFollow file n) (h : Alike c.rest c'.rest)
    (hn : 12 * c'.rest.length + 2 ≤ n' + 1) :
    Follows (SameReading Alike (List.map Node.bare) (c'.rest.length + 1)) (stringParts file (n + 1) c)
      (stringParts file (n' + 1) c') := by
  rw [stringParts, stringParts]
  cases hread : literalPart c.rest with
  | error fault => exact .fail
  | ok read =>
    obtain ⟨s, k⟩ := read
    obtain ⟨hread', hk⟩ := h.literalPart hread
    have halike := h.advance hk
    have hd := c'.length_advance k
    rw [hread', lexeme, lexeme, ok_bind, ok_bind]
    refine .ite (by rw [halike.sees (by decide)]) (fun hsees => ?_) fun hsees => ?_
    · obtain ⟨hstep, hlength⟩ := halike.step (by decide) hsees
      exact .done rfl hstep (by omega)
    · have hopens : ['$', '('].isPrefixOf (c.advance k).rest = true := by
        rw [Cursor.rest_advance]
        refine (literalPart_stops hread).resolve_left fun hhead => hsees ?_
        rw [Cursor.sees, Cursor.peek, Cursor.rest_advance, hhead]
        rfl
      refine (ih.reference halike (by omega) hopens).read fun part part' e e' hpart halike he => ?_
      refine (ih.stringParts halike (by omega)).read fun parts parts' i i' hparts halike hi => ?_
      exact .done (by simp [hpart, hparts]) halike (by omega)

theorem listItems_follows (ih : ExpressionsFollow file n) (h : StartAlike c.rest c'.rest)
    (hn : 12 * c'.rest.length + 4 ≤ n' + 1) :
    Follows (SameReading Alike (List.map Node.bare) (c'.rest.length + 1)) (listItems file (n + 1) c)
      (listItems file (n' + 1) c') := by
  have hblank := h.skipBlank
  have hskip := c'.length_skipBlank
  rw [listItems, listItems]
  refine .ite (by rw [hblank.sees (by decide)]) (fun hsees => ?_) fun _ => ?_
  · obtain ⟨hstep, hlength⟩ := hblank.step (by decide) hsees
    exact .done rfl hstep (by omega)
  · refine (ih.binary hblank (by omega) 1).read fun item item' d d' hitem halike hd => ?_
    have hnext := halike.start.skipBlank
    have hnextSkip := d'.length_skipBlank
    have hpass := d'.skipBlank.length_pass ','
    refine .ite (by rw [hnext.sees (by decide), hnext.sees (by decide)]) (fun _ => ?_)
      fun _ => .unexpected
    refine (ih.listItems (hnext.pass (by decide)).start (by omega)).read
      fun items items' e e' hitems halike he => ?_
    exact .done (by simp [hitem, hitems]) halike (by omega)

/-- An entry behind its key, and the entries that follow. -/
def entryRest (file : String) (n : Nat) (span : Span) (key : String) (c : Cursor) :
    Except ParseError (List Entry × Cursor) := do
  let c ← c.skipInline.expect file ':'
  let (value, c) ← binary file n 1 c.skipBlank
  let c := c.skipBlank
  if c.sees ',' || c.sees '\x7d' then do
    let (entries, c) ← mapEntries file n (c.pass ',')
    .ok (⟨key, value, span⟩ :: entries, c)
  else c.unexpected file "`,` or `\x7d`"

theorem mapEntries_succ (file : String) (n : Nat) (c : Cursor) :
    mapEntries file (n + 1) c =
      if c.skipBlank.sees '\x7d' then .ok ([], c.skipBlank.step)
      else if c.skipBlank.sees '\'' || c.skipBlank.sees '"' then
        stringKey file n c.skipBlank >>= fun read =>
          entryRest file n (c.skipBlank.span file) read.1 read.2
      else
        c.skipBlank.expectWord file "a map key" >>= fun read =>
          entryRest file n (c.skipBlank.span file) (String.ofList read.1) read.2 := by
  rw [mapEntries]
  rfl

theorem entryRest_follows (ih : ExpressionsFollow file n) (h : Alike c.rest c'.rest)
    (hn : 12 * c'.rest.length + 4 ≤ n') (span span' : Span) (key : String) :
    Follows (SameReading Alike (List.map Entry.bare) c'.rest.length) (entryRest file n span key c)
      (entryRest file n' span' key c') := by
  have hskip := c'.length_skipInline
  refine .expect h.skipInline (by decide) fun d d' halike hd => ?_
  have hvalue := d'.length_skipBlank
  refine (ih.binary halike.start.skipBlank (by omega) 1).read
    fun value value' e e' hsame halike he => ?_
  have hnext := halike.start.skipBlank
  have hnextSkip := e'.length_skipBlank
  have hpass := e'.skipBlank.length_pass ','
  refine .ite (by rw [hnext.sees (by decide), hnext.sees (by decide)]) (fun _ => ?_)
    fun _ => .unexpected
  refine (ih.mapEntries (hnext.pass (by decide)).start (by omega)).read
    fun entries entries' i i' hentries halike hi => ?_
  exact .done (by simp [Entry.bare_eq, hsame, hentries]) halike (by omega)

theorem mapEntries_follows (ih : ExpressionsFollow file n) (h : StartAlike c.rest c'.rest)
    (hn : 12 * c'.rest.length + 4 ≤ n' + 1) :
    Follows (SameReading Alike (List.map Entry.bare) (c'.rest.length + 1))
      (mapEntries file (n + 1) c) (mapEntries file (n' + 1) c') := by
  have hblank := h.skipBlank
  have hskip := c'.length_skipBlank
  rw [mapEntries_succ, mapEntries_succ]
  refine .ite (by rw [hblank.sees (by decide)]) (fun hsees => ?_) fun _ =>
    .ite (by rw [hblank.sees (by decide), hblank.sees (by decide)]) (fun _ => ?_) fun _ => ?_
  · obtain ⟨hstep, hlength⟩ := hblank.step (by decide) hsees
    exact .done rfl hstep (by omega)
  · refine (ih.stringKey hblank (by omega)).read fun key key' d d' hkey halike hd => ?_
    obtain rfl : key' = key := hkey
    exact (entryRest_follows ih halike (by omega) _ _ _).shorter (by omega)
  · refine (Follows.word hblank _).read fun word word' d d' hword halike hd => ?_
    obtain rfl : word' = word := hword
    exact (entryRest_follows ih halike (by omega) _ _ _).shorter (by omega)

theorem stringKey_follows (ih : ExpressionsFollow file n) (h : Alike c.rest c'.rest)
    (hn : 12 * c'.rest.length + 3 ≤ n' + 1) :
    Follows (SameReading Alike id c'.rest.length) (stringKey file (n + 1) c)
      (stringKey file (n' + 1) c') := by
  rw [stringKey, stringKey]
  refine (ih.primary h (by omega)).read fun node node' d d' hnode halike hd => ?_
  cases node with
  | text s =>
    obtain rfl : node' = .text s := Node.eq_text_of_bare hnode
    exact .done rfl halike hd
  | _ => exact .fail

/-- The end of a reference to a resource. -/
def refEnd (file type : String) (name : Option Node) (span : Span) (path : List String) (c : Cursor) :
    Except ParseError (Node × Cursor) :=
  c.skipInline.expect file ')' >>= fun c => .ok (.ref type name path span, c)

/-- The path of a reference to a resource, and its end. -/
def refPath (file type : String) (name : Option Node) (span : Span) (c : Cursor) :
    Except ParseError (Node × Cursor) :=
  if c.skipInline.sees '|' then
    c.skipInline.step.skipInline.expectWord file "an attribute name" >>= fun read =>
      refEnd file type name span (segments read.1) read.2
  else refEnd file type name span [] c.skipInline

theorem reference_succ (file : String) (n : Nat) (c : Cursor) :
    reference file (n + 1) c =
      ((c.advance 2).skipInline.expectWord file "a reference" >>= fun head =>
        if [':', ':'].isPrefixOf head.2.rest then
          (head.2.advance 2).expectWord file "a resource kind" >>= fun kind =>
            let type := String.ofList (head.1 ++ [':', ':'] ++ kind.1)
            if kind.2.skipInline.sees ')' || kind.2.skipInline.sees '|' then
              refPath file type none (c.span file) kind.2.skipInline
            else
              primary file n kind.2.skipInline >>= fun name =>
                refPath file type (some name.1) (c.span file) name.2
        else
          head.2.skipInline.expect file ')' >>= fun last =>
            .ok (.var (segments head.1) (c.span file), last)) := by
  rw [reference]
  rfl

theorem refEnd_follows (h : Alike c.rest c'.rest) (type : String) {name name' : Option Node}
    (hname : name'.map Node.bare = name.map Node.bare) (span span' : Span) (path : List String) :
    Follows (SameReading Alike Node.bare c'.rest.length) (refEnd file type name span path c)
      (refEnd file type name' span' path c') := by
  have hskip := c'.length_skipInline
  exact .expect h.skipInline (by decide) fun d d' halike hd =>
    .done (by simp [Node.bare, hname]) halike (by omega)

theorem refPath_follows (h : Alike c.rest c'.rest) (type : String) {name name' : Option Node}
    (hname : name'.map Node.bare = name.map Node.bare) (span span' : Span) :
    Follows (SameReading Alike Node.bare c'.rest.length) (refPath file type name span c)
      (refPath file type name' span' c') := by
  have hinline := h.skipInline
  have hskip := c'.length_skipInline
  refine .ite (by rw [hinline.sees (by decide)]) (fun hsees => ?_) fun _ => ?_
  · obtain ⟨hstep, hlength⟩ := hinline.step (by decide) hsees
    have hstepSkip := c'.skipInline.step.length_skipInline
    refine (Follows.word hstep.skipInline _).read fun word word' d d' hword halike hd => ?_
    obtain rfl : word' = word := hword
    exact (refEnd_follows halike type hname _ _ _).shorter (by omega)
  · exact (refEnd_follows hinline type hname _ _ _).shorter hskip

theorem reference_follows (ih : ExpressionsFollow file n) (h : Alike c.rest c'.rest)
    (hn : 12 * c'.rest.length + 1 ≤ n' + 1) (hopens : ['$', '('].isPrefixOf c.rest = true) :
    Follows (SameReading Alike Node.bare c'.rest.length) (reference file (n + 1) c)
      (reference file (n' + 1) c') := by
  have hinside := h.advance (n := 2) (length_le_of_isPrefixOf (by decide) hopens)
  have hinsideLength := c'.length_advance 2
  have hskip := (c'.advance 2).length_skipInline
  rw [reference_succ, reference_succ]
  refine (Follows.word hinside.skipInline _).read fun head head' d d' hhead halike hd => ?_
  obtain rfl : head' = head := hhead
  refine .ite (by rw [halike.isPrefixOf (by decide)]) (fun hcolons => ?_) fun _ => ?_
  · have hkind := halike.advance (n := 2) (length_le_of_isPrefixOf (by decide) hcolons)
    have hkindLength := d'.length_advance 2
    refine (Follows.word hkind _).read fun kind kind' e e' hsame halike he => ?_
    obtain rfl : kind' = kind := hsame
    have hname := halike.skipInline
    have hnameLength := e'.length_skipInline
    refine .ite (by rw [hname.sees (by decide), hname.sees (by decide)]) (fun _ => ?_) fun _ => ?_
    · exact (refPath_follows hname _ rfl _ _).shorter (by omega)
    · refine (ih.primary hname (by omega)).read fun name name' i i' hsame halike hi => ?_
      exact (refPath_follows halike _ (by simp [hsame]) _ _).shorter (by omega)
  · have hlast := d'.length_skipInline
    exact .expect halike.skipInline (by decide) fun e e' halike he =>
      .done (by simp [Node.bare]) halike (by omega)

/-- The rules for expressions follow themselves on alike texts. -/
theorem expressionsFollow (file : String) (n : Nat) : ExpressionsFollow file n := by
  induction n with
  | zero =>
    exact ⟨fun _ _ _ => .fail, fun _ _ _ _ _ _ => .fail, fun _ _ => .fail, fun _ _ => .fail,
      fun _ _ => .fail, fun _ _ => .fail, fun _ _ => .fail, fun _ _ _ => .fail⟩
  | succ n ih =>
    refine
      { binary := @fun c c' n' h hn least => ?binary
        operators := @fun c c' n' h hn least left left' hleft => ?operators
        primary := @fun c c' n' h hn => ?primary
        stringParts := @fun c c' n' h hn => ?stringParts
        listItems := @fun c c' n' h hn => ?listItems
        mapEntries := @fun c c' n' h hn => ?mapEntries
        stringKey := @fun c c' n' h hn => ?stringKey
        reference := @fun c c' n' h hn hopens => ?reference }
    all_goals obtain ⟨n', rfl⟩ := Nat.exists_eq_add_one_of_ne_zero (Nat.ne_of_gt (by omega : 0 < n'))
    case binary =>
      rw [Language.binary, Language.binary]
      refine (ih.primary h (by omega)).read fun left left' d d' hleft halike hd => ?_
      exact (ih.operators halike (by omega) least hleft).shorter hd
    case operators => exact operators_follows ih h hn least hleft
    case primary => exact primary_follows ih h hn
    case stringParts => exact stringParts_follows ih h hn
    case listItems => exact listItems_follows ih h hn
    case mapEntries => exact mapEntries_follows ih h hn
    case stringKey => exact stringKey_follows ih h hn
    case reference => exact reference_follows ih h hn hopens

end Expressions

/-! ## Directive lines -/

/-- The arguments and options of a directive without their places. -/
def bareClausesOf (read : List Node × List Clause) : List Node × List Clause :=
  (read.1.map Node.bare, read.2.map Clause.bare)

section Clauses

variable {file : String} {c c' : Cursor}

theorem sees_of_startsOption (h : startsOption c.rest = true) : c.sees '-' = true := by
  unfold startsOption at h
  split at h
  · next hrest =>
    rw [Cursor.sees, Cursor.peek, hrest]
    rfl
  · cases h

theorem clauses_follows (n : Nat) {n' : Nat} (h : Alike c.rest c'.rest)
    (hn : 12 * c'.rest.length + 4 ≤ n') :
    Follows (SameReading Alike bareClausesOf (c'.rest.length + 1)) (clauses file n c)
      (clauses file n' c') := by
  induction n generalizing c c' n' with
  | zero => exact .fail
  | succ n ih =>
    obtain ⟨n', rfl⟩ := Nat.exists_eq_add_one_of_ne_zero (Nat.ne_of_gt (by omega : 0 < n'))
    have hinline := h.skipInline
    have hskip := c'.length_skipInline
    -- the arguments read first go to the option in front of them
    have hoption : ∀ (name : String) {d d' : Cursor}, Alike d.rest d'.rest →
        d'.rest.length < c'.rest.length →
        Follows (SameReading Alike bareClausesOf (c'.rest.length + 1))
          (clauses file n d >>= fun read =>
            .ok (([], ⟨name, read.1.1⟩ :: read.1.2), read.2))
          (clauses file n' d' >>= fun read =>
            .ok (([], ⟨name, read.1.1⟩ :: read.1.2), read.2)) := by
      intro name d d' halike hd
      refine (ih halike (by omega)).read fun read read' e e' hread halike he => ?_
      obtain ⟨harguments, hoptions⟩ := Prod.mk.inj hread
      dsimp only
      exact .done (by simp [bareClausesOf, Clause.bare_eq, harguments, hoptions]) halike (by omega)
    rw [clauses, clauses]
    refine .ite (by rw [hinline.atLineEnd]) (fun _ => .done rfl hinline (by omega)) fun _ =>
      .ite (by rw [← startsOption_lineOf, ← hinline.lineOf, startsOption_lineOf]) (fun hstarts => ?_)
        fun _ => .ite (by rw [hinline.atKeyword (by decide)]) (fun hin => ?_) fun _ => ?_
    · have hsees : c.skipInline.sees '-' = true := sees_of_startsOption hstarts
      obtain ⟨hstep, hlength⟩ := hinline.step (by decide) hsees
      refine (Follows.word hstep _).read fun name name' d d' hname halike hd => ?_
      obtain rfl : name' = name := hname
      exact hoption _ halike (by omega)
    · obtain ⟨hbehind, hlength⟩ := hinline.keyword (n := 2) (by decide) hin rfl
      exact hoption "in" hbehind (by omega)
    · refine ((expressionsFollow file n).binary hinline (by omega) 1).read
        fun value value' d d' hvalue halike hd => ?_
      have hnext := halike.skipInline
      have hnextSkip := d'.length_skipInline
      have hpass := d'.skipInline.length_pass ','
      refine (ih (hnext.pass (by decide)) (by omega)).read fun read read' e e' hread halike he => ?_
      obtain ⟨harguments, hoptions⟩ := Prod.mk.inj hread
      exact .done (by simp [bareClausesOf, hvalue, harguments, hoptions]) halike (by omega)

theorem pairValue_follows (n : Nat) {n' : Nat} (h : Alike c.rest c'.rest)
    (hn : 12 * c'.rest.length + 3 ≤ n') (key : String) (span span' : Span) :
    Follows (SameReading StartAlike Node.bare c'.rest.length) (pairValue file n key span c)
      (pairValue file n' key span' c') := by
  have hskip := c'.length_skipInline
  refine ((expressionsFollow file n).binary h.skipInline (by omega) 1).read
    fun value value' d d' hvalue halike hd => ?_
  exact .expectLineEnd halike fun e e' hstart he =>
    .done (by simp [Node.bare, Entry.bare_eq, hvalue]) hstart (by omega)

theorem guardOf_follows (n : Nat) {n' : Nat} (h : Alike c.rest c'.rest)
    (hn : 12 * c'.rest.length + 4 ≤ n') :
    Follows (SameReading Alike (List.map Node.bare) (c'.rest.length + 1)) (guardOf file n c)
      (guardOf file n' c') := by
  refine .ite (by rw [h.atKeyword (by decide)]) (fun hif => ?_) fun _ => .done rfl h (by omega)
  obtain ⟨hbehind, hlength⟩ := h.keyword (n := 2) (by decide) hif rfl
  refine (clauses_follows n hbehind (by omega)).read fun read read' d d' hread halike hd => ?_
  exact .done (Prod.mk.inj hread).1 halike (by omega)

end Clauses

/-! ## Statements -/

/-- The second body is the same up to places.  Behind the word that starts a branch it goes on with
an alike text; otherwise a new line starts. -/
structure SameBody (bound : Nat) (r r' : (List Node × Ending) × Cursor) : Prop where
  nodes : r'.1.1.map Node.bare = r.1.1.map Node.bare
  ending : r'.1.2 = r.1.2
  behindElse : r.1.2 = .orElse → Alike r.2.rest r'.2.rest ∧ r'.2.rest.length < bound
  behindEnd : r.1.2 ≠ .orElse → StartAlike r.2.rest r'.2.rest ∧ r'.2.rest.length ≤ bound

/-- With so many steps to nest, the rules for statements follow themselves on alike texts that are
short enough for the steps of the second parse. -/
structure StatementsFollow (file : String) (n : Nat) : Prop where
  body : ∀ {c c' : Cursor} {n' : Nat}, StartAlike c.rest c'.rest → 12 * c'.rest.length + 5 ≤ n' →
    ∀ allowElse, Follows (SameBody c'.rest.length) (body file n allowElse c)
      (body file n' allowElse c')
  blockBody : ∀ {c c' : Cursor} {n' : Nat}, StartAlike c.rest c'.rest →
    12 * c'.rest.length + 6 ≤ n' →
    ∀ what, Follows (SameReading StartAlike (List.map Node.bare) (c'.rest.length + 1))
      (blockBody file n what c) (blockBody file n' what c')
  statement : ∀ {c c' : Cursor} {n' : Nat}, Alike c.rest c'.rest → 12 * c'.rest.length + 4 ≤ n' →
    Follows (SameReading StartAlike Node.bare c'.rest.length) (statement file n c)
      (statement file n' c')
  resource : ∀ {c c' : Cursor} {n' : Nat}, Alike c.rest c'.rest → 12 * c'.rest.length + 3 ≤ n' →
    ∀ type span span', Follows (SameReading StartAlike Node.bare (c'.rest.length + 1))
      (resource file n type span c) (resource file n' type span' c')
  directive : ∀ {c c' : Cursor} {n' : Nat}, Alike c.rest c'.rest → 12 * c'.rest.length + 1 ≤ n' →
    ∀ span span', Follows (SameReading StartAlike Node.bare (c'.rest.length + 1))
      (directive file n span c) (directive file n' span' c')
  elseBranches : ∀ {c c' : Cursor} {n' : Nat} {ending : Ending} {bound : Nat},
    (ending = .orElse → Alike c.rest c'.rest ∧ c'.rest.length < bound) →
    (ending ≠ .orElse → StartAlike c.rest c'.rest ∧ c'.rest.length ≤ bound) →
    12 * bound + 1 ≤ n' → ∀ name,
      Follows (SameReading StartAlike (List.map Branch.bare) (bound + 1))
        (elseBranches file n name ending c) (elseBranches file n' name ending c')

section Statements

variable {file : String} {n n' : Nat} {c c' : Cursor}

theorem body_follows (ih : StatementsFollow file n) (h : StartAlike c.rest c'.rest)
    (hn : 12 * c'.rest.length + 5 ≤ n' + 1) (allowElse : Bool) :
    Follows (SameBody c'.rest.length) (body file (n + 1) allowElse c)
      (body file (n' + 1) allowElse c') := by
  have hblank := h.skipBlank
  have hskip := c'.length_skipBlank
  -- an end marker closes the body
  have hclosed : ∀ {keyword : List Char}, '\n' ∉ keyword → c.skipBlank.atKeyword keyword = true →
      Follows (SameBody c'.rest.length)
        ((c.skipBlank.advance keyword.length).expectLineEnd file >>= fun d =>
          .ok (([], .closed), d))
        ((c'.skipBlank.advance keyword.length).expectLineEnd file >>= fun d =>
          .ok (([], .closed), d)) := by
    intro keyword hkeyword hat
    obtain ⟨hbehind, hlength⟩ := hblank.keyword hkeyword hat rfl
    exact .expectLineEnd hbehind fun d d' hstart hd =>
      .ok ⟨rfl, rfl, fun helse => (by cases helse), fun _ => ⟨hstart, by dsimp only; omega⟩⟩
  rw [body, body]
  refine .ite (by rw [h.peek_none]) (fun _ => ?_) fun _ =>
    .ite (by rw [hblank.atKeyword (by decide)]) (hclosed (by decide)) fun _ =>
    .ite (by rw [hblank.atKeyword (by decide)]) (hclosed (by decide)) fun _ =>
    .ite (by rw [hblank.atKeyword (by decide)]) (fun helse => ?_) fun _ => ?_
  · exact .ok ⟨rfl, rfl, fun helse => (by cases helse), fun _ => ⟨hblank.start, hskip⟩⟩
  · obtain ⟨hbehind, hlength⟩ := hblank.keyword (n := 5) (by decide) helse rfl
    refine .ite Iff.rfl (fun _ => ?_) fun _ => .fail
    exact .ok ⟨rfl, rfl, fun _ => ⟨hbehind, by dsimp only; omega⟩, fun hne => absurd rfl hne⟩
  · refine (ih.statement hblank (by omega)).read fun node node' d d' hnode hstart hd => ?_
    refine (ih.body hstart (by omega) allowElse).bind fun read read' hread => ?_
    obtain ⟨⟨nodes, ending⟩, e⟩ := read
    obtain ⟨⟨nodes', ending'⟩, e'⟩ := read'
    obtain ⟨hnodes, hending, helse, hend⟩ := hread
    refine .ok ⟨?_, hending, fun hending => ?_, fun hending => ?_⟩
    · dsimp only at hnodes ⊢
      rw [List.map_cons, List.map_cons, hnode, hnodes]
    · exact ⟨(helse hending).1, (helse hending).2.trans (by omega)⟩
    · exact ⟨(hend hending).1, (hend hending).2.trans (by omega)⟩

theorem blockBody_follows (ih : StatementsFollow file n) (h : StartAlike c.rest c'.rest)
    (hn : 12 * c'.rest.length + 6 ≤ n' + 1) (what : String) :
    Follows (SameReading StartAlike (List.map Node.bare) (c'.rest.length + 1))
      (blockBody file (n + 1) what c) (blockBody file (n' + 1) what c') := by
  rw [blockBody, blockBody]
  refine (ih.body h (by omega) false).bind fun read read' hread => ?_
  obtain ⟨⟨nodes, ending⟩, d⟩ := read
  obtain ⟨⟨nodes', ending'⟩, d'⟩ := read'
  obtain ⟨hnodes, rfl, -, hend⟩ := hread
  refine .ite Iff.rfl (fun hclosed => ?_) fun _ => .fail
  obtain ⟨hstart, hlength⟩ := hend fun helse => by
    dsimp only at hclosed helse
    rw [hclosed] at helse
    cases helse
  exact .done hnodes hstart (Nat.lt_succ_of_le hlength)

theorem resource_follows (ih : StatementsFollow file n) (h : Alike c.rest c'.rest)
    (hn : 12 * c'.rest.length + 3 ≤ n' + 1) (type : String) (span span' : Span) :
    Follows (SameReading StartAlike Node.bare (c'.rest.length + 1))
      (resource file (n + 1) type span c) (resource file (n' + 1) type span' c') := by
  have hinline := h.skipInline
  have hskip := c'.length_skipInline
  rw [resource, resource]
  refine .ite (by rw [hinline.atLineEnd]) (fun _ => .fail) fun _ => ?_
  refine ((expressionsFollow file n).primary hinline (by omega)).read
    fun name name' d d' hname halike hd => ?_
  refine .expectLineEnd halike fun e e' hstart he => ?_
  refine (ih.blockBody hstart (by omega) _).read fun nodes nodes' i i' hnodes hstart hi => ?_
  exact .done (by simp [Node.bare, hname, hnodes]) hstart (by omega)

theorem statement_follows (ih : StatementsFollow file n) (h : Alike c.rest c'.rest)
    (hn : 12 * c'.rest.length + 4 ≤ n' + 1) :
    Follows (SameReading StartAlike Node.bare c'.rest.length) (statement file (n + 1) c)
      (statement file (n' + 1) c') := by
  rw [statement, statement]
  refine .ite (by rw [h.sees (by decide)]) (fun hat => ?_) fun _ =>
    .ite (by rw [h.sees (by decide), h.sees (by decide)]) (fun _ => ?_) fun _ =>
    .ite (by rw [h.peek_any (by decide)]) (fun _ => ?_) fun _ => .unexpected
  · obtain ⟨hstep, hlength⟩ := h.step (by decide) hat
    exact (ih.directive hstep (by omega) _ _).shorter (by omega)
  · refine ((expressionsFollow file n).stringKey h (by omega)).read
      fun key key' d d' hkey halike hd => ?_
    obtain rfl : key' = key := hkey
    have hskip := d'.length_skipInline
    refine .expect halike.skipInline (by decide) fun e e' halike he => ?_
    exact (pairValue_follows n halike (by omega) _ _ _).shorter (by omega)
  · refine (Follows.word h _).read fun head head' d d' hhead halike hd => ?_
    obtain rfl : head' = head := hhead
    refine .ite (by rw [halike.isPrefixOf (by decide)]) (fun hcolons => ?_) fun _ => ?_
    · have hkind := halike.advance (n := 2) (length_le_of_isPrefixOf (by decide) hcolons)
      have hkindLength := d'.length_advance 2
      refine (Follows.word hkind _).read fun kind kind' e e' hsame halike he => ?_
      obtain rfl : kind' = kind := hsame
      exact (ih.resource halike (by omega) _ _ _).shorter (by omega)
    · have hinline := halike.skipInline
      have hskip := d'.length_skipInline
      refine .ite (by rw [hinline.sees (by decide)]) (fun hcolon => ?_) fun _ => ?_
      · obtain ⟨hstep, hlength⟩ := hinline.step (by decide) hcolon
        exact (pairValue_follows n hstep (by omega) _ _ _).shorter (by omega)
      · refine .expectLineEnd hinline fun e e' hstart he => ?_
        refine (ih.blockBody hstart (by omega) _).read fun nodes nodes' i i' hnodes hstart hi => ?_
        exact .done (by simp [Node.bare, hnodes]) hstart (by omega)

theorem directive_follows (ih : StatementsFollow file n) (h : Alike c.rest c'.rest)
    (hn : 12 * c'.rest.length + 1 ≤ n' + 1) (span span' : Span) :
    Follows (SameReading StartAlike Node.bare (c'.rest.length + 1)) (directive file (n + 1) span c)
      (directive file (n' + 1) span' c') := by
  rw [directive, directive]
  refine (Follows.word h _).read fun word word' d d' hword halike hd => ?_
  obtain rfl : word' = word := hword
  have hpass := d'.length_pass ':'
  refine (clauses_follows n (halike.pass (by decide)) (by omega)).read
    fun read read' e e' hread halikeLine he => ?_
  obtain ⟨arguments, options⟩ := read
  obtain ⟨arguments', options'⟩ := read'
  obtain ⟨harguments, hoptions⟩ := Prod.mk.inj hread
  refine .expectLineEnd halikeLine fun i i' hstart hi => ?_
  refine .ite (by rw [halike.sees (by decide)]) (fun _ => ?_) fun _ => ?_
  · refine .done ?_ hstart (by omega)
    simp only [Node.bare, Directive.bare_eq]
    simp_all
  · refine (ih.body hstart (by omega) _).bind fun inner inner' hinner => ?_
    obtain ⟨⟨nodes, ending⟩, j⟩ := inner
    obtain ⟨⟨nodes', ending'⟩, j'⟩ := inner'
    obtain ⟨hnodes, rfl, helse, hend⟩ := hinner
    refine (ih.elseBranches helse hend (by omega) _).read
      fun branches branches' k k' hbranches hstart hk => ?_
    refine .done ?_ hstart (by omega)
    simp only [Node.bare, Directive.bare_eq]
    simp_all

theorem elseBranches_follows (ih : StatementsFollow file n) {ending : Ending} {bound : Nat}
    (helse : ending = .orElse → Alike c.rest c'.rest ∧ c'.rest.length < bound)
    (hend : ending ≠ .orElse → StartAlike c.rest c'.rest ∧ c'.rest.length ≤ bound)
    (hn : 12 * bound + 1 ≤ n' + 1) (name : String) :
    Follows (SameReading StartAlike (List.map Branch.bare) (bound + 1))
      (elseBranches file (n + 1) name ending c) (elseBranches file (n' + 1) name ending c') := by
  cases ending with
  | closed =>
    obtain ⟨hstart, hlength⟩ := hend fun h => by cases h
    rw [elseBranches, elseBranches]
    exact .done rfl hstart (Nat.lt_succ_of_le hlength)
  | eof =>
    rw [elseBranches]
    exact .fail
  | orElse =>
    obtain ⟨h, hlength⟩ := helse rfl
    have hskip := c'.length_skipInline
    rw [elseBranches, elseBranches]
    refine (guardOf_follows n h.skipInline (by omega)).read
      fun arguments arguments' d d' harguments halike hd => ?_
    refine .expectLineEnd halike fun e e' hstart he => ?_
    refine (ih.body hstart (by omega) true).bind fun inner inner' hinner => ?_
    obtain ⟨⟨nodes, ending⟩, i⟩ := inner
    obtain ⟨⟨nodes', ending'⟩, i'⟩ := inner'
    obtain ⟨hnodes, rfl, helse, hend⟩ := hinner
    refine (ih.elseBranches helse hend (by omega) name).read
      fun branches branches' j j' hbranches hstart hj => ?_
    refine .done ?_ hstart (by omega)
    simp_all [Branch.bare_eq]

/-- The rules for statements follow themselves on alike texts. -/
theorem statementsFollow (file : String) (n : Nat) : StatementsFollow file n := by
  induction n with
  | zero =>
    exact ⟨fun _ _ _ => .fail, fun _ _ _ => .fail, fun _ _ => .fail, fun _ _ _ _ _ => .fail,
      fun _ _ _ _ => .fail, fun _ _ _ _ => .fail⟩
  | succ n ih =>
    refine
      { body := @fun c c' n' h hn allowElse => ?body
        blockBody := @fun c c' n' h hn what => ?blockBody
        statement := @fun c c' n' h hn => ?statement
        resource := @fun c c' n' h hn type span span' => ?resource
        directive := @fun c c' n' h hn span span' => ?directive
        elseBranches := @fun c c' n' ending bound helse hend hn name => ?elseBranches }
    all_goals obtain ⟨n', rfl⟩ := Nat.exists_eq_add_one_of_ne_zero (Nat.ne_of_gt (by omega : 0 < n'))
    case body => exact body_follows ih h hn allowElse
    case blockBody => exact blockBody_follows ih h hn what
    case statement => exact statement_follows ih h hn
    case resource => exact resource_follows ih h hn type span span'
    case directive => exact directive_follows ih h hn span span'
    case elseBranches => exact elseBranches_follows ih helse hend hn name

end Statements

/-! ## Sources -/

/-- The parse of a relaid text follows the parse of the text. -/
theorem parse_follows {source source' : String}
    (h : Relaid (Text.split '\n' source.toList) (Text.split '\n' source'.toList)) (path : String) :
    Follows (fun file file' => bareNodes file'.body = bareNodes file.body) (parse path source)
      (parse path source') := by
  have hstart : StartAlike source.toList source'.toList := by
    have halike := h.alike (fun line hline => Text.not_mem_of_mem_split hline)
      fun line hline => Text.not_mem_of_mem_split hline
    rwa [join_split, join_split] at halike
  have hfuel : 12 * source'.toList.length + 5 ≤ nestingBound source'.toList := by
    unfold nestingBound
    omega
  have hnodes : Follows (fun nodes nodes' => nodes'.map Node.bare = nodes.map Node.bare)
      (parseChars path source.toList) (parseChars path source'.toList) := by
    have hcursors : StartAlike (Cursor.start source.toList).rest (Cursor.start source'.toList).rest :=
      hstart
    refine ((statementsFollow path (nestingBound source.toList)).body hcursors hfuel false).bind
      fun read read' hread => ?_
    obtain ⟨⟨nodes, ending⟩, last⟩ := read
    obtain ⟨⟨nodes', ending'⟩, last'⟩ := read'
    obtain ⟨hnodes, rfl, -, -⟩ := hread
    exact .ite Iff.rfl (fun _ => .ok hnodes) fun _ => .fail
  exact hnodes.bind fun nodes nodes' hsame => .ok (by simpa using hsame)

/-- Indentation, blank lines and comment lines do not count: of two sources that differ only in them
either both are rejected, or both have the same trees up to places. -/
theorem parse_relaid {source source' : String}
    (h : Relaid (Text.split '\n' source.toList) (Text.split '\n' source'.toList)) (path : String) :
    (parse path source').toOption.map (fun file => bareNodes file.body) =
      (parse path source).toOption.map fun file => bareNodes file.body := by
  cases hparse : parse path source with
  | ok file =>
    obtain ⟨file', hparse', hsame⟩ := parse_follows h path file hparse
    rw [hparse']
    exact congrArg some hsame
  | error e =>
    cases hparse' : parse path source' with
    | error e' => rfl
    | ok file' =>
      obtain ⟨file, hback, -⟩ := parse_follows h.symm path file' hparse'
      rw [hparse] at hback
      cases hback

/-- A list with a line for each item, indented in another way, with a comment line and without the
blank one. -/
theorem parse_relaid_list :
    (parse "/w/main.cairn" "  x: ['a', # first\n# second\n\t'b']").toOption.map
        (fun file => bareNodes file.body) =
      some [.pair ⟨"x", .list [.text "a", .text "b"], Span.generated⟩] := by
  have hlines : Text.split '\n' "x: ['a', # first\n\n      'b']".toList =
      ["x: ['a', # first".toList, [], "      'b']".toList] := by cbv
  have hlines' : Text.split '\n' "  x: ['a', # first\n# second\n\t'b']".toList =
      ["  x: ['a', # first".toList, "# second".toList, "\t'b']".toList] := by cbv
  have hrelaid : Relaid (Text.split '\n' "x: ['a', # first\n\n      'b']".toList)
      (Text.split '\n' "  x: ['a', # first\n# second\n\t'b']".toList) := by
    rw [hlines, hlines']
    refine @Relaid.line [] [' ', ' '] "x: ['a', # first".toList _ _ (List.all_eq_true.1 rfl)
      (List.all_eq_true.1 rfl) ?_
    refine .removed (by decide) (.inserted (by decide) ?_)
    exact @Relaid.line "      ".toList ['\t'] "'b']".toList _ _ (List.all_eq_true.1 rfl)
      (List.all_eq_true.1 rfl) .nil
  exact (parse_relaid hrelaid "/w/main.cairn").trans (by cbv)

end Provision.Language
