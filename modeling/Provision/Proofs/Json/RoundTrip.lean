import Provision.Proofs.Json.Lexical

/-!
# Printed documents read back

A document that is printed on several lines is read from that text again, down to
the depth at which arrays and objects become illegible.  So it comes back whole
exactly when its parts do not stand too deep inside one another.
-/

namespace Provision.Json

open Provision.Decimal (natDigits isDigit_of_mem_natDigits natDigits_ne_nil)

/-! ## What is read of a document -/

mutual

/-- What is read of a document when arrays and objects are legible down to some depth. -/
def readTo (depth : Nat) : Json → Reading
  | null => .null
  | bool b => .bool b
  | natural n => .natural n
  | number x => .number x
  | string s => .string s
  | array items => within depth (.array (itemsTo (depth - 1) items))
  | object members => within depth (.object (membersTo (depth - 1) members))

/-- What is read of the items of an array. -/
def itemsTo (depth : Nat) : List Json → List Reading
  | [] => []
  | item :: rest => item.readTo depth :: itemsTo depth rest

/-- What is read of the members of an object. -/
def membersTo (depth : Nat) : List (String × Json) → List (Option String × Reading)
  | [] => []
  | (name, item) :: rest => (some name, item.readTo depth) :: membersTo depth rest

end

mutual

/-- How many arrays and objects of a document stand inside one another. -/
def nesting : Json → Nat
  | array items => nestingOfItems items + 1
  | object members => nestingOfMembers members + 1
  | _ => 0

/-- The deepest nesting among the items of an array. -/
def nestingOfItems : List Json → Nat
  | [] => 0
  | item :: rest => max item.nesting (nestingOfItems rest)

/-- The deepest nesting among the members of an object. -/
def nestingOfMembers : List (String × Json) → Nat
  | [] => 0
  | (_, item) :: rest => max item.nesting (nestingOfMembers rest)

end

/-- A document whose numbers all come back from their texts. -/
inductive Legible : Json → Prop
  | null : Legible .null
  | bool (b : Bool) : Legible (.bool b)
  | natural {n : Nat} (hbound : n < 2 ^ 64) : Legible (.natural n)
  | number {x : Float} (hback : ReadsBack x) : Legible (.number x)
  | string (s : String) : Legible (.string s)
  | array {items : List Json} (hitems : ∀ item ∈ items, Legible item) : Legible (.array items)
  | object {members : List (String × Json)} (hmembers : ∀ member ∈ members, Legible member.2) :
      Legible (.object members)

variable {doc : Json} {items : List Json} {members : List (String × Json)}
variable {text tail rest : List Char} {fuel depth : Nat}

theorem itemsTo_eq_map (depth : Nat) (items : List Json) :
    itemsTo depth items = items.map (readTo depth) := by
  induction items with
  | nil => rfl
  | cons item rest ih => rw [itemsTo, ih, List.map_cons]

theorem membersTo_eq_map (depth : Nat) (members : List (String × Json)) :
    membersTo depth members =
      members.map fun member => (some member.1, member.2.readTo depth) := by
  induction members with
  | nil => rfl
  | cons member rest ih => rw [membersTo, ih, List.map_cons]

mutual

/-- A document is legible as a whole exactly when it is not nested too deep. -/
theorem document?_readTo (depth : Nat) :
    ∀ doc : Json, (doc.readTo depth).document? = if doc.nesting ≤ depth then some doc else none
  | null => (if_pos (Nat.zero_le _)).symm
  | bool b => (if_pos (Nat.zero_le _)).symm
  | natural n => (if_pos (Nat.zero_le _)).symm
  | number x => (if_pos (Nat.zero_le _)).symm
  | string s => (if_pos (Nat.zero_le _)).symm
  | array items => by
    rw [readTo, within, nesting]
    cases depth with
    | zero => rfl
    | succ depth =>
      rw [if_neg (Nat.succ_ne_zero depth), Reading.document?, Nat.add_sub_cancel,
        itemDocuments?_itemsTo depth items]
      simp only [Nat.add_le_add_iff_right]
      split <;> rfl
  | object members => by
    rw [readTo, within, nesting]
    cases depth with
    | zero => rfl
    | succ depth =>
      rw [if_neg (Nat.succ_ne_zero depth), Reading.document?, Nat.add_sub_cancel,
        memberDocuments?_membersTo depth members]
      simp only [Nat.add_le_add_iff_right]
      split <;> rfl

theorem itemDocuments?_itemsTo (depth : Nat) :
    ∀ items : List Json, Reading.itemDocuments? (itemsTo depth items) =
      if nestingOfItems items ≤ depth then some items else none
  | [] => (if_pos (Nat.zero_le _)).symm
  | item :: rest => by
    rw [itemsTo, Reading.itemDocuments?, document?_readTo depth item,
      itemDocuments?_itemsTo depth rest, nestingOfItems]
    by_cases hitem : item.nesting ≤ depth <;> by_cases hrest : nestingOfItems rest ≤ depth <;>
      simp [hitem, hrest]

theorem memberDocuments?_membersTo (depth : Nat) :
    ∀ members : List (String × Json), Reading.memberDocuments? (membersTo depth members) =
      if nestingOfMembers members ≤ depth then some members else none
  | [] => (if_pos (Nat.zero_le _)).symm
  | (name, item) :: rest => by
    rw [membersTo, Reading.memberDocuments?, document?_readTo depth item,
      memberDocuments?_membersTo depth rest, nestingOfMembers]
    by_cases hitem : item.nesting ≤ depth <;> by_cases hrest : nestingOfMembers rest ≤ depth <;>
      simp [hitem, hrest]

end

/-! ## Printing -/

theorem prettyItems_eq_map (level : Nat) (items : List Json) :
    prettyItems level items = items.map (pretty level) := by
  induction items with
  | nil => rfl
  | cons item rest ih => rw [prettyItems, ih, List.map_cons]

/-- The text of a member. -/
def prettyMember (level : Nat) (member : String × Json) : List Char :=
  quoted member.1.toList ++ ':' :: ' ' :: member.2.pretty level

theorem prettyMembers_eq_map (level : Nat) (members : List (String × Json)) :
    prettyMembers level members = members.map (prettyMember level) := by
  induction members with
  | nil => rfl
  | cons member rest ih => rw [prettyMembers, ih, List.map_cons]; rfl

theorem skipSpace_newline (level : Nat) (text : List Char) :
    skipSpace (newline level ++ text) = skipSpace text := by
  have hblanks (n : Nat) : skipSpace (List.replicate n ' ' ++ text) = skipSpace text := by
    induction n with
    | zero => rfl
    | succ n ih => exact ih
  exact hblanks (2 * level)

theorem ends_newline (level : Nat) (text : List Char) : Ends (newline level ++ text) := by
  intro c hc
  cases hc
  decide

theorem ends_comma (text : List Char) : Ends (',' :: text) := by
  intro c hc
  cases hc
  decide

theorem ends_nil : Ends [] := by
  intro c hc
  cases hc

theorem skipSpace_append {c : Char} (h : isSpace c = false) (rest : List Char) :
    skipSpace (c :: rest) = c :: rest := by
  rw [skipSpace, List.dropWhile_cons, h]
  rfl

theorem onLines_head (opening closing : Char) (level : Nat) (lines : List (List Char)) :
    ∃ rest, onLines opening closing level lines = opening :: rest := by
  unfold onLines
  split <;> exact ⟨_, rfl⟩

/-- A character with which the text of a document can start. -/
def Opens (c : Char) : Prop :=
  isSpace c = false ∧ c ≠ ']' ∧ c ≠ '\x7d'

theorem opens_splitNumber {split : NumberText × List Char} (hsolid : Solid text)
    (h : splitNumber text = some split) : ∃ c rest, text = c :: rest ∧ Opens c := by
  cases text with
  | nil => cases h
  | cons c rest =>
    refine ⟨c, rest, rfl, (solid_cons.1 hsolid).1, ?_, ?_⟩
    · rintro rfl
      cases h
    · rintro rfl
      cases h

theorem Legible.opens (h : doc.Legible) (level : Nat) :
    ∃ c rest, doc.pretty level = c :: rest ∧ Opens c := by
  cases h with
  | null => exact ⟨_, _, rfl, by decide, by decide, by decide⟩
  | bool b => cases b <;> exact ⟨_, _, rfl, by decide, by decide, by decide⟩
  | natural _ => exact opens_splitNumber (solid_natDigits _) (splitNumber_natDigits _)
  | @number x hback =>
    obtain ⟨parts, hsplit, -⟩ := hback.split
    exact opens_splitNumber (solid_write x) hsplit
  | string s => exact ⟨_, _, rfl, by decide, by decide, by decide⟩
  | array _ =>
    obtain ⟨rest, hrest⟩ := onLines_head '[' ']' level _
    exact ⟨_, rest, hrest, by decide, by decide, by decide⟩
  | object _ =>
    obtain ⟨rest, hrest⟩ := onLines_head '\x7b' '\x7d' level _
    exact ⟨_, rest, hrest, by decide, by decide, by decide⟩

theorem Legible.skipSpace_pretty (h : doc.Legible) (level : Nat) (tail : List Char) :
    skipSpace (doc.pretty level ++ tail) = doc.pretty level ++ tail := by
  obtain ⟨c, rest, htext, hc, -⟩ := h.opens level
  rw [htext]
  exact skipSpace_append hc _

theorem join_opens {lines : List (List Char)} (hne : lines ≠ [])
    (hopens : ∀ line ∈ lines, ∃ c rest, line = c :: rest ∧ Opens c) (mark tail : List Char) :
    ∃ c rest, Text.join mark lines ++ tail = c :: rest ∧ Opens c := by
  match lines with
  | [] => exact absurd rfl hne
  | [line] =>
    obtain ⟨c, rest, rfl, hc⟩ := hopens _ List.mem_cons_self
    exact ⟨c, _, rfl, hc⟩
  | line :: next :: rest =>
    obtain ⟨c, rest, rfl, hc⟩ := hopens _ List.mem_cons_self
    exact ⟨c, _, rfl, hc⟩

theorem skipSpace_join {lines : List (List Char)} (hne : lines ≠ [])
    (hopens : ∀ line ∈ lines, ∃ c rest, line = c :: rest ∧ Opens c) (mark tail : List Char) :
    skipSpace (Text.join mark lines ++ tail) = Text.join mark lines ++ tail := by
  obtain ⟨c, rest, htext, hc, -⟩ := join_opens hne hopens mark tail
  rw [htext, skipSpace_append hc]

theorem opens_items (h : ∀ item ∈ items, item.Legible) (level : Nat) :
    ∀ line ∈ items.map (pretty level), ∃ c rest, line = c :: rest ∧ Opens c := by
  intro line hline
  obtain ⟨item, hitem, rfl⟩ := List.mem_map.1 hline
  exact (h item hitem).opens level

theorem opens_members (members : List (String × Json)) (level : Nat) :
    ∀ line ∈ members.map (prettyMember level), ∃ c rest, line = c :: rest ∧ Opens c := by
  intro line hline
  obtain ⟨member, -, rfl⟩ := List.mem_map.1 hline
  exact ⟨'"', _, rfl, by decide, by decide, by decide⟩

/-! ## Reading -/

/-- A number that can be split off is what is read. -/
theorem readValue_of_split {split : NumberText × List Char}
    (h : splitNumber (skipSpace text) = some split) :
    readValue (fuel + 1) depth text = some (numberOf split.1, split.2) := by
  unfold readValue
  split <;> rename_i heq
  · rw [heq] at h
    cases h
  · rw [heq] at h
    cases h
  · rw [heq] at h
    cases h
  · rw [heq] at h
    cases h
  · rw [heq] at h
    cases h
  · rw [heq] at h
    cases h
  · rw [h]
    rfl

theorem quoted_append (s : String) (tail : List Char) :
    quoted s.toList ++ tail = '"' :: (s.toList.flatMap escapedChar ++ '"' :: tail) := by
  simp only [quoted, List.cons_append, List.append_assoc, List.nil_append]

/-- A string is read up to its closing quote. -/
theorem readValue_quoted {s : String} (h : skipSpace text = quoted s.toList ++ tail) :
    readValue (fuel + 1) depth text = some (.string s, tail) := by
  obtain ⟨marks, hmarks, hread⟩ := readMarks_quoted s tail
  rw [readValue, h, quoted_append]
  simp only [hread, Option.bind_eq_bind, Option.bind_some, stringOf, hmarks]

/-- A document is read wherever its text stands, if there is fuel for every character. -/
def Readable (doc : Json) : Prop :=
  ∀ (fuel depth level : Nat) {text tail : List Char},
    skipSpace text = doc.pretty level ++ tail → Ends tail →
      2 * (doc.pretty level).length < fuel →
        readValue fuel depth text = some (doc.readTo depth, tail)

theorem Readable.of_succ
    (h : ∀ (fuel depth level : Nat) {text tail : List Char},
      skipSpace text = doc.pretty level ++ tail → Ends tail →
        2 * (doc.pretty level).length < fuel + 1 →
          readValue (fuel + 1) depth text = some (doc.readTo depth, tail)) :
    doc.Readable := by
  intro fuel depth level text tail htext htail hfuel
  cases fuel with
  | zero => exact absurd hfuel (Nat.not_lt_zero _)
  | succ fuel => exact h fuel depth level htext htail hfuel

/-- The items of an array are read up to the closing bracket. -/
theorem readItems_pretty (hne : items ≠ []) (hlegible : ∀ item ∈ items, item.Legible)
    (hread : ∀ item ∈ items, item.Readable) {level outer : Nat}
    (htext : skipSpace text = Text.join (',' :: newline level) (items.map (pretty level)) ++
      (newline outer ++ ']' :: tail))
    (hfuel : 2 * (Text.join (',' :: newline level) (items.map (pretty level))).length + 1 < fuel) :
    readItems fuel depth text = some (items.map (readTo depth), tail) := by
  induction items generalizing fuel text with
  | nil => exact absurd rfl hne
  | cons item rest ih =>
    rw [List.forall_mem_cons] at hlegible hread
    cases fuel with
    | zero => exact absurd hfuel (Nat.not_lt_zero _)
    | succ fuel =>
      cases rest with
      | nil =>
        have hitem := hread.1 fuel depth level htext (ends_newline _ _)
          (by simpa [Text.join] using hfuel)
        rw [readItems, hitem, Option.bind_eq_bind, Option.bind_some]
        dsimp only
        rw [skipSpace_newline, skipSpace_append (by decide)]
        rfl
      | cons next rest =>
        rw [List.map_cons, List.map_cons, Text.join, ← List.map_cons] at htext hfuel
        simp only [List.append_assoc, List.cons_append, List.length_append, List.length_cons]
          at htext hfuel
        have hitem := hread.1 fuel depth level htext (ends_comma _) (by omega)
        have hlines : (next :: rest).map (pretty level) ≠ [] := List.cons_ne_nil _ _
        have hnext := (skipSpace_newline level _).trans (skipSpace_join hlines
          (opens_items hlegible.2 level) (',' :: newline level) (newline outer ++ ']' :: tail))
        have hrest := ih (List.cons_ne_nil _ _) hlegible.2 hread.2 hnext
          (show _ < fuel by omega)
        rw [readItems, hitem, Option.bind_eq_bind, Option.bind_some]
        dsimp only
        rw [skipSpace_append (by decide)]
        simp only [hrest]
        rfl

/-- A member is its name in quotes, a colon, and its item behind a blank. -/
theorem readMarks_prettyMember (name : String) (item : Json) (level : Nat) (behind : List Char) :
    ∃ marks inner, textOf? marks = some name ∧
      prettyMember level (name, item) ++ behind = '"' :: inner ∧
      readMarks (inner.length + 1) inner =
        some (marks, ':' :: ' ' :: (item.pretty level ++ behind)) := by
  obtain ⟨marks, hmarks, hread⟩ := readMarks_quoted name (':' :: ' ' :: (item.pretty level ++ behind))
  refine ⟨marks, _, hmarks, ?_, hread⟩
  rw [prettyMember, List.append_assoc, quoted_append]
  rfl

/-- The members of an object are read up to the closing brace. -/
theorem readMembers_pretty (hne : members ≠ [])
    (hlegible : ∀ member ∈ members, member.2.Legible)
    (hread : ∀ member ∈ members, member.2.Readable) {level outer : Nat}
    (htext : skipSpace text =
      Text.join (',' :: newline level) (members.map (prettyMember level)) ++
        (newline outer ++ '\x7d' :: tail))
    (hfuel : 2 * (Text.join (',' :: newline level)
      (members.map (prettyMember level))).length + 1 < fuel) :
    readMembers fuel depth text =
      some (members.map fun member => (some member.1, member.2.readTo depth), tail) := by
  induction members generalizing fuel text with
  | nil => exact absurd rfl hne
  | cons member rest ih =>
    obtain ⟨name, item⟩ := member
    rw [List.forall_mem_cons] at hlegible hread
    have hlength : (item.pretty level).length < (prettyMember level (name, item)).length := by
      unfold prettyMember
      simp only [List.length_append, List.length_cons]
      omega
    have hitem (fuel : Nat) (behind : List Char) (hends : Ends behind)
        (hfuel : 2 * (item.pretty level).length < fuel) :
        readValue fuel depth (' ' :: (item.pretty level ++ behind)) =
          some (item.readTo depth, behind) :=
      hread.1 fuel depth level (hlegible.1.skipSpace_pretty level behind) hends hfuel
    cases fuel with
    | zero => exact absurd hfuel (Nat.not_lt_zero _)
    | succ fuel =>
      cases rest with
      | nil =>
        rw [List.map_cons, List.map_nil, Text.join] at htext hfuel
        obtain ⟨marks, inner, hmarks, hsplit, hreadMarks⟩ :=
          readMarks_prettyMember name item level (newline outer ++ '\x7d' :: tail)
        rw [readMembers, htext, hsplit]
        simp only [hreadMarks, Option.bind_eq_bind, Option.bind_some,
          skipSpace_append (c := ':') (by decide), hitem fuel _ (ends_newline _ _) (by omega),
          skipSpace_newline,
          skipSpace_append (c := '\x7d') (by decide), hmarks, List.map_cons, List.map_nil]
      | cons next rest =>
        rw [List.map_cons, List.map_cons, Text.join, ← List.map_cons] at htext hfuel
        simp only [List.append_assoc, List.cons_append, List.length_append, List.length_cons]
          at htext hfuel
        obtain ⟨marks, inner, hmarks, hsplit, hreadMarks⟩ :=
          readMarks_prettyMember name item level (',' :: (newline level ++
          (Text.join (',' :: newline level) ((next :: rest).map (prettyMember level)) ++
            (newline outer ++ '\x7d' :: tail))))
        have hlines : (next :: rest).map (prettyMember level) ≠ [] := List.cons_ne_nil _ _
        have hnext := (skipSpace_newline level _).trans (skipSpace_join hlines
          (opens_members (next :: rest) level) (',' :: newline level)
          (newline outer ++ '\x7d' :: tail))
        have hrest := ih (List.cons_ne_nil _ _) hlegible.2 hread.2 hnext
          (show _ < fuel by omega)
        rw [readMembers, htext, hsplit]
        simp only [hreadMarks, Option.bind_eq_bind, Option.bind_some,
          skipSpace_append (c := ':') (by decide), hitem fuel _ (ends_comma _) (by omega),
          skipSpace_append (c := ',') (by decide), hrest, hmarks]
        rfl

theorem readValue_array (h : skipSpace text = '[' :: rest)
    (hsome : ∀ more, skipSpace rest ≠ ']' :: more) :
    readValue (fuel + 1) depth text =
      (readItems fuel (depth - 1) (skipSpace rest)).map fun read =>
        (within depth (.array read.1), read.2) := by
  rw [readValue, h]
  split
  case h_5 opened heq =>
    cases heq
    split
    · rename_i hclosed
      exact absurd hclosed (hsome _)
    · cases readItems fuel (depth - 1) (skipSpace rest) <;> rfl
  case h_7 hopened _ => exact absurd rfl (hopened rest)
  all_goals
    rename_i heq
    cases heq

theorem readValue_object (h : skipSpace text = '\x7b' :: rest)
    (hsome : ∀ more, skipSpace rest ≠ '\x7d' :: more) :
    readValue (fuel + 1) depth text =
      (readMembers fuel (depth - 1) (skipSpace rest)).map fun read =>
        (within depth (.object read.1), read.2) := by
  rw [readValue, h]
  split
  case h_6 opened heq =>
    cases heq
    split
    · rename_i hclosed
      exact absurd hclosed (hsome _)
    · cases readMembers fuel (depth - 1) (skipSpace rest) <;> rfl
  case h_7 hopened => exact absurd rfl (hopened rest)
  all_goals
    rename_i heq
    cases heq

theorem readable_array (hlegible : ∀ item ∈ items, item.Legible)
    (hread : ∀ item ∈ items, item.Readable) : (array items).Readable := by
  refine .of_succ fun fuel depth level text tail htext _ hfuel => ?_
  rw [pretty, prettyItems_eq_map] at htext hfuel
  rw [readTo, itemsTo_eq_map]
  by_cases hne : items = []
  · subst hne
    rw [readValue, htext]
    rfl
  · have hlines : items.map (pretty (level + 1)) ≠ [] := by simpa using hne
    have hopens := opens_items hlegible (level + 1)
    rw [onLines, if_neg (by simpa using hne)] at htext hfuel
    simp only [List.append_assoc, List.cons_append, List.length_append, List.length_cons,
      List.nil_append] at htext hfuel
    have hinner := skipSpace_join hlines hopens (',' :: newline (level + 1))
      (newline level ++ ']' :: tail)
    obtain ⟨c, rest, hhead, -, hc, -⟩ := join_opens hlines hopens (',' :: newline (level + 1))
      (newline level ++ ']' :: tail)
    rw [readValue_array htext, skipSpace_newline, hinner,
      readItems_pretty hne hlegible hread hinner (by omega)]
    · rfl
    · intro more heq
      rw [skipSpace_newline, hinner, hhead] at heq
      exact hc (List.cons.inj heq).1

theorem readable_object (hlegible : ∀ member ∈ members, member.2.Legible)
    (hread : ∀ member ∈ members, member.2.Readable) : (object members).Readable := by
  refine .of_succ fun fuel depth level text tail htext _ hfuel => ?_
  rw [pretty, prettyMembers_eq_map] at htext hfuel
  rw [readTo, membersTo_eq_map]
  by_cases hne : members = []
  · subst hne
    rw [readValue, htext]
    rfl
  · have hlines : members.map (prettyMember (level + 1)) ≠ [] := by simpa using hne
    have hopens := opens_members members (level + 1)
    rw [onLines, if_neg (by simpa using hne)] at htext hfuel
    simp only [List.append_assoc, List.cons_append, List.length_append, List.length_cons,
      List.nil_append] at htext hfuel
    have hinner := skipSpace_join hlines hopens (',' :: newline (level + 1))
      (newline level ++ '\x7d' :: tail)
    obtain ⟨c, rest, hhead, -, -, hc⟩ := join_opens hlines hopens (',' :: newline (level + 1))
      (newline level ++ '\x7d' :: tail)
    rw [readValue_object htext, skipSpace_newline, hinner,
      readMembers_pretty hne hlegible hread hinner (by omega)]
    · rfl
    · intro more heq
      rw [skipSpace_newline, hinner, hhead] at heq
      exact hc (List.cons.inj heq).1

/-- A legible document is read from its text. -/
theorem Legible.readable (h : doc.Legible) : doc.Readable := by
  induction h with
  | null => exact .of_succ fun fuel depth level text tail htext _ _ => by rw [readValue, htext]; rfl
  | bool b =>
    exact .of_succ fun fuel depth level text tail htext _ _ => by
      cases b <;> rw [readValue, htext] <;> rfl
  | @natural n hbound =>
    refine .of_succ fun fuel depth level text tail htext htail _ => ?_
    have hsplit := splitNumber_append htail (splitNumber_natDigits n)
    rw [readValue_of_split (by rw [htext]; exact hsplit), numberOf_natDigits hbound]
    rfl
  | number hback =>
    refine .of_succ fun fuel depth level text tail htext htail _ => ?_
    obtain ⟨parts, hsplit, hnumber⟩ := hback.split
    rw [readValue_of_split (by rw [htext]; exact splitNumber_append htail hsplit), hnumber]
    rfl
  | string s => exact .of_succ fun fuel depth level text tail htext _ _ => readValue_quoted htext
  | array hitems ih => exact readable_array hitems ih
  | object hmembers ih => exact readable_object hmembers ih

/-- A printed document says what is legible of it. -/
theorem Legible.read?_prettyText (h : doc.Legible) :
    read? doc.prettyText = some (doc.readTo maxDepth) := by
  have hlength : 2 * (doc.pretty 0).length < 2 * (doc.pretty 0).length + 2 := by omega
  have hread := h.readable _ maxDepth 0 (h.skipSpace_pretty 0 []) ends_nil hlength
  rw [List.append_nil] at hread
  have htext : doc.prettyText.toList = doc.pretty 0 := String.toList_ofList
  simp only [read?, htext, hread]
  rfl

end Provision.Json
