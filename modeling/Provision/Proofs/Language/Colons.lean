import Provision.Proofs.Language.Layout
import Provision.Proofs.Language.Quoting

/-!
# What is read was there to be read

A colon is no blank, it is never escaped, and no escape stands for it.  So the
texts and keys of a tree hold no more colons than the text from which the tree
was read, and each key has one more behind it.  Colons that are passed over, in a
comment say, are missing in the tree.
-/

namespace Provision.Language

/-! ## Colons of trees and cursors -/

mutual

/-- The colons in the texts of a tree and in the keys of its maps, and those behind these keys.
Operators, references and statements count for nothing. -/
def Node.colons : Node → Nat
  | .text s => s.toList.count ':'
  | .list items => colonsOfNodes items
  | .map entries => colonsOfEntries entries
  | _ => 0

/-- The colons of several trees. -/
def colonsOfNodes : List Node → Nat
  | [] => 0
  | node :: rest => node.colons + colonsOfNodes rest

/-- The colons of the entries of a map. -/
def colonsOfEntries : List Entry → Nat
  | [] => 0
  | ⟨key, value, _⟩ :: rest => key.toList.count ':' + 1 + value.colons + colonsOfEntries rest

end

theorem colonsOfNodes_eq_sum (nodes : List Node) :
    colonsOfNodes nodes = (nodes.map Node.colons).sum := by
  induction nodes with
  | nil => rfl
  | cons node rest ih => rw [colonsOfNodes, ih, List.map_cons, List.sum_cons]

theorem colonsOfEntries_eq_sum (entries : List Entry) :
    colonsOfEntries entries =
      (entries.map fun entry => entry.key.toList.count ':' + 1 + entry.value.colons).sum := by
  induction entries with
  | nil => rfl
  | cons entry rest ih =>
    obtain ⟨key, value, span⟩ := entry
    rw [colonsOfEntries, ih, List.map_cons, List.sum_cons]

/-- Places are no colons. -/
theorem Node.colons_bare (node : Node) : node.bare.colons = node.colons := by
  induction node using Node.induction with
  | step node ih =>
    cases node with
    | list items =>
      rw [Node.bare, Node.colons, Node.colons, bareNodes_eq_map, colonsOfNodes_eq_sum,
        colonsOfNodes_eq_sum, List.map_map]
      exact congrArg List.sum (List.map_congr_left fun item hitem => ih item hitem)
    | map entries =>
      rw [Node.bare, Node.colons, Node.colons, bareEntries_eq_map, colonsOfEntries_eq_sum,
        colonsOfEntries_eq_sum, List.map_map]
      refine congrArg List.sum (List.map_congr_left fun entry hentry => ?_)
      rw [Function.comp_apply, Entry.bare_eq, ih entry.value (List.mem_map_of_mem hentry)]
    | _ => rfl

theorem colons_wordNode_le (word : List Char) : (wordNode word).colons ≤ word.count ':' := by
  unfold wordNode
  split
  · exact Nat.zero_le _
  · split
    · exact Nat.zero_le _
    · split
      · exact Nat.zero_le _
      · rw [Node.colons, String.toList_ofList]

theorem colons_interpolation_le (parts : List Node) :
    (interpolation parts).colons ≤ colonsOfNodes parts := by
  unfold interpolation
  split
  · exact Nat.zero_le _
  · rw [colonsOfNodes]
    exact Nat.le_add_right _ _
  · exact Nat.zero_le _

/-- The colons that a cursor still has before it. -/
def Cursor.colons (c : Cursor) : Nat :=
  c.rest.count ':'

namespace Cursor

variable {c after : Cursor} {file : String}

theorem colons_of_rest {front : List Char} (h : c.rest = front ++ after.rest) :
    c.colons = front.count ':' + after.colons := by
  rw [colons, h, List.count_append]
  rfl

theorem colons_advance_le (n : Nat) (c : Cursor) : (c.advance n).colons ≤ c.colons := by
  unfold colons
  rw [rest_advance]
  exact (List.drop_sublist n c.rest).count_le ':'

theorem colons_step_le (c : Cursor) : c.step.colons ≤ c.colons :=
  colons_advance_le 1 c

theorem colons_skipInline_le (c : Cursor) : c.skipInline.colons ≤ c.colons :=
  colons_advance_le _ c

theorem colons_skipBlank_le (c : Cursor) : c.skipBlank.colons ≤ c.colons :=
  colons_advance_le _ c

theorem colons_pass_le (c : Cursor) (ch : Char) : (c.pass ch).colons ≤ c.colons := by
  unfold pass
  split
  · exact colons_step_le c
  · exact Nat.le_refl _

end Cursor

/-! ## Strings -/

/-- A text between quotes that stands for some characters: an escape is longer than what it stands
for, and it has to do with no colon. -/
structure Spells (text s : List Char) : Prop where
  length : s.length ≤ text.length
  colons : s.count ':' = text.count ':'

theorem Spells.nil : Spells [] [] :=
  ⟨Nat.le_refl _, rfl⟩

theorem Spells.char {text s : List Char} (h : Spells text s) (c : Char) :
    Spells (c :: text) (c :: s) :=
  ⟨Nat.succ_le_succ h.length, by rw [List.count_cons, List.count_cons, h.colons]⟩

theorem Spells.escape {text s : List Char} (h : Spells text s) {quotes : List Char}
    (hquotes : ':' ∉ quotes) {c ch : Char} (hescape : escape? quotes c = some ch) :
    Spells ('\\' :: c :: text) (ch :: s) := by
  have hcolon : c ≠ ':' ∧ ch ≠ ':' := by
    unfold escape? at hescape
    split at hescape
    · next hc =>
      cases hescape
      exact ⟨by rw [hc]; decide, by decide⟩
    · split at hescape
      · next hc =>
        cases hescape
        exact ⟨by rw [hc]; decide, by decide⟩
      · split at hescape
        · next hc =>
          cases hescape
          exact ⟨by rw [hc]; decide, by decide⟩
        · split at hescape
          · next hc =>
            cases hescape
            have hne : c ≠ ':' := fun heq => hquotes (heq ▸ hc)
            exact ⟨hne, hne⟩
          · cases hescape
  constructor
  · exact Nat.le_succ_of_le (Nat.succ_le_succ h.length)
  · rw [List.count_cons_of_ne hcolon.2, List.count_cons_of_ne (by decide),
      List.count_cons_of_ne hcolon.1, h.colons]

theorem singleQuoted_spells {text s : List Char} {n : Nat} (h : singleQuoted text = .ok (s, n)) :
    ∃ taken, text = taken ++ '\'' :: text.drop n ∧ Spells taken s := by
  fun_induction singleQuoted text generalizing s n with
  | case1 => cases h
  | case2 => cases h
  | case3 rest =>
    cases h
    exact ⟨[], rfl, .nil⟩
  | case4 => cases h
  | case5 => cases h
  | case6 c rest ch hescape text m hrest ih =>
    cases h
    obtain ⟨taken, heq, hspells⟩ := ih hrest
    exact ⟨'\\' :: c :: taken, congrArg (fun text => '\\' :: c :: text) heq,
      hspells.escape (by decide) hescape⟩
  | case7 => cases h
  | case8 c rest _ _ _ _ text m hrest ih =>
    cases h
    obtain ⟨taken, heq, hspells⟩ := ih hrest
    exact ⟨c :: taken, congrArg (c :: ·) heq, hspells.char c⟩
  | case9 => cases h

theorem literalPart_spells {text s : List Char} {n : Nat} (h : literalPart text = .ok (s, n)) :
    ∃ taken, text = taken ++ text.drop n ∧ Spells taken s := by
  fun_induction literalPart text generalizing s n with
  | case1 => cases h
  | case2 => cases h
  | case3 rest =>
    cases h
    exact ⟨[], rfl, .nil⟩
  | case4 rest =>
    cases h
    exact ⟨[], rfl, .nil⟩
  | case5 => cases h
  | case6 => cases h
  | case7 c rest ch hescape text m hrest ih =>
    cases h
    obtain ⟨taken, heq, hspells⟩ := ih hrest
    exact ⟨'\\' :: c :: taken, congrArg (fun text => '\\' :: c :: text) heq,
      hspells.escape (by decide) hescape⟩
  | case8 => cases h
  | case9 c rest _ _ _ _ _ text m hrest ih =>
    cases h
    obtain ⟨taken, heq, hspells⟩ := ih hrest
    exact ⟨c :: taken, congrArg (c :: ·) heq, hspells.char c⟩
  | case10 => cases h

/-- A string in quotes stands for the characters between them. -/
theorem Quoted.spells {key text tail : List Char} (h : Quoted key text tail) :
    ∃ quote taken, text = quote :: (taken ++ quote :: tail) ∧ Spells taken key := by
  cases h with
  | single h =>
    obtain ⟨taken, htext, hspells⟩ := singleQuoted_spells h
    exact ⟨'\'', taken, congrArg _ htext, hspells⟩
  | double h hclose =>
    obtain ⟨taken, htext, hspells⟩ := literalPart_spells h
    rw [hclose] at htext
    exact ⟨'"', taken, congrArg _ htext, hspells⟩

/-! ## What may be left of the colons -/

/-- What is read, weighed in colons, and the colons behind it are within a budget. -/
def Spends {α : Type} (weigh : α → Nat) (budget : Nat)
    (result : Except ParseError (α × Cursor)) : Prop :=
  ∀ a after, result = .ok (a, after) → weigh a + after.colons ≤ budget

namespace Spends

variable {α β : Type} {weigh : α → Nat} {weigh' : β → Nat} {budget budget' : Nat} {file : String}
  {c : Cursor}

theorem ok {a : α} (h : weigh a + c.colons ≤ budget) : Spends weigh budget (.ok (a, c)) := by
  intro a after hrun
  cases hrun
  exact h

theorem fail {message : String} : Spends weigh budget (c.fail file message) := by
  intro a after hrun
  cases hrun

theorem unexpected {expected : String} : Spends weigh budget (c.unexpected file expected) :=
  fun _ _ hrun => absurd hrun Cursor.not_unexpected

theorem bind {m : Except ParseError (α × Cursor)} {f : α × Cursor → Except ParseError (β × Cursor)}
    (hm : Spends weigh budget m)
    (hf : ∀ a after, weigh a + after.colons ≤ budget → Spends weigh' budget' (f (a, after))) :
    Spends weigh' budget' (m >>= f) := by
  intro b last hrun
  obtain ⟨⟨a, after⟩, hfirst, hrest⟩ := bind_eq_ok.1 hrun
  exact hf a after (hm a after hfirst) b last hrest

theorem expect {ch : Char} {f : Cursor → Except ParseError (β × Cursor)}
    (hf : ∀ after, [ch].count ':' + after.colons = c.colons → Spends weigh' budget' (f after)) :
    Spends weigh' budget' (c.expect file ch >>= f) := by
  intro b last hrun
  obtain ⟨after, hfirst, hrest⟩ := bind_eq_ok.1 hrun
  have hread : c.rest = [ch] ++ after.rest := Cursor.rest_of_expect hfirst
  exact hf after (Cursor.colons_of_rest hread).symm b last hrest

theorem expectWord {what : String} (h : c.colons ≤ budget) :
    Spends (List.count ':') budget (c.expectWord file what) := by
  intro word after hrun
  rw [Cursor.colons_of_rest (Cursor.expectWord_ok hrun).2.1] at h
  exact h

theorem lexeme {result : Except Fault (List Char × Nat)} (h : c.colons ≤ budget)
    (hresult : ∀ s n, result = .ok (s, n) → ∃ text, c.rest = text ++ c.rest.drop n ∧
      s.count ':' ≤ text.count ':') :
    Spends (List.count ':') budget (Language.lexeme file c result) := by
  intro s after hrun
  obtain ⟨n, hread, hafter⟩ := Cursor.rest_of_lexeme hrun
  obtain ⟨text, htext, hcount⟩ := hresult s n hread
  rw [← hafter] at htext
  rw [Cursor.colons_of_rest htext] at h
  exact (Nat.add_le_add_right hcount _).trans h

end Spends

/-- With so many steps to nest, the rules for expressions keep to the colons before them. -/
structure ExpressionsSpend (file : String) (n : Nat) : Prop where
  binary : ∀ {budget c}, Cursor.colons c ≤ budget → ∀ least,
    Spends Node.colons budget (binary file n least c)
  operators : ∀ {budget c} {left : Node}, left.colons + Cursor.colons c ≤ budget → ∀ least,
    Spends Node.colons budget (operators file n least left c)
  primary : ∀ {budget c}, Cursor.colons c ≤ budget → Spends Node.colons budget (primary file n c)
  stringParts : ∀ {budget c}, Cursor.colons c ≤ budget →
    Spends colonsOfNodes budget (stringParts file n c)
  listItems : ∀ {budget c}, Cursor.colons c ≤ budget →
    Spends colonsOfNodes budget (listItems file n c)
  mapEntries : ∀ {budget c}, Cursor.colons c ≤ budget →
    Spends colonsOfEntries budget (mapEntries file n c)
  reference : ∀ {budget c}, Cursor.colons c ≤ budget →
    Spends Node.colons budget (reference file n c)

section Expressions

variable {file : String} {n budget : Nat} {c : Cursor}

open Cursor

theorem operators_spends (ih : ExpressionsSpend file n) {left : Node}
    (h : left.colons + c.colons ≤ budget) (least : Nat) :
    Spends Node.colons budget (operators file (n + 1) least left c) := by
  rw [operators]
  split
  · exact .ok h
  · split
    · exact .ok h
    · next op length _ _ =>
      have hright : (c.skipInline.advance length).skipBlank.colons ≤ c.colons :=
        (colons_skipBlank_le _).trans ((colons_advance_le _ _).trans (colons_skipInline_le c))
      refine (ih.binary hright _).bind fun right after hafter => ih.operators ?_ _
      have hbinary : (Node.binary op left right).colons = 0 := rfl
      omega

theorem primary_spends (ih : ExpressionsSpend file n) (h : c.colons ≤ budget) :
    Spends Node.colons budget (primary file (n + 1) c) := by
  have hstep := (colons_step_le c).trans h
  rw [primary]
  split
  · next rest hrest =>
    rw [← rest_step_cons hrest]
    refine (Spends.lexeme hstep fun s m hread => ?_).bind fun s after hafter => .ok ?_
    · obtain ⟨text, htext, hspells⟩ := singleQuoted_spells hread
      refine ⟨text ++ ['\''], by rw [List.append_assoc]; exact htext, ?_⟩
      rw [List.count_append, hspells.colons]
      exact Nat.le_add_right _ _
    · rw [Node.colons, String.toList_ofList]
      exact hafter
  · refine (ih.stringParts hstep).bind fun parts after hafter => .ok ?_
    exact (Nat.add_le_add_right (colons_interpolation_le parts) _).trans hafter
  · exact (ih.listItems hstep).bind fun items after hafter => .ok hafter
  · exact (ih.mapEntries hstep).bind fun entries after hafter => .ok hafter
  · refine (ih.binary ((colons_skipBlank_le _).trans hstep) _).bind fun inner after hafter => ?_
    refine .expect fun last hlast => .ok ?_
    have hblank := colons_skipBlank_le after
    omega
  · split
    · exact ih.reference h
    · split
      · exact .ok ((Nat.zero_add _).trans_le ((colons_advance_le _ c).trans h))
      · refine (Spends.expectWord h).bind fun word after hafter => .ok ?_
        exact (Nat.add_le_add_right (colons_wordNode_le word) _).trans hafter

theorem stringParts_spends (ih : ExpressionsSpend file n) (h : c.colons ≤ budget) :
    Spends colonsOfNodes budget (stringParts file (n + 1) c) := by
  have hlead : ∀ s : List Char, colonsOfNodes (leadOf s) = s.count ':' := by
    intro s
    cases s with
    | nil => rfl
    | cons first rest =>
      show (String.ofList (first :: rest)).toList.count ':' + 0 = _
      rw [String.toList_ofList, Nat.add_zero]
  rw [stringParts]
  refine (Spends.lexeme h fun s m hread => ?_).bind fun s after hafter => ?_
  · obtain ⟨text, htext, hspells⟩ := literalPart_spells hread
    exact ⟨text, htext, hspells.colons.le⟩
  · rw [← hlead s] at hafter
    dsimp only
    split
    · refine .ok ?_
      have hstep := colons_step_le after
      show colonsOfNodes (leadOf s) + after.step.colons ≤ budget
      omega
    · refine (ih.reference (Nat.le_refl _)).bind fun part next hnext => ?_
      refine (ih.stringParts (Nat.le_refl _)).bind fun parts last hlast => .ok ?_
      show colonsOfNodes (leadOf s ++ part :: parts) + last.colons ≤ budget
      rw [colonsOfNodes_eq_sum, List.map_append, List.sum_append, ← colonsOfNodes_eq_sum,
        ← colonsOfNodes_eq_sum, colonsOfNodes]
      dsimp only at hnext hlast
      omega

theorem listItems_spends (ih : ExpressionsSpend file n) (h : c.colons ≤ budget) :
    Spends colonsOfNodes budget (listItems file (n + 1) c) := by
  have hblank := (colons_skipBlank_le c).trans h
  rw [listItems]
  dsimp only
  split
  · exact .ok ((Nat.zero_add _).trans_le ((colons_step_le _).trans hblank))
  · refine (ih.binary hblank _).bind fun item after hafter => ?_
    dsimp only
    split
    · have hnext := (colons_pass_le after.skipBlank ',').trans (colons_skipBlank_le after)
      refine (ih.listItems hnext).bind fun items last hlast => .ok ?_
      dsimp only
      rw [colonsOfNodes]
      omega
    · exact .unexpected

/-- What stands behind the key of an entry is read within the colons behind the key. -/
theorem mapEntries_value_spends (ih : ExpressionsSpend file n) {key : String} (span : Span)
    (h : key.toList.count ':' + 1 + c.colons ≤ budget) :
    Spends colonsOfEntries budget (do
      let (value, c') ← binary file n 1 c.skipBlank
      let c' := c'.skipBlank
      if c'.sees ',' || c'.sees '\x7d' then do
        let (entries, c') ← mapEntries file n (c'.pass ',')
        .ok (⟨key, value, span⟩ :: entries, c')
      else c'.unexpected file "`,` or `\x7d`") := by
  refine (ih.binary (colons_skipBlank_le c) _).bind fun value after hafter => ?_
  dsimp only
  split
  · have hnext := (colons_pass_le after.skipBlank ',').trans (colons_skipBlank_le after)
    refine (ih.mapEntries hnext).bind fun entries last hlast => .ok ?_
    dsimp only
    rw [colonsOfEntries]
    omega
  · exact .unexpected

theorem stringKey_spends (hquote : (c.sees '\'' || c.sees '"') = true) (h : c.colons ≤ budget) :
    Spends (fun key : String => key.toList.count ':') budget (stringKey file n c) := by
  intro key after hrun
  obtain ⟨quote, text, hrest, hspells⟩ := (quoted_of_stringKey hquote hrun).spells
  have hread : c.rest = quote :: (text ++ [quote]) ++ after.rest := by
    rw [hrest]
    simp
  have hcolons := colons_of_rest hread
  rw [List.count_cons, List.count_append] at hcolons
  have := hspells.colons
  dsimp only
  omega

theorem mapEntries_spends (ih : ExpressionsSpend file n) (h : c.colons ≤ budget) :
    Spends colonsOfEntries budget (mapEntries file (n + 1) c) := by
  have hblank := (colons_skipBlank_le c).trans h
  have hcolon : [':'].count ':' = 1 := rfl
  have hvalue : ∀ (key : String) (after : Cursor), key.toList.count ':' + after.colons ≤ budget →
      Spends colonsOfEntries budget (do
        let c' ← after.skipInline.expect file ':'
        let (value, c') ← binary file n 1 c'.skipBlank
        let c' := c'.skipBlank
        if c'.sees ',' || c'.sees '\x7d' then do
          let (entries, c') ← mapEntries file n (c'.pass ',')
          .ok (⟨key, value, c.skipBlank.span file⟩ :: entries, c')
        else c'.unexpected file "`,` or `\x7d`") := by
    intro key after hafter
    refine .expect fun next hnext => mapEntries_value_spends ih _ ?_
    have hinline := colons_skipInline_le after
    omega
  rw [mapEntries]
  dsimp only
  split
  · exact .ok ((Nat.zero_add _).trans_le ((colons_step_le _).trans hblank))
  · split
    · next hquote => exact (stringKey_spends hquote hblank).bind hvalue
    · refine (Spends.expectWord hblank).bind fun word after hafter => hvalue _ after ?_
      rw [String.toList_ofList]
      exact hafter

/-- References count for nothing, so only what is left behind them matters. -/
theorem reference_spends (ih : ExpressionsSpend file n) (h : c.colons ≤ budget) :
    Spends Node.colons budget (reference file (n + 1) c) := by
  have hinside : (c.advance 2).skipInline.colons ≤ budget :=
    (colons_skipInline_le _).trans ((colons_advance_le 2 c).trans h)
  have hclosed : ∀ (node : Node) (next : Cursor), node.colons = 0 → next.colons ≤ budget →
      Spends Node.colons budget (do
        let c' ← next.skipInline.expect file ')'
        .ok (node, c')) := by
    intro node next hnode hnext
    refine .expect fun last hlast => .ok ?_
    have hinline := colons_skipInline_le next
    omega
  rw [reference]
  refine (Spends.expectWord hinside).bind fun head after hafter => ?_
  have hafter : after.colons ≤ budget := (Nat.le_add_left _ _).trans hafter
  dsimp only
  split
  · have hkind : (after.advance 2).colons ≤ budget := (colons_advance_le 2 after).trans hafter
    refine (Spends.expectWord hkind).bind fun kind next hnext => ?_
    have hname : next.skipInline.colons ≤ budget :=
      (colons_skipInline_le next).trans ((Nat.le_add_left _ _).trans hnext)
    have hpath : ∀ (name : Option Node) (afterName : Cursor), afterName.colons ≤ budget →
        Spends Node.colons budget (do
          let c' := afterName.skipInline
          let path ←
            if c'.sees '|' then do
              let word ← c'.step.skipInline.expectWord file "an attribute name"
              .ok (segments word.1, word.2)
            else .ok ([], c')
          let c' ← path.2.skipInline.expect file ')'
          .ok (Node.ref (String.ofList (head ++ [':', ':'] ++ kind)) name path.1 (c.span file),
            c')) := by
      intro name afterName hafterName
      have hinline := (colons_skipInline_le afterName).trans hafterName
      dsimp only
      split
      · refine (Spends.expectWord ((colons_skipInline_le _).trans
          ((colons_step_le _).trans hinline))).bind fun word last hlast => ?_
        exact hclosed _ last rfl ((Nat.le_add_left _ _).trans hlast)
      · exact hclosed _ _ rfl hinline
    split
    · exact hpath none _ hname
    · exact (ih.primary hname).bind fun name afterName hafterName =>
        hpath _ afterName ((Nat.le_add_left _ _).trans hafterName)
  · exact hclosed _ after rfl hafter

theorem expressionsSpend (file : String) (n : Nat) : ExpressionsSpend file n := by
  induction n with
  | zero =>
    exact ⟨fun _ _ => .fail, fun _ _ => .fail, fun _ => .fail, fun _ => .fail, fun _ => .fail,
      fun _ => .fail, fun _ => .fail⟩
  | succ n ih =>
    refine ⟨fun h least => ?_, operators_spends ih, primary_spends ih, stringParts_spends ih,
      listItems_spends ih, mapEntries_spends ih, reference_spends ih⟩
    rw [binary]
    exact (ih.primary h).bind fun left after hafter => ih.operators hafter _

end Expressions

end Provision.Language
