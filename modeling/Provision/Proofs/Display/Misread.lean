import Provision.Proofs.Display.Plain
import Provision.Proofs.Language.Colons

/-!
# Other values are displayed as something else

A value with another key, or with a line break in a text, does not come out of the
text that shows it.  A text with a line break cannot be read at all.  A key that
is no word could come out of a string in quotes only, and this string would be
longer than the key.  The reader would then be ahead of the text, past a colon
that the value needs, and can never make up for it.
-/

namespace Provision

open Provision.Language

/-! ## Colons of displayed values -/

theorem count_join {c : Char} {mark : List Char} (hmark : mark.count c = 0)
    (texts : List (List Char)) :
    (Text.join mark texts).count c = (texts.map (List.count c)).sum := by
  fun_induction Text.join mark texts with
  | case1 => rfl
  | case2 piece => rw [List.map_singleton, List.sum_singleton]
  | case3 piece next rest ih =>
    rw [List.count_append, List.count_append, hmark, Nat.add_zero, ih, ← List.sum_cons,
      ← List.map_cons]

theorem count_mapText (texts : List (List Char)) :
    (mapText texts).count ':' = (texts.map (List.count ':')).sum := by
  cases texts with
  | nil => rfl
  | cons text rest =>
    rw [mapText, List.count_cons_of_ne (by decide), List.count_cons_of_ne (by decide),
      List.count_append, count_join rfl]
    · rfl
    · exact List.cons_ne_nil _ _

theorem count_quoted (s : List Char) : (Value.quoted s).count ':' = s.count ':' := by
  induction s with
  | nil => rfl
  | cons c rest ih =>
    rw [Value.quoted]
    split
    · rw [List.count_cons_of_ne (by decide), List.count_cons, List.count_cons, ih]
    · rw [List.count_cons, List.count_cons, ih]

namespace Value

theorem handles_list_eq_nil {items : List Value} :
    (list items).handles = [] ↔ ∀ item ∈ items, item.handles = [] := by
  rw [handles, handlesOfItems_eq, List.flatMap_eq_nil_iff]

theorem handles_map_eq_nil {entries : List (String × Value)} :
    (map entries).handles = [] ↔ ∀ entry ∈ entries, entry.2.handles = [] := by
  rw [handles, handlesOfEntries_eq, List.flatMap_eq_nil_iff]

theorem count_displayedEntry (entry : String × Value) :
    (displayedEntry entry).count ':' =
      entry.1.toList.count ':' + 1 + entry.2.display.toList.count ':' := by
  rw [displayedEntry, List.count_append, List.count_cons_self, List.count_cons_of_ne (by decide)]
  omega

/-- The text of a value has the colons of its tree. -/
theorem Writable.colons {value : Value} (h : value.Writable) (hhandles : value.handles = []) :
    (valueNode value).colons = value.display.toList.count ':' := by
  induction h with
  | null => rfl
  | bool b => cases b <;> rfl
  | @number x hfinite =>
    rw [display, numberText, String.toList_ofList, List.count_eq_zero_of_not_mem]
    · rfl
    · intro hmem
      rcases Decimal.isDigit_or_of_mem_write hfinite hmem with h | h | h
      all_goals exact absurd h (by decide)
  | text s =>
    rw [toList_display_text, List.count_cons_of_ne (by decide), List.count_append, count_quoted]
    rfl
  | @list items _ ih =>
    rw [handles_list_eq_nil] at hhandles
    rw [toList_display_list, listText, List.count_cons_of_ne (by decide), List.count_append,
      count_join rfl, valueNode, Node.colons, colonsOfNodes_eq_sum, valueNodes_eq_map,
      List.map_map, List.map_map]
    exact congrArg List.sum
      (List.map_congr_left fun item hitem => ih item hitem (hhandles item hitem))
  | @map entries _ _ ih =>
    rw [handles_map_eq_nil] at hhandles
    rw [toList_display_map, count_mapText, valueNode, Node.colons, colonsOfEntries_eq_sum,
      valueEntries_eq_map, List.map_map, List.map_map]
    refine congrArg List.sum (List.map_congr_left fun entry hentry => ?_)
    rw [Function.comp_apply, Function.comp_apply, count_displayedEntry,
      ih entry hentry (hhandles entry hentry)]
  | resource key => cases hhandles

end Value

/-! ## Other values are not read back -/

theorem singleQuoted_broken {s : List Char} (h : '\n' ∈ s) (tail : List Char) :
    ∃ fault, singleQuoted (Value.quoted s ++ tail) = .error fault := by
  induction s with
  | nil => cases h
  | cons c rest ih =>
    rw [Value.quoted]
    split
    · next hquote =>
      have hescape : escape? ['\''] c = some c := by
        rcases hquote with rfl | rfl <;> decide
      have hline : '\n' ≠ c := by
        rcases hquote with rfl | rfl <;> decide
      obtain ⟨fault, hfault⟩ := ih (List.mem_of_ne_of_mem hline h)
      rw [List.cons_append, List.cons_append, singleQuoted, hescape]
      dsimp only
      rw [hfault]
      exact ⟨_, rfl⟩
    · next hquote =>
      rw [not_or] at hquote
      by_cases hline : '\n' = c
      · subst hline
        exact ⟨_, rfl⟩
      · obtain ⟨fault, hfault⟩ := ih (List.mem_of_ne_of_mem hline h)
        rw [List.cons_append, singleQuoted_char (Ne.symm hline) hquote.2 hquote.1, hfault]
        exact ⟨_, rfl⟩

theorem operators_eq_ok {file : String} {n least : Nat} {left node : Node} {c after : Cursor}
    (h : operators file n least left c = .ok (node, after)) :
    (node = left ∧ after = c) ∨ node.isBinary = true := by
  induction n generalizing left c with
  | zero => cases h
  | succ n ih =>
    rw [operators] at h
    split at h
    · cases h
      exact Or.inl ⟨rfl, rfl⟩
    · split at h
      · cases h
        exact Or.inl ⟨rfl, rfl⟩
      · obtain ⟨⟨right, next⟩, -, h⟩ := bind_eq_ok.1 h
        rcases ih h with ⟨rfl, -⟩ | hbinary
        · exact Or.inr rfl
        · exact Or.inr hbinary

theorem isBinary_bare (node : Node) : node.bare.isBinary = node.isBinary := by
  cases node <;> rfl

theorem isBinary_valueNode (value : Value) : (valueNode value).isBinary = false := by
  cases value <;> rfl

namespace Value

/-- Where the text of a value is read as the tree of the value, some of the colons behind the text
were read, too. -/
structure Misread (value : Value) : Prop where
  passes : ∀ {file : String} {n : Nat} {c after : Cursor} {tail : List Char} {node : Node},
    c.rest = value.display.toList ++ tail → 12 * value.display.toList.length ≤ n →
      primary file n c = .ok (node, after) → node.bare = (valueNode value).bare →
        after.colons < tail.count ':'

theorem Misread.binary {value : Value} (h : value.Misread) {file : String} {n least : Nat}
    {c after : Cursor} {tail : List Char} {node : Node}
    (hrest : c.rest = value.display.toList ++ tail)
    (hn : 12 * value.display.toList.length + 1 ≤ n)
    (hread : Language.binary file n least c = .ok (node, after))
    (hbare : node.bare = (valueNode value).bare) :
    after.colons < tail.count ':' := by
  obtain ⟨n, rfl⟩ := Nat.exists_eq_add_one_of_ne_zero (Nat.ne_of_gt (by omega : 0 < n))
  rw [Language.binary] at hread
  obtain ⟨⟨left, middle⟩, hleft, hread⟩ := bind_eq_ok.1 hread
  rcases operators_eq_ok hread with ⟨rfl, rfl⟩ | hbinary
  · exact h.passes hrest (by omega) hleft hbare
  · rw [← isBinary_bare, hbare, isBinary_bare, isBinary_valueNode] at hbinary
    cases hbinary

theorem Writable.opens {value : Value} (h : value.Writable) : Opens value.display.toList := by
  cases h with
  | null => exact ⟨'n', _, rfl, by decide⟩
  | bool b => cases b <;> exact ⟨_, _, rfl, by decide⟩
  | number hfinite =>
    rw [display, numberText, String.toList_ofList]
    exact (atom_number hfinite).opens
  | text s =>
    rw [toList_display_text]
    exact ⟨'\'', _, rfl, by decide⟩
  | list =>
    rw [toList_display_list]
    exact ⟨'[', _, rfl, by decide⟩
  | @map entries =>
    rw [toList_display_map]
    cases entries <;> exact ⟨'\x7b', _, rfl, by decide⟩
  | resource key =>
    rw [display, String.toList_append, String.toList_append, List.append_assoc]
    exact ⟨'$', _, rfl, by decide⟩

/-- A value that can be written and leads to no resource. -/
structure Literal (value : Value) : Prop where
  writable : value.Writable
  handles : value.handles = []

theorem Literal.colons_got {value : Value} (h : value.Literal) {node : Node}
    (hbare : node.bare = (valueNode value).bare) :
    node.colons = value.display.toList.count ':' := by
  rw [← Node.colons_bare, hbare, Node.colons_bare, h.writable.colons h.handles]

theorem colons_got_items {items : List Value} (h : ∀ item ∈ items, item.Literal)
    {nodes : List Node} (hbare : nodes.map Node.bare = (items.map valueNode).map Node.bare) :
    colonsOfNodes nodes =
      ((items.map fun item => item.display.toList).map (List.count ':')).sum := by
  induction items generalizing nodes with
  | nil =>
    rw [List.map_eq_nil_iff.1 hbare]
    rfl
  | cons item rest ih =>
    obtain ⟨node, nodes, rfl, hnode, hnodes⟩ := List.map_eq_cons_iff.1 hbare
    rw [colonsOfNodes, ih (fun other hother => h other (List.mem_cons_of_mem _ hother)) hnodes,
      (h item List.mem_cons_self).colons_got hnode]
    rfl

/-- The items of a list are not read as these items when some of them are not read back. -/
theorem listItems_misread {items : List Value} (hitems : ∀ item ∈ items, item.Literal)
    (hmisread : ∀ item ∈ items, ¬ item.Plain → item.Misread)
    (hbad : ∃ item ∈ items, ¬ item.Plain)
    {file : String} {n k : Nat} {c after : Cursor} {tail : List Char} {nodes : List Node}
    (hrest : c.rest = List.replicate k ' ' ++
      (Text.join [',', ' '] (items.map fun item => item.display.toList) ++ ']' :: tail))
    (hn : 12 * ((Text.join [',', ' '] (items.map fun item => item.display.toList)).length + 1) ≤ n)
    (hread : listItems file n c = .ok (nodes, after))
    (hbare : nodes.map Node.bare = (items.map valueNode).map Node.bare) :
    after.colons < tail.count ':' := by
  induction items generalizing n k c nodes with
  | nil =>
    obtain ⟨item, hitem, -⟩ := hbad
    cases hitem
  | cons item rest ih =>
    obtain ⟨n, rfl⟩ := Nat.exists_eq_add_one_of_ne_zero (Nat.ne_of_gt (by omega : 0 < n))
    have hitem := hitems item List.mem_cons_self
    have hrestItems := fun other hother => hitems other (List.mem_cons_of_mem _ hother)
    have hopens := hitem.writable.opens
    have hcount := @count_join ':' [',', ' '] rfl
      ((item :: rest).map fun item => item.display.toList)
    by_cases hplain : item.Plain
    · obtain ⟨bad, hmem, hbad⟩ := hbad
      have hmem : bad ∈ rest := by
        rcases List.mem_cons.1 hmem with rfl | hmem
        · exact absurd hplain hbad
        · exact hmem
      obtain ⟨next, others, rfl⟩ := List.exists_cons_of_ne_nil (List.ne_nil_of_mem hmem)
      rw [List.map_cons, join_cons] at hrest hn
      simp only [List.map_cons, List.isEmpty_cons, Bool.false_eq_true, if_false, List.append_assoc,
        List.cons_append, List.nil_append, List.length_append, List.length_cons] at hrest hn
      obtain ⟨got, -, hstep⟩ := listItems_item file (n := n) (hplain.atom hitem.writable).expression
        hrest (Or.inl rfl) (by omega)
      have hcomma := Cursor.rest_over (Cursor.rest_over hrest)
      rw [hstep, Cursor.pass_cons hcomma] at hread
      obtain ⟨⟨gots, last⟩, hgots, hread⟩ := bind_eq_ok.1 hread
      cases hread
      exact ih hrestItems (fun other hother => hmisread other (List.mem_cons_of_mem _ hother))
        ⟨bad, hmem, hbad⟩ (k := 1) (Cursor.rest_step_cons hcomma)
        (by
          simp only [List.map_cons]
          omega)
        hgots (List.cons.inj hbare).2
    · -- the item is ahead of its text, and the other items need all colons that are left
      rw [List.map_cons, join_cons] at hrest hn hcount
      rw [List.append_assoc] at hrest
      rw [List.length_append] at hn
      rw [List.count_append, List.map_cons, List.sum_cons] at hcount
      have hstart := Cursor.rest_over hrest
      rw [listItems, Cursor.skipBlank_indent hrest (hopens.append _).solid] at hread
      dsimp only at hread
      rw [hopens.not_sees hstart (by decide), if_neg Bool.false_ne_true] at hread
      obtain ⟨⟨got, next⟩, hgot, hread⟩ := bind_eq_ok.1 hread
      dsimp only at hread
      split at hread
      · obtain ⟨⟨gots, last⟩, hgots, hread⟩ := bind_eq_ok.1 hread
        cases hread
        show last.colons < _
        obtain ⟨hgotBare, hgotsBare⟩ := List.cons.inj hbare
        have hstrict := (hmisread item List.mem_cons_self hplain).binary hstart (by omega) hgot
          hgotBare
        have hspent := (expressionsSpend file n).listItems
          ((Cursor.colons_pass_le _ ',').trans (Cursor.colons_skipBlank_le next)) _ _ hgots
        rw [colons_got_items hrestItems hgotsBare] at hspent
        rw [List.count_append, List.count_cons_of_ne (by decide)] at hstrict
        omega
      · exact absurd hread Cursor.not_unexpected

theorem colons_got_entries {entries : List (String × Value)}
    (h : ∀ entry ∈ entries, entry.2.Literal) {got : List Entry}
    (hbare : got.map Entry.bare = (valueEntries entries).map Entry.bare) :
    colonsOfEntries got = ((entries.map displayedEntry).map (List.count ':')).sum := by
  induction entries generalizing got with
  | nil =>
    rw [List.map_eq_nil_iff.1 hbare]
    rfl
  | cons entry rest ih =>
    obtain ⟨⟨key, node, span⟩, got, rfl, hentry, hgot⟩ := List.map_eq_cons_iff.1 hbare
    injection hentry with hkey hnode
    subst hkey
    rw [colonsOfEntries, ih (fun other hother => h other (List.mem_cons_of_mem _ hother)) hgot,
      (h entry List.mem_cons_self).colons_got hnode, List.map_cons, List.map_cons, List.sum_cons,
      count_displayedEntry]

/-- What is read behind a key are a value and further entries. -/
theorem mapEntries_value_eq_ok {file : String} {n : Nat} {c after : Cursor} {key : String}
    {span : Span} {entries : List Entry}
    (hread : (do
      let (value, c') ← Language.binary file n 1 c
      let c' := c'.skipBlank
      if c'.sees ',' || c'.sees '\x7d' then do
        let (entries, c') ← mapEntries file n (c'.pass ',')
        .ok (⟨key, value, span⟩ :: entries, c')
      else c'.unexpected file "`,` or `\x7d`" : Except ParseError (List Entry × Cursor)) =
        .ok (entries, after)) :
    ∃ value next more, Language.binary file n 1 c = .ok (value, next) ∧
      entries = ⟨key, value, span⟩ :: more ∧ colonsOfEntries more + after.colons ≤ next.colons := by
  obtain ⟨⟨value, next⟩, hvalue, hread⟩ := bind_eq_ok.1 hread
  dsimp only at hread
  split at hread
  · obtain ⟨⟨more, last⟩, hmore, hread⟩ := bind_eq_ok.1 hread
    cases hread
    exact ⟨value, next, more, hvalue, rfl, (expressionsSpend file n).mapEntries
      ((Cursor.colons_pass_le _ ',').trans (Cursor.colons_skipBlank_le next)) _ _ hmore⟩
  · exact absurd hread Cursor.not_unexpected

/-- A key that is no word comes out of a text with that key only where a colon behind it was passed
over: it was in quotes, so that more characters were read than it has. -/
theorem quoted_key_passes_colon {file : String} {n : Nat} {c next colon : Cursor} {key : String}
    {more : List Char}
    (hrest : c.rest = key.toList ++ ':' :: more)
    (hquote : (c.skipBlank.sees '\'' || c.skipBlank.sees '"') = true)
    (hkey : stringKey file n c.skipBlank = .ok (key, next))
    (hcolon : next.skipInline.expect file ':' = .ok colon) :
    colon.colons < more.count ':' := by
  obtain ⟨quote, text, hstart, hspells⟩ := (quoted_of_stringKey hquote hkey).spells
  obtain ⟨skipped, hskipped⟩ : ∃ skipped, c.rest = skipped ++ c.skipBlank.rest := by
    rw [Cursor.skipBlank, Cursor.rest_advance]
    exact ⟨_, (List.take_append_drop _ _).symm⟩
  obtain ⟨blank, hblank⟩ : ∃ blank, next.rest = blank ++ next.skipInline.rest := by
    rw [Cursor.skipInline, Cursor.rest_advance]
    exact ⟨_, (List.take_append_drop _ _).symm⟩
  -- `front` is what was read up to the colon: the key, both its quotes and blanks around them
  let front := skipped ++ quote :: (text ++ quote :: blank)
  have hfront : key.toList ++ ':' :: more = front ++ ':' :: colon.rest := by
    rw [← hrest, hskipped, hstart, hblank, Cursor.rest_of_expect hcolon]
    simp [front]
  -- it is longer than the key with its colon, so the colon of the text is part of it
  have hprefix : key.toList ++ [':'] <+: front := by
    have hkey : key.toList ++ [':'] <+: front ++ ':' :: colon.rest := by
      rw [← hfront]
      exact ⟨more, by simp⟩
    refine List.prefix_of_prefix_length_le hkey (List.prefix_append _ _) ?_
    have := hspells.length
    simp only [front, List.length_append, List.length_cons, List.length_nil]
    omega
  have hcount := hprefix.sublist.count_le ':'
  have htotal := congrArg (List.count ':') hfront
  rw [List.count_append, List.count_append, List.count_cons_self, List.count_cons_self] at htotal
  rw [List.count_append, List.count_singleton_self] at hcount
  unfold Cursor.colons
  omega

/-- An entry that is not read back takes more colons than it has. -/
theorem mapEntries_bad {key : String} {value : Value} (hvalue : value.Literal)
    (hmisread : ¬ value.Plain → value.Misread) (hbad : ¬ (IsWord key.toList ∧ value.Plain))
    {file : String} {n : Nat} {c after : Cursor} {more : List Char} {got entries : List Entry}
    (hrest : c.rest = ' ' :: (key.toList ++ ':' :: ' ' :: (value.display.toList ++ more)))
    (hn : 12 * (key.toList.length + value.display.toList.length) + 2 ≤ n)
    (hread : mapEntries file (n + 1) c = .ok (got, after))
    (hbare : got.map Entry.bare = ⟨key, (valueNode value).bare, Span.generated⟩ :: entries) :
    ∃ entry gots, got = entry :: gots ∧ colonsOfEntries gots + after.colons < more.count ':' := by
  have hopens := hvalue.writable.opens
  by_cases hword : IsWord key.toList
  · -- the key is read as it stands, so the value is to blame
    have hplain : ¬ value.Plain := fun h => hbad ⟨hword, h⟩
    have hinside : (c.step.over key.toList).step.step.rest = value.display.toList ++ more :=
      Cursor.rest_step_cons (Cursor.rest_step_cons (Cursor.rest_over (Cursor.rest_step_cons hrest)))
    rw [mapEntries_key file (k := 1) (keyReading_word hword) hopens hrest (by omega)] at hread
    obtain ⟨node, next, gots, hnode, rfl, hspent⟩ := mapEntries_value_eq_ok hread
    injection hbare with hentry hgots
    injection hentry with _ hnodeBare
    have hstrict := (hmisread hplain).binary hinside (by omega) hnode hnodeBare
    exact ⟨_, gots, rfl, by omega⟩
  · -- the key begins anywhere behind blanks and comments, which may be in the text of the key
    have hskip : c.skipBlank = c.step.skipBlank := by
      rw [Cursor.skipBlank, Cursor.skipBlank, Cursor.rest_step_cons hrest, hrest]
      rfl
    rw [mapEntries, hskip] at hread
    dsimp only at hread
    split at hread
    · cases hread
      cases hbare
    · split at hread
      · next hquote =>
        obtain ⟨⟨readKey, next⟩, hkey, hread⟩ := bind_eq_ok.1 hread
        obtain ⟨colon, hcolon, hread⟩ := bind_eq_ok.1 hread
        obtain ⟨node, last, gots, hnode, rfl, hspent⟩ := mapEntries_value_eq_ok hread
        injection hbare with hentry hgots
        injection hentry with hkeyEq hnodeBare
        subst hkeyEq
        have hpassed := quoted_key_passes_colon (Cursor.rest_step_cons hrest) hquote hkey hcolon
        have hvalueSpent := (expressionsSpend file n).binary (Cursor.colons_skipBlank_le colon)
          _ _ _ hnode
        rw [hvalue.colons_got hnodeBare] at hvalueSpent
        rw [List.count_cons_of_ne (by decide), List.count_append] at hpassed
        exact ⟨_, gots, rfl, by omega⟩
      · obtain ⟨⟨word, next⟩, hkey, hread⟩ := bind_eq_ok.1 hread
        rw [ok_bind] at hread
        obtain ⟨colon, hcolon, hread⟩ := bind_eq_ok.1 hread
        obtain ⟨node, last, gots, -, rfl, -⟩ := mapEntries_value_eq_ok hread
        injection hbare with hentry hgots
        injection hentry with hkeyEq _
        subst hkeyEq
        rw [String.toList_ofList] at hword
        exact absurd (Cursor.expectWord_ok hkey).1 hword

/-- The entries of a map are not read as these entries when some of them are not read back. -/
theorem mapEntries_misread {entries : List (String × Value)}
    (hentries : ∀ entry ∈ entries, entry.2.Literal)
    (hmisread : ∀ entry ∈ entries, ¬ entry.2.Plain → entry.2.Misread)
    (hbad : ∃ entry ∈ entries, ¬ (IsWord entry.1.toList ∧ entry.2.Plain))
    {file : String} {n : Nat} {c after : Cursor} {tail : List Char} {got : List Entry}
    (hrest : c.rest = ' ' ::
      (Text.join [',', ' '] (entries.map displayedEntry) ++ ' ' :: '\x7d' :: tail))
    (hn : 12 * ((Text.join [',', ' '] (entries.map displayedEntry)).length + 1) ≤ n)
    (hread : mapEntries file n c = .ok (got, after))
    (hbare : got.map Entry.bare = (valueEntries entries).map Entry.bare) :
    after.colons < tail.count ':' := by
  induction entries generalizing n c got with
  | nil =>
    obtain ⟨entry, hentry, -⟩ := hbad
    cases hentry
  | cons entry rest ih =>
    obtain ⟨n, rfl⟩ := Nat.exists_eq_add_one_of_ne_zero (Nat.ne_of_gt (by omega : 0 < n))
    obtain ⟨key, value⟩ := entry
    have hvalue : value.Literal := hentries _ List.mem_cons_self
    have hvalueMisread : ¬ value.Plain → value.Misread := hmisread _ List.mem_cons_self
    have hrestEntries := fun other hother => hentries other (List.mem_cons_of_mem _ hother)
    have hcount := @count_join ':' [',', ' '] rfl (((key, value) :: rest).map displayedEntry)
    rw [List.map_cons, join_cons] at hrest hn hcount
    rw [List.count_append, List.map_cons, List.sum_cons] at hcount
    simp only [displayedEntry, List.append_assoc, List.cons_append, List.nil_append,
      List.length_append, List.length_cons] at hrest hn
    simp only [List.cons_append, List.nil_append] at hcount
    by_cases hgood : IsWord key.toList ∧ value.Plain
    · -- this entry is read as it was, so a later one is not
      obtain ⟨bad, hmem, hbad⟩ := hbad
      have hmem : bad ∈ rest := by
        rcases List.mem_cons.1 hmem with rfl | hmem
        · exact absurd hgood hbad
        · exact hmem
      obtain ⟨next, others, rfl⟩ := List.exists_cons_of_ne_nil (List.ne_nil_of_mem hmem)
      simp only [List.map_cons, List.isEmpty_cons, Bool.false_eq_true, if_false, List.cons_append,
        List.length_cons] at hrest hn
      obtain ⟨first, -, hstep⟩ := mapEntries_entry file (n := n) (k := 1)
        (keyReading_word hgood.1) (hgood.2.atom hvalue.writable).expression hrest
        (Or.inl ⟨_, rfl⟩) (by omega)
      have hcomma := Cursor.rest_over_entry (Cursor.rest_step_cons hrest)
      have hsolid := Cursor.skipBlank_solid (hcomma ▸ solid_closer (c := ',') _ (by decide)
        (by decide))
      rw [hstep, List.replicate_one, Cursor.over_cons, Cursor.over_nil, hsolid,
        Cursor.pass_cons hcomma] at hread
      obtain ⟨⟨gots, last⟩, hgots, hread⟩ := bind_eq_ok.1 hread
      cases hread
      exact ih hrestEntries (fun other hother => hmisread other (List.mem_cons_of_mem _ hother))
        ⟨bad, hmem, hbad⟩ (Cursor.rest_step_cons hcomma)
        (by
          simp only [List.map_cons]
          omega)
        hgots (List.cons.inj hbare).2
    · obtain ⟨first, gots, rfl, hstrict⟩ :=
        mapEntries_bad hvalue hvalueMisread hgood hrest (by omega) hread hbare
      rw [colons_got_entries hrestEntries (List.cons.inj hbare).2, List.count_append,
        List.count_cons_of_ne (by decide), List.count_cons_of_ne (by decide)] at hstrict
      omega

theorem misread_text {s : String} (hline : '\n' ∈ s.toList) : (text s).Misread := by
  constructor
  intro file n c after tail node hrest _ hread _
  rw [toList_display_text, List.cons_append, List.append_assoc] at hrest
  obtain ⟨fault, hfault⟩ := singleQuoted_broken hline (['\''] ++ tail)
  cases n with
  | zero => cases hread
  | succ n =>
    rw [primary, hrest] at hread
    obtain ⟨⟨got, last⟩, hgot, -⟩ := bind_eq_ok.1 hread
    rw [hfault] at hgot
    cases hgot

theorem misread_list {items : List Value} (hitems : ∀ item ∈ items, item.Literal)
    (hmisread : ∀ item ∈ items, ¬ item.Plain → item.Misread)
    (hbad : ∃ item ∈ items, ¬ item.Plain) :
    (list items).Misread := by
  constructor
  intro file n c after tail node hrest hn hread hbare
  rw [toList_display_list, listText, List.cons_append, List.append_assoc] at hrest
  simp only [toList_display_list, listText, List.length_cons, List.length_append,
    List.length_nil] at hn
  rw [valueNode, Node.bare, bareNodes_eq_map, valueNodes_eq_map] at hbare
  obtain ⟨nodes, rfl, hnodes⟩ := Node.eq_list_of_bare hbare
  cases n with
  | zero => cases hread
  | succ n =>
    rw [primary, hrest] at hread
    obtain ⟨⟨got, last⟩, hgot, hread⟩ := bind_eq_ok.1 hread
    cases hread
    exact listItems_misread hitems hmisread hbad (k := 0) (Cursor.rest_step_cons hrest) (by omega)
      hgot hnodes

theorem misread_map {entries : List (String × Value)}
    (hentries : ∀ entry ∈ entries, entry.2.Literal)
    (hmisread : ∀ entry ∈ entries, ¬ entry.2.Plain → entry.2.Misread)
    (hbad : ∃ entry ∈ entries, ¬ (IsWord entry.1.toList ∧ entry.2.Plain)) :
    (map entries).Misread := by
  constructor
  intro file n c after tail node hrest hn hread hbare
  have htext : mapText (entries.map displayedEntry) =
      '\x7b' :: ' ' :: (Text.join [',', ' '] (entries.map displayedEntry) ++ [' ', '\x7d']) := by
    obtain ⟨entry, hentry, -⟩ := hbad
    obtain ⟨first, rest, rfl⟩ := List.exists_cons_of_ne_nil (List.ne_nil_of_mem hentry)
    rfl
  rw [toList_display_map, htext, List.cons_append, List.cons_append, List.append_assoc] at hrest
  simp only [toList_display_map, htext, List.length_cons, List.length_append,
    List.length_nil] at hn
  rw [valueNode, Node.bare, bareEntries_eq_map] at hbare
  obtain ⟨got, rfl, hgotBare⟩ := Node.eq_map_of_bare hbare
  cases n with
  | zero => cases hread
  | succ n =>
    rw [primary, hrest] at hread
    obtain ⟨⟨got, last⟩, hgot, hread⟩ := bind_eq_ok.1 hread
    cases hread
    exact mapEntries_misread hentries hmisread hbad (Cursor.rest_step_cons hrest) (by omega) hgot
      hgotBare

theorem Literal.misread {value : Value} (h : value.Literal) (hnot : ¬ value.Plain) :
    value.Misread := by
  obtain ⟨hwritable, hhandles⟩ := h
  induction hwritable with
  | null => exact absurd .null hnot
  | bool b => exact absurd (.bool b) hnot
  | number => exact absurd (.number _) hnot
  | text s => exact misread_text (Classical.not_not.1 fun hline => hnot (.text hline))
  | @list items hitems ih =>
    rw [handles_list_eq_nil] at hhandles
    refine misread_list (fun item hitem => ⟨hitems item hitem, hhandles item hitem⟩)
      (fun item hitem hplain => ih item hitem hplain (hhandles item hitem)) ?_
    by_contra hgood
    push Not at hgood
    exact hnot (.list hgood)
  | @map entries hkeys hentries ih =>
    rw [handles_map_eq_nil] at hhandles
    refine misread_map (fun entry hentry => ⟨hentries entry hentry, hhandles entry hentry⟩)
      (fun entry hentry hplain => ih entry hentry hplain (hhandles entry hentry)) ?_
    by_contra hgood
    push Not at hgood
    exact hnot (.map (fun entry hentry => (hgood entry hentry).1)
      fun entry hentry => (hgood entry hentry).2)
  | resource key => cases hhandles

/-- The text of a value behind a key is read back exactly when the value is plain; what the printer
writes for the value always is. -/
theorem displayed_value_comes_back_iff {value : Value} (hwritable : value.Writable)
    (hhandles : value.handles = []) (path : String) :
    ((∃ node span, parse path ("x: " ++ value.display) = .ok ⟨path, [.pair ⟨"x", node, span⟩]⟩ ∧
        node.bare = (valueNode value).bare) ↔ value.Plain) ∧
      ∃ node span, parse path (SourceFile.print ⟨path, [pairNode "x" (valueNode value)]⟩) =
          .ok ⟨path, [.pair ⟨"x", node, span⟩]⟩ ∧
        node.bare = (valueNode value).bare := by
  have hsource : ("x: " ++ value.display).toList = 'x' :: ':' :: ' ' :: value.display.toList := by
    rw [String.toList_append]
    rfl
  have hopens := hwritable.opens
  refine ⟨⟨?_, fun hplain => ?_⟩, ?_⟩
  · rintro ⟨node, span, hparse, hbare⟩
    by_contra hnot
    obtain ⟨after, hread⟩ := binary_of_parse hopens.solid.tight hsource hparse
    have hmisread := Literal.misread ⟨hwritable, hhandles⟩ hnot
    -- behind the value there is no text, and so no colon that could have been read
    exact absurd (hmisread.binary (List.append_nil _).symm (by omega) hread hbare)
      (Nat.not_lt_zero _)
  · obtain ⟨node, hread, hbare⟩ := (hplain.atom hwritable).expression.whole path
      (n := 12 * value.display.toList.length + 46) (c := ⟨value.display.toList, 1, 4⟩)
      (fun _ h => by cases h) (fun _ _ h => by cases h) (List.append_nil _).symm (by omega)
    exact ⟨node, _, parse_of_binary hopens.solid.tight hread
      (Cursor.rest_over (List.append_nil _).symm) hsource, hbare⟩
  · obtain ⟨⟨name, node, span⟩, hparse, rfl, hbare⟩ := parse_pairNode hwritable path "x"
    exact ⟨node, span, hparse, hbare⟩

/-- A list of marks under a key that is a keyword elsewhere, and an empty map. -/
def labels : Value :=
  .map [("true", .list [.text "it's \\ # \"$(x)\"", .number 1.5, .null]), ("1/b*", .map [])]

/-- The key opens a comment, up to a line that would do as an entry with this key. -/
def remark : Value :=
  .map [("#", .text "\n\"#\": 1")]

theorem displayed_value_comes_back_labels :
    (∃ node span, parse "/s" ("x: " ++ labels.display) = .ok ⟨"/s", [.pair ⟨"x", node, span⟩]⟩ ∧
        node.bare = (valueNode labels).bare) ∧
      ¬ ∃ node span, parse "/s" ("x: " ++ remark.display) = .ok ⟨"/s", [.pair ⟨"x", node, span⟩]⟩ ∧
        node.bare = (valueNode remark).bare := by
  have hlabels : labels.Writable := by
    refine .map ?_ (List.forall_mem_cons.2 ⟨.list ?_, List.forall_mem_singleton.2 (.map ?_ ?_)⟩)
    · show ["true", "1/b*"].Nodup
      decide
    · exact List.forall_mem_cons.2 ⟨.text _, List.forall_mem_cons.2 ⟨.number (by decide),
        List.forall_mem_singleton.2 .null⟩⟩
    · exact List.nodup_nil
    · exact List.forall_mem_nil _
  have hplain : labels.Plain := by
    refine .map ?_ (List.forall_mem_cons.2 ⟨.list ?_, List.forall_mem_singleton.2 (.map ?_ ?_)⟩)
    · exact List.forall_mem_cons.2 ⟨⟨by decide, List.all_eq_true.1 rfl⟩,
        List.forall_mem_singleton.2 ⟨by decide, List.all_eq_true.1 rfl⟩⟩
    · exact List.forall_mem_cons.2 ⟨.text (by decide), List.forall_mem_cons.2 ⟨.number _,
        List.forall_mem_singleton.2 .null⟩⟩
    · exact List.forall_mem_nil _
    · exact List.forall_mem_nil _
  have hremark : remark.Writable :=
    .map (List.nodup_singleton _) (List.forall_mem_singleton.2 (.text _))
  have hnot : ¬ remark.Plain := by
    rintro (_ | _ | _ | _ | _ | ⟨hkeys, -⟩)
    exact absurd ((hkeys _ List.mem_cons_self).all '#' List.mem_cons_self) (by decide)
  exact ⟨(displayed_value_comes_back_iff hlabels rfl "/s").1.2 hplain,
    fun h => hnot ((displayed_value_comes_back_iff hremark rfl "/s").1.1 h)⟩

/-- A key with a blank and a text with a line break are shown in a way that cannot be read, and a
key that looks like an entry is read as one.  The printer puts them in quotes. -/
theorem displayed_values_get_lost :
    parse "/s" ("x: " ++ (map [("a b", .bool true)]).display) =
        .error ⟨⟨"/s", 1, 8⟩, "expected `:`, found `b`"⟩ ∧
      SourceFile.print ⟨"/s", [pairNode "x" (valueNode (.map [("a b", .bool true)]))]⟩ =
        "x: \x7b 'a b': true \x7d\n" ∧
      parse "/s" ("x: " ++ (text "a\nb").display) =
        .error ⟨⟨"/s", 1, 6⟩, "unterminated string"⟩ ∧
      SourceFile.print ⟨"/s", [pairNode "x" (valueNode (.text "a\nb"))]⟩ = "x: 'a\\nb'\n" ∧
      parse "/s" ("x: " ++ (map [("a: null, b", .bool true)]).display) =
        .ok ⟨"/s", [.pair ⟨"x", .map [⟨"a", .null, ⟨"/s", 1, 6⟩⟩, ⟨"b", .bool true, ⟨"/s", 1, 15⟩⟩],
          ⟨"/s", 1, 1⟩⟩]⟩ :=
  ⟨rfl, rfl, rfl, rfl, rfl⟩

end Value

end Provision
