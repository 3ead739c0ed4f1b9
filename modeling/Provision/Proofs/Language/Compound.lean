import Provision.Proofs.Language.Reading

/-!
# Reading printed references, lists, maps and strings

The rules for the compound forms of expressions.  Lists, maps and double-quoted
strings are read item by item; the item in front of a comma or of the closing
character is one lemma, and the whole is an induction over the items.
-/

namespace Provision.Language

/-! ## Rules for references -/

theorem Reference.atom {text : List Char} {target : Node} (h : Reference text target) :
    Atom text target := by
  obtain ⟨rest, hopens⟩ := h.opens
  refine ⟨⟨'$', _, hopens, by decide⟩, ?_⟩
  intro file n c tail _ hrest hn
  have hlength : 0 < text.length := by
    rw [hopens]
    exact Nat.succ_pos _
  obtain ⟨n, rfl⟩ := Nat.exists_eq_add_one_of_ne_zero (Nat.ne_of_gt (by omega : 0 < n))
  obtain ⟨got, hread, hgot⟩ := h.reads file n c tail hrest (by omega)
  refine ⟨got, ?_, hgot⟩
  have hrest' : c.rest = '$' :: ('(' :: rest ++ tail) := by
    rw [hrest, hopens]
    rfl
  rw [primary_plain hrest' (Or.inr rfl), if_pos (by rfl), hread]

theorem reference_var {path : List String} (hpath : IsPath path) :
    Reference (varText path) (.var path Span.generated) := by
  obtain ⟨word, hword, rfl⟩ := hpath
  have htext : varText (segments word) = '$' :: '(' :: (word ++ [')']) := by
    rw [varText, pathText_segments]
  rw [htext]
  refine ⟨⟨_, rfl⟩, ?_⟩
  intro file n c tail hrest hn
  have hlength := (opens_of_isWord hword).length_pos
  simp only [List.length_cons, List.length_append, List.length_nil] at hn
  obtain ⟨n, rfl⟩ := Nat.exists_eq_add_one_of_ne_zero (Nat.ne_of_gt (by omega : 0 < n))
  have hinside : (c.advance 2).rest = word ++ ')' :: tail := by
    rw [Cursor.rest_advance, hrest]
    simp
  have htight : Tight (c.advance 2).rest :=
    hinside ▸ ((opens_of_isWord hword).append _).solid.tight
  have hclose : ((c.advance 2).over word).rest = ')' :: tail := Cursor.rest_over hinside
  have hend : Tight ((c.advance 2).over word).rest := hclose ▸ tight_cons (by decide)
  refine ⟨.var (segments word) (c.span file), ?_, rfl⟩
  rw [reference, Cursor.skipInline_tight htight,
    Cursor.expectWord_word _ _ hword (boundary_cons (by decide)) hinside, ok_bind]
  dsimp only
  rw [hclose, if_neg (by simp [List.isPrefixOf]), Cursor.skipInline_tight hend,
    Cursor.expect_cons hclose, ok_bind]
  simp

/-- The name in a reference, read as the tree it stands for. -/
def NameReads : Option (List Char) → Option Node → Prop
  | none, target => target = none
  | some text, target => ∃ node, target = some node ∧ Atom text node

/-- The text of an optional name, with the blank before it. -/
def spacedName : Option (List Char) → List Char
  | none => []
  | some text => ' ' :: text

/-- The text of an optional path, with the bar before it. -/
def barredPath (path : List String) : List Char :=
  if path.isEmpty then [] else ' ' :: '|' :: ' ' :: pathText path

theorem refText_eq (type : String) (name : Option (List Char)) (path : List String) :
    refText type (spacedName name) path =
      '$' :: '(' :: (type.toList ++ (spacedName name ++ (barredPath path ++ [')']))) := by
  simp [refText, barredPath]

/-- What follows the name in a reference is read as the path, whatever is done with it. -/
theorem refPath_reads {β : Type} {file : String} {c : Cursor} {path : List String}
    {tail : List Char}
    (hpath : path = [] ∨ IsPath path)
    (hrest : c.rest = barredPath path ++ ')' :: tail)
    (next : List String × Cursor → Except ParseError β) :
    (if c.skipInline.sees '|' then
        c.skipInline.step.skipInline.expectWord file "an attribute name" >>= fun read =>
          Except.ok (segments read.1, read.2) >>= next
      else Except.ok ([], c.skipInline) >>= next) =
      next (path, c.over (barredPath path)) := by
  rcases hpath with rfl | ⟨word, hword, rfl⟩
  · have hclose : c.rest = ')' :: tail := hrest
    rw [Cursor.skipInline_tight (hclose ▸ tight_cons (by decide)), Cursor.sees_cons hclose]
    rfl
  · have hne : (segments word).isEmpty = false := by
      rw [segments, List.isEmpty_map]
      exact List.isEmpty_eq_false_iff.2 (split_ne_nil _ _)
    have htext : barredPath (segments word) = ' ' :: '|' :: ' ' :: word := by
      rw [barredPath, hne, pathText_segments, if_neg Bool.false_ne_true]
    rw [htext] at hrest ⊢
    have hbar : c.step.rest = '|' :: ' ' :: (word ++ ')' :: tail) := Cursor.rest_step_cons hrest
    have hblank : c.step.step.rest = ' ' :: (word ++ ')' :: tail) := Cursor.rest_step_cons hbar
    have hinside : c.step.step.step.rest = word ++ ')' :: tail := Cursor.rest_step_cons hblank
    rw [Cursor.skipInline_blank hrest (tight_cons (by decide)), Cursor.sees_cons hbar,
      beq_self_eq_true, if_pos rfl,
      Cursor.skipInline_blank hblank ((opens_of_isWord hword).append _).solid.tight,
      Cursor.expectWord_word _ _ hword (boundary_cons (by decide)) hinside, ok_bind]
    simp

theorem barredPath_head {path : List String} {tail : List Char}
    {p : Char → Prop} (hclose : p ')') (hblank : p ' ') :
    ∀ c ∈ (barredPath path ++ ')' :: tail).head?, p c := by
  intro c hc
  unfold barredPath at hc
  split at hc
  · cases hc
    exact hclose
  · cases hc
    exact hblank

/-- What follows the type in a reference is read as the name, whatever is done with it. -/
theorem refName_reads (file : String) {n : Nat} {c : Cursor} {text : Option (List Char)}
    {target : Option Node} {path : List String} {tail : List Char}
    (hname : NameReads text target)
    (hrest : c.rest = spacedName text ++ (barredPath path ++ ')' :: tail))
    (hn : 12 * (spacedName text).length ≤ n) :
    ∃ got c', (∀ {β : Type} (next : Option Node × Cursor → Except ParseError β),
        (if c.skipInline.sees ')' || c.skipInline.sees '|' then
            Except.ok (none, c.skipInline) >>= next
          else primary file n c.skipInline >>= fun read =>
            Except.ok (some read.1, read.2) >>= next) = next (got, c')) ∧
      got.map Node.bare = target ∧ c'.skipInline = (c.over (spacedName text)).skipInline := by
  cases text with
  | none =>
    cases hname
    refine ⟨none, c.skipInline, fun next => ?_, rfl, ?_⟩
    · have hsees : (c.skipInline.sees ')' || c.skipInline.sees '|') = true := by
        by_cases hpath : path.isEmpty = true
        · have hclose : c.rest = ')' :: tail := by
            rw [hrest, barredPath, hpath]
            rfl
          rw [Cursor.skipInline_tight (hclose ▸ tight_cons (by decide)), Cursor.sees_cons hclose]
          rfl
        · have hbar : c.rest = ' ' :: '|' :: ' ' :: (pathText path ++ ')' :: tail) := by
            rw [hrest, barredPath, if_neg hpath]
            rfl
          rw [Cursor.skipInline_blank hbar (tight_cons (by decide)),
            Cursor.sees_cons (Cursor.rest_step_cons hbar),
            Cursor.sees_cons (Cursor.rest_step_cons hbar)]
          rfl
      rw [if_pos hsees, ok_bind]
    · by_cases hpath : path.isEmpty = true
      · have hclose : c.rest = ')' :: tail := by
          rw [hrest, barredPath, hpath]
          rfl
        have htight : Tight c.rest := hclose ▸ tight_cons (by decide)
        rw [spacedName, Cursor.over_nil, Cursor.skipInline_tight htight,
          Cursor.skipInline_tight htight]
      · have hbar : c.rest = ' ' :: '|' :: ' ' :: (pathText path ++ ')' :: tail) := by
          rw [hrest, barredPath, if_neg hpath]
          rfl
        have htight : Tight c.step.rest :=
          Cursor.rest_step_cons hbar ▸ tight_cons (by decide)
        rw [spacedName, Cursor.over_nil, Cursor.skipInline_blank hbar (tight_cons (by decide)),
          Cursor.skipInline_tight htight]
  | some text =>
    obtain ⟨node, rfl, hatom⟩ := hname
    have hstep : c.step.rest = text ++ (barredPath path ++ ')' :: tail) :=
      Cursor.rest_step_cons hrest
    have hskip : c.skipInline = c.step :=
      Cursor.skipInline_blank hrest (hatom.opens.append _).solid.tight
    have hboundary : Boundary (barredPath path ++ ')' :: tail) :=
      barredPath_head (by decide) (by decide)
    simp only [spacedName, List.length_cons] at hn
    obtain ⟨got, hread, hgot⟩ := hatom.reads file n c.step _ hboundary hstep (by omega)
    refine ⟨some got, c.step.over text, fun next => ?_, congrArg some hgot, rfl⟩
    rw [hskip, hatom.opens.not_sees hstep (by decide), hatom.opens.not_sees hstep (by decide),
      hread, ok_bind]
    rfl

theorem reference_ref {type : String} {text : Option (List Char)} {name : Option Node}
    {path : List String}
    (htype : IsTypeText type)
    (hname : NameReads text name)
    (hpath : path = [] ∨ IsPath path) :
    Reference (refText type (spacedName text) path) (.ref type name path Span.generated) := by
  obtain ⟨head, kind, hhead, hkind, htext⟩ := htype
  have hofList : String.ofList (head ++ [':', ':'] ++ kind) = type := by
    rw [← htext, String.ofList_toList]
  rw [refText_eq, htext]
  refine ⟨⟨_, rfl⟩, ?_⟩
  intro file n c tail hrest hn
  have hheadLength := (opens_of_isWord hhead).length_pos
  have hkindLength := (opens_of_isWord hkind).length_pos
  simp only [List.length_cons, List.length_append, List.length_nil] at hn
  obtain ⟨n, rfl⟩ := Nat.exists_eq_add_one_of_ne_zero (Nat.ne_of_gt (by omega : 0 < n))
  have hinside : (c.advance 2).rest = head ++ ([':', ':'] ++ (kind ++
      (spacedName text ++ (barredPath path ++ ')' :: tail)))) := by
    rw [Cursor.rest_advance, hrest]
    simp
  have htight : Tight (c.advance 2).rest :=
    hinside ▸ ((opens_of_isWord hhead).append _).solid.tight
  have hcolons : ((c.advance 2).over head).rest = [':', ':'] ++ (kind ++
      (spacedName text ++ (barredPath path ++ ')' :: tail))) := Cursor.rest_over hinside
  have hkindRest : (((c.advance 2).over head).advance 2).rest = kind ++
      (spacedName text ++ (barredPath path ++ ')' :: tail)) := Cursor.rest_over hcolons
  have hboundary : Boundary (spacedName text ++ (barredPath path ++ ')' :: tail)) := by
    cases text with
    | none => exact barredPath_head (by decide) (by decide)
    | some text => exact boundary_cons (by decide)
  have hnameRest := Cursor.rest_over hkindRest
  obtain ⟨got, c', hread, hgot, hskip⟩ :=
    refName_reads file (n := n) hname hnameRest (by omega)
  have hpathRest := Cursor.rest_over hnameRest
  have hclose := Cursor.rest_over hpathRest
  refine ⟨.ref type got path (c.span file), ?_, by rw [Node.bare, bareOption_eq_map, hgot]⟩
  rw [reference, Cursor.skipInline_tight htight,
    Cursor.expectWord_word _ _ hhead (boundary_cons (by decide)) hinside, ok_bind]
  dsimp only
  rw [hcolons, if_pos (by simp [List.isPrefixOf]),
    Cursor.expectWord_word _ _ hkind hboundary hkindRest, ok_bind]
  dsimp only
  rw [hread]
  dsimp only
  rw [hskip, refPath_reads hpath hpathRest]
  dsimp only
  rw [Cursor.skipInline_tight (hclose ▸ tight_cons (by decide)), Cursor.expect_cons hclose,
    ok_bind, hofList]
  simp

/-! ## Rules for lists and maps -/

theorem join_cons (mark text : List Char) (texts : List (List Char)) :
    Text.join mark (text :: texts) =
      text ++ if texts.isEmpty then [] else mark ++ Text.join mark texts := by
  cases texts with
  | nil => simp [Text.join]
  | cons next rest => simp [Text.join]

/-- One item of a list, in front of a comma or the closing bracket. -/
theorem listItems_item (file : String) {level : Nat} {text : List Char} {target : Node}
    {n k : Nat} {c : Cursor} {ch : Char} {more : List Char}
    (hitem : Expression level text target)
    (hrest : c.rest = List.replicate k ' ' ++ (text ++ ch :: more))
    (hch : ch = ',' ∨ ch = ']')
    (hn : 12 * text.length + 2 ≤ n) :
    ∃ got, got.bare = target ∧
      listItems file (n + 1) c = (do
        let (items, c') ← listItems file n (((c.over (List.replicate k ' ')).over text).pass ',')
        .ok (got :: items, c')) := by
  have hcloser : isCloser ch = true := by rcases hch with rfl | rfl <;> decide
  have hline : ch ≠ '\n' := by rcases hch with rfl | rfl <;> decide
  have hstart := Cursor.rest_over hrest
  have hafter := Cursor.rest_over hstart
  have hblank := Cursor.skipBlank_indent hrest (hitem.solid_append _)
  have hsolid := Cursor.skipBlank_solid (hafter ▸ solid_closer more hcloser hline)
  obtain ⟨got, hread, hgot⟩ := hitem.whole file (boundary_closer more hcloser)
    (quiet_closer 1 hcloser) hstart hn
  refine ⟨got, hgot, ?_⟩
  have hsees : (((c.over (List.replicate k ' ')).over text).sees ',' ||
      ((c.over (List.replicate k ' ')).over text).sees ']') = true := by
    rw [Cursor.sees_cons hafter, Cursor.sees_cons hafter]
    rcases hch with rfl | rfl <;> rfl
  rw [listItems, hblank, hitem.opens.not_sees hstart (by decide), if_neg Bool.false_ne_true,
    hread, ok_bind]
  dsimp only
  rw [hsolid, hsees, if_pos rfl]

section Items

variable {α : Type} {write : α → List Char} {meaning : α → Node} {level : α → Nat}

/-- Items with commas between them, up to the closing bracket. -/
theorem listItems_reads (items : List α)
    (hitems : ∀ item ∈ items, Expression (level item) (write item) (meaning item))
    (file : String) {n k : Nat} {c : Cursor} {tail : List Char}
    (hrest : c.rest =
      List.replicate k ' ' ++ (Text.join [',', ' '] (items.map write) ++ ']' :: tail))
    (hn : 12 * ((Text.join [',', ' '] (items.map write)).length + 1) ≤ n) :
    ∃ got, listItems file n c =
        .ok (got, c.over
          (List.replicate k ' ' ++ (Text.join [',', ' '] (items.map write) ++ [']']))) ∧
      got.map Node.bare = items.map meaning := by
  obtain ⟨n, rfl⟩ := Nat.exists_eq_add_one_of_ne_zero (Nat.ne_of_gt (by omega : 0 < n))
  induction items generalizing n k c with
  | nil =>
    have hclose : (c.over (List.replicate k ' ')).rest = ']' :: tail := Cursor.rest_over hrest
    refine ⟨[], ?_, rfl⟩
    rw [listItems, Cursor.skipBlank_indent hrest (solid_cons (by decide)),
      Cursor.sees_cons hclose]
    simp [Text.join]
  | cons item rest ih =>
    have hitem := hitems item List.mem_cons_self
    have hopens := hitem.opens.length_pos
    cases rest with
    | nil =>
      simp only [List.map_cons, List.map_nil, Text.join] at hrest hn ⊢
      obtain ⟨got, hgot, hstep⟩ := listItems_item file (n := n) hitem hrest
        (Or.inr rfl) (by omega)
      have hclose := Cursor.rest_over (Cursor.rest_over hrest)
      obtain ⟨n, rfl⟩ := Nat.exists_eq_add_one_of_ne_zero (Nat.ne_of_gt (by omega : 0 < n))
      obtain ⟨gots, hreads, hgots⟩ := ih (by simp) (k := 0) hclose n
        (by simp only [List.map_nil, Text.join, List.length_nil]; omega)
      refine ⟨got :: gots, ?_, by simp [hgot, hgots]⟩
      rw [hstep, Cursor.pass_of_ne (by simp [hclose]), hreads, ok_bind]
      simp [Text.join]
    | cons next rest =>
      rw [List.map_cons, join_cons] at hrest hn
      simp only [List.map_cons, List.isEmpty_cons, Bool.false_eq_true, if_false, List.append_assoc,
        List.cons_append, List.nil_append, List.length_append, List.length_cons] at hrest hn
      obtain ⟨got, hgot, hstep⟩ := listItems_item file (n := n) hitem hrest
        (Or.inl rfl) (by omega)
      have hcomma := Cursor.rest_over (Cursor.rest_over hrest)
      obtain ⟨n, rfl⟩ := Nat.exists_eq_add_one_of_ne_zero (Nat.ne_of_gt (by omega : 0 < n))
      obtain ⟨gots, hreads, hgots⟩ := ih (fun x hx => hitems x (List.mem_cons_of_mem _ hx))
        (k := 1) (Cursor.rest_step_cons hcomma) n (by
          simp only [List.map_cons]
          omega)
      refine ⟨got :: gots, ?_, by rw [List.map_cons, hgot, hgots]; rfl⟩
      rw [hstep, Cursor.pass_cons hcomma, hreads, ok_bind]
      simp only [List.map_cons, join_cons]
      simp

theorem atom_list (items : List α)
    (hitems : ∀ item ∈ items, Expression (level item) (write item) (meaning item)) :
    Atom (listText (items.map write)) (.list (items.map meaning)) := by
  refine ⟨⟨'[', _, rfl, by decide⟩, ?_⟩
  intro file n c tail _ hrest hn
  simp only [listText, List.length_cons, List.length_append, List.length_nil] at hn
  obtain ⟨n, rfl⟩ := Nat.exists_eq_add_one_of_ne_zero (Nat.ne_of_gt (by omega : 0 < n))
  have hrest' : c.rest = '[' :: (Text.join [',', ' '] (items.map write) ++ ']' :: tail) := by
    rw [hrest, listText]
    simp
  obtain ⟨got, hread, hgot⟩ := listItems_reads items hitems file (n := n) (k := 0)
    (Cursor.rest_step_cons hrest') (by omega)
  refine ⟨.list got, ?_, by rw [Node.bare, bareNodes_eq_map, hgot]⟩
  rw [primary, hrest']
  simp only [hread, ok_bind, listText]
  simp

end Items

theorem eq_text_of_bare {node : Node} {s : String} (h : node.bare = .text s) : node = .text s := by
  cases node <;> simp_all [Node.bare]

theorem stringKey_quoted (file : String) {n : Nat} {c : Cursor} {key : String} {tail : List Char}
    (hboundary : Boundary tail)
    (hrest : c.rest = quotedText key.toList ++ tail)
    (hn : 12 * (quotedText key.toList).length + 1 ≤ n) :
    stringKey file n c = .ok (key, c.over (quotedText key.toList)) := by
  obtain ⟨n, rfl⟩ := Nat.exists_eq_add_one_of_ne_zero (Nat.ne_of_gt (by omega : 0 < n))
  obtain ⟨got, hread, hgot⟩ :=
    (atom_quoted key.toList).reads file n c tail hboundary hrest (by omega)
  rw [String.ofList_toList] at hgot
  obtain rfl := eq_text_of_bare hgot
  rw [stringKey, hread, ok_bind]

/-- A text that is read as the key of a map entry, up to the colon behind it, whatever is done with
it then. -/
structure KeyReading (text : List Char) (key : String) : Prop where
  opens : Opens text
  reads : ∀ {β : Type} (file : String) {n : Nat} {c : Cursor} {tail : List Char},
    c.rest = text ++ ':' :: tail → 12 * text.length + 1 ≤ n →
      ∀ next : String × Cursor → Except ParseError β,
        (if c.sees '\'' || c.sees '"' then stringKey file n c >>= next
          else c.expectWord file "a map key" >>= fun read =>
            Except.ok (String.ofList read.1, read.2) >>= next) =
          next (key, c.over text)

theorem not_sees_quote_of_isWord {c : Cursor} {word tail : List Char} (hword : IsWord word)
    (hrest : c.rest = word ++ tail) :
    (c.sees '\'' || c.sees '"') = false := by
  obtain ⟨ch, rest, rfl⟩ := List.exists_cons_of_ne_nil hword.ne_nil
  have hch := hword.all ch List.mem_cons_self
  have hne (other : Char) (hother : isWordChar other = false) : (ch == other) = false := by
    apply beq_eq_false_iff_ne.2
    rintro rfl
    rw [hch] at hother
    cases hother
  rw [Cursor.sees_cons hrest, Cursor.sees_cons hrest, hne _ (by decide), hne _ (by decide)]
  rfl

theorem keyReading_word {key : String} (hword : IsWord key.toList) :
    KeyReading key.toList key where
  opens := opens_of_isWord hword
  reads := by
    intro β file n c tail hrest _ next
    rw [not_sees_quote_of_isWord hword hrest, if_neg Bool.false_ne_true,
      Cursor.expectWord_word _ _ hword (boundary_cons (by decide)) hrest, ok_bind, ok_bind]
    dsimp only
    rw [String.ofList_toList]

theorem keyReading_quoted (key : String) : KeyReading (quotedText key.toList) key where
  opens := (atom_quoted key.toList).opens
  reads := by
    intro β file n c tail hrest hn next
    have hsees : (c.sees '\'' || c.sees '"') = true := by
      rw [Cursor.sees_cons hrest]
      rfl
    rw [hsees, if_pos rfl, stringKey_quoted file (boundary_cons (by decide)) hrest hn, ok_bind]

theorem keyReading_keyText (key : String) : KeyReading (keyText key) key := by
  unfold keyText
  split
  · rename_i hbare
    exact keyReading_word (isWord_of_isBareWord hbare)
  · exact keyReading_quoted key

/-- An entry of a map is read behind its key as any other expression is. -/
theorem mapEntries_key (file : String) {front text more : List Char} {key : String} {n k : Nat}
    {c : Cursor}
    (hkey : KeyReading front key)
    (hopens : Opens text)
    (hrest : c.rest = List.replicate k ' ' ++ (front ++ ':' :: ' ' :: (text ++ more)))
    (hn : 12 * front.length + 1 ≤ n) :
    mapEntries file (n + 1) c = (do
      let (value, c') ← binary file n 1 ((c.over (List.replicate k ' ')).over front).step.step
      let c' := c'.skipBlank
      if c'.sees ',' || c'.sees '\x7d' then do
        let (entries, c') ← mapEntries file n (c'.pass ',')
        .ok (⟨key, value, (c.over (List.replicate k ' ')).span file⟩ :: entries, c')
      else c'.unexpected file "`,` or `\x7d`") := by
  have hstart := Cursor.rest_over hrest
  have hblank := Cursor.skipBlank_indent hrest (hkey.opens.append _).solid
  have hcolon := Cursor.rest_over hstart
  have hspace := Cursor.rest_step_cons hcolon
  rw [mapEntries, hblank, hkey.opens.not_sees hstart (by decide), if_neg Bool.false_ne_true]
  dsimp only
  rw [hkey.reads file hstart hn]
  dsimp only
  rw [Cursor.skipInline_tight (hcolon ▸ tight_cons (by decide)), Cursor.expect_cons hcolon,
    ok_bind, Cursor.skipBlank_blank hspace (hopens.append more).solid]

theorem Cursor.rest_over_entry {c : Cursor} {front text more : List Char}
    (h : c.rest = front ++ ':' :: ' ' :: (text ++ more)) :
    (c.over (front ++ ':' :: ' ' :: text)).rest = more := by
  apply Cursor.rest_over
  rw [h, List.append_assoc]
  rfl

/-- One entry of a map, in front of a comma or of the closing brace. -/
theorem mapEntries_entry (file : String) {level : Nat} {front text : List Char} {key : String}
    {target : Node} {n k : Nat} {c : Cursor} {more : List Char}
    (hkey : KeyReading front key)
    (hvalue : Expression level text target)
    (hrest : c.rest = List.replicate k ' ' ++ (front ++ ':' :: ' ' :: (text ++ more)))
    (hmore : (∃ rest, more = ',' :: rest) ∨ ∃ rest, more = ' ' :: '\x7d' :: rest)
    (hn : 12 * (front.length + text.length) + 2 ≤ n) :
    ∃ got, got.bare = ⟨key, target, Span.generated⟩ ∧
      mapEntries file (n + 1) c = (do
        let (entries, c') ← mapEntries file n
          (((c.over (List.replicate k ' ')).over (front ++ ':' :: ' ' :: text)).skipBlank.pass ',')
        .ok (got :: entries, c')) := by
  have hinside : ((c.over (List.replicate k ' ')).over front).step.step.rest = text ++ more :=
    Cursor.rest_step_cons (Cursor.rest_step_cons (Cursor.rest_over (Cursor.rest_over hrest)))
  have hafter := Cursor.rest_over hinside
  -- behind the value, up to the comma or brace
  have hboundary : Boundary more := by
    rcases hmore with ⟨rest, rfl⟩ | ⟨rest, rfl⟩ <;> exact boundary_cons (by decide)
  have hquiet : Quiet 1 more := by
    rcases hmore with ⟨rest, rfl⟩ | ⟨rest, rfl⟩
    · exact quiet_closer 1 (by decide)
    · exact quiet_blank_closer 1 (by decide) (by decide)
  obtain ⟨got, hread, hgot⟩ := hvalue.whole file (n := n) hboundary hquiet hinside (by omega)
  have hpair : ((c.over (List.replicate k ' ')).over front).step.step.over text =
      (c.over (List.replicate k ' ')).over (front ++ ':' :: ' ' :: text) := by
    rw [Cursor.over_append, Cursor.over_cons, Cursor.over_cons]
  rw [hpair] at hread hafter
  have hsees : ((((c.over (List.replicate k ' ')).over
        (front ++ ':' :: ' ' :: text)).skipBlank.sees ',') ||
      (((c.over (List.replicate k ' ')).over
        (front ++ ':' :: ' ' :: text)).skipBlank.sees '\x7d')) = true := by
    rcases hmore with ⟨rest, rfl⟩ | ⟨rest, rfl⟩
    · have hsolid := Cursor.skipBlank_solid (hafter ▸ solid_closer (c := ',') rest (by decide)
        (by decide))
      rw [hsolid, Cursor.sees_cons hafter]
      rfl
    · have hskip := Cursor.skipBlank_blank hafter (solid_closer rest (by decide) (by decide))
      rw [hskip, Cursor.sees_cons (Cursor.rest_step_cons hafter),
        Cursor.sees_cons (Cursor.rest_step_cons hafter)]
      rfl
  refine ⟨⟨key, got, (c.over (List.replicate k ' ')).span file⟩, by rw [Entry.bare, hgot], ?_⟩
  rw [mapEntries_key file hkey hvalue.opens hrest (by omega), hread, ok_bind]
  dsimp only
  rw [hsees, if_pos rfl]

section Entries

variable {α : Type} {front : α → List Char} {key : α → String} {write : α → List Char}
  {meaning : α → Node} {level : α → Nat}

/-- Entries with commas between them, up to the closing brace. -/
theorem mapEntries_reads (entries : List α)
    (hkeys : ∀ entry ∈ entries, KeyReading (front entry) (key entry))
    (hentries : ∀ entry ∈ entries, Expression (level entry) (write entry) (meaning entry))
    (hne : entries ≠ [])
    (file : String) {n : Nat} {c : Cursor} {tail : List Char}
    (hrest : c.rest = ' ' :: (Text.join [',', ' ']
      (entries.map fun entry => front entry ++ ':' :: ' ' :: write entry) ++
        ' ' :: '\x7d' :: tail))
    (hn : 12 * ((Text.join [',', ' ']
      (entries.map fun entry => front entry ++ ':' :: ' ' :: write entry)).length + 1) ≤ n) :
    ∃ got, mapEntries file n c =
        .ok (got, c.over (' ' :: (Text.join [',', ' ']
          (entries.map fun entry => front entry ++ ':' :: ' ' :: write entry) ++ [' ', '\x7d']))) ∧
      got.map Entry.bare = entries.map fun entry => ⟨key entry, meaning entry, Span.generated⟩ := by
  obtain ⟨n, rfl⟩ := Nat.exists_eq_add_one_of_ne_zero (Nat.ne_of_gt (by omega : 0 < n))
  induction entries generalizing n c with
  | nil => exact absurd rfl hne
  | cons entry rest ih =>
    have hkey := hkeys entry List.mem_cons_self
    have hentry := hentries entry List.mem_cons_self
    cases rest with
    | nil =>
      simp only [List.map_cons, List.map_nil, Text.join, List.append_assoc, List.cons_append,
        List.length_append, List.length_cons] at hrest hn ⊢
      obtain ⟨got, hgot, hstep⟩ := mapEntries_entry file (n := n) (k := 1) hkey hentry hrest
        (Or.inr ⟨tail, rfl⟩) (by omega)
      have hafter := Cursor.rest_over_entry (Cursor.rest_step_cons hrest)
      have hclose := Cursor.rest_step_cons hafter
      have hskip := Cursor.skipBlank_blank hafter (solid_closer tail (by decide) (by decide))
      obtain ⟨n, rfl⟩ := Nat.exists_eq_add_one_of_ne_zero (Nat.ne_of_gt (by omega : 0 < n))
      refine ⟨[got], ?_, by simp [hgot]⟩
      rw [hstep, List.replicate_one, Cursor.over_cons, Cursor.over_nil, hskip,
        Cursor.pass_of_ne (by rw [hclose]; simp), mapEntries,
        Cursor.skipBlank_solid (hclose ▸ solid_closer tail (by decide) (by decide)),
        Cursor.sees_cons hclose, beq_self_eq_true, if_pos rfl, ok_bind]
      simp
    | cons next rest =>
      rw [List.map_cons, join_cons] at hrest hn
      simp only [List.map_cons, List.isEmpty_cons, Bool.false_eq_true, if_false, List.append_assoc,
        List.cons_append, List.nil_append, List.length_append, List.length_cons] at hrest hn
      obtain ⟨got, hgot, hstep⟩ := mapEntries_entry file (n := n) (k := 1) hkey hentry hrest
        (Or.inl ⟨_, rfl⟩) (by omega)
      have hcomma := Cursor.rest_over_entry (Cursor.rest_step_cons hrest)
      have hsolid := Cursor.skipBlank_solid (hcomma ▸ solid_closer (c := ',') _ (by decide)
        (by decide))
      obtain ⟨n, rfl⟩ := Nat.exists_eq_add_one_of_ne_zero (Nat.ne_of_gt (by omega : 0 < n))
      obtain ⟨gots, hreads, hgots⟩ := ih (fun x hx => hkeys x (List.mem_cons_of_mem _ hx))
        (fun x hx => hentries x (List.mem_cons_of_mem _ hx))
        (List.cons_ne_nil _ _) (Cursor.rest_step_cons hcomma) n (by
          simp only [List.map_cons]
          omega)
      refine ⟨got :: gots, ?_, by rw [List.map_cons, hgot, hgots]; rfl⟩
      rw [hstep, List.replicate_one, Cursor.over_cons, Cursor.over_nil, hsolid,
        Cursor.pass_cons hcomma, hreads, ok_bind]
      simp only [List.map_cons, join_cons]
      simp

/-- A map is read from any writing of its keys that is read as these keys. -/
theorem atom_entries (entries : List α)
    (hkeys : ∀ entry ∈ entries, KeyReading (front entry) (key entry))
    (hentries : ∀ entry ∈ entries, Expression (level entry) (write entry) (meaning entry)) :
    Atom (mapText (entries.map fun entry => front entry ++ ':' :: ' ' :: write entry))
      (.map (entries.map fun entry => ⟨key entry, meaning entry, Span.generated⟩)) := by
  by_cases hne : entries = []
  · subst hne
    refine ⟨⟨'\x7b', _, rfl, by decide⟩, ?_⟩
    intro file n c tail _ hrest hn
    simp only [List.map_nil, mapText, List.length_cons, List.length_nil] at hn
    obtain ⟨n, rfl⟩ := Nat.exists_eq_add_one_of_ne_zero (Nat.ne_of_gt (by omega : 0 < n))
    obtain ⟨n, rfl⟩ := Nat.exists_eq_add_one_of_ne_zero (Nat.ne_of_gt (by omega : 0 < n))
    have hrest' : c.rest = '\x7b' :: '\x7d' :: tail := hrest
    have hclose := Cursor.rest_step_cons hrest'
    refine ⟨.map [], ?_, rfl⟩
    rw [primary, hrest']
    simp only [mapEntries]
    rw [Cursor.skipBlank_solid (hclose ▸ solid_closer tail (by decide) (by decide)),
      Cursor.sees_cons hclose]
    rfl
  · have htext : mapText (entries.map fun entry => front entry ++ ':' :: ' ' :: write entry) =
        '\x7b' :: ' ' :: (Text.join [',', ' ']
          (entries.map fun entry => front entry ++ ':' :: ' ' :: write entry) ++
            [' ', '\x7d']) := by
      cases entries with
      | nil => exact absurd rfl hne
      | cons entry rest => rfl
    rw [htext]
    refine ⟨⟨'\x7b', _, rfl, by decide⟩, ?_⟩
    intro file n c tail _ hrest hn
    simp only [List.length_cons, List.length_append, List.length_nil] at hn
    obtain ⟨n, rfl⟩ := Nat.exists_eq_add_one_of_ne_zero (Nat.ne_of_gt (by omega : 0 < n))
    have hrest' : c.rest = '\x7b' :: ' ' :: (Text.join [',', ' ']
        (entries.map fun entry => front entry ++ ':' :: ' ' :: write entry) ++
          ' ' :: '\x7d' :: tail) := by
      rw [hrest]
      simp
    obtain ⟨got, hread, hgot⟩ := mapEntries_reads entries hkeys hentries hne file (n := n)
      (Cursor.rest_step_cons hrest') (by omega)
    refine ⟨.map got, ?_, by rw [Node.bare, bareEntries_eq_map, hgot]⟩
    rw [primary, hrest']
    simp only [hread, ok_bind]
    rfl

theorem atom_map (entries : List α)
    (hentries : ∀ entry ∈ entries, Expression (level entry) (write entry) (meaning entry)) :
    Atom (mapText (entries.map fun entry => pairText (key entry) (write entry)))
      (.map (entries.map fun entry => ⟨key entry, meaning entry, Span.generated⟩)) :=
  atom_entries entries (fun entry _ => keyReading_keyText (key entry)) hentries

end Entries

/-! ## Rules for double-quoted strings -/

/-- The literal piece of a double-quoted string, when there is one. -/
def leadOf (s : List Char) : List Node :=
  if s.isEmpty then [] else [Node.text (String.ofList s)]

theorem stringParts_end (file : String) {n : Nat} {c : Cursor} {s tail : List Char}
    (hrest : c.rest = escapedPart s ++ '"' :: tail) :
    stringParts file (n + 1) c = .ok (leadOf s, (c.over (escapedPart s)).step) := by
  have hquote := Cursor.rest_over hrest
  rw [stringParts, hrest, literalPart_escapedPart s (Or.inl ⟨tail, rfl⟩)]
  simp only [lexeme, ok_bind]
  rw [Cursor.advance_length, Cursor.sees_cons hquote, beq_self_eq_true, if_pos rfl]
  rfl

/-- A literal piece, which may be empty, and the reference behind it. -/
theorem stringParts_part (file : String) {n : Nat} {c : Cursor} {s text more : List Char}
    {target : Node}
    (href : Reference text target)
    (hrest : c.rest = escapedPart s ++ (text ++ more))
    (hn : 12 * text.length ≤ n + 12) :
    ∃ got, got.bare = target ∧
      ∀ gots c', stringParts file n ((c.over (escapedPart s)).over text) = .ok (gots, c') →
        stringParts file (n + 1) c = .ok (leadOf s ++ got :: gots, c') := by
  obtain ⟨inside, hopens⟩ := href.opens
  have hstart := Cursor.rest_over hrest
  have hdollar : text ++ more = '$' :: '(' :: (inside ++ more) := by
    rw [hopens]
    rfl
  obtain ⟨got, hread, hgot⟩ := href.reads file n _ more hstart hn
  refine ⟨got, hgot, ?_⟩
  intro gots c' hgots
  rw [stringParts, hrest, literalPart_escapedPart s (Or.inr ⟨_, hdollar⟩)]
  simp only [lexeme, ok_bind]
  rw [Cursor.advance_length, Cursor.sees_cons (hstart.trans hdollar), if_neg (by decide), hread,
    ok_bind]
  dsimp only
  rw [hgots, ok_bind]
  rfl

/-- Literal pieces are not empty and stand next to references only. -/
def Spliced : List Node → Prop
  | [] => True
  | .text s :: rest => s ≠ "" ∧ (∀ part ∈ rest.head?, part.asText? = none) ∧ Spliced rest
  | _ :: rest => Spliced rest

theorem leadOf_text {s : String} (h : s ≠ "") : leadOf s.toList = [.text s] := by
  have hne : s.toList.isEmpty = false := by
    apply List.isEmpty_eq_false_iff.2
    intro hnil
    exact h (String.toList_eq_nil_iff.1 hnil)
  rw [leadOf, hne, String.ofList_toList, if_neg Bool.false_ne_true]

theorem spliced_cons_of_asText?_eq_none {part : Node} {rest : List Node}
    (h : part.asText? = none) :
    Spliced (part :: rest) ↔ Spliced rest := by
  cases part <;> first | exact Iff.rfl | cases h

theorem partText_of_asText?_eq_none {part : Node} (h : part.asText? = none) :
    part.partText = part.inline := by
  cases part <;> first | rfl | cases h

/-- The parts of a double-quoted string up to the closing quote, behind a literal piece that was
not read yet. -/
theorem stringParts_reads (file : String) (parts : List Node)
    (hshape : Spliced parts)
    (hparts : ∀ part ∈ parts, part.asText? = none → Reference part.inline part.bare)
    {s : List Char}
    (hlead : s = [] ∨ ∀ part ∈ parts.head?, part.asText? = none)
    {n : Nat} {c : Cursor} {tail : List Char}
    (hrest : c.rest = escapedPart s ++ (parts.flatMap Node.partText ++ '"' :: tail))
    (hn : 12 * ((parts.flatMap Node.partText).length + 1) ≤ n) :
    ∃ got, stringParts file n c =
        .ok (got, (c.over (escapedPart s)).over (parts.flatMap Node.partText ++ ['"'])) ∧
      got.map Node.bare = leadOf s ++ parts.map Node.bare := by
  induction parts generalizing s n c with
  | nil =>
    obtain ⟨n, rfl⟩ := Nat.exists_eq_add_one_of_ne_zero (Nat.ne_of_gt (by omega : 0 < n))
    refine ⟨leadOf s, stringParts_end file hrest, ?_⟩
    unfold leadOf
    split <;> rfl
  | cons part rest ih =>
    by_cases hnone : part.asText? = none
    · obtain ⟨n, rfl⟩ := Nat.exists_eq_add_one_of_ne_zero (Nat.ne_of_gt (by omega : 0 < n))
      have href := hparts part (by simp) hnone
      have hpositive := href.atom.opens.length_pos
      simp only [List.flatMap_cons, partText_of_asText?_eq_none hnone, List.append_assoc,
        List.length_append] at hrest hn ⊢
      obtain ⟨got, hgot, hstep⟩ := stringParts_part file (n := n) href hrest (by omega)
      obtain ⟨gots, hreads, hgots⟩ := ih ((spliced_cons_of_asText?_eq_none hnone).1 hshape)
        (fun part h => hparts part (by simp [h])) (s := []) (Or.inl rfl)
        (Cursor.rest_over (Cursor.rest_over hrest)) (n := n) (by omega)
      refine ⟨leadOf s ++ got :: gots, ?_, ?_⟩
      · rw [hstep gots _ hreads]
        simp [escapedPart]
      · have hleadBare : (leadOf s).map Node.bare = leadOf s := by
          unfold leadOf
          split <;> rfl
        rw [List.map_append, List.map_cons, hgot, hgots, hleadBare]
        rfl
    · obtain ⟨t, rfl⟩ : ∃ t, part = .text t := by
        cases part <;> first | exact ⟨_, rfl⟩ | exact absurd rfl hnone
      have hs : s = [] := by
        rcases hlead with h | h
        · exact h
        · exact absurd (h _ rfl) hnone
      subst hs
      have htext : (Node.text t).partText = escapedPart t.toList := rfl
      simp only [List.flatMap_cons, htext, List.append_assoc, List.length_append] at hrest hn ⊢
      obtain ⟨gots, hreads, hgots⟩ := ih hshape.2.2 (fun part h => hparts part (by simp [h]))
        (s := t.toList) (Or.inr hshape.2.1) hrest (n := n) (by omega)
      refine ⟨gots, ?_, ?_⟩
      · rw [hreads]
        simp [escapedPart]
      · rw [hgots, leadOf_text hshape.1]
        rfl

theorem interpolation_of_asText?_eq_none {parts : List Node}
    (h : ∃ part ∈ parts, part.asText? = none) :
    interpolation parts = .interpolated parts := by
  obtain ⟨part, hmem, hnone⟩ := h
  unfold interpolation
  split
  · cases hmem
  · rename_i s
    rw [List.mem_singleton.1 hmem] at hnone
    cases hnone
  · rfl

theorem atom_interpolated (parts : List Node)
    (hshape : Spliced parts)
    (hreference : ∃ part ∈ parts, part.asText? = none)
    (hparts : ∀ part ∈ parts, part.asText? = none → Reference part.inline part.bare) :
    Atom (interpolatedText (parts.flatMap Node.partText))
      (.interpolated (parts.map Node.bare)) := by
  refine ⟨⟨'"', _, rfl, by decide⟩, ?_⟩
  intro file n c tail _ hrest hn
  simp only [interpolatedText, List.length_cons, List.length_append, List.length_nil] at hn
  obtain ⟨n, rfl⟩ := Nat.exists_eq_add_one_of_ne_zero (Nat.ne_of_gt (by omega : 0 < n))
  have hrest' : c.rest = '"' :: (parts.flatMap Node.partText ++ '"' :: tail) := by
    rw [hrest, interpolatedText]
    simp
  obtain ⟨got, hread, hgot⟩ := stringParts_reads file parts hshape hparts (s := []) (Or.inl rfl)
    (Cursor.rest_step_cons hrest') (n := n) (by omega)
  have hgot : got.map Node.bare = parts.map Node.bare := hgot
  have hgotReference : ∃ part ∈ got, part.asText? = none := by
    obtain ⟨part, hmem, hnone⟩ := hreference
    have hbare : part.bare ∈ got.map Node.bare := hgot ▸ List.mem_map_of_mem hmem
    obtain ⟨other, hother, heq⟩ := List.mem_map.1 hbare
    refine ⟨other, hother, ?_⟩
    rw [← asText?_bare, heq, asText?_bare, hnone]
  refine ⟨.interpolated got, ?_, by rw [Node.bare, bareNodes_eq_map, hgot]⟩
  rw [primary, hrest']
  simp only [hread, ok_bind, interpolation_of_asText?_eq_none hgotReference]
  rfl

end Provision.Language
