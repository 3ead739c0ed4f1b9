import Provision.Proofs.Evaluation.Once
import Provision.Proofs.Evaluation.Framing

/-!
# Fields that are extended

A resource body sets a field once and extends it with a map.  The two come together
in a deep merge when the pair that sets the field gets done before the `@extends`
directive, as it does unless it has to wait.  A pair that gets done after the directive
takes the place of what was merged, and the value of a named block takes the place of
whatever the directive has brought about.
-/

namespace Provision

open Provision.Language (Node Entry Directive)

/-! ## What statements do to a name -/

/-- The field that a pair or a named block sets. -/
def fieldOf : Node → Option String
  | .pair entry => some entry.key
  | .block key _ _ => some key
  | _ => none

section Effects

variable {e : Evaluator} {frame : Frame} {d : Directive} {p q : Progress} {name : String}

/-- A pair that gets done sets its name to what its expression comes to. -/
theorem pair_done {entry : Entry} (hrun : (e.step frame (.pair entry)).run p = (.ok (), q)) :
    ∃ value after, (e.reading frame entry.span fun view => evaluate view entry.value).run p =
        (.ok value, after) ∧ q.scope = p.scope.put entry.key value := by
  obtain ⟨key, node, span⟩ := entry
  unfold Evaluator.step runStatement at hrun
  obtain ⟨value, after, hvalue, hrun⟩ := run_bind_eq_ok.1 hrun
  cases hrun
  exact ⟨value, after, hvalue, congrArg (fun scope => Scope.put scope key value)
    (still_of_run (Step.still_reading _ _ _ _) hvalue)⟩

/-- An `@extends` directive that gets done merges its entries into the scope. -/
theorem extends_done (hname : d.name = "extends")
    (hrun : (e.step frame (.directive d)).run p = (.ok (), q)) :
    ∃ entries after, (e.extending frame d).run p = (.ok entries, after) ∧
      q.scope = extendScope p.scope entries := by
  rw [step_extends hname] at hrun
  obtain ⟨entries, after, hentries, hrun⟩ := run_bind_eq_ok.1 hrun
  cases hrun
  exact ⟨entries, after, hentries, congrArg (fun scope => extendScope scope entries)
    (still_of_run still_extending hentries)⟩

/-- A named block that gets done adds the fields of its own scope. -/
theorem block_done {key : String} {source : List Node} {span : Span}
    (hrun : (e.step frame (.block key source span)).run p = (.ok (), q)) :
    ∃ scope after, (Step.inScope Scope.child (Step.body (runStatements e source frame))).run p =
        (.ok scope, after) ∧ q.scope = p.scope.addBlock key (.map scope.fields) := by
  unfold Evaluator.step runStatement at hrun
  split at hrun
  · cases hrun
  · obtain ⟨scope, after, hscope, hrun⟩ := run_bind_eq_ok.1 hrun
    cases hrun
    exact ⟨scope, after, hscope, congrArg (fun outer => Scope.addBlock outer key (.map scope.fields))
      (still_of_run (Step.still_inScope _ _) hscope)⟩

end Effects

/-! ## Bodies that set and extend a field -/

/-- Two entries of a list stand in one of two orders, with the others around them. -/
theorem split_of_perm {α β : Type} {entries : List (α × β)} {x y : β} {others : List β}
    (h : (entries.map Prod.snd).Perm (x :: y :: others)) :
    (∃ before between after a b, entries = before ++ (a, x) :: (between ++ (b, y) :: after) ∧
      ∀ entry ∈ before ++ between ++ after, entry.2 ∈ others) ∨
    ∃ before between after a b, entries = before ++ (b, y) :: (between ++ (a, x) :: after) ∧
      ∀ entry ∈ before ++ between ++ after, entry.2 ∈ others := by
  obtain ⟨⟨a, _⟩, hfirst, rfl⟩ := List.mem_map.1 (h.mem_iff.2 List.mem_cons_self)
  obtain ⟨front, back, rfl⟩ := List.append_of_mem hfirst
  have hrest : ((front ++ back).map Prod.snd).Perm (y :: others) := by
    rw [List.map_append, List.map_cons] at h
    rw [List.map_append]
    exact (List.perm_middle.symm.trans h).cons_inv
  obtain ⟨⟨b, y⟩, hsecond, rfl⟩ := List.mem_map.1 (hrest.mem_iff.2 List.mem_cons_self)
  have hothers : ∀ {before between after : List (α × β)},
      (front ++ back).Perm ((b, y) :: (before ++ between ++ after)) →
        ∀ entry ∈ before ++ between ++ after, entry.2 ∈ others := by
    intro before between after hperm entry hentry
    have hmap := (hperm.map Prod.snd).symm.trans hrest
    exact (List.Perm.cons_inv hmap).subset (List.mem_map_of_mem hentry)
  rcases List.mem_append.1 hsecond with hsecond | hsecond
  · obtain ⟨before, between, rfl⟩ := List.append_of_mem hsecond
    refine Or.inr ⟨before, between, back, a, b, by simp, hothers ?_⟩
    rw [List.append_assoc, List.cons_append, List.append_assoc]
    exact List.perm_middle
  · obtain ⟨between, after, rfl⟩ := List.append_of_mem hsecond
    refine Or.inl ⟨front, between, after, a, b, rfl, hothers ?_⟩
    rw [← List.append_assoc]
    exact List.perm_middle

theorem mem_of_around {α : Type} {before between after : List α} {first second entry : α}
    (h : entry ∈ before ++ between ++ after) :
    entry ∈ before ++ first :: (between ++ second :: after) := by
  simp only [List.mem_append, List.mem_cons] at h ⊢
  tauto

theorem sublist_of_two {α : Type} (before between after : List α) (first second : α) :
    [first, second].Sublist (before ++ first :: (between ++ second :: after)) :=
  ((List.singleton_sublist.2 (by simp)).cons_cons first).trans (List.sublist_append_right _ _)

section Bodies

variable {e : Evaluator} {frame : Frame} {d : Directive} {source others : List Node}
variable {start last : Progress} {name : String} {explicit : Node}

variable (hbody : (Step.body ((bodyOrder source).map (e.step frame))).run start = (.ok (), last))
  (hname : d.name = "extends") (hperm : source.Perm (explicit :: .directive d :: others))
  (hothers : ∀ node ∈ others, ¬ Sets name node ∧ ¬ Fills name node)

include hbody hname hperm hothers

/-- What is under the name is passed on from one success to the next. -/
theorem linked_under (hwaits : (e.step frame explicit).WaitsStill) :
    Step.Linked (e.step frame) (fun p => p.scope.under name) (start.scope.under name)
      (e.done frame start (bodyOrder source)) (last.scope.under name) := by
  refine Step.linked_of_body (fun attempt hattempt reasons q hdeferred => ?_) hbody
  have hnode := hperm.subset (mem_bodyOrder.1 (Step.mem_of_attempts hattempt))
  rcases List.mem_cons.1 hnode with hnode | hnode
  · rw [hnode] at hdeferred
    exact congrArg (fun scope => Scope.under scope name) (hwaits _ _ _ hdeferred)
  · rcases List.mem_cons.1 hnode with hnode | hnode
    · rw [hnode, step_extends hname] at hdeferred
      exact congrArg (fun scope => Scope.under scope name)
        (still_extending.waitsStill_bind (fun _ => Step.waitsStill_modify _) _ _ _ hdeferred)
    · have hleft := leaves_under (e := e) (hothers _ hnode).1 (hothers _ hnode).2 frame attempt.1
      have hdeferred : (runStatement e attempt.2 frame).run attempt.1 = _ := hdeferred
      rwa [hdeferred] at hleft

/-- The statement that sets a field and the `@extends` directive both get done, and what is under
the name is passed on from the one that comes first to the other, and on to the end. -/
theorem both_done (hwaits : (e.step frame explicit).WaitsStill) :
    ∃ set ext p q before between later,
      (e.step frame explicit).run set = (.ok (), p) ∧
      (e.step frame (.directive d)).run ext = (.ok (), q) ∧
      ((e.done frame start (bodyOrder source) =
          before ++ (set, explicit) :: (between ++ (ext, .directive d) :: later) ∧
        set.scope.under name = start.scope.under name ∧
        ext.scope.under name = p.scope.under name ∧
        last.scope.under name = q.scope.under name) ∨
      (e.done frame start (bodyOrder source) =
          before ++ (ext, .directive d) :: (between ++ (set, explicit) :: later) ∧
        (∀ attempt ∈ before, attempt.2 ∈ others) ∧
        ext.scope.under name = start.scope.under name ∧
        set.scope.under name = q.scope.under name ∧
        last.scope.under name = p.scope.under name)) := by
  have hlinked := linked_under hbody hname hperm hothers hwaits
  have hitems := (Step.successes_perm hbody).trans ((bodyOrder_perm source).trans hperm)
  have hleft : ∀ attempt ∈ e.done frame start (bodyOrder source), attempt.2 ∈ others →
      ((e.step frame attempt.2).run attempt.1).2.scope.under name = attempt.1.scope.under name :=
    fun attempt _ hattempt =>
      leaves_under (hothers _ hattempt).1 (hothers _ hattempt).2 frame attempt.1
  rcases split_of_perm hitems with
    ⟨before, between, later, set, ext, hdone, haround⟩ |
    ⟨before, between, later, set, ext, hdone, haround⟩
  · have hdone : e.done frame start (bodyOrder source) = _ := hdone
    rw [hdone] at hlinked hleft
    obtain ⟨p, q, hset, hext, hunder⟩ := hlinked.of_two fun attempt hattempt =>
      hleft attempt (mem_of_around hattempt) (haround attempt hattempt)
    exact ⟨set, ext, p, q, before, between, later, hset, hext, .inl ⟨hdone, hunder⟩⟩
  · have hdone : e.done frame start (bodyOrder source) = _ := hdone
    rw [hdone] at hlinked hleft
    obtain ⟨q, p, hext, hset, hunder⟩ := hlinked.of_two fun attempt hattempt =>
      hleft attempt (mem_of_around hattempt) (haround attempt hattempt)
    exact ⟨set, ext, p, q, before, between, later, hset, hext,
      .inr ⟨hdone, fun attempt hattempt => haround attempt (by simp [hattempt]), hunder⟩⟩

end Bodies

/-- How a statement that sets a field comes together with an `@extends` directive that extends it. -/
inductive Extended (e : Evaluator) (frame : Frame) (start : Progress) (source : List Node)
    (d : Directive) (fields : Bindings) : Node → String → Prop
  /-- A pair that gets done before the directive: its value is merged with the entry of the map. -/
  | merged {entry : Entry} {set ext after after' : Progress} {value : Value} {entries : Bindings}
      (horder : [(set, .pair entry), (ext, .directive d)].Sublist
        (e.done frame start (bodyOrder source)))
      (hvalue : (e.reading frame entry.span fun view => evaluate view entry.value).run set =
        (.ok value, after))
      (hentries : (e.extending frame d).run ext = (.ok entries, after'))
      (hdistinct : ∀ written, d.arguments.head? = some (.map written) → Table.Distinct entries)
      (hfield : Table.Distinct entries → Table.get? fields entry.key =
        some ((Table.get? entries entry.key).elim value value.merge)) :
      Extended e frame start source d fields (.pair entry) entry.key
  /-- A pair that has been deferred and gets done after the directive: its value is all there is. -/
  | retried {entry : Entry} {waiting last set ext after : Progress} {reasons : List Deferral}
      {value : Value}
      (hwaiting : (waiting, .pair entry) ∈ Step.attempts (e.step frame) start (bodyOrder source))
      (hdeferred : (e.step frame (.pair entry)).run waiting = (.error (.deferred reasons), last))
      (horder : [(ext, .directive d), (set, .pair entry)].Sublist
        (e.done frame start (bodyOrder source)))
      (hvalue : (e.reading frame entry.span fun view => evaluate view entry.value).run set =
        (.ok value, after))
      (hfield : Table.get? fields entry.key = some value) :
      Extended e frame start source d fields (.pair entry) entry.key
  /-- A named block, before or after the directive: the fields of its scope are all there is. -/
  | hidden {name : String} {nodes : List Node} {span : Span} {set after : Progress} {scope : Scope}
      (hset : (set, .block name nodes span) ∈ e.done frame start (bodyOrder source))
      (hscope : (Step.inScope Scope.child (Step.body (runStatements e nodes frame))).run set =
        (.ok scope, after))
      (hfield : Table.get? fields name = some (.map scope.fields)) :
      Extended e frame start source d fields (.block name nodes span) name

section Meeting

variable {e : Evaluator} {frame : Frame} {d : Directive} {source others : List Node}
variable {start last : Progress} {name : String}

/-- A pair and an `@extends` directive come together in one of two ways. -/
theorem pair_extended {entry : Entry}
    (hbody : (Step.body ((bodyOrder source).map (e.step frame))).run start = (.ok (), last))
    (hname : d.name = "extends") (hperm : source.Perm (.pair entry :: .directive d :: others))
    (hothers : ∀ node ∈ others, ¬ Sets entry.key node ∧ ¬ Fills entry.key node)
    (hstart : start.scope.under entry.key = (none, [])) :
    Extended e frame start source d last.scope.fields (.pair entry) entry.key := by
  obtain ⟨set, ext, p, q, before, between, later, hset, hext, hmeet⟩ :=
    both_done hbody hname hperm hothers (waitsStill_pair entry)
  obtain ⟨value, after, hvalue, hput⟩ := pair_done hset
  obtain ⟨entries, after', hentries, hmerge⟩ := extends_done hname hext
  rcases hmeet with ⟨hdone, hfirst, hsecond, hlast⟩ | ⟨hdone, hbefore, hfirst, hsecond, hlast⟩
  · refine .merged (hdone ▸ sublist_of_two _ _ _ _ _) hvalue hentries
      (fun _ hmap => (extending_written hmap hentries).1) fun hdistinct => get?_fields_of_value ?_
    rw [hput, under_put, hfirst, hstart] at hsecond
    rw [hlast, hmerge, under_extendScope hdistinct, hsecond, (Prod.mk.inj hsecond).1]
    cases Table.get? entries entry.key <;> rfl
  · -- the pair has been tried before the directive got done
    have hpair : Node.pair entry ∈ source := hperm.mem_iff.2 List.mem_cons_self
    obtain ⟨waiting, reasons, after, hwaiting, hdeferred⟩ :=
      Step.deferred_before hbody (List.mem_filter.2 ⟨hpair, rfl⟩) (by simp [isDirective]) hdone
        fun attempt hattempt heq => (hothers _ (hbefore attempt hattempt)).1 (heq ▸ .pair rfl)
    refine .retried hwaiting hdeferred (hdone ▸ sublist_of_two _ _ _ _ _) hvalue
      (get?_fields_of_value ?_)
    rw [hmerge] at hsecond
    have hblocks := (congrArg Prod.snd hsecond).trans (under_extendScope_blocks _ _ _)
    rw [hlast, hput, under_put, hblocks, hfirst, hstart]

/-- A named block hides what an `@extends` directive does to its field. -/
theorem block_hides {nodes : List Node} {span : Span}
    (hbody : (Step.body ((bodyOrder source).map (e.step frame))).run start = (.ok (), last))
    (hname : d.name = "extends")
    (hperm : source.Perm (.block name nodes span :: .directive d :: others))
    (hothers : ∀ node ∈ others, ¬ Sets name node ∧ ¬ Fills name node)
    (hstart : start.scope.under name = (none, [])) :
    Extended e frame start source d last.scope.fields (.block name nodes span) name := by
  obtain ⟨set, ext, p, q, before, between, later, hset, hext, hmeet⟩ :=
    both_done hbody hname hperm hothers (waitsStill_block _ _ _)
  obtain ⟨scope, after, hscope, hadd⟩ := block_done hset
  obtain ⟨entries, after', -, hmerge⟩ := extends_done hname hext
  rcases hmeet with ⟨hdone, hfirst, hsecond, hlast⟩ | ⟨hdone, -, hfirst, hsecond, hlast⟩
  · refine .hidden (by simp [hdone]) hscope (get?_fields_of_block ?_)
    rw [hlast, hmerge, under_extendScope_blocks, hsecond, hadd, under_addBlock (by rw [hfirst, hstart])]
  · refine .hidden (by simp [hdone]) hscope (get?_fields_of_block ?_)
    rw [hlast, hadd, under_addBlock]
    rw [hsecond, hmerge, under_extendScope_blocks, hfirst, hstart]

end Meeting

/-- In a resource body that evaluates, a field that is set once and extended by an `@extends`
directive is the deep merge of the two when a pair sets it and gets done before the directive does.
A pair gets done after the directive only if it has been deferred, and then its value is all there
is, as the fields of a named block always are. -/
theorem extended_field {e : Evaluator} {frame inner : Frame} {d : Directive}
    {source others : List Node} {explicit : Node} {name : String} {p q : Progress}
    {body : EvaluatedBody}
    (hrun : (resourceBody frame (runMarked e source inner)).run p = (.ok body, q))
    (hname : d.name = "extends") (hperm : source.Perm (explicit :: .directive d :: others))
    (hfield : fieldOf explicit = some name)
    (hothers : ∀ node ∈ others, ¬ Sets name node ∧ ¬ Fills name node) :
    Extended e inner p.entered source d body.fields explicit name := by
  rw [resourceBody_runMarked] at hrun
  generalize hbody : (Step.body ((bodyOrder source).map fun node => runStatement e node inner)).run
    p.entered = result at hrun
  obtain ⟨outcome, last⟩ := result
  rcases outcome with interrupt | ⟨⟩
  · cases hrun
  · cases hrun
    cases explicit with
    | pair entry =>
      cases hfield
      exact pair_extended hbody hname hperm hothers rfl
    | block key nodes span =>
      cases hfield
      exact block_hides hbody hname hperm hothers rfl
    | _ => cases hfield

/-! ### Boxes that are extended -/

/-- A pair that sets the field of a box. -/
def listPair (items : List Node) : Node :=
  pairAt 3 "v" (.list items)

/-- A block that sets the field of a box. -/
def mapBlock : Node :=
  .block "v" [pairAt 4 "a" (.text "x")] (lineStart 3)

/-- A directive that extends the fields of a box. -/
def extendingAll (pairs : List (String × Node)) : Directive :=
  ⟨"extends", [.map (pairs.map fun pair => ⟨pair.1, pair.2, lineStart 6⟩)], [], true, [], [],
    lineStart 6⟩

/-- The body of a box whose field is set and extended. -/
def extendedBox (explicit : Node) (d : Directive) : List Node :=
  [pairAt 2 "path" (.text "p"), .directive d, explicit]

/-- The frame of the body of a box. -/
def boxFrame : Frame :=
  { file := 0, inResource := true }

/-- Evaluates the body of such a box. -/
def extendedBody (explicit : Node) (d : Directive) : Except Interrupt EvaluatedBody × Progress :=
  (resourceBody mainFrame (runMarked (boxSetup.evaluator []) (extendedBox explicit d) boxFrame)).run
    emptyProgress

/-- The names of a map, or the texts of a list. -/
def told : Value → List String
  | .map entries => entries.map Prod.fst
  | value => textsOf value

/-- The field of such a box comes to the given names or texts, as it does for a field that is set
and extended. -/
def ExtendsTo (explicit : Node) (d : Directive) (texts : List String) : Prop :=
  ∃ body q, extendedBody explicit d = (.ok body, q) ∧
    (Table.get? body.fields "v").map told = some texts ∧
    Extended (boxSetup.evaluator []) boxFrame emptyProgress.entered (extendedBox explicit d) d
      body.fields explicit "v"

/-- A list is merged with one that extends it, unless it has to wait for a name that comes with the
directive, and a block hides what the directive does. -/
theorem extended_field_boxes :
    ExtendsTo (listPair [.text "a"]) (extendingAll [("v", .list [.text "b"])]) ["a", "b"] ∧
      ExtendsTo (listPair [variableAt 3 "w"])
        (extendingAll [("w", .text "x"), ("v", .list [.text "y"])]) ["x"] ∧
      ExtendsTo mapBlock (extendingAll [("v", .map [⟨"b", .text "y", lineStart 6⟩])]) ["a"] := by
  have hothers : ∀ node ∈ [pairAt 2 "path" (.text "p")], ¬ Sets "v" node ∧ ¬ Fills "v" node := by
    intro node hnode
    rw [List.mem_singleton.1 hnode]
    constructor
    · intro hsets
      cases hsets with
      | pair hkey => exact absurd hkey (by decide)
    · exact fun hfills => nomatch hfills
  have hextended : ∀ explicit d texts, fieldOf explicit = some "v" → d.name = "extends" →
      ((extendedBody explicit d).1.toOption.bind fun body =>
        (Table.get? body.fields "v").map told) = some texts →
      ExtendsTo explicit d texts := by
    intro explicit d texts hfield hname htold
    generalize hrun : extendedBody explicit d = ran at htold
    obtain ⟨outcome, q⟩ := ran
    obtain ⟨body, hok, htexts⟩ := Option.bind_eq_some_iff.1 htold
    obtain rfl : outcome = .ok body := toOption_eq_some.1 hok
    have hperm : (extendedBox explicit d).Perm [explicit, .directive d, pairAt 2 "path" (.text "p")] :=
      (List.reverse_perm _).symm
    exact ⟨body, q, hrun, htexts, extended_field hrun hname hperm hfield hothers⟩
  exact ⟨hextended _ _ _ rfl rfl (by decide +kernel), hextended _ _ _ rfl rfl (by decide +kernel),
    hextended _ _ _ rfl rfl (by decide +kernel)⟩

/-- What the field of such a box comes to when the files are evaluated. -/
def fieldOfBox (explicit : Node) (d : Directive) : Option (List String) :=
  (evaluateFiles boxSetup (.empty boxRegistry)
    [⟨"main", [boxBlock 1 (.text "b") (extendedBox explicit d)]⟩]).toOption.bind fun inventory =>
      (inventory.resource? (boxKey "b")).bind fun resource => (resource.field? "v").map told

/-- Neither what extends a block nor what extends a list that waits is left in the field. -/
theorem extensions_lost :
    fieldOfBox mapBlock (extendingAll [("v", .map [⟨"b", .text "y", lineStart 6⟩])]) = some ["a"] ∧
    told ((Value.map [("a", .text "x")]).merge (.map [("b", .text "y")])) = ["a", "b"] ∧
    fieldOfBox (listPair [variableAt 3 "w"])
      (extendingAll [("w", .text "x"), ("v", .list [.text "y"])]) = some ["x"] ∧
    told ((Value.list [.text "x"]).merge (.list [.text "y"])) = ["x", "y"] :=
  ⟨by decide +kernel, rfl, by decide +kernel, rfl⟩

end Provision
