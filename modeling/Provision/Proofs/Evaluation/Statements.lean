import Provision.Proofs.Evaluation.Blocks
import Provision.Proofs.Inventory

/-!
# Statements of a file

Variable pairs and resource blocks, tried one after another in whatever order.
A statement that gets done adds one fact: a variable has a value, or a key
belongs to a resource.  What a statement says depends on the facts alone, and a
fact, once there, is never taken back.
-/

namespace Provision

open Provision.Language (Node Entry)
open Recording
open Retry (Verdict Below)

/-! ## The statements -/

/-- The variable that a statement binds. -/
def boundName? : Node → Option String
  | .pair entry => some entry.key
  | _ => none

/-- The key that a statement declares. -/
def declaredKey? (registry : Registry) (node : Node) : Option Key :=
  (declaredBy? registry node).map Prod.snd

/-- A variable pair, or a block of a registered type with a literal name whose body sets fields of
different names. -/
inductive PlainStatement (registry : Registry) : Node → Prop
  | pair (entry : Entry) : PlainStatement registry (.pair entry)
  | block {typeText : String} {typeName : TypeName} {type : ResourceType} {name : Node}
      {entries : List Entry} {span : Span}
      (htypeName : TypeName.ofText typeText = .ok typeName)
      (htype : registry.type? typeName = some type)
      (hname : isLiteral name = true)
      (hfields : (entries.map Entry.key).Nodup) :
      PlainStatement registry (.resource typeText name (entries.map Node.pair) span)

/-- Statements of which no two bind the same variable or declare the same key, and in which no
field has the name of a variable. -/
structure Independent (registry : Registry) (body : List Node) : Prop where
  plain : ∀ node ∈ body, PlainStatement registry node
  names : (body.filterMap boundName?).Nodup
  keys : (body.filterMap (declaredKey? registry)).Nodup
  apart : ∀ typeText name span (entries : List Entry),
    Node.resource typeText name (entries.map Node.pair) span ∈ body →
      ∀ entry ∈ entries, entry.key ∉ body.filterMap boundName?

/-- The progress before the first statement of a file. -/
def startProgress (registry : Registry) (path : Path) : Progress :=
  ⟨((Inventory.empty registry).ensureFile path).1, [], {}, [], none⟩

/-- In whatever order the statements are tried, and the pairs inside each block, no reference asks
for several resources. -/
structure AsksForOne (setup : EvaluationSetup) (registry : Registry) (path : Path)
    (body : List Node) : Prop where
  pairs : ∀ p, Tried setup { file := 0 } body (startProgress registry path) p →
    ∀ entry, (Node.pair entry).bare ∈ body.map Node.bare → p.Single entry.value
  blocks : ∀ p, Tried setup { file := 0 } body (startProgress registry path) p →
    ∀ typeText name source span,
      (Node.resource typeText name source span).bare ∈ body.map Node.bare →
        ∀ q, Tried setup (bodyFrame 0) source p.entered q →
          ∀ entry, (Node.pair entry).bare ∈ source.map Node.bare → q.Single entry.value

/-- A reference gives the name of a resource as a literal that does not end in `*`. -/
def NamesLiterally : Node → Prop
  | .ref _ name _ _ => ∃ text, name.bind literalName? = some text ∧
      Text.dropEnding? ['*'] text.toList = none
  | _ => True

/-- No resource of the recorded inventory, if there is one, refers to a resource. -/
def NoHandles (setup : EvaluationSetup) : Prop :=
  ∀ current, setup.current = some current → ∀ key resource,
    current.resource? key = some resource → ∀ field ∈ resource.fields, field.2.handles = []

/-! ## Facts -/

/-- What a statement brings about. -/
inductive Fact where
  | bound (name : String) (value : Value)
  | declared (key : Key) (content : Content)

/-- A fact that the progress shows. -/
def Holds (p : Progress) : Fact → Prop
  | .bound name value => p.scope.get? name = some value
  | .declared key content => (p.inventory.resource? key).map Resource.content = some content

/-- The pairs among some statements. -/
def pairOf? : Node → Option Entry
  | .pair entry => some entry
  | _ => none

/-- What a block says that declares a type and key, or neither. -/
def declarationSaid (setup : EvaluationSetup) (p : Progress) (entries : List Entry) :
    Option (ResourceType × Key) → Verdict Fact
  | some (type, key) => (blockSaid setup 0 type key entries p).map (Fact.declared key)
  | none => .fails

/-- What a statement says: the fact that it brings about. -/
def statementSaid (setup : EvaluationSetup) (p : Progress) : Node → Verdict Fact
  | .pair entry => (said p.plainView entry.value).map (Fact.bound entry.key)
  | .resource typeText name source span =>
    declarationSaid setup p (source.filterMap pairOf?)
      (declaredBy? p.inventory.registry (.resource typeText name source span))
  | _ => .fails

theorem filterMap_pairs (entries : List Entry) :
    (entries.map Node.pair).filterMap pairOf? = entries := by
  rw [List.filterMap_map]
  exact List.filterMap_some

theorem statementSaid_block (setup : EvaluationSetup) (p : Progress) (typeText : String)
    (name : Node) (entries : List Entry) (span : Span) :
    statementSaid setup p (.resource typeText name (entries.map Node.pair) span) =
      declarationSaid setup p entries
        (declaredBy? p.inventory.registry
          (.resource typeText name (entries.map Node.pair) span)) := by
  rw [statementSaid, filterMap_pairs]

/-! ## What holds between two statements -/

/-- A state in which some statements of a file are left. -/
structure AtTop (setup : EvaluationSetup) (registry : Registry) (path : Path) (body : List Node)
    (items : List Node) (p : Progress) : Prop where
  registered : p.inventory.registry = registry
  virtuals : p.inventory.virtuals = []
  paths : p.inventory.files.map FileScope.path = [path]
  distinct : p.inventory.Distinct
  enclosing : p.scope.enclosing = []
  credentials : p.credentials = none
  named : ∀ name value, p.scope.get? name = some value → name ∈ body.filterMap boundName?
  known : p.plainView.Known
  tried : ∃ reads, Tried setup { file := 0 } body (startProgress registry path)
    { p with reads := reads }
  mem : ∀ node ∈ items, node ∈ body
  names : (items.filterMap boundName?).Nodup
  keys : (items.filterMap (declaredKey? registry)).Nodup
  unbound : ∀ name ∈ items.filterMap boundName?, p.scope.get? name = none
  undeclared : ∀ key ∈ items.filterMap (declaredKey? registry),
    Table.get? p.declared key = none ∧ p.inventory.resource? key = none

section Top

variable {setup : EvaluationSetup} {registry : Registry} {path : Path}
variable {body body' items items' : List Node} {p p' : Progress}

theorem AtTop.room (h : AtTop setup registry path body items p) :
    0 < p.inventory.files.length := by
  have hlength := congrArg List.length h.paths
  rw [List.length_map] at hlength
  rw [hlength]
  exact Nat.one_pos

theorem AtTop.find (h : AtTop setup registry path body items p) (name : String) :
    p.scope.find name = p.scope.get? name := by
  unfold Scope.find Scope.get?
  rw [Scope.findIn, h.enclosing]
  cases Table.get? p.scope.values name <;> rfl

/-- More facts: more is seen. -/
theorem AtTop.view_below (h : AtTop setup registry path body items p)
    (h' : AtTop setup registry path body' items' p')
    (hfacts : Below Holds p p') :
    p.plainView.Below p'.plainView := by
  refine ⟨?_, ?_, ?_, ⟨h.virtuals, h'.virtuals⟩, rfl, rfl⟩
  · intro name value hfind
    have hfind : p.scope.find name = some value := hfind
    show p'.scope.find name = some value
    rw [h.find] at hfind
    rw [h'.find]
    exact hfacts (.bound name value) hfind
  · intro key resource hresource
    have hholds : Holds p (.declared key resource.content) := by
      show (p.inventory.resource? key).map Resource.content = _
      rw [show p.inventory.resource? key = some resource from hresource]
      rfl
    obtain ⟨resource', hresource', hcontent⟩ := Option.map_eq_some_iff.1
      (show (p'.inventory.resource? key).map Resource.content = _ from hfacts _ hholds)
    refine ⟨resource', hresource', congrArg Content.type hcontent, fun name => ?_⟩
    exact congrFun (congrArg Content.fields hcontent) name
  · show p'.inventory.registry = p.inventory.registry
    rw [h.registered, h'.registered]

theorem tried_reads {frame : Frame} {statements : List Node} {start : Progress}
    {reads : List Key} {undeclared : List TypeName} {node : Node} {outcome : Except Interrupt Unit}
    {after : Progress}
    (h : Tried setup frame statements start { p with reads := reads })
    (hnode : node.bare ∈ statements.map Node.bare)
    (hrun : (runStatement (setup.evaluator undeclared) node frame).run p = (outcome, after)) :
    Tried setup frame statements start after := by
  have hrun : (runStatement (setup.evaluator undeclared) node frame).run
      { { p with reads := reads } with reads := p.reads } = (outcome, after) := hrun
  exact h.step hnode hrun

/-- References of a pair ask for one resource each. -/
theorem AtTop.single (h : AtTop setup registry path body items p)
    (hone : AsksForOne setup registry path body)
    {entry : Entry} (hentry : Node.pair entry ∈ body) :
    p.Single entry.value := by
  obtain ⟨reads, htried⟩ := h.tried
  exact hone.pairs _ htried entry (List.mem_map_of_mem hentry)

/-- The pairs of a plain block set fields of different names. -/
theorem PlainStatement.once {typeText : String} {name : Node} {span : Span} {entries : List Entry}
    (h : PlainStatement registry (.resource typeText name (entries.map Node.pair) span)) :
    (entries.map Entry.key).Nodup := by
  generalize hnode : Node.resource typeText name (entries.map Node.pair) span = node at h
  cases h with
  | pair => cases hnode
  | @block _ _ _ _ entries' _ _ _ _ hfields =>
    have hsame : entries = entries' := by
      injection hnode with _ _ hsource
      rw [← filterMap_pairs entries, hsource, filterMap_pairs]
    rw [hsame]
    exact hfields

/-- A plain block names a registered type, and its own name is a literal. -/
theorem PlainStatement.names {typeText : String} {name : Node} {source : List Node} {span : Span}
    (h : PlainStatement registry (.resource typeText name source span)) :
    ∃ typeName type, TypeName.ofText typeText = .ok typeName ∧
      registry.type? typeName = some type ∧ isLiteral name = true := by
  cases h with
  | block htypeName htype hname => exact ⟨_, _, htypeName, htype, hname⟩

/-- References of the pairs inside a block ask for one resource each. -/
theorem AtTop.single_inside (h : AtTop setup registry path body items p)
    (hone : AsksForOne setup registry path body)
    {typeText : String} {name : Node} {span : Span} {entries : List Entry}
    (hblock : Node.resource typeText name (entries.map Node.pair) span ∈ body)
    (q : Progress) (hq : Tried setup (bodyFrame 0) (entries.map Node.pair) p.entered q)
    (entry : Entry) (hentry : entry ∈ entries) :
    q.Single entry.value := by
  obtain ⟨reads, htried⟩ := h.tried
  exact hone.blocks _ htried typeText name (entries.map Node.pair) span
    (List.mem_map_of_mem hblock) q hq entry (List.mem_map_of_mem (List.mem_map_of_mem hentry))

/-- What is around the body of a block. -/
theorem AtTop.around (h : AtTop setup registry path body items p)
    (hone : AsksForOne setup registry path body)
    (hind : Independent registry body)
    {typeText : String} {name : Node} {span : Span} {entries : List Entry}
    (hblock : Node.resource typeText name (entries.map Node.pair) span ∈ body) :
    Around setup 0 entries p where
  virtuals := h.virtuals
  known := h.known
  apart := by
    intro entry hentry
    rw [h.find]
    cases hget : p.scope.get? entry.key with
    | none => rfl
    | some value =>
      exact absurd (h.named _ _ hget) (hind.apart typeText name span entries hblock entry hentry)
  once := (hind.plain _ hblock).once
  single := h.single_inside hone hblock

/-! ## What a statement says is not taken back -/

theorem literalName?_bare (node : Node) : literalName? node.bare = literalName? node := by
  cases node <;> rfl

theorem declaredBy?_bare (registry : Registry) (node : Node) :
    declaredBy? registry node.bare = declaredBy? registry node := by
  cases node with
  | resource typeText name source span =>
    rw [Node.bare, declaredBy?, declaredBy?, literalName?_bare]
  | _ => rfl

theorem boundName?_bare (node : Node) : boundName? node.bare = boundName? node := by
  cases node with
  | pair entry =>
    obtain ⟨key, value, span⟩ := entry
    rfl
  | _ => rfl

theorem bare_of_pairs {entries entries' : List Entry}
    (h : (entries.map Node.pair).map Node.bare = (entries'.map Node.pair).map Node.bare) :
    entries.map Entry.bare = entries'.map Entry.bare := by
  have hpairs : ∀ list : List Entry,
      ((list.map Node.pair).map Node.bare).filterMap pairOf? = list.map Entry.bare := by
    intro list
    rw [List.map_map, List.filterMap_map, ← List.filterMap_eq_map]
    apply List.filterMap_congr
    intro entry _
    show pairOf? (Node.pair entry).bare = some entry.bare
    rw [Node.bare]
    rfl
  rw [← hpairs entries, h, hpairs entries']

/-- The same statement of two files says the same, wherever there are more facts. -/
theorem statement_carries (h : AtTop setup registry path body items p)
    (h' : AtTop setup registry path body' items' p')
    (hone : AsksForOne setup registry path body)
    (hone' : AsksForOne setup registry path body')
    (hind : Independent registry body)
    (hind' : Independent registry body')
    (hfacts : Below Holds p p')
    {node node' : Node}
    (hnode : node ∈ body)
    (hnode' : node' ∈ body')
    (hlike : node.bare = node'.bare) :
    (∀ fact, statementSaid setup p node = .yields fact →
        statementSaid setup p' node' = .yields fact) ∧
      (statementSaid setup p node = .fails → statementSaid setup p' node' = .fails) := by
  have hview := h.view_below h' hfacts
  cases hind.plain node hnode with
  | pair entry =>
    cases hind'.plain node' hnode' with
    | pair entry' =>
      have hentry : entry.bare = entry'.bare := by
        rw [Node.bare, Node.bare] at hlike
        injection hlike
      have hagrees := evaluate_agrees hview h.known (value_of_bare hentry)
        (h.single hone hnode [] Span.generated)
      constructor
      · intro fact hsaid
        obtain ⟨value, hvalue, rfl⟩ := Verdict.map_eq_yields.1 hsaid
        refine Verdict.map_eq_yields.2 ⟨value, (said_of_yields hagrees hvalue).1, ?_⟩
        rw [key_of_bare hentry]
      · intro hsaid
        exact Verdict.map_eq_fails.2 (said_of_fails hagrees (Verdict.map_eq_fails.1 hsaid))
    | block =>
      rw [Node.bare, Node.bare] at hlike
      cases hlike
  | @block typeText typeName type name entries span htypeName htype hname hfields =>
    cases hind'.plain node' hnode' with
    | pair entry' =>
      rw [Node.bare, Node.bare] at hlike
      cases hlike
    | @block typeText' typeName' type' name' entries' span' htypeName' htype' hname' hfields' =>
      have hby : declaredBy? p'.inventory.registry
          (.resource typeText' name' (entries'.map Node.pair) span') =
          declaredBy? p.inventory.registry
            (.resource typeText name (entries.map Node.pair) span) := by
        rw [h.registered, h'.registered, ← declaredBy?_bare, ← hlike, declaredBy?_bare]
      have hbare : entries.map Entry.bare = entries'.map Entry.bare := by
        rw [Node.bare, Node.bare] at hlike
        injection hlike with _ _ hsource
        rw [Language.bareNodes_eq_map, Language.bareNodes_eq_map] at hsource
        exact bare_of_pairs hsource
      have haround := h.around hone hind hnode
      have haround' := h'.around hone' hind' hnode'
      rw [statementSaid_block, statementSaid_block, hby]
      cases declaredBy? p.inventory.registry
        (.resource typeText name (entries.map Node.pair) span) with
      | none => exact ⟨fun _ hsaid => hsaid, fun hsaid => hsaid⟩
      | some declared =>
        obtain ⟨type, key⟩ := declared
        constructor
        · intro fact hsaid
          obtain ⟨content, hcontent, rfl⟩ := Verdict.map_eq_yields.1 hsaid
          exact Verdict.map_eq_yields.2
            ⟨content, blockSaid_yields haround haround' hbare hview hcontent, rfl⟩
        · intro hsaid
          exact Verdict.map_eq_fails.2
            (blockSaid_fails haround haround' hbare hview (Verdict.map_eq_fails.1 hsaid))

/-! ## Literal names -/

theorem namesLiterally_of_bare (node node' : Node) (hbare : node.bare = node'.bare)
    (h : NamesLiterally node) :
    NamesLiterally node' := by
  cases node' with
  | ref type' name' path' span' =>
    cases node with
    | ref type name path span =>
      obtain ⟨text, hname, htext⟩ := h
      refine ⟨text, ?_, htext⟩
      rw [Node.bare, Node.bare, Language.bareOption_eq_map, Language.bareOption_eq_map] at hbare
      injection hbare with _ hnames
      cases name with
      | none => cases hname
      | some node =>
        cases name' with
        | none => cases hnames
        | some node' =>
          have hsame : node.bare = node'.bare := Option.some.inj hnames
          have hname : literalName? node = some text := hname
          show literalName? node' = some text
          rw [← literalName?_bare, ← hsame, literalName?_bare]
          exact hname
    | _ =>
      rw [Node.bare, Node.bare] at hbare
      cases hbare
  | _ => trivial

theorem namesOne_of_literal (view : View) {node : Node} (h : NamesLiterally node) :
    NamesOne view node := by
  cases node with
  | ref type name path span =>
    obtain ⟨text, hname, htext⟩ := h
    cases name with
    | none => cases hname
    | some name =>
      intro reads found after hrun
      have hliteral : (evaluate view name >>= nameOf view).run reads = (.ok text, reads) :=
        literalName_run hname view reads
      have hsame := hliteral.symm.trans hrun
      cases hsame
      exact htext
  | _ => trivial

/-- A file whose references have literal names that do not end in `*` asks for one resource each
time. -/
theorem asksForOne_of_literal (h : ∀ node ∈ body, node.Everywhere NamesLiterally) :
    AsksForOne setup registry path body := by
  have hbody : ∀ node : Node, node.bare ∈ body.map Node.bare → node.Everywhere NamesLiterally := by
    intro node hnode
    obtain ⟨other, hother, hbare⟩ := List.mem_map.1 hnode
    exact (h other hother).of_bare namesLiterally_of_bare hbare
  have hsingle : ∀ (p : Progress) (entry : Entry), (Node.pair entry).Everywhere NamesLiterally →
      p.Single entry.value := fun p entry hentry undeclared location =>
    (hentry.child entry.value (by simp [Node.children])).mono fun node => namesOne_of_literal _
  refine ⟨fun p _ entry hentry => hsingle p entry (hbody _ hentry), ?_⟩
  intro p _ typeText name source span hblock q _ entry hentry
  obtain ⟨other, hother, hbare⟩ := List.mem_map.1 hentry
  refine hsingle q entry (Node.Everywhere.of_bare namesLiterally_of_bare ?_ hbare)
  exact (hbody _ hblock).child other (by simp [Node.children, hother])

/-! ## One statement gets done -/

/-- Removing a statement keeps what the others bind or declare distinct, and none of them binds or
declares the same. -/
theorem once_filterMap {α : Type} {f : Node → Option α} {front back : List Node} {node : Node}
    (h : ((front ++ node :: back).filterMap f).Nodup) :
    ((front ++ back).filterMap f).Nodup ∧
      ∀ a, f node = some a → a ∉ (front ++ back).filterMap f := by
  have hmiddle : (front ++ node :: back).Perm (node :: (front ++ back)) := List.perm_middle
  have hnodup := (hmiddle.filterMap f).nodup_iff.1 h
  cases hf : f node with
  | none =>
    rw [List.filterMap_cons_none hf] at hnodup
    exact ⟨hnodup, fun a ha => nomatch ha⟩
  | some b =>
    rw [List.filterMap_cons_some hf, List.nodup_cons] at hnodup
    refine ⟨hnodup.2, fun a ha => ?_⟩
    cases ha
    exact hnodup.1

theorem mem_filterMap_middle {α : Type} {f : Node → Option α} {front back : List Node}
    {node : Node} {a : α}
    (h : a ∈ (front ++ back).filterMap f) :
    a ∈ (front ++ node :: back).filterMap f := by
  obtain ⟨other, hother, hf⟩ := List.mem_filterMap.1 h
  refine List.mem_filterMap.2 ⟨other, ?_, hf⟩
  rcases List.mem_append.1 hother with hother | hother
  · exact List.mem_append_left _ hother
  · exact List.mem_append_right _ (List.mem_cons_of_mem _ hother)

theorem AtTop.reads (h : AtTop setup registry path body items p) (reads : List Key) :
    AtTop setup registry path body items { p with reads := reads } where
  registered := h.registered
  virtuals := h.virtuals
  paths := h.paths
  distinct := h.distinct
  enclosing := h.enclosing
  credentials := h.credentials
  named := h.named
  known := h.known
  tried := h.tried
  mem := h.mem
  names := h.names
  keys := h.keys
  unbound := h.unbound
  undeclared := h.undeclared

theorem AtTop.tried_after (h : AtTop setup registry path body items p)
    {undeclared : List TypeName} {node : Node} {outcome : Except Interrupt Unit} {after : Progress}
    (hnode : node ∈ body)
    (hrun : (runStatement (setup.evaluator undeclared) node { file := 0 }).run p =
      (outcome, after)) :
    ∃ reads, Tried setup { file := 0 } body (startProgress registry path)
      { after with reads := reads } := by
  obtain ⟨reads, htried⟩ := h.tried
  exact ⟨after.reads, tried_reads htried (List.mem_map_of_mem hnode) hrun⟩

theorem AtTop.mem_middle {front back : List Node} {node : Node}
    (h : AtTop setup registry path body (front ++ node :: back) p) :
    ∀ other ∈ front ++ back, other ∈ body := by
  intro other hother
  apply h.mem
  rcases List.mem_append.1 hother with hother | hother
  · exact List.mem_append_left _ hother
  · exact List.mem_append_right _ (List.mem_cons_of_mem _ hother)

section Pair

variable {front back : List Node} {entry : Entry} {value : Value} {reads : List Key}

theorem holds_bound (hunbound : p.scope.get? entry.key = none) (fact : Fact) :
    Holds { p with reads := reads, scope := p.scope.put entry.key value } fact ↔
      Holds p fact ∨ fact = .bound entry.key value := by
  cases fact with
  | bound name found =>
    have hput : SetField { p with reads := reads, scope := p.scope.put entry.key value }
        (name, found) ↔ SetField p (name, found) ∨ (name, found) = (entry.key, value) :=
      setField_put hunbound (name, found)
    constructor
    · intro h
      rcases hput.1 h with h | h
      · exact Or.inl h
      · cases h
        exact Or.inr rfl
    · rintro (h | h)
      · exact hput.2 (Or.inl h)
      · cases h
        exact hput.2 (Or.inr rfl)
  | declared key content =>
    constructor
    · exact Or.inl
    · rintro (h | h)
      · exact h
      · cases h

theorem AtTop.done_pair {undeclared : List TypeName}
    (h : AtTop setup registry path body (front ++ .pair entry :: back) p)
    (hrun : (runStatement (setup.evaluator undeclared) (.pair entry) { file := 0 }).run p =
      (.ok (), { p with reads := reads, scope := p.scope.put entry.key value }))
    (hknown : value.Known p.inventory) :
    AtTop setup registry path body (front ++ back)
      { p with reads := reads, scope := p.scope.put entry.key value } := by
  have hentry : Node.pair entry ∈ body := h.mem _ (by simp)
  obtain ⟨hnames, hother⟩ := once_filterMap h.names
  have hput : ∀ name, (p.scope.put entry.key value).get? name =
      if entry.key = name then some value else p.scope.get? name := fun name =>
    Table.get?_set _ _ _ _
  have hfind : ∀ name, (p.scope.put entry.key value).find name =
      if entry.key = name then some value else p.scope.get? name := by
    intro name
    rw [← hput]
    unfold Scope.find Scope.get?
    rw [Scope.findIn, show (p.scope.put entry.key value).enclosing = [] from h.enclosing]
    cases Table.get? (p.scope.put entry.key value).values name <;> rfl
  refine ⟨h.registered, h.virtuals, h.paths, h.distinct, h.enclosing, h.credentials, ?_, ?_,
    h.tried_after hentry hrun, h.mem_middle, hnames, (once_filterMap h.keys).1, ?_, ?_⟩
  · intro name found hget
    have hget : (p.scope.put entry.key value).get? name = some found := hget
    rw [hput] at hget
    by_cases hname : entry.key = name
    · exact List.mem_filterMap.2 ⟨.pair entry, hentry, congrArg some hname⟩
    · rw [if_neg hname] at hget
      exact h.named name found hget
  · refine ⟨?_, h.known.fields⟩
    intro name found hget
    have hget : (p.scope.put entry.key value).find name = some found := hget
    rw [hfind] at hget
    by_cases hname : entry.key = name
    · rw [if_pos hname] at hget
      cases hget
      exact hknown
    · rw [if_neg hname] at hget
      exact h.known.scope name found (by rw [← hget]; exact h.find name)
  · intro name hname
    have hne : entry.key ≠ name := fun heq => hother entry.key rfl (heq ▸ hname)
    show (p.scope.put entry.key value).get? name = none
    rw [hput, if_neg hne]
    exact h.unbound name (mem_filterMap_middle hname)
  · exact fun key hkey => h.undeclared key (mem_filterMap_middle hkey)

end Pair

section Block

variable {front back : List Node} {node : Node} {key : Key} {resource : Resource}

theorem holds_declared (hdistinct : p.inventory.Distinct) (hroom : 0 < p.inventory.files.length)
    (hundeclared : p.inventory.resource? resource.key = none) (fact : Fact) :
    Holds (p.adding 0 resource) fact ↔
      Holds p fact ∨ fact = .declared resource.key resource.content := by
  cases fact with
  | bound name found =>
    constructor
    · exact Or.inl
    · rintro (h | h)
      · exact h
      · cases h
  | declared key content =>
    show ((p.inventory.insertAt 0 resource).resource? key).map Resource.content = some content ↔
      (p.inventory.resource? key).map Resource.content = some content ∨ _
    rw [Inventory.resource?_insertAt hdistinct hroom]
    by_cases hkey : resource.key = key
    · subst hkey
      rw [if_pos rfl, hundeclared]
      constructor
      · intro h
        cases h
        exact Or.inr rfl
      · rintro (h | h)
        · cases h
        · cases h
          rfl
    · rw [if_neg hkey]
      constructor
      · exact Or.inl
      · rintro (h | h)
        · exact h
        · cases h
          exact absurd rfl hkey

theorem AtTop.done_block {undeclared : List TypeName}
    (h : AtTop setup registry path body (front ++ node :: back) p)
    (hrun : (runStatement (setup.evaluator undeclared) node { file := 0 }).run p =
      (.ok (), p.adding 0 resource))
    (hkey : declaredKey? registry node = some resource.key)
    (hknown : ∀ name value, resource.field? name = some value → value.Known p.inventory) :
    AtTop setup registry path body (front ++ back) (p.adding 0 resource) := by
  have hnode : node ∈ body := h.mem node (by simp)
  obtain ⟨hkeys, hother⟩ := once_filterMap h.keys
  have hhas : ∀ key, p.inventory.has key = true →
      (p.inventory.insertAt 0 resource).has key = true := fun key hkey =>
    (Inventory.has_insertAt h.distinct h.room resource key).2 (Or.inr hkey)
  have hlookup := Inventory.resource?_insertAt h.distinct h.room resource
  refine ⟨h.registered, h.virtuals, ?_, Inventory.distinct_insertAt h.distinct 0 resource,
    h.enclosing, h.credentials, h.named, ?_, h.tried_after hnode hrun, h.mem_middle,
    (once_filterMap h.names).1, hkeys, fun name hname => h.unbound name (mem_filterMap_middle hname),
    ?_⟩
  · show (p.inventory.insertAt 0 resource).files.map FileScope.path = [path]
    rw [Inventory.paths_insertAt]
    exact h.paths
  · refine ⟨fun name value hfind => (h.known.scope name value hfind).mono hhas, ?_⟩
    intro key found name value hresource hfield
    have hresource : (p.inventory.insertAt 0 resource).resource? key = some found := hresource
    rw [hlookup] at hresource
    by_cases heq : resource.key = key
    · rw [if_pos heq] at hresource
      cases hresource
      exact (hknown name value hfield).mono hhas
    · rw [if_neg heq] at hresource
      exact (h.known.fields key found name value hresource hfield).mono hhas
  · intro key hmem
    have hne : resource.key ≠ key := fun heq => hother _ hkey (heq ▸ hmem)
    obtain ⟨hdeclared, hresource⟩ := h.undeclared key (mem_filterMap_middle hmem)
    constructor
    · show Table.get? (Table.set p.declared resource.key _) key = none
      rw [Table.get?_set, if_neg hne]
      exact hdeclared
    · show (p.inventory.insertAt 0 resource).resource? key = none
      rw [hlookup, if_neg hne]
      exact hresource

end Block

/-! ## Trying a statement -/

section Trying

variable {front back : List Node} {node : Node} {undeclared : List TypeName}
  (hone : AsksForOne setup registry path body)
  (hind : Independent registry body)

include hone hind

/-- A statement that says a fact brings it about. -/
theorem statement_done
    (hcurrent : NoHandles setup)
    (h : AtTop setup registry path body (front ++ node :: back) p)
    {fact : Fact}
    (hsaid : statementSaid setup p node = .yields fact) :
    ∃ q, (runStatement (setup.evaluator undeclared) node { file := 0 }).run p = (.ok (), q) ∧
      AtTop setup registry path body (front ++ back) q ∧
      ∀ other, Holds q other ↔ Holds p other ∨ other = fact := by
  have hmem : node ∈ body := h.mem node (by simp)
  cases hind.plain node hmem with
  | pair entry =>
    obtain ⟨value, hvalue, rfl⟩ := Verdict.map_eq_yields.1 hsaid
    obtain ⟨reads, hrun, hknown, -⟩ := pair_of_yields (setup.evaluator undeclared) h.virtuals
      h.known (h.single hone hmem) (rfl : (Frame.mk 0 none false [] []).qualifier = none) hvalue
    have hunbound : p.scope.get? entry.key = none :=
      h.unbound _ (List.mem_filterMap.2 ⟨.pair entry, by simp, rfl⟩)
    exact ⟨_, hrun, h.done_pair hrun hknown, holds_bound hunbound⟩
  | @block typeText typeName type name entries span htypeName htype hname hfields =>
    rw [statementSaid_block] at hsaid
    cases hby : declaredBy? p.inventory.registry
      (.resource typeText name (entries.map Node.pair) span) with
    | none =>
      rw [hby] at hsaid
      cases hsaid
    | some declared =>
      obtain ⟨found, key⟩ := declared
      rw [hby] at hsaid
      obtain ⟨content, hcontent, rfl⟩ := Verdict.map_eq_yields.1 hsaid
      have hdeclaredKey : declaredKey? registry
          (.resource typeText name (entries.map Node.pair) span) = some key := by
        unfold declaredKey?
        rw [← h.registered, hby]
        rfl
      obtain ⟨hdeclared, hresource⟩ := h.undeclared key
        (List.mem_filterMap.2 ⟨_, by simp, hdeclaredKey⟩)
      obtain ⟨resource, hrun, rfl, rfl, hfrom⟩ := block_of_yields (h.around hone hind hmem) hby
        hcontent hdeclared hresource undeclared
      refine ⟨_, hrun, h.done_block hrun hdeclaredKey ?_, holds_declared h.distinct h.room hresource⟩
      intro field value hfield
      rcases hfrom field value hfield with hknown | ⟨current, recorded, hsetup, hfound, hin⟩
      · exact hknown
      · exact Value.known_of_handles_eq_nil (hcurrent current hsetup _ _ hfound _ hin)

/-- A statement that waits leaves everything as it was, except for what it read. -/
theorem statement_waits
    (h : AtTop setup registry path body items p)
    (hnode : node ∈ items)
    (hsaid : statementSaid setup p node = .waits) :
    ∃ reasons reads, (runStatement (setup.evaluator undeclared) node { file := 0 }).run p =
      (.error (.deferred reasons), { p with reads := reads }) := by
  have hmem : node ∈ body := h.mem node hnode
  cases hind.plain node hmem with
  | pair entry =>
    obtain ⟨reasons, reads, hrun, -⟩ := pair_of_waits (setup.evaluator undeclared) h.virtuals
      h.known (h.single hone hmem) (rfl : (Frame.mk 0 none false [] []).qualifier = none)
      (Verdict.map_eq_waits.1 hsaid)
    exact ⟨reasons, reads, hrun⟩
  | @block typeText typeName type name entries span htypeName htype hname hfields =>
    rw [statementSaid_block] at hsaid
    cases hby : declaredBy? p.inventory.registry
      (.resource typeText name (entries.map Node.pair) span) with
    | none =>
      rw [hby] at hsaid
      cases hsaid
    | some declared =>
      obtain ⟨found, key⟩ := declared
      rw [hby] at hsaid
      obtain ⟨reasons, hrun⟩ := block_of_waits (h.around hone hind hmem) hby
        (Verdict.map_eq_waits.1 hsaid) undeclared
      exact ⟨reasons, p.reads, hrun⟩

theorem statement_fails
    (h : AtTop setup registry path body items p)
    (hnode : node ∈ items)
    (hsaid : statementSaid setup p node = .fails) :
    ∃ e after, (runStatement (setup.evaluator undeclared) node { file := 0 }).run p =
      (.error (.failed e), after) := by
  have hmem : node ∈ body := h.mem node hnode
  cases hind.plain node hmem with
  | pair entry =>
    obtain ⟨e, reads, hrun⟩ := pair_of_fails (setup.evaluator undeclared) h.virtuals
      h.known (h.single hone hmem) (rfl : (Frame.mk 0 none false [] []).qualifier = none)
      (Verdict.map_eq_fails.1 hsaid)
    exact ⟨e, _, hrun⟩
  | @block typeText typeName type name entries span htypeName htype hname hfields =>
    rw [statementSaid_block] at hsaid
    cases hby : declaredBy? p.inventory.registry
      (.resource typeText name (entries.map Node.pair) span) with
    | none =>
      rw [← h.registered] at htype
      exact block_of_nothing h.virtuals htypeName htype hname hby undeclared
    | some declared =>
      obtain ⟨found, key⟩ := declared
      rw [hby] at hsaid
      exact block_of_fails (h.around hone hind hmem) hby (Verdict.map_eq_fails.1 hsaid) undeclared

end Trying

end Top

end Provision
