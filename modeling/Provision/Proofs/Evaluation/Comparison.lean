import Provision.Proofs.Evaluation.Quiet

/-!
# Evaluation under two inventories

An expression is evaluated under two inventories that hold the same keys.  Either
the two evaluations come to the same outcome and record the same reads, or both
have read something that accounts for a resource in which the inventories differ.
The same is true of statements that declare nothing.
-/

namespace Provision

open Provision.Language (Node Entry Branch Directive)

/-- What references see of a resource. -/
def Inventory.look (inventory : Inventory) (key : Key) :
    Option (ResourceType × Bindings × List String) :=
  (inventory.resource? key).map fun resource =>
    (resource.type, resource.fields, resource.configured)

/-- Two inventories, and the resources that reads account for. -/
structure Comparison where
  left : Inventory
  right : Inventory
  account : List Key → Key → Prop

namespace Comparison

variable {c : Comparison} {reads more : List Key}

/-- The inventories differ in what references see of a resource. -/
def Suspect (c : Comparison) (key : Key) : Prop :=
  c.left.look key ≠ c.right.look key

/-- The reads of both evaluations account for the same suspect resource. -/
def Lost (c : Comparison) (reads reads' : List Key) : Prop :=
  ∃ key, c.Suspect key ∧ c.account reads key ∧ c.account reads' key

/-- The reads account for all of some resources. -/
def Accounts (c : Comparison) (reads keys : List Key) : Prop :=
  ∀ key ∈ keys, c.account reads key

/-- The inventories hold the same keys, further reads account for more, and what is accounted for
includes what its fields refer to. -/
structure Fair (c : Comparison) : Prop where
  registry : c.right.registry = c.left.registry
  virtuals : c.right.virtuals = c.left.virtuals
  keys : c.right.resources.map Resource.key = c.left.resources.map Resource.key
  has : ∀ key, c.right.has key = c.left.has key
  listed : ∀ key ∈ c.left.resources.map Resource.key, c.left.has key = true
  mono : ∀ {reads more key}, reads ⊆ more → c.account reads key → c.account more key
  fields : ∀ {reads key resource}, c.account reads key → ¬ c.Suspect key →
    c.left.resource? key = some resource →
      c.Accounts reads (Value.handlesOfEntries resource.fields)

/-- A resource that is read is accounted for. -/
def Records (c : Comparison) : Prop :=
  ∀ reads key, c.left.has key = true → c.account (Sorted.insert key reads) key

theorem Fair.lost_mono (h : c.Fair) {reads' more' : List Key} (hlost : c.Lost reads reads')
    (hmore : reads ⊆ more) (hmore' : reads' ⊆ more') :
    c.Lost more more' := by
  obtain ⟨key, hsuspect, hleft, hright⟩ := hlost
  exact ⟨key, hsuspect, h.mono hmore hleft, h.mono hmore' hright⟩

theorem Fair.accounts_mono (h : c.Fair) {keys : List Key} (hkeys : c.Accounts reads keys)
    (hmore : reads ⊆ more) :
    c.Accounts more keys :=
  fun key hkey => h.mono hmore (hkeys key hkey)

theorem Accounts.of_subset {keys others : List Key} (h : c.Accounts reads keys)
    (hsubset : others ⊆ keys) :
    c.Accounts reads others :=
  fun key hkey => h key (hsubset hkey)

theorem Accounts.append {keys others : List Key} (h : c.Accounts reads keys)
    (hothers : c.Accounts reads others) :
    c.Accounts reads (keys ++ others) :=
  fun key hkey => (List.mem_append.1 hkey).elim (h key) (hothers key)

/-- A resource that is not suspect is in neither inventory, or references see the same in both. -/
theorem clear_cases {key : Key} (h : ¬ c.Suspect key) :
    (c.left.resource? key = none ∧ c.right.resource? key = none) ∨
      ∃ resource resource', c.left.resource? key = some resource ∧
        c.right.resource? key = some resource' ∧ resource'.type = resource.type ∧
        resource'.fields = resource.fields ∧ resource'.configured = resource.configured := by
  unfold Suspect Inventory.look at h
  rw [not_not] at h
  cases hleft : c.left.resource? key with
  | none =>
    rw [hleft, Option.map_none, eq_comm, Option.map_eq_none_iff] at h
    exact Or.inl ⟨rfl, h⟩
  | some resource =>
    rw [hleft, Option.map_some, eq_comm, Option.map_eq_some_iff] at h
    obtain ⟨resource', hright, hlook⟩ := h
    obtain ⟨htype, hlook⟩ := Prod.mk.inj hlook
    obtain ⟨hfields, hconfigured⟩ := Prod.mk.inj hlook
    exact Or.inr ⟨resource, resource', rfl, hright, htype, hfields, hconfigured⟩

/-- The view that the left inventory gives. -/
def onLeft (c : Comparison) (view : View) : View :=
  { view with inventory := c.left }

/-- The view that the right inventory gives. -/
def onRight (c : Comparison) (view : View) : View :=
  { view with inventory := c.right }

end Comparison

/-- Whether a tree is anything but a reference to resources. -/
def Language.Node.NotReference : Node → Prop
  | .ref _ _ _ _ => False
  | _ => True

/-! ## Expressions -/

namespace Recording

variable {α β : Type}

/-- When what is given is accounted for, the recordings come to the same, and what is held is
accounted for, unless both have read a suspect resource. -/
structure Twin (c : Comparison) (given : List Key) (held : α → List Key) (m m' : Recording α) :
    Prop where
  grows : m.Grows
  grows' : m'.Grows
  alike : ∀ reads, c.Accounts reads given → c.Accounts reads reads →
    c.Lost (m.run reads).2 (m'.run reads).2 ∨
      m'.run reads = m.run reads ∧ c.Accounts (m.run reads).2 (m.run reads).2 ∧
        ∀ a, (m.run reads).1 = .ok a → c.Accounts (m.run reads).2 (held a)

section Twin

variable {c : Comparison} {given : List Key} {held : α → List Key} {held' : β → List Key}
variable {m m' : Recording α} {f f' : α → Recording β}

theorem twin_pure {a : α} (h : held a ⊆ given) : Twin c given held (pure a) (pure a) where
  grows := grows_pure a
  grows' := grows_pure a
  alike _ hgiven hreads := by
    refine Or.inr ⟨rfl, hreads, ?_⟩
    rintro _ ⟨⟩
    exact hgiven.of_subset h

theorem twin_throw (interrupt : Interrupt) :
    Twin c given held (throw interrupt) (throw interrupt) where
  grows := grows_throw interrupt
  grows' := grows_throw interrupt
  alike _ _ hreads := by
    refine Or.inr ⟨rfl, hreads, ?_⟩
    rintro _ ⟨⟩

theorem Twin.mono {more : List Key} (h : Twin c given held m m')
    (hmore : ∀ reads, c.Accounts reads more → c.Accounts reads given) :
    Twin c more held m m' :=
  ⟨h.grows, h.grows', fun reads hgiven => h.alike reads (hmore reads hgiven)⟩

theorem Twin.of_subset {more : List Key} (h : Twin c given held m m') (hmore : given ⊆ more) :
    Twin c more held m m' :=
  h.mono fun _ haccounts => haccounts.of_subset hmore

variable (hfair : c.Fair)

include hfair

theorem twin_record {key : Key} (h : ∀ reads, c.Accounts reads given →
      c.account (Sorted.insert key reads) key) :
    Twin c given (fun _ => [key]) (record key) (record key) where
  grows := grows_record key
  grows' := grows_record key
  alike reads hgiven hreads := by
    rw [run_record]
    have hgrown : reads ⊆ Sorted.insert key reads := fun _ h => Sorted.mem_insert.2 (Or.inr h)
    have hkey := h reads hgiven
    refine Or.inr ⟨rfl, fun other hother => ?_, fun _ _ other hother => ?_⟩
    · rcases Sorted.mem_insert.1 hother with rfl | hother
      · exact hkey
      · exact hfair.mono hgrown (hreads other hother)
    · rw [List.mem_singleton.1 hother]
      exact hkey

theorem Twin.bind (hm : Twin c given held m m')
    (hf : ∀ a, Twin c (held a ++ given) held' (f a) (f' a)) :
    Twin c given held' (m >>= f) (m' >>= f') where
  grows := hm.grows.bind fun a => (hf a).grows
  grows' := hm.grows'.bind fun a => (hf a).grows'
  alike reads hgiven hreads := by
    have hfirst : reads ⊆ (m.run reads).2 := fun key hkey => hm.grows reads key hkey
    have hlater : (m.run reads).2 ⊆ ((m >>= f).run reads).2 := by
      rw [run_bind]
      cases m.run reads with
      | mk outcome after =>
        cases outcome with
        | ok a => exact fun key hkey => (hf a).grows after key hkey
        | error i => exact List.Subset.refl _
    have hlater' : (m'.run reads).2 ⊆ ((m' >>= f').run reads).2 := by
      rw [run_bind]
      cases m'.run reads with
      | mk outcome after =>
        cases outcome with
        | ok a => exact fun key hkey => (hf a).grows' after key hkey
        | error i => exact List.Subset.refl _
    rcases hm.alike reads hgiven hreads with hlost | ⟨hsame, hread, hheld⟩
    · exact Or.inl (hfair.lost_mono hlost hlater hlater')
    · rw [run_bind, run_bind, hsame]
      have hgiven := hfair.accounts_mono hgiven hfirst
      generalize m.run reads = result at hread hheld hgiven ⊢
      obtain ⟨outcome, after⟩ := result
      cases outcome with
      | ok a => exact (hf a).alike after ((hheld a rfl).append hgiven) hread
      | error i => exact Or.inr ⟨rfl, hread, nofun⟩

end Twin

end Recording

/-- A name leads to a resource that is there, or nowhere. -/
theorem locate_cases (view : View) (span : Span) (type : TypeName) (name : String) :
    (∃ key, view.inventory.has key = true ∧ locate view span type name = pure key) ∨
      ∃ interrupt, locate view span type name = throw interrupt := by
  unfold locate
  cases keyAt span type name with
  | error e => exact Or.inr ⟨.failed e, rfl⟩
  | ok plain =>
    have hplain : (settled (.ok plain) : Recording Key) = pure plain := rfl
    rw [hplain, pure_bind]
    split
    · split
      · next h => exact Or.inl ⟨plain, h, rfl⟩
      · exact Or.inr ⟨_, rfl⟩
    · dsimp only
      split
      · next h => exact Or.inl ⟨_, h, rfl⟩
      · split
        · next h => exact Or.inl ⟨plain, h, rfl⟩
        · exact Or.inr ⟨_, rfl⟩

theorem knownType_cases (view : View) (span : Span) (text : String) :
    (∃ type, knownType view span text = pure type) ∨
      ∃ interrupt, knownType view span text = throw interrupt := by
  unfold knownType
  cases typeAt span text with
  | error e => exact Or.inr ⟨.failed e, rfl⟩
  | ok type =>
    have htype : (settled (.ok type) : Recording TypeName) = pure type := rfl
    rw [htype, pure_bind]
    split
    · exact Or.inl ⟨type, rfl⟩
    · exact Or.inr ⟨_, rfl⟩

namespace Comparison

open Recording

variable {c : Comparison} (hfair : c.Fair) (view : View) (span : Span) {given : List Key}

include hfair

/-- Whatever two evaluations do, they are lost once a suspect resource is accounted for. -/
theorem twin_of_suspect {α : Type} {held : α → List Key} {m m' : Recording α} {key : Key}
    (hkey : key ∈ given) (hsuspect : c.Suspect key) (hm : m.Grows) (hm' : m'.Grows) :
    Twin c given held m m' where
  grows := hm
  grows' := hm'
  alike reads hgiven _ := Or.inl ⟨key, hsuspect, hfair.mono (hm reads) (hgiven key hkey),
    hfair.mono (hm' reads) (hgiven key hkey)⟩

theorem follow_twin {value : Value} (hvalue : value.handles ⊆ given) (path : List String) :
    Twin c given Value.handles (follow (c.onLeft view) span value path)
      (follow (c.onRight view) span value path) := by
  induction path generalizing value given with
  | nil =>
    have hfollow : ∀ view, follow view span value [] = pure value := by
      intro view
      cases value <;> rfl
    rw [hfollow, hfollow]
    exact twin_pure hvalue
  | cons segment rest ih =>
    cases value with
    | resource key =>
      have hkey : key ∈ given := hvalue (List.mem_singleton.2 rfl)
      by_cases hsuspect : c.Suspect key
      · exact twin_of_suspect hfair hkey hsuspect (follow_grows _ _ _ _) (follow_grows _ _ _ _)
      · rw [follow, follow]
        refine Twin.bind hfair (twin_record hfair fun reads hgiven => ?_) fun _ => ?_
        · exact hfair.mono (fun _ h => Sorted.mem_insert.2 (Or.inr h)) (hgiven key hkey)
        · dsimp only [onLeft, onRight]
          rcases clear_cases hsuspect with
            ⟨hleft, hright⟩ | ⟨resource, resource', hleft, hright, htype, hfields, -⟩
          · rw [hleft, hright]
            exact twin_pure (List.nil_subset _)
          · rw [hleft]
            rw [hright]
            dsimp only
            rw [htype]
            split
            · exact twin_throw _
            · unfold Resource.field?
              rw [hfields]
              have hheld := ih (Value.handles_getD_get? resource.fields segment)
              refine hheld.mono fun reads hgiven => ?_
              exact hfair.fields (hgiven key List.mem_cons_self) hsuspect hleft
    | map entries => exact ih (List.Subset.trans (Value.handles_getD_get? entries segment) hvalue)
    | list items => exact ih (List.Subset.trans (Value.handles_getD_item items _) hvalue)
    | _ => exact ih (List.nil_subset _)

theorem project_twin (path : List String) {key : Key} (hkey : c.left.has key = true)
    (hrecords : c.Records) :
    Twin c given Value.handles (project (c.onLeft view) span path key)
      (project (c.onRight view) span path key) := by
  refine Twin.bind hfair (twin_record hfair fun reads _ => hrecords reads key hkey) fun _ => ?_
  exact follow_twin hfair view span (List.subset_append_left [key] given) path

/-- Where a name leads is the same under both inventories. -/
theorem locate_eq (type : TypeName) (name : String) :
    locate (c.onRight view) span type name = locate (c.onLeft view) span type name := by
  unfold locate onLeft onRight
  simp only [hfair.has]

/-- The resources that a query finds are the same under both inventories. -/
theorem selected_eq (type : TypeName) (front : String) :
    selected c.right type front = selected c.left type front := by
  unfold selected
  rw [hfair.keys]

theorem has_of_selected {type : TypeName} {front : String} {key : Key}
    (h : key ∈ selected c.left type front) :
    c.left.has key = true :=
  hfair.listed key (List.mem_filter.1 h).1

theorem mapM_twin {α : Type} {f f' : α → Recording Value} {items : List α}
    (h : ∀ a ∈ items, Twin c given Value.handles (f a) (f' a)) :
    Twin c given Value.handlesOfItems (items.mapM f) (items.mapM f') := by
  induction items generalizing given with
  | nil =>
    rw [List.mapM_nil, List.mapM_nil]
    exact twin_pure (List.nil_subset _)
  | cons item rest ih =>
    rw [List.mapM_cons, List.mapM_cons]
    refine Twin.bind hfair (h item List.mem_cons_self) fun value => ?_
    have hrest := ih fun a ha => h a (List.mem_cons_of_mem _ ha)
    refine Twin.bind hfair (hrest.of_subset (List.subset_append_right _ _)) fun values => twin_pure ?_
    rw [Value.handlesOfItems, ← List.append_assoc]
    intro key hkey
    simp only [List.mem_append] at hkey ⊢
    tauto

theorem query_twin (type : TypeName) (front : String) (path : List String) (hrecords : c.Records) :
    Twin c given Value.handles (query (c.onLeft view) span type front path)
      (query (c.onRight view) span type front path) := by
  unfold query
  show Twin c given Value.handles (if type ∈ view.undeclared then _ else _)
    (if type ∈ view.undeclared then _ else _)
  split
  · exact twin_throw _
  · have hvalues : Twin c given Value.handlesOfItems
        ((selected c.left type front).mapM (project (c.onLeft view) span path))
        ((selected c.right type front).mapM (project (c.onRight view) span path)) := by
      rw [selected_eq hfair]
      refine mapM_twin hfair fun key hkey => ?_
      exact project_twin hfair view span path (has_of_selected hfair hkey) hrecords
    exact Twin.bind hfair hvalues fun values => twin_pure (List.subset_append_left _ _)

theorem namedValue_twin (type : TypeName) (name : String) (path : List String)
    (hrecords : c.Records) :
    Twin c given Value.handles (namedValue (c.onLeft view) span type name path)
      (namedValue (c.onRight view) span type name path) := by
  unfold namedValue
  split
  · exact query_twin hfair view span type _ path hrecords
  · rw [locate_eq hfair]
    rcases locate_cases (c.onLeft view) span type name with ⟨key, hkey, hlocate⟩ | ⟨i, hlocate⟩
    · rw [hlocate]
      exact project_twin hfair view span path hkey hrecords
    · rw [hlocate]
      exact twin_throw i

theorem knownType_eq (text : String) :
    knownType (c.onRight view) span text = knownType (c.onLeft view) span text := by
  unfold knownType onLeft onRight Inventory.virtual?
  rw [hfair.registry, hfair.virtuals]

theorem evaluateAll_twin {nodes : List Node}
    (h : ∀ node ∈ nodes, Twin c given Value.handles (evaluate (c.onLeft view) node)
      (evaluate (c.onRight view) node)) :
    Twin c given Value.handlesOfItems (evaluateAll (c.onLeft view) nodes)
      (evaluateAll (c.onRight view) nodes) := by
  induction nodes generalizing given with
  | nil => exact twin_pure (List.nil_subset _)
  | cons node rest ih =>
    rw [evaluateAll, evaluateAll]
    refine Twin.bind hfair (h node List.mem_cons_self) fun value => ?_
    have hrest := ih fun other hother => h other (List.mem_cons_of_mem _ hother)
    refine Twin.bind hfair (hrest.of_subset (List.subset_append_right _ _)) fun values => twin_pure ?_
    rw [Value.handlesOfItems, ← List.append_assoc]
    intro key hkey
    simp only [List.mem_append] at hkey ⊢
    tauto

theorem evaluateEntries_twin {entries : List Entry}
    (h : ∀ entry ∈ entries, Twin c given Value.handles (evaluate (c.onLeft view) entry.value)
      (evaluate (c.onRight view) entry.value)) :
    Twin c given Value.handlesOfEntries (evaluateEntries (c.onLeft view) entries)
      (evaluateEntries (c.onRight view) entries) := by
  induction entries generalizing given with
  | nil => exact twin_pure (List.nil_subset _)
  | cons entry rest ih =>
    have hfirst := h entry List.mem_cons_self
    obtain ⟨name, node, place⟩ := entry
    rw [evaluateEntries, evaluateEntries]
    refine Twin.bind hfair hfirst fun value => ?_
    have hrest := ih fun other hother => h other (List.mem_cons_of_mem _ hother)
    refine Twin.bind hfair (hrest.of_subset (List.subset_append_right _ _)) fun values => twin_pure ?_
    rw [Value.handlesOfEntries, ← List.append_assoc]
    intro key hkey
    simp only [List.mem_append] at hkey ⊢
    tauto

omit hfair in
theorem nameOf_twin (value : Value) :
    Twin c given (fun _ => []) (nameOf (c.onLeft view) value) (nameOf (c.onRight view) value) := by
  unfold nameOf
  split
  · exact twin_pure (List.nil_subset _)
  · exact twin_pure (List.nil_subset _)
  · exact twin_throw _

/-- An expression comes to the same under both inventories, unless both evaluations have read a
suspect resource.  Reads that do not account for what was read do no harm when there are no
references. -/
theorem evaluate_twin {node : Node} (hnode : c.Records ∨ node.Everywhere Node.NotReference) :
    Twin c view.scope.handles Value.handles (evaluate (c.onLeft view) node)
      (evaluate (c.onRight view) node) := by
  induction node using Node.induction with
  | step node ih =>
    have hchild : ∀ child ∈ node.children, Twin c view.scope.handles Value.handles
        (evaluate (c.onLeft view) child) (evaluate (c.onRight view) child) :=
      fun child hmem => ih child hmem (hnode.imp_right fun h => h.child child hmem)
    cases node with
    | interpolated parts =>
      rw [evaluate, evaluate]
      exact Twin.bind hfair (evaluateAll_twin hfair view hchild)
        fun values => twin_pure (List.nil_subset _)
    | list items =>
      rw [evaluate, evaluate]
      exact Twin.bind hfair (evaluateAll_twin hfair view hchild)
        fun values => twin_pure (List.subset_append_left _ _)
    | map entries =>
      rw [evaluate, evaluate]
      refine Twin.bind hfair (evaluateEntries_twin hfair view fun entry hentry =>
        hchild _ (List.mem_map_of_mem hentry)) fun pairs => twin_pure ?_
      refine List.Subset.trans ?_ (List.subset_append_left _ _)
      exact Value.handles_subset fun entry hentry => Table.mem_ofPairs hentry
    | var path place =>
      rw [evaluate, evaluate]
      cases path with
      | nil => exact twin_pure (List.nil_subset _)
      | cons head rest =>
        rw [variableValue, variableValue]
        dsimp only [onLeft, onRight]
        split
        · exact twin_throw _
        · next value hfind =>
          exact follow_twin hfair view place (Scope.handles_of_find hfind) rest
    | ref type name path place =>
      rcases hnode with hrecords | hnode
      · cases name with
        | none =>
          rw [evaluate, evaluate, knownType_eq hfair]
          rcases knownType_cases (c.onLeft view) place type with ⟨found, htype⟩ | ⟨i, htype⟩
          · rw [htype, pure_bind, pure_bind]
            exact query_twin hfair view place found _ path hrecords
          · rw [htype]
            exact twin_throw i
        | some name =>
          rw [evaluate, evaluate, knownType_eq hfair]
          rcases knownType_cases (c.onLeft view) place type with ⟨found, htype⟩ | ⟨i, htype⟩
          · rw [htype, pure_bind, pure_bind]
            refine Twin.bind hfair (hchild name List.mem_cons_self) fun value => ?_
            refine Twin.bind hfair (nameOf_twin view value) fun text => ?_
            exact namedValue_twin hfair view place found text path hrecords
          · rw [htype]
            exact twin_throw i
      · exact hnode.root.elim
    | binary op left right =>
      rw [evaluate, evaluate]
      refine Twin.bind hfair (hchild left (by simp [Node.children])) fun a => ?_
      split
      · exact twin_pure (List.nil_subset _)
      · split
        · exact twin_pure (List.nil_subset _)
        · have hright := hchild right (by simp [Node.children])
          refine Twin.bind hfair (hright.of_subset (List.subset_append_right _ _)) fun b => ?_
          split
          · exact twin_pure (List.nil_subset _)
          · unfold operate
            split
            · next value happly =>
              refine twin_pure fun key hkey => ?_
              have hmem := Value.handles_applied happly hkey
              simp only [List.mem_append] at hmem ⊢
              tauto
            · exact twin_throw _
    | pair entry => exact twin_throw _
    | resource type name body place => exact twin_throw _
    | block key body place => exact twin_throw _
    | directive d => exact twin_throw _
    | _ => exact twin_pure (List.nil_subset _)

end Comparison

end Provision
