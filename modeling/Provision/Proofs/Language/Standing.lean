import Mathlib.Data.List.Nodup
import Provision.Proofs.Language.Fronts
import Provision.Proofs.Language.Landmarks
import Provision.Proofs.Language.Quoting

/-!
# Where parsed statements stand

A statement of a parsed text stands at its first character, which is the first on its
line that is no blank, and a branch right behind its `@else`.  Reading only moves
ahead from one landmark to the next, so in the order of the text their places strictly
increase, and no two of them share a place.
-/

namespace Provision.Language

/-! ## First characters -/

/-- The text starts with a word that can open a line. -/
def NameAt (name text : List Char) : Prop :=
  IsWord name ∧ (∀ ch ∈ name.head?, isNameStart ch = true) ∧
    ∃ tail, text = name ++ tail ∧ Boundary tail

/-- The text starts with what the statement starts with: its key, its type, or an at sign and its
name. -/
def Node.Heads : Node → List Char → Prop
  | .pair entry, rest => NameAt entry.key.toList rest ∨ ∃ tail, Quoted entry.key.toList rest tail
  | .block key _ _, rest => NameAt key.toList rest
  | .resource type _ _ _, rest =>
    IsBlockType type ∧ ∃ tail, rest = type.toList ++ tail ∧ Boundary tail
  | .directive d, rest =>
    IsWord d.name.toList ∧ ∃ tail, rest = '@' :: (d.name.toList ++ tail) ∧ Boundary tail
  | _, _ => False

section Heads

variable {file : String} {n : Nat} {c after : Cursor} {node : Node} {span : Span}

open Cursor

theorem eq_pair_of_pairValue {key : String} (h : pairValue file n key span c = .ok (node, after)) :
    ∃ value, node = .pair ⟨key, value, span⟩ := by
  obtain ⟨⟨value, next⟩, -, h⟩ := bind_eq_ok.1 h
  obtain ⟨last, -, h⟩ := bind_eq_ok.1 h
  cases h
  exact ⟨value, rfl⟩

theorem eq_resource_of_ok {type : String}
    (h : resource file n type span c = .ok (node, after)) :
    ∃ name nodes, node = .resource type name nodes span := by
  cases n with
  | zero => cases h
  | succ n =>
    rw [resource] at h
    dsimp only at h
    split at h
    · cases h
    · obtain ⟨⟨name, next⟩, -, h⟩ := bind_eq_ok.1 h
      obtain ⟨line, -, h⟩ := bind_eq_ok.1 h
      obtain ⟨⟨nodes, last⟩, -, h⟩ := bind_eq_ok.1 h
      cases h
      exact ⟨name, nodes, rfl⟩

theorem eq_directive_of_ok (h : directive file n span c = .ok (node, after)) :
    ∃ d next what, node = .directive d ∧ d.span = span ∧
      c.expectWord file what = .ok (d.name.toList, next) := by
  cases n with
  | zero => cases h
  | succ n =>
    rw [directive] at h
    obtain ⟨⟨word, next⟩, hword, h⟩ := bind_eq_ok.1 h
    obtain ⟨read, -, h⟩ := bind_eq_ok.1 h
    obtain ⟨line, -, h⟩ := bind_eq_ok.1 h
    dsimp only at h
    rw [← String.toList_ofList (l := word)] at hword
    split at h
    · cases h
      exact ⟨_, next, _, rfl, rfl, hword⟩
    · obtain ⟨inner, -, h⟩ := bind_eq_ok.1 h
      obtain ⟨branches, -, h⟩ := bind_eq_ok.1 h
      cases h
      exact ⟨_, next, _, rfl, rfl, hword⟩

/-- A statement carries the place where its reading starts, and its first characters are there. -/
theorem statement_heads (h : statement file n c = .ok (node, after)) :
    node.span? = some (c.span file) ∧ node.Heads c.rest := by
  cases n with
  | zero => cases h
  | succ n =>
    rw [statement] at h
    dsimp only at h
    split at h
    · next hsign =>
      have hrest := rest_of_sees hsign
      obtain ⟨d, next, what, rfl, hspan, hname⟩ := eq_directive_of_ok h
      obtain ⟨hword, htext, hboundary⟩ := expectWord_ok hname
      exact ⟨congrArg some hspan, hword, next.rest, by rw [hrest, htext], hboundary⟩
    · split at h
      · next hquote =>
        obtain ⟨⟨key, next⟩, hkey, h⟩ := bind_eq_ok.1 h
        obtain ⟨colon, -, h⟩ := bind_eq_ok.1 h
        obtain ⟨value, rfl⟩ := eq_pair_of_pairValue h
        exact ⟨rfl, Or.inr ⟨_, quoted_of_stringKey hquote hkey⟩⟩
      · split at h
        · next hstart =>
          obtain ⟨⟨head, next⟩, hhead, h⟩ := bind_eq_ok.1 h
          obtain ⟨hword, hrest, hboundary⟩ := expectWord_ok hhead
          have hfirst := isNameStart_of_peek hstart hrest
          have hname : NameAt (String.ofList head).toList c.rest := by
            rw [String.toList_ofList]
            exact ⟨hword, hfirst, next.rest, hrest, hboundary⟩
          dsimp only at h
          split at h
          · next hcolons =>
            obtain ⟨⟨kind, last⟩, hkind, h⟩ := bind_eq_ok.1 h
            obtain ⟨hkindWord, hkindRest, hkindBoundary⟩ := expectWord_ok hkind
            obtain ⟨name, nodes, rfl⟩ := eq_resource_of_ok h
            obtain ⟨tail, htail⟩ := List.isPrefixOf_iff_prefix.1 hcolons
            refine ⟨rfl, isBlockType_ofList hword hkindWord hfirst, last.rest, ?_, hkindBoundary⟩
            rw [rest_advance, ← htail] at hkindRest
            have htype : tail = kind ++ last.rest := hkindRest
            rw [String.toList_ofList, hrest, ← htail, htype, List.append_assoc, List.append_assoc]
          · split at h
            · obtain ⟨value, rfl⟩ := eq_pair_of_pairValue h
              exact ⟨rfl, Or.inl hname⟩
            · obtain ⟨line, -, h⟩ := bind_eq_ok.1 h
              obtain ⟨⟨nodes, last⟩, -, h⟩ := bind_eq_ok.1 h
              cases h
              exact ⟨rfl, hname⟩
        · exact absurd h not_unexpected

end Heads

/-! ## From landmark to landmark -/

/-- What is read at the cursor is the landmark.  A branch is read together with those behind it. -/
inductive Landmark.ReadAt (file : String) : Landmark → Cursor → Prop
  | statement {n : Nat} {node : Node} {c after : Cursor}
    (h : Language.statement file n c = .ok (node, after)) : ReadAt file (.statement node) c
  | branch {n : Nat} {name : String} {part : Branch} {rest : List Branch} {c after : Cursor}
    (h : elseBranches file n name .orElse c = .ok (part :: rest, after)) : ReadAt file (.branch part) c

/-- What stands on the line of a landmark between the blanks and its place. -/
def Landmark.lead : Landmark → List Char
  | .statement _ => []
  | .branch _ => ['@', 'e', 'l', 's', 'e']

/-- On the way between two cursors of a text, the landmarks are read one behind the other. -/
inductive Route (file : String) (text : List Char) : Cursor → List Landmark → Cursor → Prop
  | nil {c after : Cursor} (h : c.Reaches after) : Route file text c [] after
  | cons {c here next after : Cursor} {landmark : Landmark} {rest : List Landmark}
    (hbefore : c.Reaches here)
    (hlead : here.Introduced text landmark.lead)
    (hread : landmark.ReadAt file here)
    (hnext : here.Reaches next)
    (hlater : here.place < next.place)
    (hrest : Route file text next rest after) :
    Route file text c (landmark :: rest) after

namespace Route

variable {file : String} {text : List Char} {a b c : Cursor} {landmarks others : List Landmark}

theorem reaches (h : Route file text a landmarks b) : a.Reaches b := by
  induction h with
  | nil h => exact h
  | cons hbefore _ _ hnext _ _ ih => exact (hbefore.trans hnext).trans ih

theorem before (h : Route file text b landmarks c) (hr : a.Reaches b) :
    Route file text a landmarks c := by
  cases h with
  | nil h => exact .nil (hr.trans h)
  | cons hbefore hlead hread hnext hlater hrest =>
    exact .cons (hr.trans hbefore) hlead hread hnext hlater hrest

theorem append (h : Route file text a landmarks b) (h' : Route file text b others c) :
    Route file text a (landmarks ++ others) c := by
  induction h with
  | nil h => exact h'.before h
  | cons hbefore hlead hread hnext hlater _ ih =>
    exact .cons hbefore hlead hread hnext hlater (ih h')

end Route

/-- With so many steps to nest, the rules for statements pass the landmarks of what they read. -/
structure Routes (file : String) (text : List Char) (n : Nat) : Prop where
  body : ∀ {allowElse c nodes ending after}, c.AtLineStart text →
    body file n allowElse c = .ok ((nodes, ending), after) →
    Route file text c (landmarksOf nodes) after ∧ after.Ends text ending
  blockBody : ∀ {what c nodes after}, c.AtLineStart text →
    blockBody file n what c = .ok (nodes, after) →
    Route file text c (landmarksOf nodes) after ∧ after.AtLineStart text
  statement : ∀ {c node after}, c.In text → statement file n c = .ok (node, after) →
    ∃ next, c.Reaches next ∧ c.place < next.place ∧ Route file text next node.landmarks after ∧
      after.AtLineStart text
  resource : ∀ {type span c node after}, c.In text →
    resource file n type span c = .ok (node, after) →
    Route file text c node.landmarks after ∧ after.AtLineStart text
  directive : ∀ {span c node after}, c.In text → directive file n span c = .ok (node, after) →
    Route file text c node.landmarks after ∧ after.AtLineStart text
  elseBranches : ∀ {name ending c branches after}, c.Ends text ending →
    elseBranches file n name ending c = .ok (branches, after) →
    Route file text c (landmarksOfBranches branches) after ∧ after.AtLineStart text

section Routes

variable {file : String} {text : List Char} {n : Nat} {c after : Cursor} {node : Node}

open Cursor

theorem pairValue_route {key : String} {span : Span} (hc : c.In text)
    (h : pairValue file n key span c = .ok (node, after)) :
    Route file text c node.landmarks after ∧ after.AtLineStart text := by
  obtain ⟨value, rfl⟩ := eq_pair_of_pairValue h
  refine ⟨.nil (pairValue_advances n _ _ (.refl c) _ _ h), ?_⟩
  obtain ⟨⟨read, next⟩, hread, h⟩ := bind_eq_ok.1 h
  obtain ⟨line, hline, h⟩ := bind_eq_ok.1 h
  cases h
  exact atLineStart_of_expectLineEnd
    (hc.reaches ((expressionsAdvance file n).binary (reaches_skipInline c) _ _ _ hread)) hline

theorem body_route (ih : Routes file text n) {allowElse : Bool} {nodes : List Node}
    {ending : Ending} (hc : c.AtLineStart text)
    (h : body file (n + 1) allowElse c = .ok ((nodes, ending), after)) :
    Route file text c (landmarksOf nodes) after ∧ after.Ends text ending := by
  have hblank := reaches_skipBlank c
  have hclosed : ∀ k line, (c.skipBlank.advance k).expectLineEnd file = .ok line →
      c.Reaches line ∧ line.AtLineStart text := fun k line hline =>
    have hword := hblank.trans (reaches_advance k _)
    ⟨hword.trans (reaches_of_expectLineEnd hline),
      atLineStart_of_expectLineEnd (hc.inText.reaches hword) hline⟩
  rw [body] at h
  dsimp only at h
  split at h
  · cases h
    exact ⟨.nil hblank, trivial⟩
  · next hmore =>
    have hrest : c.skipBlank.rest ≠ [] := by
      intro hempty
      exact hmore (by rw [peek, hempty]; rfl)
    have hindented := hc.introduced_skipBlank hrest
    split at h
    · obtain ⟨line, hline, h⟩ := bind_eq_ok.1 h
      cases h
      exact ⟨.nil (hclosed 4 _ hline).1, (hclosed 4 _ hline).2⟩
    · split at h
      · obtain ⟨line, hline, h⟩ := bind_eq_ok.1 h
        cases h
        exact ⟨.nil (hclosed 3 _ hline).1, (hclosed 3 _ hline).2⟩
      · split at h
        · next helse =>
          split at h
          · cases h
            refine ⟨.nil (hblank.trans (reaches_advance 5 _)), ?_⟩
            obtain ⟨tail, htail⟩ := rest_of_atKeyword helse
            obtain ⟨front, hfront, hblanks⟩ := hindented
            rw [List.append_nil] at hfront
            exact ⟨front, hfront.over htail, hblanks⟩
          · cases h
        · obtain ⟨⟨node, next⟩, hnode, h⟩ := bind_eq_ok.1 h
          obtain ⟨⟨⟨more, last⟩, behind⟩, hmore, h⟩ := bind_eq_ok.1 h
          cases h
          obtain ⟨inside, hinside, hlater, hbelow, hline⟩ := ih.statement hindented.inText hnode
          obtain ⟨hroute, hends⟩ := ih.body hline hmore
          exact ⟨.cons hblank hindented (.statement hnode) hinside hlater (hbelow.append hroute), hends⟩

theorem blockBody_route (ih : Routes file text n) {what : String} {nodes : List Node}
    (hc : c.AtLineStart text)
    (h : blockBody file (n + 1) what c = .ok (nodes, after)) :
    Route file text c (landmarksOf nodes) after ∧ after.AtLineStart text := by
  rw [blockBody] at h
  obtain ⟨⟨⟨read, ending⟩, next⟩, hread, h⟩ := bind_eq_ok.1 h
  obtain ⟨hroute, hends⟩ := ih.body hc hread
  dsimp only at h
  split at h
  · next hclosed =>
    cases h
    rw [hclosed] at hends
    exact ⟨hroute, hends⟩
  · cases h

theorem statement_route (ih : Routes file text n) (hc : c.In text)
    (h : statement file (n + 1) c = .ok (node, after)) :
    ∃ next, c.Reaches next ∧ c.place < next.place ∧ Route file text next node.landmarks after ∧
      after.AtLineStart text := by
  rw [statement] at h
  dsimp only at h
  split at h
  · next hsign =>
    have hstep := reaches_step c
    exact ⟨c.step, hstep, place_lt_step (rest_ne_nil_of_sees hsign),
      ih.directive (hc.reaches hstep) h⟩
  · split at h
    · obtain ⟨⟨key, next⟩, hkey, h⟩ := bind_eq_ok.1 h
      obtain ⟨colon, hcolon, h⟩ := bind_eq_ok.1 h
      have hread := (expressionsAdvance file n).stringKey (.refl c) _ _ hkey
      have hinline := hread.trans (reaches_skipInline next)
      have hreach := hinline.trans (reaches_of_expect hcolon)
      exact ⟨colon, hreach, hinline.place_le.trans_lt (place_lt_of_expect hcolon),
        pairValue_route (hc.reaches hreach) h⟩
    · split at h
      · obtain ⟨⟨head, next⟩, hhead, h⟩ := bind_eq_ok.1 h
        have hreach := reaches_of_expectWord hhead
        have hlater := place_lt_of_expectWord hhead
        dsimp only at h
        split at h
        · obtain ⟨⟨kind, last⟩, hkind, h⟩ := bind_eq_ok.1 h
          have hlast := (reaches_advance 2 next).trans (reaches_of_expectWord hkind)
          exact ⟨last, hreach.trans hlast, hlater.trans_le hlast.place_le,
            ih.resource (hc.reaches (hreach.trans hlast)) h⟩
        · have hinline := reaches_skipInline next
          split at h
          · have hcolon := hinline.trans (reaches_step _)
            exact ⟨_, hreach.trans hcolon, hlater.trans_le hcolon.place_le,
              pairValue_route (hc.reaches (hreach.trans hcolon)) h⟩
          · obtain ⟨line, hline, h⟩ := bind_eq_ok.1 h
            obtain ⟨⟨nodes, last⟩, hnodes, h⟩ := bind_eq_ok.1 h
            cases h
            have hend := hinline.trans (reaches_of_expectLineEnd hline)
            have hstart := atLineStart_of_expectLineEnd (hc.reaches (hreach.trans hinline)) hline
            exact ⟨line, hreach.trans hend, hlater.trans_le hend.place_le, ih.blockBody hstart hnodes⟩
      · exact absurd h not_unexpected

theorem resource_route (ih : Routes file text n) {type : String} {span : Span} (hc : c.In text)
    (h : resource file (n + 1) type span c = .ok (node, after)) :
    Route file text c node.landmarks after ∧ after.AtLineStart text := by
  rw [resource] at h
  dsimp only at h
  split at h
  · cases h
  · obtain ⟨⟨name, next⟩, hname, h⟩ := bind_eq_ok.1 h
    obtain ⟨line, hline, h⟩ := bind_eq_ok.1 h
    obtain ⟨⟨nodes, last⟩, hnodes, h⟩ := bind_eq_ok.1 h
    cases h
    have hread := (expressionsAdvance file n).primary (reaches_skipInline c) _ _ hname
    obtain ⟨hroute, hend⟩ := ih.blockBody (atLineStart_of_expectLineEnd (hc.reaches hread) hline) hnodes
    exact ⟨hroute.before (hread.trans (reaches_of_expectLineEnd hline)), hend⟩

theorem directive_route (ih : Routes file text n) {span : Span} (hc : c.In text)
    (h : directive file (n + 1) span c = .ok (node, after)) :
    Route file text c node.landmarks after ∧ after.AtLineStart text := by
  rw [directive] at h
  obtain ⟨⟨word, next⟩, hword, h⟩ := bind_eq_ok.1 h
  obtain ⟨⟨⟨arguments, options⟩, behind⟩, hclauses, h⟩ := bind_eq_ok.1 h
  obtain ⟨line, hline, h⟩ := bind_eq_ok.1 h
  have hread := clauses_advances n ((reaches_of_expectWord hword).trans (reaches_pass next ':')) _ _
    hclauses
  have hreach := hread.trans (reaches_of_expectLineEnd hline)
  have hstart := atLineStart_of_expectLineEnd (hc.reaches hread) hline
  dsimp only at h
  split at h
  · cases h
    exact ⟨.nil hreach, hstart⟩
  · obtain ⟨⟨⟨nodes, ending⟩, close⟩, hnodes, h⟩ := bind_eq_ok.1 h
    obtain ⟨⟨branches, last⟩, hbranches, h⟩ := bind_eq_ok.1 h
    cases h
    obtain ⟨hroute, hends⟩ := ih.body hstart hnodes
    obtain ⟨hothers, hend⟩ := ih.elseBranches hends hbranches
    exact ⟨(hroute.append hothers).before hreach, hend⟩

/-- At the end of the text a body ends there, too. -/
theorem eof_of_body {allowElse : Bool} {nodes : List Node} {ending : Ending}
    (h : body file n allowElse c = .ok ((nodes, ending), after)) (hrest : c.rest = []) :
    ending = .eof := by
  cases n with
  | zero => cases h
  | succ n =>
    have hpeek : c.skipBlank.peek = none := by
      rw [peek, skipBlank, rest_advance, hrest, List.drop_nil]
      rfl
    rw [body] at h
    dsimp only at h
    rw [hpeek] at h
    cases h
    rfl

theorem elseBranches_eof {name : String} {branches : List Branch} :
    elseBranches file n name .eof c ≠ .ok (branches, after) := by
  intro h
  cases n <;> cases h

theorem elseBranches_route (ih : Routes file text n) {name : String} {ending : Ending}
    {branches : List Branch} (hc : c.Ends text ending)
    (h : elseBranches file (n + 1) name ending c = .ok (branches, after)) :
    Route file text c (landmarksOfBranches branches) after ∧ after.AtLineStart text := by
  cases ending with
  | eof => exact absurd h elseBranches_eof
  | closed =>
    rw [elseBranches] at h
    cases h
    exact ⟨.nil (.refl c), hc⟩
  | orElse =>
    have hread := h
    rw [elseBranches] at h
    obtain ⟨⟨arguments, next⟩, hguard, h⟩ := bind_eq_ok.1 h
    obtain ⟨line, hline, h⟩ := bind_eq_ok.1 h
    obtain ⟨⟨⟨nodes, ending⟩, close⟩, hnodes, h⟩ := bind_eq_ok.1 h
    obtain ⟨⟨others, last⟩, hothers, h⟩ := bind_eq_ok.1 h
    cases h
    have hbefore := guardOf_advances n (reaches_skipInline c) _ _ hguard
    have hstart := atLineStart_of_expectLineEnd (hc.inText.reaches hbefore) hline
    -- a branch that ends with the text is not closed
    have hmore : line.rest ≠ [] := fun hempty =>
      elseBranches_eof (eof_of_body hnodes hempty ▸ hothers)
    obtain ⟨hroute, hends⟩ := ih.body hstart hnodes
    obtain ⟨hrest, hend⟩ := ih.elseBranches hends hothers
    exact ⟨.cons (.refl c) hc (.branch hread) (hbefore.trans (reaches_of_expectLineEnd hline))
      (hbefore.place_le.trans_lt (place_lt_of_expectLineEnd hline hmore)) (hroute.append hrest), hend⟩

/-- Whatever the depth, the landmarks of what is read are passed in their order. -/
theorem routes (file : String) (text : List Char) (n : Nat) : Routes file text n := by
  induction n with
  | zero =>
    refine ⟨fun _ h => ?_, fun _ h => ?_, fun _ h => ?_, fun _ h => ?_, fun _ h => ?_, fun _ h => ?_⟩
    all_goals cases h
  | succ n ih =>
    exact ⟨body_route ih, blockBody_route ih, statement_route ih, resource_route ih,
      directive_route ih, elseBranches_route ih⟩

end Routes

/-! ## Places of landmarks -/

/-- The landmark stands between the two parts of a text.  Its place counts the line breaks of the
front part, and the characters behind the last of them; what is on its line before it are blanks,
and the `@else` of a branch; a statement is written, and the landmark read, from there on. -/
structure Landmark.StandsBetween (file : String) (front rest : List Char) (landmark : Landmark) :
    Prop where
  place : landmark.span? = some ⟨file, front.count '\n' + 1, (lastLine front).length + 1⟩
  lead : ∃ before, front = before ++ landmark.lead ∧ Indents before
  heads : ∀ node, landmark = .statement node → node.Heads rest
  read : landmark.ReadAt file (Cursor.between front rest)

section Places

variable {file : String} {text : List Char} {c after : Cursor} {landmark : Landmark}
  {landmarks : List Landmark}

open Cursor

theorem span_of_branch {n : Nat} {name : String} {part : Branch} {rest : List Branch}
    (h : elseBranches file n name .orElse c = .ok (part :: rest, after)) :
    part.span = c.span file := by
  cases n with
  | zero => cases h
  | succ n =>
    rw [elseBranches] at h
    obtain ⟨guard, -, h⟩ := bind_eq_ok.1 h
    obtain ⟨line, -, h⟩ := bind_eq_ok.1 h
    obtain ⟨inner, -, h⟩ := bind_eq_ok.1 h
    obtain ⟨others, -, h⟩ := bind_eq_ok.1 h
    cases h
    rfl

theorem Landmark.ReadAt.span (h : landmark.ReadAt file c) : landmark.span? = some (c.span file) := by
  cases h with
  | statement h => exact (statement_heads h).1
  | branch h => exact congrArg some (span_of_branch h)

theorem Landmark.ReadAt.heads {node : Node} (h : Landmark.ReadAt file (.statement node) c) :
    node.Heads c.rest := by
  cases h with
  | statement h => exact (statement_heads h).2

/-- On a route the landmarks stand at later and later places. -/
theorem Route.exists_places (h : Route file text c landmarks after) :
    ∃ places : List (ℕ ×ₗ ℕ),
      landmarks.map Landmark.span? = places.map (fun p => some (spanAt file p)) ∧
        places.Pairwise (· < ·) ∧ ∀ p ∈ places, c.place ≤ p := by
  induction h with
  | nil => exact ⟨[], rfl, .nil, List.forall_mem_nil _⟩
  | @cons c here next after landmark rest hbefore hlead hread hnext hlater hrest ih =>
    obtain ⟨places, hplaces, hordered, hbehind⟩ := ih
    refine ⟨here.place :: places, ?_, ?_, ?_⟩
    · rw [List.map_cons, List.map_cons, hread.span, hplaces]
      rfl
    · exact List.pairwise_cons.2 ⟨fun p hp => hlater.trans_le (hbehind p hp), hordered⟩
    · refine List.forall_mem_cons.2 ⟨hbefore.place_le, fun p hp => ?_⟩
      exact hbefore.place_le.trans (hlater.le.trans (hbehind p hp))

/-- On a route each landmark stands somewhere in the text. -/
theorem Route.exists_between (h : Route file text c landmarks after) (hmem : landmark ∈ landmarks) :
    ∃ front rest, text = front ++ rest ∧ landmark.StandsBetween file front rest := by
  induction h with
  | nil => cases hmem
  | @cons c here next after first others hbefore hlead hread hnext hlater hrest ih =>
    rcases List.mem_cons.1 hmem with rfl | hmem
    · obtain ⟨front, ⟨htext, hhere⟩, hindents⟩ := hlead
      refine ⟨front ++ landmark.lead, here.rest, htext, ?_, ⟨front, rfl, hindents⟩, ?_, hhere ▸ hread⟩
      · rw [hread.span, hhere]
        rfl
      · rintro node rfl
        exact hread.heads
    · exact ih hmem

theorem parse_route {path source : String} {file : SourceFile} (h : parse path source = .ok file) :
    ∃ after, Route path source.toList (start source.toList) (landmarksOf file.body) after := by
  obtain ⟨nodes, hnodes, h⟩ := bind_eq_ok.1 h
  cases h
  obtain ⟨⟨⟨nodes, ending⟩, last⟩, hbody, hnodes⟩ := bind_eq_ok.1 hnodes
  dsimp only at hnodes
  split at hnodes
  · cases hnodes
    have hstart : (start source.toList).AtLineStart source.toList :=
      ⟨[], behind_start _, Or.inl rfl⟩
    exact ⟨last, ((routes path source.toList _).body hstart hbody).1⟩
  · cases hnodes

theorem path_of_parse {path source : String} {file : SourceFile}
    (h : parse path source = .ok file) :
    file.path = path :=
  (parse_isStatement h).1

/-- The statements of a parsed file stand behind one another in it. -/
theorem parse_stands {path source : String} {file : SourceFile} (h : parse path source = .ok file) :
    ∃ places : List (ℕ ×ₗ ℕ), file.body.map Node.span? =
        places.map (fun p => some (spanAt path p)) ∧ places.Pairwise (· < ·) := by
  obtain ⟨after, hroute⟩ := parse_route h
  obtain ⟨places, hplaces, hordered, -⟩ := hroute.exists_places
  have hsub := (statements_sublist_landmarksOf file.body).map Landmark.span?
  rw [hplaces, List.map_map] at hsub
  obtain ⟨chosen, hchosen, heq⟩ := List.sublist_map_iff.1 hsub
  exact ⟨chosen, heq, hordered.sublist hchosen⟩

/-- In the order of the text the places of all statements and branches strictly increase, so no two
of them are the same, and each is where the statement or branch starts in the text.  All statements
and branches that stand anywhere in the parsed trees are among them. -/
theorem landmarks_stand_in_order {path source : String} {file : SourceFile}
    (h : parse path source = .ok file) :
    (∃ places : List (ℕ ×ₗ ℕ), (landmarksOf file.body).map Landmark.span? =
        places.map (fun p => some (spanAt path p)) ∧ places.Pairwise (· < ·)) ∧
      ((landmarksOf file.body).map Landmark.span?).Nodup ∧
      (∀ landmark ∈ landmarksOf file.body, ∃ front rest,
        source.toList = front ++ rest ∧ landmark.StandsBetween path front rest) ∧
      ∀ node ∈ file.body, node.Everywhere (Node.Listed (landmarksOf file.body)) := by
  obtain ⟨after, hroute⟩ := parse_route h
  obtain ⟨places, hplaces, hordered, -⟩ := hroute.exists_places
  refine ⟨⟨places, hplaces, hordered⟩, ?_, fun landmark hmem => hroute.exists_between hmem,
    parse_listed h⟩
  rw [hplaces]
  refine List.Nodup.map (fun p q heq => ?_) (hordered.imp fun hless => hless.ne)
  exact spanAt_injective path (Option.some.inj heq)

/-- A pair with a map over three lines, a choice, and below it a resource with a block, and a
branch. -/
def choiceText : String :=
  "x: \x7b\n  a: 'é'\n\x7d\n@if $(x) # a box\n  m::box b\n\ttags\n\t\t'k': 'v'\n\tend\n" ++
    "  end\n  @else\n  y: 'z'\n@end"

/-- The map entry is no landmark, and the branch stands behind its `@else`. -/
theorem landmarks_stand_in_order_choice :
    ∃ file, parse "/main" choiceText = .ok file ∧
      (landmarksOf file.body).map Landmark.span? =
        [(1, 1), (4, 1), (5, 3), (6, 2), (7, 3), (10, 8), (11, 3)].map
          (fun place => some ⟨"/main", place.1, place.2⟩) ∧
      (∃ places : List (ℕ ×ₗ ℕ), (landmarksOf file.body).map Landmark.span? =
        places.map (fun p => some (spanAt "/main" p)) ∧ places.Pairwise (· < ·)) ∧
      ((landmarksOf file.body).map Landmark.span?).Nodup ∧
      (∀ landmark ∈ landmarksOf file.body, ∃ front rest,
        choiceText.toList = front ++ rest ∧ landmark.StandsBetween "/main" front rest) ∧
      ∀ node ∈ file.body, node.Everywhere (Node.Listed (landmarksOf file.body)) := by
  have hread : (parse "/main" choiceText).toOption.map
      (fun file => (landmarksOf file.body).map Landmark.span?) =
        some ([(1, 1), (4, 1), (5, 3), (6, 2), (7, 3), (10, 8), (11, 3)].map
          (fun place => some ⟨"/main", place.1, place.2⟩)) := by
    decide +kernel
  obtain ⟨file, hfile, hspans⟩ := Option.map_eq_some_iff.1 hread
  rw [toOption_eq_some] at hfile
  exact ⟨file, hfile, hspans, landmarks_stand_in_order hfile⟩

end Places

end Provision.Language
