import Provision.Proofs.Language.Tree

/-!
# Trees apart from their places

A tree that is the same as a given one apart from places has the same form at
its root, and its parts are the same as the parts of the given one apart from
places.
-/

namespace Provision.Language.Node

variable {node : Node}

theorem eq_null_of_bare (h : node.bare = .null) : node = .null := by
  cases node with
  | null => rfl
  | _ =>
    rw [bare] at h
    cases h

theorem eq_bool_of_bare {b : Bool} (h : node.bare = .bool b) : node = .bool b := by
  cases node with
  | bool => exact h
  | _ =>
    rw [bare] at h
    cases h

theorem eq_number_of_bare {x : Float} (h : node.bare = .number x) : node = .number x := by
  cases node with
  | number => exact h
  | _ =>
    rw [bare] at h
    cases h

theorem eq_text_of_bare {s : String} (h : node.bare = .text s) : node = .text s := by
  cases node with
  | text => exact h
  | _ =>
    rw [bare] at h
    cases h

theorem eq_list_of_bare {items : List Node} (h : node.bare = .list items) :
    ∃ nodes, node = .list nodes ∧ nodes.map bare = items := by
  cases node with
  | list nodes =>
    rw [bare, bareNodes_eq_map] at h
    exact ⟨nodes, rfl, Node.list.inj h⟩
  | _ =>
    rw [bare] at h
    cases h

theorem eq_map_of_bare {entries : List Entry} (h : node.bare = .map entries) :
    ∃ given, node = .map given ∧ given.map Entry.bare = entries := by
  cases node with
  | map given =>
    rw [bare, bareEntries_eq_map] at h
    exact ⟨given, rfl, Node.map.inj h⟩
  | _ =>
    rw [bare] at h
    cases h

theorem eq_ref_of_bare {type : String} {name : Option Node} {path : List String} {span : Span}
    (h : node.bare = .ref type name path span) :
    ∃ given place, node = .ref type given path place ∧ given.map bare = name := by
  cases node with
  | ref =>
    rw [bare, bareOption_eq_map] at h
    injection h with htype hname hpath
    subst htype hpath
    exact ⟨_, _, rfl, hname⟩
  | _ =>
    rw [bare] at h
    cases h

theorem eq_pair_of_bare {entry : Entry} (h : node.bare = .pair entry) :
    ∃ given, node = .pair given ∧ given.bare = entry := by
  cases node with
  | pair given =>
    rw [bare] at h
    exact ⟨given, rfl, Node.pair.inj h⟩
  | _ =>
    rw [bare] at h
    cases h

theorem eq_resource_of_bare {type : String} {name : Node} {body : List Node} {span : Span}
    (h : node.bare = .resource type name body span) :
    ∃ given source place, node = .resource type given source place ∧ given.bare = name ∧
      source.map bare = body := by
  cases node with
  | resource =>
    rw [bare, bareNodes_eq_map] at h
    injection h with htype hname hbody
    subst htype
    exact ⟨_, _, _, rfl, hname, hbody⟩
  | _ =>
    rw [bare] at h
    cases h

theorem eq_directive_of_bare {d : Directive} (h : node.bare = .directive d) :
    ∃ given, node = .directive given ∧ given.bare = d := by
  cases node with
  | directive given =>
    rw [bare] at h
    exact ⟨given, rfl, Node.directive.inj h⟩
  | _ =>
    rw [bare] at h
    cases h

end Provision.Language.Node
