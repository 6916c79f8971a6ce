import Mathlib.Data.List.Basic
import PlistCodec.Json
import PlistCodec.Proofs.Tree.Markers
import PlistCodec.XmlPlist.Writer

/-!
# References and order in JSON

JSON has no references either, and shows them by the markers that XML property lists show them by.
A tree and the tree with its references marked therefore look the same in both: writing marks what
is not yet marked (`Json.ofTree_markUids`, `XmlPlist.write_markUids`).

Beside that, JSON has the nodes of the tree in the places where the tree has them
(`Json.follow?_ofTree`).  A way to a node is the list of the places, at each step among the children
of the node that was reached.
-/

namespace PlistCodec

/-! ## Ways into a tree -/

/-- The node of a tree that a way leads to, if it does not end early. -/
def Tree.follow? (t : Tree) : (way : List Nat) → Option Tree
  | [] => some t
  | place :: way => t.children[place]?.bind fun child => child.follow? way

namespace Tree

theorem Unreferring.child {t child : Tree} (h : t.Unreferring) (hchild : child ∈ t.children) :
    child.Unreferring := by
  intro slot hslot
  refine h slot ?_
  rw [nodes_eq]
  exact List.mem_cons_of_mem _ (List.mem_flatMap.mpr ⟨child, hchild, hslot⟩)

/-- Marking leaves the children where they are. -/
theorem getElem?_children_markUids {t child : Tree} {place : Nat}
    (h : t.children[place]? = some child) :
    t.markUids.children[place]? = some child.markUids := by
  cases t with
  | array items =>
    rw [markUids_array, children, List.getElem?_map, show items[place]? = some child from h]
    rfl
  | dict entries =>
    rw [children, List.getElem?_map] at h
    obtain ⟨e, he, rfl⟩ := Option.map_eq_some_iff.mp h
    rw [markUids_dict, children, List.map_map, List.getElem?_map, he]
    rfl
  | _ => cases h

theorem follow?_markUids {t node : Tree} {way : List Nat} (h : t.follow? way = some node) :
    t.markUids.follow? way = some node.markUids := by
  induction way generalizing t with
  | nil =>
    cases h
    rfl
  | cons place way ih =>
    obtain ⟨child, hchild, hnode⟩ := Option.bind_eq_some_iff.mp h
    rw [follow?, getElem?_children_markUids hchild, Option.bind_some, ih hnode]

end Tree

namespace Json

/-- The items of an array, or the values of an object. -/
def children : Json → List Json
  | .array items => items
  | .object members => members.map Prod.snd
  | _ => []

/-- The value that a way leads to, if it does not end early. -/
def follow? (j : Json) : (way : List Nat) → Option Json
  | [] => some j
  | place :: way => j.children[place]?.bind fun child => child.follow? way

/-! ## Containers as JSON -/

theorem ofItems_eq_map (items : List Tree) : ofItems items = items.map ofTree := by
  induction items with
  | nil => rfl
  | cons t ts ih => rw [ofItems, ih, List.map_cons]

theorem ofEntries_eq_map (entries : List (String × Tree)) :
    ofEntries entries = entries.map fun e => (e.1, ofTree e.2) := by
  induction entries with
  | nil => rfl
  | cons e es ih => rw [ofEntries, ih, List.map_cons]

theorem ofTree_array (items : List Tree) :
    ofTree (.array items) = .array (items.map ofTree) := by
  rw [ofTree, ofItems_eq_map]

theorem ofTree_dict (entries : List (String × Tree)) :
    ofTree (.dict entries) = .object (entries.map fun e => (e.1, ofTree e.2)) := by
  rw [ofTree, ofEntries_eq_map]

/-! ## Markers as JSON -/

theorem ofTree_uidMarker (slot : Nat) : ofTree (Tree.uidMarker slot) = ofTree (.uid slot) := rfl

/-- A tree with its references marked is the same JSON as the tree. -/
theorem ofTree_markUids (t : Tree) : ofTree t.markUids = ofTree t := by
  induction t using Tree.induct with
  | uid slot => exact ofTree_uidMarker slot
  | array items ih =>
    rw [Tree.markUids_array, ofTree_array, ofTree_array, List.map_map]
    exact congrArg Json.array (List.map_congr_left ih)
  | dict entries ih =>
    rw [Tree.markUids_dict, ofTree_dict, ofTree_dict, List.map_map]
    refine congrArg Json.object (List.map_congr_left fun e he => ?_)
    exact congrArg (Prod.mk e.1) (ih e he)
  | _ => rfl

/-! ## Nodes in their places -/

/-- Without references, JSON has the children of the tree, in their order. -/
theorem children_ofTree {t : Tree} (h : t.Unreferring) :
    (ofTree t).children = t.children.map ofTree := by
  cases t with
  | uid slot => exact absurd (Tree.mem_nodes_self _) (h slot)
  | array items =>
    rw [ofTree_array]
    rfl
  | dict entries =>
    rw [ofTree_dict, children, Tree.children, List.map_map, List.map_map]
    rfl
  | date value =>
    rw [ofTree, ofDate]
    split <;> rfl
  | _ => rfl

theorem follow?_ofTree_of_unreferring {t : Tree} (h : t.Unreferring) (way : List Nat) :
    (ofTree t).follow? way = (t.follow? way).map ofTree := by
  induction way generalizing t with
  | nil => rfl
  | cons place way ih =>
    rw [follow?, Tree.follow?, children_ofTree h, List.getElem?_map]
    cases hchild : t.children[place]? with
    | none => rfl
    | some child => exact ih (h.child (List.mem_of_getElem? hchild))

/-- A way leads to the same node in JSON as in the marked tree. -/
theorem follow?_ofTree (t : Tree) (way : List Nat) :
    (ofTree t).follow? way = (t.markUids.follow? way).map ofTree := by
  rw [← ofTree_markUids, follow?_ofTree_of_unreferring (Tree.unreferring_markUids t)]

/-- So it leads to the JSON of the node that it leads to in the tree. -/
theorem follow?_ofTree_of_follow? {t node : Tree} {way : List Nat} (h : t.follow? way = some node) :
    (ofTree t).follow? way = some (ofTree node) := by
  rw [follow?_ofTree, Tree.follow?_markUids h, Option.map_some, ofTree_markUids]

end Json

/-! ## Markers as XML -/

namespace XmlPlist

theorem itemLines_eq_flatMap (depth : Nat) (items : List Tree) :
    itemLines depth items = items.flatMap (lines depth) := by
  induction items with
  | nil => rfl
  | cons t ts ih => rw [itemLines, ih, List.flatMap_cons]

theorem entryLines_eq_flatMap (depth : Nat) (entries : List (String × Tree)) :
    entryLines depth entries
      = entries.flatMap fun e => keyLine depth e.1 :: lines depth e.2 := by
  induction entries with
  | nil => rfl
  | cons e es ih => rw [entryLines, ih, List.flatMap_cons, List.cons_append]

/-- A tree with its references marked has the same lines as the tree. -/
theorem lines_markUids (t : Tree) (depth : Nat) : lines depth t.markUids = lines depth t := by
  induction t using Tree.induct generalizing depth with
  | uid slot => rfl
  | array items ih =>
    rw [Tree.markUids_array, lines, lines, itemLines_eq_flatMap, itemLines_eq_flatMap,
      List.flatMap_map, List.flatMap_congr fun t ht => ih t ht (depth + 1)]
  | dict entries ih =>
    rw [Tree.markUids_dict, lines, lines, entryLines_eq_flatMap, entryLines_eq_flatMap,
      List.flatMap_map]
    rw [List.flatMap_congr fun e he =>
      congrArg (keyLine (depth + 1) e.1 :: ·) (ih e he (depth + 1))]
  | _ => rfl

theorem write_markUids (t : Tree) : write t.markUids = write t := by
  rw [write, write, lines_markUids]

end XmlPlist

namespace Json

/-! ## References and order -/

/-- **JSON and XML show references alike, and JSON keeps the order.**  Marking the references of a
tree first changes neither its JSON nor its XML, at any depth.  JSON has the nodes of the marked
tree in their places and no others: an array has the items of the tree's array in their order, and
an object the keys of the tree's dictionary in their order, each with the value that it had.
Inserted one after the other, these members are the object, as long as no key occurs twice. -/
theorem ofTree_marked_and_ordered (t : Tree) :
    ofTree t.markUids = ofTree t ∧ XmlPlist.write t.markUids = XmlPlist.write t ∧
    (∀ way, (ofTree t).follow? way = (t.markUids.follow? way).map ofTree) ∧
    (∀ way items, t.follow? way = some (.array items) →
      ∃ values, (ofTree t).follow? way = some (.array values) ∧ values.length = items.length ∧
        ∀ place : Nat, values[place]? = items[place]?.map ofTree) ∧
    ∀ way entries, t.follow? way = some (.dict entries) →
      ∃ members, (ofTree t).follow? way = some (.object members) ∧
        Dict.keys members = Dict.keys entries ∧
        members.map Prod.snd = (entries.map Prod.snd).map ofTree ∧
        (Dict.Distinct entries → Dict.ofList members = members) := by
  refine ⟨ofTree_markUids t, XmlPlist.write_markUids t, follow?_ofTree t, ?_, ?_⟩
  · intro way items hitems
    have hvalues := follow?_ofTree_of_follow? hitems
    rw [ofTree_array] at hvalues
    exact ⟨_, hvalues, List.length_map _, fun place => List.getElem?_map⟩
  · intro way entries hentries
    have hmembers := follow?_ofTree_of_follow? hentries
    rw [ofTree_dict] at hmembers
    have hkeys : Dict.keys (entries.map fun e => (e.1, ofTree e.2)) = Dict.keys entries := by
      rw [Dict.keys, Dict.keys, List.map_map]
      rfl
    refine ⟨_, hmembers, hkeys, ?_, fun hdistinct => Dict.ofList_of_distinct ?_⟩
    · rw [List.map_map, List.map_map]
      rfl
    · rwa [Dict.Distinct, hkeys]

/-- References in a list, and one under the key that markers have. -/
def referring : Tree :=
  .dict [("zeta", .array [.uid 7, .bool false]), (Tree.uidKey, .uid 18446744073709551615)]

theorem ofTree_marked_and_ordered_referring :
    ofTree referring.markUids = ofTree referring ∧
    (∃ values, (ofTree referring).follow? [0] = some (.array values) ∧ values.length = 2 ∧
      values[0]? = some (.object [(Tree.uidKey, .int 7)])) ∧
    ∃ members, (ofTree referring).follow? [] = some (.object members) ∧
      Dict.keys members = ["zeta", Tree.uidKey] ∧ Dict.ofList members = members := by
  obtain ⟨hmarked, -, -, harrays, hobjects⟩ := ofTree_marked_and_ordered referring
  obtain ⟨values, hvalues, hlength, hplaces⟩ := harrays [0] [.uid 7, .bool false] rfl
  obtain ⟨members, hmembers, hkeys, -, hinserted⟩ := hobjects [] _ rfl
  exact ⟨hmarked, ⟨values, hvalues, hlength, hplaces 0⟩, members, hmembers, hkeys,
    hinserted (by simp [Dict.Distinct, Dict.keys, Tree.uidKey])⟩

end Json

end PlistCodec
