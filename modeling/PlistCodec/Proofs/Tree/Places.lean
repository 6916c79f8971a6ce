import Mathlib.Data.List.Basic
import PlistCodec.Proofs.Tree.Nodes

/-!
# Nodes and their depths

`Tree.places` lists the nodes of a tree in reading order, each with the number of containers that
are around it.  A limit on the depth of nodes is a limit on the height of the tree
(`height_le_iff_depth_lt`).
-/

namespace PlistCodec.Tree

/-- A node of a tree with its depth. -/
structure Place where
  /-- The number of containers around the node. -/
  depth : Nat
  /-- The node. -/
  node : Tree

mutual

/-- The nodes of a tree in reading order, with their depths if the tree itself lies at `depth`. -/
def placesFrom : Tree → (depth : Nat) → List Place
  | .array items, depth => ⟨depth, .array items⟩ :: itemPlaces items (depth + 1)
  | .dict entries, depth => ⟨depth, .dict entries⟩ :: entryPlaces entries (depth + 1)
  | other, depth => [⟨depth, other⟩]
termination_by structural t => t

/-- The places of all trees of a list. -/
def itemPlaces : List Tree → (depth : Nat) → List Place
  | [], _ => []
  | t :: ts, depth => t.placesFrom depth ++ itemPlaces ts depth
termination_by structural ts => ts

/-- The places of the values of all entries. -/
def entryPlaces : List (String × Tree) → (depth : Nat) → List Place
  | [], _ => []
  | (_, t) :: es, depth => t.placesFrom depth ++ entryPlaces es depth
termination_by structural es => es

end

/-- The nodes of a tree in reading order, with their depths. -/
def places (t : Tree) : List Place := t.placesFrom 0

theorem placesFrom_array (items : List Tree) (depth : Nat) :
    (Tree.array items).placesFrom depth
      = ⟨depth, .array items⟩ :: items.flatMap (placesFrom · (depth + 1)) := by
  rw [placesFrom, List.cons.injEq]
  refine ⟨rfl, ?_⟩
  induction items with
  | nil => rfl
  | cons t ts ih => rw [itemPlaces, ih, List.flatMap_cons]

theorem placesFrom_dict (entries : List (String × Tree)) (depth : Nat) :
    (Tree.dict entries).placesFrom depth
      = ⟨depth, .dict entries⟩ :: entries.flatMap (placesFrom ·.2 (depth + 1)) := by
  rw [placesFrom, List.cons.injEq]
  refine ⟨rfl, ?_⟩
  induction entries with
  | nil => rfl
  | cons e es ih => rw [entryPlaces, ih, List.flatMap_cons]

/-- The places are those of the nodes, in the same order. -/
theorem map_node_placesFrom (t : Tree) (depth : Nat) :
    (t.placesFrom depth).map Place.node = t.nodes := by
  induction t using Tree.induct generalizing depth with
  | array items ih =>
    rw [placesFrom_array, nodes_array, List.map_cons, List.map_flatMap]
    rw [List.flatMap_congr fun t ht => ih t ht (depth + 1)]
  | dict entries ih =>
    rw [placesFrom_dict, nodes_dict, List.map_cons, List.map_flatMap]
    rw [List.flatMap_congr fun e he => ih e he (depth + 1)]
  | _ => rfl

theorem forall_node_places {t : Tree} {P : Tree → Prop} :
    (∀ p ∈ t.places, P p.node) ↔ ∀ node ∈ t.nodes, P node := by
  rw [← map_node_placesFrom t 0, List.forall_mem_map]
  rfl

theorem self_mem_placesFrom (t : Tree) (depth : Nat) : ⟨depth, t⟩ ∈ t.placesFrom depth := by
  cases t <;> simp [placesFrom]

/-- A limit on the height is a limit on the depths.  The induction is on the tree; the children of
a container lie one deeper than it does, and there is one level less for them. -/
theorem height_le_iff_depth_lt {t : Tree} {depth bound : Nat} :
    t.height ≤ bound ↔ ∀ p ∈ t.placesFrom depth, p.depth < depth + bound := by
  induction t using Tree.induct generalizing depth bound
  all_goals
    obtain _ | bound := bound
    · constructor
      · intro h
        exact absurd (Nat.le_trans (one_le_height _) h) (by decide)
      · intro h
        exact absurd (h _ (self_mem_placesFrom _ depth)) (Nat.lt_irrefl depth)
  case array items ih =>
    have hnext : depth + (bound + 1) = depth + 1 + bound := by omega
    rw [height_array_le, placesFrom_array, List.forall_mem_cons, List.forall_mem_flatMap,
      and_iff_right (Nat.lt_add_of_pos_right bound.succ_pos), hnext]
    exact forall₂_congr fun t ht => ih t ht
  case dict entries ih =>
    have hnext : depth + (bound + 1) = depth + 1 + bound := by omega
    rw [height_dict_le, placesFrom_dict, List.forall_mem_cons, List.forall_mem_flatMap,
      and_iff_right (Nat.lt_add_of_pos_right bound.succ_pos), hnext]
    exact forall₂_congr fun e he => ih e he
  all_goals simp [placesFrom, height]

end PlistCodec.Tree
