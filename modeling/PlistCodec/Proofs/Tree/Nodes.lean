import PlistCodec.Proofs.Dict
import PlistCodec.Tree.Basic

/-!
# The nodes of a tree

`Tree.nodes` lists a tree and all trees inside it, in reading order; what a statement asks of "every
date" or "every reference" of a tree, it asks of the nodes.  `Tree.induct` is induction on trees
with the children of a container as members of a list, which is how the functions on trees meet
them.
-/

namespace PlistCodec

namespace Tree

/-! ## Induction -/

/-- Induction on a tree: the items of an array and the values of a dictionary are smaller. -/
theorem induct {motive : Tree → Prop}
    (bool : ∀ value, motive (.bool value))
    (int : ∀ value, motive (.int value))
    (real : ∀ value, motive (.real value))
    (date : ∀ value, motive (.date value))
    (string : ∀ text, motive (.string text))
    (data : ∀ bytes, motive (.data bytes))
    (uid : ∀ slot, motive (.uid slot))
    (array : ∀ items, (∀ t ∈ items, motive t) → motive (.array items))
    (dict : ∀ entries, (∀ e ∈ entries, motive e.2) → motive (.dict entries)) (t : Tree) :
    motive t := by
  refine Tree.rec (motive_1 := motive) (motive_2 := fun ts => ∀ t ∈ ts, motive t)
    (motive_3 := fun es => ∀ e ∈ es, motive e.2) (motive_4 := fun e => motive e.2)
    bool int real date string data uid array dict ?nil ?cons ?none ?entry ?pair t
  case nil => intro t ht; cases ht
  case cons =>
    intro head tail hhead htail t ht
    rcases List.mem_cons.mp ht with rfl | ht
    · exact hhead
    · exact htail t ht
  case none => intro e he; cases he
  case entry =>
    intro head tail hhead htail e he
    rcases List.mem_cons.mp he with rfl | he
    · exact hhead
    · exact htail e he
  case pair => intro _ _ h; exact h

/-! ## Kinds of trees -/

theorem uid?_eq_some_iff {t : Tree} {slot : Nat} : t.uid? = some slot ↔ t = .uid slot := by
  cases t <;> simp [uid?]

theorem unsigned?_eq_some_iff {t : Tree} {n : Nat} :
    t.unsigned? = some n ↔ t = .int n := by
  cases t with
  | int value =>
    simp only [unsigned?, Option.ite_none_right_eq_some, Option.some.injEq, Tree.int.injEq]
    omega
  | _ => simp [unsigned?]

theorem string?_eq_some_iff {t : Tree} {text : String} :
    t.string? = some text ↔ t = .string text := by
  cases t <;> simp [string?]

theorem array?_eq_some_iff {t : Tree} {items : List Tree} :
    t.array? = some items ↔ t = .array items := by
  cases t <;> simp [array?]

theorem dict?_eq_some_iff {t : Tree} {entries : Dict Tree} :
    t.dict? = some entries ↔ t = .dict entries := by
  cases t <;> simp [dict?]

/-! ## Nodes -/

mutual

/-- A tree and all trees inside it, in reading order. -/
def nodes : Tree → List Tree
  | .array items => .array items :: itemNodes items
  | .dict entries => .dict entries :: entryNodes entries
  | other => [other]
termination_by structural t => t

/-- The nodes of all trees of a list. -/
def itemNodes : List Tree → List Tree
  | [] => []
  | t :: ts => t.nodes ++ itemNodes ts
termination_by structural ts => ts

/-- The nodes of the values of all entries. -/
def entryNodes : List (String × Tree) → List Tree
  | [] => []
  | (_, t) :: es => t.nodes ++ entryNodes es
termination_by structural es => es

end

theorem itemNodes_eq (items : List Tree) : itemNodes items = items.flatMap nodes := by
  induction items with
  | nil => rfl
  | cons t ts ih => rw [itemNodes, ih, List.flatMap_cons]

theorem entryNodes_eq (entries : List (String × Tree)) :
    entryNodes entries = entries.flatMap fun e => e.2.nodes := by
  induction entries with
  | nil => rfl
  | cons e es ih => rw [entryNodes, ih, List.flatMap_cons]

theorem nodes_array (items : List Tree) :
    (Tree.array items).nodes = .array items :: items.flatMap nodes := by
  rw [nodes, itemNodes_eq]

theorem nodes_dict (entries : List (String × Tree)) :
    (Tree.dict entries).nodes = .dict entries :: entries.flatMap fun e => e.2.nodes := by
  rw [nodes, entryNodes_eq]

theorem mem_nodes_self (t : Tree) : t ∈ t.nodes := by
  cases t <;> simp [nodes]

theorem mem_nodes_array {items : List Tree} {t node : Tree} (ht : t ∈ items)
    (h : node ∈ t.nodes) : node ∈ (Tree.array items).nodes := by
  rw [nodes_array]
  exact List.mem_cons_of_mem _ (List.mem_flatMap.mpr ⟨t, ht, h⟩)

theorem mem_nodes_dict {entries : List (String × Tree)} {e : String × Tree} {node : Tree}
    (he : e ∈ entries) (h : node ∈ e.2.nodes) : node ∈ (Tree.dict entries).nodes := by
  rw [nodes_dict]
  exact List.mem_cons_of_mem _ (List.mem_flatMap.mpr ⟨e, he, h⟩)

/-! ## Children -/

/-- The items of an array, or the values of a dictionary. -/
def children : Tree → List Tree
  | .array items => items
  | .dict entries => entries.map Prod.snd
  | _ => []

/-- The container with other children, under the keys that it has. -/
def withChildren : Tree → List Tree → Tree
  | .array _, ts => .array ts
  | .dict entries, ts => .dict (entries.zipWith (fun e t => (e.1, t)) ts)
  | other, _ => other

theorem nodes_eq (t : Tree) : t.nodes = t :: t.children.flatMap nodes := by
  cases t with
  | array items => exact nodes_array items
  | dict entries => rw [nodes_dict, children, List.flatMap_map]
  | _ => rfl

theorem map_snd_zipWith {entries : List (String × Tree)} {ts : List Tree}
    (h : ts.length = entries.length) :
    (entries.zipWith (fun e t => (e.1, t)) ts).map Prod.snd = ts := by
  induction entries generalizing ts with
  | nil => rw [List.length_eq_zero_iff.mp h]; rfl
  | cons e es ih =>
    cases ts with
    | nil => cases h
    | cons t ts => rw [List.zipWith_cons_cons, List.map_cons, ih (Nat.succ.inj h)]

theorem children_withChildren {t : Tree} {ts : List Tree} (h : ts.length = t.children.length) :
    (t.withChildren ts).children = ts := by
  cases t with
  | array items => rfl
  | dict entries => exact map_snd_zipWith (by simpa [children] using h)
  | _ => exact (List.length_eq_zero_iff.mp h).symm

/-- A container keeps its keys when its children change, so only the last change counts. -/
theorem withChildren_withChildren {t : Tree} {ts us : List Tree}
    (h : ts.length = t.children.length) :
    (t.withChildren ts).withChildren us = t.withChildren us := by
  cases t with
  | dict entries =>
    have hlength : ts.length = entries.length := by simpa [children] using h
    clear h
    simp only [withChildren, Tree.dict.injEq]
    induction entries generalizing ts us with
    | nil => rw [List.length_eq_zero_iff.mp hlength]; rfl
    | cons e es ih =>
      cases ts with
      | nil => cases hlength
      | cons t ts =>
        cases us with
        | nil => rfl
        | cons u us => simp only [List.zipWith_cons_cons, ih (Nat.succ.inj hlength)]
  | _ => rfl

theorem uid?_withChildren (t : Tree) (ts : List Tree) : (t.withChildren ts).uid? = t.uid? := by
  cases t <;> rfl

/-! ## References -/

/-- The references of a tree in reading order, those to slot 0 left out. -/
def references (t : Tree) : List Nat := (t.nodes.filterMap uid?).filter (· ≠ 0)

theorem mem_references_iff {t : Tree} {slot : Nat} :
    slot ∈ t.references ↔ Tree.uid slot ∈ t.nodes ∧ slot ≠ 0 := by
  rw [references, List.mem_filter, List.mem_filterMap, decide_eq_true_eq]
  refine and_congr_left fun _ => ⟨?_, fun h => ⟨.uid slot, h, rfl⟩⟩
  rintro ⟨node, hnode, huid⟩
  rw [← uid?_eq_some_iff.mp huid]
  exact hnode

theorem references_uid {slot : Nat} (h : slot ≠ 0) : (Tree.uid slot).references = [slot] := by
  simp [references, nodes, uid?, h]

theorem references_eq {t : Tree} (h : t.uid? = none) :
    t.references = t.children.flatMap references := by
  rw [references, nodes_eq, List.filterMap_cons, h]
  simp only [List.filterMap_flatMap, List.filter_flatMap]
  rfl

/-- Every reference of the tree is to slot 0 or to a slot from `low` on and below `high`. -/
def RefersWithin (low high : Nat) (t : Tree) : Prop :=
  ∀ slot ∈ t.references, low ≤ slot ∧ slot < high

theorem RefersWithin.mono {low high low' high' : Nat} {t : Tree} (h : t.RefersWithin low high)
    (hlow : low' ≤ low) (hhigh : high ≤ high') : t.RefersWithin low' high' :=
  fun slot hslot => ⟨Nat.le_trans hlow (h slot hslot).1, Nat.lt_of_lt_of_le (h slot hslot).2 hhigh⟩

theorem refersWithin_iff {low high : Nat} {t : Tree} (h : t.uid? = none) :
    t.RefersWithin low high ↔ ∀ child ∈ t.children, child.RefersWithin low high := by
  rw [RefersWithin, references_eq h]
  constructor
  · intro hall child hchild slot hslot
    exact hall slot (List.mem_flatMap.mpr ⟨child, hchild, hslot⟩)
  · intro hall slot hslot
    obtain ⟨child, hchild, hslot⟩ := List.mem_flatMap.mp hslot
    exact hall child hchild slot hslot

theorem refersWithin_array {low high : Nat} {items : List Tree} :
    (Tree.array items).RefersWithin low high ↔ ∀ t ∈ items, t.RefersWithin low high :=
  refersWithin_iff rfl

theorem refersWithin_dict {low high : Nat} {entries : List (String × Tree)} :
    (Tree.dict entries).RefersWithin low high ↔ ∀ e ∈ entries, e.2.RefersWithin low high := by
  rw [refersWithin_iff rfl, children, List.forall_mem_map]

/-- A tree without references refers within any bounds. -/
theorem refersWithin_of_scalar {low high : Nat} {t : Tree} (huid : t.uid? = none)
    (h : t.children = []) : t.RefersWithin low high := by
  rw [refersWithin_iff huid, h]
  exact List.forall_mem_nil _

theorem refersWithin_uid {low high slot : Nat} (hlow : low ≤ slot) (hhigh : slot < high) :
    (Tree.uid slot).RefersWithin low high := by
  intro other hother
  obtain rfl : slot = other := by
    by_cases hslot : slot = 0
    · subst hslot
      cases hother
    · rw [references_uid hslot] at hother
      exact (List.mem_singleton.mp hother).symm
  exact ⟨hlow, hhigh⟩

/-! ## Height -/

mutual

/-- The number of nodes on the longest way from the tree down to a node without children. -/
def height : Tree → Nat
  | .array items => itemsHeight items + 1
  | .dict entries => entriesHeight entries + 1
  | _ => 1
termination_by structural t => t

/-- The greatest height in a list of trees. -/
def itemsHeight : List Tree → Nat
  | [] => 0
  | t :: ts => max t.height (itemsHeight ts)
termination_by structural ts => ts

/-- The greatest height of the values of entries. -/
def entriesHeight : List (String × Tree) → Nat
  | [] => 0
  | (_, t) :: es => max t.height (entriesHeight es)
termination_by structural es => es

end

theorem one_le_height (t : Tree) : 1 ≤ t.height := by
  cases t <;> simp [height]

theorem itemsHeight_le {items : List Tree} {bound : Nat} :
    itemsHeight items ≤ bound ↔ ∀ t ∈ items, t.height ≤ bound := by
  induction items with
  | nil => simp [itemsHeight]
  | cons t ts ih => rw [itemsHeight, Nat.max_le, ih, List.forall_mem_cons]

theorem entriesHeight_le {entries : List (String × Tree)} {bound : Nat} :
    entriesHeight entries ≤ bound ↔ ∀ e ∈ entries, e.2.height ≤ bound := by
  induction entries with
  | nil => simp [entriesHeight]
  | cons e es ih => rw [entriesHeight, Nat.max_le, ih, List.forall_mem_cons]

theorem height_array_le {items : List Tree} {bound : Nat} :
    (Tree.array items).height ≤ bound + 1 ↔ ∀ t ∈ items, t.height ≤ bound := by
  rw [height, Nat.add_le_add_iff_right, itemsHeight_le]

theorem height_dict_le {entries : List (String × Tree)} {bound : Nat} :
    (Tree.dict entries).height ≤ bound + 1 ↔ ∀ e ∈ entries, e.2.height ≤ bound := by
  rw [height, Nat.add_le_add_iff_right, entriesHeight_le]

/-! ## Well-formed trees -/

theorem wellFormedItems_iff (items : List Tree) :
    WellFormedItems items ↔ ∀ t ∈ items, t.WellFormed := by
  induction items with
  | nil => simp [WellFormedItems]
  | cons t ts ih => simp [WellFormedItems, ih]

theorem wellFormedEntries_iff (entries : List (String × Tree)) :
    WellFormedEntries entries ↔ ∀ e ∈ entries, e.2.WellFormed := by
  induction entries with
  | nil => simp [WellFormedEntries]
  | cons e es ih => obtain ⟨key, t⟩ := e; simp [WellFormedEntries, ih]

theorem wellFormed_array (items : List Tree) :
    (Tree.array items).WellFormed ↔ ∀ t ∈ items, t.WellFormed :=
  wellFormedItems_iff items

theorem wellFormed_dict (entries : List (String × Tree)) :
    (Tree.dict entries).WellFormed ↔
      Dict.Distinct entries ∧ ∀ e ∈ entries, e.2.WellFormed := by
  rw [WellFormed, wellFormedEntries_iff]

end Tree

end PlistCodec
