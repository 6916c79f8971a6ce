import PlistCodec.Proofs.Tree.Nodes
import PlistCodec.Tree.UidMarker

/-!
# Markers in place of references

A tree that is to be written as XML has its references replaced by markers, and one that was read
from XML has its markers replaced by references.  Each replacement undoes the other one, on the
trees in which there is nothing yet of what it makes: a tree that holds a marker from the start
cannot be told afterwards from one with a reference there, and a tree with references has no XML
form of its own.  Between these two kinds of trees the replacements are a bijection
(`markUids_bijection`).

A marker is taken out before anything in it is looked at.  What keeps this from reaching too far is
that a replacement makes an integer of nothing but that integer (`markUids_eq_int_iff`,
`unmarkUids_eq_int_iff`), so it neither makes a marker of a dictionary nor breaks one up.
-/

namespace PlistCodec.Tree

/-! ## Trees without markers, and without references -/

/-- No dictionary of the tree is a marker. -/
def Unmarked (t : Tree) : Prop := ∀ slot, uidMarker slot ∉ t.nodes

/-- No node of the tree is a reference. -/
def Unreferring (t : Tree) : Prop := ∀ slot, uid slot ∉ t.nodes

theorem unmarked_array {items : List Tree} :
    (Tree.array items).Unmarked ↔ ∀ t ∈ items, t.Unmarked := by
  unfold Unmarked
  rw [nodes_array]
  constructor
  · intro h t ht slot hnode
    exact h slot (List.mem_cons_of_mem _ (List.mem_flatMap.mpr ⟨t, ht, hnode⟩))
  · intro h slot hnode
    rcases List.mem_cons.mp hnode with hself | hnode
    · cases hself
    · obtain ⟨t, ht, hnode⟩ := List.mem_flatMap.mp hnode
      exact h t ht slot hnode

theorem unmarked_dict {entries : List (String × Tree)} :
    (Tree.dict entries).Unmarked ↔
      (∀ slot, Tree.dict entries ≠ uidMarker slot) ∧ ∀ e ∈ entries, e.2.Unmarked := by
  unfold Unmarked
  rw [nodes_dict]
  constructor
  · intro h
    refine ⟨fun slot hself => h slot (hself ▸ List.mem_cons_self), fun e he slot hnode => ?_⟩
    exact h slot (List.mem_cons_of_mem _ (List.mem_flatMap.mpr ⟨e, he, hnode⟩))
  · rintro ⟨hself, hvalues⟩ slot hnode
    rcases List.mem_cons.mp hnode with heq | hnode
    · exact hself slot heq.symm
    · obtain ⟨e, he, hnode⟩ := List.mem_flatMap.mp hnode
      exact hvalues e he slot hnode

theorem unreferring_array {items : List Tree} :
    (Tree.array items).Unreferring ↔ ∀ t ∈ items, t.Unreferring := by
  unfold Unreferring
  simp only [nodes_array, List.mem_cons, reduceCtorEq, false_or, List.mem_flatMap]
  exact ⟨fun h t ht slot hnode => h slot ⟨t, ht, hnode⟩,
    fun h slot ⟨t, ht, hnode⟩ => h t ht slot hnode⟩

theorem unreferring_dict {entries : List (String × Tree)} :
    (Tree.dict entries).Unreferring ↔ ∀ e ∈ entries, e.2.Unreferring := by
  unfold Unreferring
  simp only [nodes_dict, List.mem_cons, reduceCtorEq, false_or, List.mem_flatMap]
  exact ⟨fun h e he slot hnode => h slot ⟨e, he, hnode⟩,
    fun h slot ⟨e, he, hnode⟩ => h e he slot hnode⟩

/-! ## Replacing in containers -/

theorem map_eq_self {α : Type} {f : α → α} {xs : List α} (h : ∀ x ∈ xs, f x = x) :
    xs.map f = xs :=
  (List.map_congr_left h).trans (List.map_id' xs)

theorem markItems_eq_map (items : List Tree) : markItems items = items.map markUids := by
  induction items with
  | nil => rfl
  | cons t ts ih => rw [markItems, ih, List.map_cons]

theorem unmarkItems_eq_map (items : List Tree) : unmarkItems items = items.map unmarkUids := by
  induction items with
  | nil => rfl
  | cons t ts ih => rw [unmarkItems, ih, List.map_cons]

/-- Keys and their order stay. -/
theorem markEntries_eq_map (entries : List (String × Tree)) :
    markEntries entries = entries.map fun e => (e.1, e.2.markUids) := by
  induction entries with
  | nil => rfl
  | cons e es ih => rw [markEntries, ih, List.map_cons]

/-- Keys and their order stay. -/
theorem unmarkEntries_eq_map (entries : List (String × Tree)) :
    unmarkEntries entries = entries.map fun e => (e.1, e.2.unmarkUids) := by
  induction entries with
  | nil => rfl
  | cons e es ih => rw [unmarkEntries, ih, List.map_cons]

theorem markUids_array (items : List Tree) :
    (Tree.array items).markUids = .array (items.map markUids) := by
  rw [markUids, markItems_eq_map]

theorem markUids_dict (entries : List (String × Tree)) :
    (Tree.dict entries).markUids = .dict (entries.map fun e => (e.1, e.2.markUids)) := by
  rw [markUids, markEntries_eq_map]

theorem unmarkUids_array (items : List Tree) :
    (Tree.array items).unmarkUids = .array (items.map unmarkUids) := by
  rw [unmarkUids, unmarkItems_eq_map]

/-! ## Markers -/

theorem markedSlot?_eq_some_iff {entries : List (String × Tree)} {slot : Nat} :
    markedSlot? entries = some slot ↔ Tree.dict entries = uidMarker slot := by
  match entries with
  | [] => simp [markedSlot?, uidMarker]
  | [(key, value)] =>
    simp [markedSlot?, uidMarker, unsigned?_eq_some_iff]
  | first :: second :: rest => simp [markedSlot?, uidMarker]

theorem markedSlot?_eq_none_iff {entries : List (String × Tree)} :
    markedSlot? entries = none ↔ ∀ slot, Tree.dict entries ≠ uidMarker slot := by
  rw [Option.eq_none_iff_forall_ne_some]
  exact forall_congr' fun _ => not_congr markedSlot?_eq_some_iff

theorem unmarkUids_uidMarker (slot : Nat) : (uidMarker slot).unmarkUids = .uid slot := by
  have hslot : markedSlot? [(uidKey, .int slot)] = some slot := markedSlot?_eq_some_iff.mpr rfl
  simp only [uidMarker, unmarkUids, hslot]

/-- A dictionary that is no marker stays one, with its keys in their order. -/
theorem unmarkUids_dict {entries : List (String × Tree)}
    (h : ∀ slot, Tree.dict entries ≠ uidMarker slot) :
    (Tree.dict entries).unmarkUids = .dict (entries.map fun e => (e.1, e.2.unmarkUids)) := by
  simp only [unmarkUids, markedSlot?_eq_none_iff.mpr h, unmarkEntries_eq_map]

/-! ## No markers are made, and none are lost -/

theorem markUids_eq_int_iff {t : Tree} {n : Int} : t.markUids = .int n ↔ t = .int n := by
  cases t <;> simp [markUids, uidMarker]

theorem unmarkUids_eq_int_iff {t : Tree} {n : Int} : t.unmarkUids = .int n ↔ t = .int n := by
  cases t with
  | dict entries =>
    cases h : markedSlot? entries <;> simp [unmarkUids, h]
  | _ => simp [unmarkUids]

/-- A change of the values that makes an integer of nothing but that integer leaves the same
dictionaries markers as before. -/
theorem dict_map_eq_uidMarker_iff {f : Tree → Tree} (hf : ∀ {t n}, f t = .int n ↔ t = .int n)
    {entries : List (String × Tree)} {slot : Nat} :
    Tree.dict (entries.map fun e => (e.1, f e.2)) = uidMarker slot ↔
      Tree.dict entries = uidMarker slot := by
  match entries with
  | [] => simp [uidMarker]
  | [(key, value)] => simp [uidMarker, hf]
  | first :: second :: rest => simp [uidMarker]

/-! ## There and back -/

/-- **References come back.**  The induction is on the tree; at a dictionary that is no marker,
marking has not made it one. -/
theorem unmarkUids_markUids {t : Tree} (h : t.Unmarked) : t.markUids.unmarkUids = t := by
  induction t using Tree.induct with
  | uid slot => exact unmarkUids_uidMarker slot
  | array items ih =>
    have hitems := unmarked_array.mp h
    rw [markUids_array, unmarkUids_array, List.map_map]
    simp only [Tree.array.injEq]
    exact map_eq_self fun t ht => ih t ht (hitems t ht)
  | dict entries ih =>
    obtain ⟨hself, hvalues⟩ := unmarked_dict.mp h
    have hmarked : ∀ slot,
        Tree.dict (entries.map fun e => (e.1, e.2.markUids)) ≠ uidMarker slot :=
      fun slot => mt (dict_map_eq_uidMarker_iff markUids_eq_int_iff).mp (hself slot)
    rw [markUids_dict, unmarkUids_dict hmarked, List.map_map]
    simp only [Tree.dict.injEq]
    exact map_eq_self fun e he => Prod.ext rfl (ih e he (hvalues e he))
  | _ => rfl

/-- **Markers come back.** -/
theorem markUids_unmarkUids {t : Tree} (h : t.Unreferring) : t.unmarkUids.markUids = t := by
  induction t using Tree.induct with
  | uid slot => exact absurd (mem_nodes_self _) (h slot)
  | array items ih =>
    have hitems := unreferring_array.mp h
    rw [unmarkUids_array, markUids_array, List.map_map]
    simp only [Tree.array.injEq]
    exact map_eq_self fun t ht => ih t ht (hitems t ht)
  | dict entries ih =>
    have hvalues := unreferring_dict.mp h
    by_cases hself : ∃ slot, Tree.dict entries = uidMarker slot
    · obtain ⟨slot, hslot⟩ := hself
      rw [hslot, unmarkUids_uidMarker, markUids]
    · rw [unmarkUids_dict fun slot hslot => hself ⟨slot, hslot⟩, markUids_dict, List.map_map]
      simp only [Tree.dict.injEq]
      exact map_eq_self fun e he => Prod.ext rfl (ih e he (hvalues e he))
  | _ => rfl

/-- Marking leaves no reference, not even in the markers. -/
theorem unreferring_markUids (t : Tree) : t.markUids.Unreferring := by
  induction t using Tree.induct with
  | uid slot =>
    intro other hother
    simp [markUids, uidMarker, nodes, entryNodes] at hother
  | array items ih =>
    rw [markUids_array, unreferring_array, List.forall_mem_map]
    exact ih
  | dict entries ih =>
    rw [markUids_dict, unreferring_dict, List.forall_mem_map]
    exact ih
  | _ =>
    intro other hother
    simp [markUids, nodes] at hother

/-- Unmarking leaves no marker, not even around what was one. -/
theorem unmarked_unmarkUids (t : Tree) : t.unmarkUids.Unmarked := by
  induction t using Tree.induct with
  | array items ih =>
    rw [unmarkUids_array, unmarked_array, List.forall_mem_map]
    exact ih
  | dict entries ih =>
    by_cases hself : ∃ slot, Tree.dict entries = uidMarker slot
    · obtain ⟨slot, hslot⟩ := hself
      rw [hslot, unmarkUids_uidMarker]
      intro other hother
      simp [uidMarker, nodes] at hother
    · have hnone : ∀ slot, Tree.dict entries ≠ uidMarker slot := fun slot h => hself ⟨slot, h⟩
      rw [unmarkUids_dict hnone, unmarked_dict, List.forall_mem_map]
      refine ⟨fun slot hslot => hnone slot ?_, ih⟩
      exact (dict_map_eq_uidMarker_iff unmarkUids_eq_int_iff).mp hslot
  | _ =>
    intro other hother
    simp [unmarkUids, uidMarker, nodes] at hother

/-- **Markers and references.**  Replacing references by markers takes the trees without markers to
those without references, replacing markers by references takes these to those, and each undoes the
other.  Trees are equal here if they have the same entries in the same order, so no dictionary has
its order changed, at any level. -/
theorem markUids_bijection :
    (∀ t : Tree, t.Unmarked → t.markUids.Unreferring ∧ t.markUids.unmarkUids = t) ∧
    ∀ t : Tree, t.Unreferring → t.unmarkUids.Unmarked ∧ t.unmarkUids.markUids = t :=
  ⟨fun t h => ⟨unreferring_markUids t, unmarkUids_markUids h⟩,
    fun t h => ⟨unmarked_unmarkUids t, markUids_unmarkUids h⟩⟩

/-- Dictionaries that are almost markers: around a reference, with a negative number, and with a
second key. -/
def almostMarkers : Tree :=
  .array [.dict [(uidKey, .uid 7)], .dict [(uidKey, .int (-1))],
    .dict [(uidKey, .int 1), ("a", .bool true)]]

/-- The first of the dictionaries has a marker in the place of its reference, and is none itself. -/
theorem markUids_bijection_almostMarkers :
    almostMarkers.Unmarked ∧ almostMarkers.markUids.Unreferring ∧
      almostMarkers.markUids.unmarkUids = almostMarkers ∧
      almostMarkers.markUids.unmarkUids.markUids = almostMarkers.markUids := by
  have hunmarked : almostMarkers.Unmarked := by
    simp [Unmarked, almostMarkers, uidMarker, nodes, itemNodes, entryNodes]
  obtain ⟨hunreferring, hback⟩ := markUids_bijection.1 almostMarkers hunmarked
  exact ⟨hunmarked, hunreferring, hback, (markUids_bijection.2 _ hunreferring).2⟩

end PlistCodec.Tree
