import Mathlib.Data.List.Forall2
import PlistCodec.Archive.Basic
import PlistCodec.Proofs.Tree.Nodes

/-!
# The graph that a node stands for

A node of an archive stands for a graph: the node itself and everything that its references lead to.
A walk from the node follows every reference, except those to slot 0, and puts together what it
meets; a `Summary` says how.  Two of them matter:

* the *unfolding* of a node is the tree with the unfolding of the object in place of every
  reference;
* the *visit* of a node is the list of the slots that the walk reaches, each before those behind it.

A walk is bounded by a number of levels, but what it yields does not depend on the number
(`walkWithin_mono`), so a node has one unfolding and one visit at most (`Yields.unique`).  On a
cyclic graph no walk ends.
-/

namespace PlistCodec

theorem mapM_eq_some_iff {α β : Type} {f : α → Option β} {xs : List α} {ys : List β} :
    xs.mapM f = some ys ↔ List.Forall₂ (fun x y => f x = some y) xs ys := by
  induction xs generalizing ys with
  | nil => cases ys <;> simp
  | cons x xs ih =>
    rw [List.mapM_cons]
    constructor
    · intro h
      obtain ⟨y, hy, h⟩ := Option.bind_eq_some_iff.mp h
      obtain ⟨rest, hrest, h⟩ := Option.bind_eq_some_iff.mp h
      cases h
      exact .cons hy (ih.mp hrest)
    · rintro (_ | ⟨hy, hrest⟩)
      rw [hy, ih.mpr hrest]
      rfl

namespace Archive

/-! ## Walks -/

/-- How a walk over a graph puts together what it meets. -/
structure Summary (α : Type) where
  /-- What a reference to slot 0 yields. -/
  null : α
  /-- What a reference to another slot yields, given what the object in the slot yields. -/
  reference : Nat → α → α
  /-- What any other node yields, given what its children yield. -/
  node : Tree → List α → α

/-- What a walk from a tree yields, where `find` gives the object in a slot.  References and
containers may nest `levels` deep. -/
def walkWithin {α : Type} (s : Summary α) (find : Nat → Option Tree) :
    (levels : Nat) → Tree → Option α
  | 0, _ => none
  | levels + 1, .uid slot =>
    if slot = 0 then some s.null
    else (find slot).bind fun t => (walkWithin s find levels t).map (s.reference slot)
  | levels + 1, t => (t.children.mapM (walkWithin s find levels)).map (s.node t)

/-- The object in a slot, if there is one. -/
def find? (a : Archive) (slot : Nat) : Option Tree := (a.object slot).toOption

/-- A walk from the node `t` of the archive ends and yields `x`. -/
def Yields {α : Type} (s : Summary α) (a : Archive) (t : Tree) (x : α) : Prop :=
  ∃ levels, walkWithin s a.find? levels t = some x

/-- Every reference is replaced by the unfolding of the object in its slot, and one to slot 0 stays
as it is. -/
def unfolding : Summary Tree where
  null := .uid 0
  reference _ u := u
  node := Tree.withChildren

/-- The slots that are reached, each before those behind it. -/
def visit : Summary (List Nat) where
  null := []
  reference slot slots := slot :: slots
  node _ slots := slots.flatten

/-! ## What a walk yields does not depend on the number of levels -/

section Walks

variable {α : Type} {s : Summary α} {find : Nat → Option Tree} {levels : Nat}

/-- A node that is no reference yields what its children make up. -/
theorem walkWithin_eq_some_iff {t : Tree} (h : t.uid? = none) {x : α} :
    walkWithin s find (levels + 1) t = some x ↔
      ∃ xs, List.Forall₂ (fun t x => walkWithin s find levels t = some x) t.children xs ∧
        s.node t xs = x := by
  have hwalk : walkWithin s find (levels + 1) t
      = (t.children.mapM (walkWithin s find levels)).map (s.node t) := by
    cases t with
    | uid slot => cases h
    | _ => rfl
  rw [hwalk, Option.map_eq_some_iff]
  simp only [mapM_eq_some_iff]

/-- A reference yields what the object in its slot yields. -/
theorem walkWithin_uid_eq_some_iff {slot : Nat} (h : slot ≠ 0) {x : α} :
    walkWithin s find (levels + 1) (.uid slot) = some x ↔
      ∃ t y, find slot = some t ∧ walkWithin s find levels t = some y ∧ s.reference slot y = x := by
  rw [walkWithin, if_neg h]
  simp only [Option.bind_eq_some_iff, Option.map_eq_some_iff]
  constructor
  · rintro ⟨t, ht, y, hy, hx⟩
    exact ⟨t, y, ht, hy, hx⟩
  · rintro ⟨t, y, ht, hy, hx⟩
    exact ⟨t, ht, y, hy, hx⟩

theorem walkWithin_mono {more : Nat} (hle : levels ≤ more) {t : Tree} {x : α}
    (h : walkWithin s find levels t = some x) : walkWithin s find more t = some x := by
  induction levels generalizing more t x with
  | zero => cases h
  | succ levels ih =>
    obtain ⟨more, rfl⟩ : ∃ m, more = m + 1 := ⟨more - 1, by omega⟩
    have hle' : levels ≤ more := Nat.le_of_succ_le_succ hle
    cases t with
    | uid slot =>
      by_cases hslot : slot = 0
      · subst hslot
        exact h
      · obtain ⟨t, y, ht, hy, hx⟩ := (walkWithin_uid_eq_some_iff hslot).mp h
        exact (walkWithin_uid_eq_some_iff hslot).mpr ⟨t, y, ht, ih hle' hy, hx⟩
    | _ =>
      obtain ⟨xs, hxs, hx⟩ := (walkWithin_eq_some_iff rfl).mp h
      exact (walkWithin_eq_some_iff rfl).mpr ⟨xs, hxs.imp fun _ _ h => ih hle' h, hx⟩

end Walks

/-- A walk yields one thing at most. -/
theorem Yields.unique {α : Type} {s : Summary α} {a : Archive} {t : Tree} {x y : α}
    (hx : a.Yields s t x) (hy : a.Yields s t y) : x = y := by
  obtain ⟨levels, hx⟩ := hx
  obtain ⟨more, hy⟩ := hy
  have hx' := walkWithin_mono (Nat.le_max_left levels more) hx
  have hy' := walkWithin_mono (Nat.le_max_right levels more) hy
  exact Option.some.inj (hx'.symm.trans hy')

end Archive

end PlistCodec
