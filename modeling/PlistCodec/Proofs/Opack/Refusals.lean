import PlistCodec.Proofs.Date.ReferenceSeconds
import PlistCodec.Proofs.Opack.RoundTrip
import PlistCodec.Proofs.Tree.Places

/-!
# What is not written

A place of a tree is refused for its depth, or else for its node: a reference has no form, nor has a
date without a calendar (`refusal?`).  Writing goes through the places in reading order and stops at
the first one that is refused (`failure?_encodeWithin`), so the failure says what is wrong there and
nothing about the places behind it (`encode_outcome`).
-/

namespace PlistCodec.Opack

/-! ## Places that are refused -/

/-- A node that has a written form as far as it goes itself. -/
def HasForm : Tree → Prop
  | .uid _ => False
  | .date d => d.toReferenceSeconds?.isSome
  | _ => True

/-- All nodes have written forms. -/
def Writable (v : Tree) : Prop := ∀ node ∈ v.nodes, HasForm node

/-- Why a place of a tree cannot be written.  Its depth is looked at before its node. -/
def refusal? (p : Tree.Place) : Option Error :=
  if maxDepth < p.depth then some (.recursionLimit maxDepth)
  else
    match p.node with
    | .uid _ => some (.unsupportedKind "uid")
    | .date d => if d.HasCalendar then none else some (.invalidDate d.lossyReferenceSeconds)
    | _ => none

theorem refusal?_of_deep {p : Tree.Place} (h : maxDepth < p.depth) :
    refusal? p = some (.recursionLimit maxDepth) :=
  if_pos h

theorem refusal?_eq_none_iff {p : Tree.Place} :
    refusal? p = none ↔ HasForm p.node ∧ p.depth ≤ maxDepth := by
  by_cases hdepth : maxDepth < p.depth
  · simp [refusal?_of_deep hdepth, Nat.not_le.mpr hdepth]
  · have hle : p.depth ≤ maxDepth := Nat.not_lt.mp hdepth
    unfold refusal?
    rw [if_neg hdepth]
    cases p.node with
    | date d => simp [HasForm, hle, Date.isSome_toReferenceSeconds?_iff]
    | _ => simp [HasForm, hle]

/-- A tree can be written, as far as its nodes go, exactly if it has no references and its dates
have a calendar. -/
theorem writable_iff {v : Tree} :
    Writable v ↔ (∀ slot, .uid slot ∉ v.nodes) ∧ ∀ d, .date d ∈ v.nodes → d.HasCalendar := by
  constructor
  · intro h
    exact ⟨fun slot hslot => h _ hslot,
      fun d hd => (Date.isSome_toReferenceSeconds?_iff d).mp (h _ hd)⟩
  · rintro ⟨huids, hdates⟩ node hnode
    cases node with
    | uid slot => exact huids slot hnode
    | date d => exact (Date.isSome_toReferenceSeconds?_iff d).mpr (hdates d hnode)
    | _ => trivial

/-! ## Failures of runs -/

/-- The failure of a run, if it has failed. -/
def failure? {α : Type} : Except Error α → Option Error
  | .ok _ => none
  | .error e => some e

theorem failure?_eq_none_iff {α : Type} {run : Except Error α} :
    failure? run = none ↔ ∃ a, run = .ok a := by
  cases run <;> simp [failure?]

theorem failure?_eq_some_iff {α : Type} {run : Except Error α} {e : Error} :
    failure? run = some e ↔ run = .error e := by
  cases run <;> simp [failure?]

theorem failure?_map {α β : Type} (f : α → β) (run : Except Error α) :
    failure? (run.map f) = failure? run := by
  cases run <;> rfl

/-! ## Writing stops at the first refusal -/

theorem failure?_encodeDate (d : Date) :
    failure? (encodeDate d)
      = if d.HasCalendar then none else some (.invalidDate d.lossyReferenceSeconds) := by
  rw [encodeDate]
  by_cases h : d.HasCalendar
  · obtain ⟨seconds, hseconds⟩ :=
      Option.isSome_iff_exists.mp ((Date.isSome_toReferenceSeconds?_iff d).mpr h)
    rw [hseconds, if_pos h]
    rfl
  · have hnone := mt (Date.isSome_toReferenceSeconds?_iff d).mp h
    rw [Option.not_isSome_iff_eq_none.mp hnone, if_neg h]
    rfl

theorem failure?_encodeItems {items : List Tree} {levels depth : Nat}
    (h : ∀ t ∈ items,
      failure? (encodeWithin t levels) = (t.placesFrom depth).findSome? refusal?) :
    failure? (encodeItems items levels)
      = (items.flatMap (Tree.placesFrom · depth)).findSome? refusal? := by
  induction items with
  | nil => rfl
  | cons t ts ih =>
    obtain ⟨hhead, htail⟩ := List.forall_mem_cons.mp h
    rw [encodeItems, List.flatMap_cons, List.findSome?_append, ← hhead, ← ih htail]
    cases encodeWithin t levels <;> cases encodeItems ts levels <;> rfl

theorem failure?_encodeEntries {entries : List (String × Tree)} {levels depth : Nat}
    (h : ∀ e ∈ entries,
      failure? (encodeWithin e.2 levels) = (e.2.placesFrom depth).findSome? refusal?) :
    failure? (encodeEntries entries levels)
      = (entries.flatMap (Tree.placesFrom ·.2 depth)).findSome? refusal? := by
  induction entries with
  | nil => rfl
  | cons e es ih =>
    obtain ⟨hhead, htail⟩ := List.forall_mem_cons.mp h
    rw [encodeEntries, List.flatMap_cons, List.findSome?_append, ← hhead, ← ih htail]
    cases encodeWithin e.2 levels <;> cases encodeEntries es levels <;> rfl

/-- A tree that lies too deep is refused for its own place, whatever is in it. -/
theorem findSome?_refusal_of_deep (t : Tree) {depth : Nat} (h : maxDepth < depth) :
    (t.placesFrom depth).findSome? refusal? = some (.recursionLimit maxDepth) := by
  have hself : refusal? ⟨depth, t⟩ = some (.recursionLimit maxDepth) := refusal?_of_deep h
  cases t <;> simp [Tree.placesFrom, hself]

/-- **The first refusal decides.**  The levels that are left are those from the depth of the tree
down to the deepest that is written; the induction is on the tree. -/
theorem failure?_encodeWithin {t : Tree} {levels depth : Nat} (h : depth + levels = maxDepth + 1) :
    failure? (encodeWithin t levels) = (t.placesFrom depth).findSome? refusal? := by
  induction t using Tree.induct generalizing levels depth
  all_goals
    obtain _ | levels := levels
    · rw [encodeWithin_zero, findSome?_refusal_of_deep _ (by omega)]
      rfl
    have hdepth : ¬maxDepth < depth := by omega
    rw [encodeWithin]
  case array items ih =>
    have hchild : depth + 1 + levels = maxDepth + 1 := by omega
    rw [failure?_map, failure?_encodeItems fun t ht => ih t ht hchild, Tree.placesFrom_array]
    simp [refusal?, hdepth]
  case dict entries ih =>
    have hchild : depth + 1 + levels = maxDepth + 1 := by omega
    rw [failure?_map, failure?_encodeEntries fun e he => ih e he hchild, Tree.placesFrom_dict]
    simp [refusal?, hdepth]
  case date d =>
    rw [failure?_encodeDate]
    simp [Tree.placesFrom, refusal?, hdepth]
  all_goals simp [Tree.placesFrom, refusal?, hdepth, failure?, Tree.kindName]

theorem failure?_encode (v : Tree) : failure? (encode v) = v.places.findSome? refusal? :=
  failure?_encodeWithin (Nat.zero_add _)

/-! ## Outcomes -/

theorem exists_encode_iff_places {v : Tree} :
    (∃ bytes, encode v = .ok bytes) ↔ Writable v ∧ ∀ p ∈ v.places, p.depth ≤ maxDepth := by
  rw [← failure?_eq_none_iff, failure?_encode, List.findSome?_eq_none_iff]
  simp only [refusal?_eq_none_iff, forall_and]
  exact and_congr_left fun _ => Tree.forall_node_places

/-- **What can be written**: the trees with forms for all nodes and with a level for each of them. -/
theorem exists_encode_iff {v : Tree} :
    (∃ bytes, encode v = .ok bytes) ↔ Writable v ∧ v.height ≤ maxDepth + 1 := by
  rw [exists_encode_iff_places, Tree.height_le_iff_depth_lt, Nat.zero_add]
  simp only [Nat.lt_succ_iff]
  rfl

theorem encode_of_lt_height {v : Tree} (hv : Writable v) (h : maxDepth + 1 < v.height) :
    encode v = .error (.recursionLimit maxDepth) := by
  cases hrun : encode v with
  | ok bytes => exact absurd (exists_encode_iff.mp ⟨bytes, hrun⟩).2 (Nat.not_le.mpr h)
  | error e =>
    have hfirst := failure?_eq_some_iff.mpr hrun
    rw [failure?_encode] at hfirst
    obtain ⟨p, hp, hrefusal⟩ := List.exists_of_findSome?_eq_some hfirst
    -- the refusal is not for the node, so it is for the depth
    have hform : HasForm p.node := Tree.forall_node_places.mpr hv p hp
    have hdeep : maxDepth < p.depth := by
      by_contra hle
      rw [refusal?_eq_none_iff.mpr ⟨hform, Nat.not_lt.mp hle⟩] at hrefusal
      cases hrefusal
    rw [refusal?_of_deep hdeep, Option.some.injEq] at hrefusal
    rw [hrefusal]

/-- **When writing fails, and with what.**  A tree is written exactly if it has no references, its
dates have a calendar and its nodes lie at most `maxDepth` deep.  If it is not written, the failure
is that of the first place in reading order that is refused. -/
theorem encode_outcome (v : Tree) :
    ((∃ bytes, encode v = .ok bytes) ↔
      (∀ slot, .uid slot ∉ v.nodes) ∧ (∀ d, .date d ∈ v.nodes → d.HasCalendar) ∧
        ∀ p ∈ v.places, p.depth ≤ maxDepth) ∧
    ∀ e, encode v = .error e ↔
      ∃ before p behind, v.places = before ++ p :: behind ∧ (∀ q ∈ before, refusal? q = none) ∧
        refusal? p = some e := by
  constructor
  · rw [exists_encode_iff_places, writable_iff, and_assoc]
  · intro e
    rw [← failure?_eq_some_iff, failure?_encode, List.findSome?_eq_some_iff]
    simp only [and_comm]

end PlistCodec.Opack
