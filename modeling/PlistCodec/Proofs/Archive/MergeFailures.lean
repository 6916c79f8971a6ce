import PlistCodec.Proofs.Archive.History

/-!
# Merges that fail

A merge walks from a node through the containers and references of the source.  It fails exactly if
that walk comes to a reference that leads out of the source, or to a node deeper than the limit, as
it does on every cycle (`mergeNode_fault_iff`).

A merge that fails has taken slots by then.  They stay behind the old objects, which are as they
were: finished copies, and the placeholder for everything that was not finished
(`mergeObject_fault`).
-/

namespace PlistCodec.Archive

/-! ## How far a walk gets -/

/-- A walk from the node `t` of an archive comes to the node `u`, with `depth` steps into containers
or along references. -/
inductive WalksTo (a : Archive) : (t : Tree) → (depth : Nat) → (u : Tree) → Prop where
  /-- It begins at the node. -/
  | here {t : Tree} : WalksTo a t 0 t
  /-- It goes on into a container. -/
  | child {t child u : Tree} {depth : Nat} (hchild : child ∈ t.children)
      (h : WalksTo a child depth u) : WalksTo a t (depth + 1) u
  /-- It goes on to the object that is referred to. -/
  | reference {slot depth : Nat} {object u : Tree} (hslot : slot ≠ 0)
      (hobject : a.find? slot = some object) (h : WalksTo a object depth u) :
      WalksTo a (.uid slot) (depth + 1) u

/-- A reference that leads out of the table. -/
def LeadsOut (a : Archive) (u : Tree) : Prop :=
  ∃ slot, slot ≠ 0 ∧ a.table.length ≤ slot ∧ u = .uid slot

/-- A walk that may go `levels` deep comes to a node that is deeper, or to a reference that leads
out of the table. -/
def GetsStuck (a : Archive) (levels : Nat) (t : Tree) : Prop :=
  ∃ depth u, WalksTo a t depth u ∧ (levels ≤ depth ∨ LeadsOut a u)

section Walking

variable {source a : Archive} {levels slot : Nat} {t : Tree}

theorem find?_eq_none_iff : source.find? slot = none ↔ source.table.length ≤ slot := by
  unfold find? object table
  cases source.objects with
  | error e => simp [Except.toOption, bind, Except.bind]
  | ok objects =>
    simp only [Except.toOption, Option.getD_some, bind, Except.bind]
    rw [← List.getElem?_eq_none_iff]
    cases objects[slot]? <;> simp [orFail]

theorem getsStuck_zero : GetsStuck source 0 t := ⟨0, t, .here, .inl (Nat.le_refl 0)⟩

/-- A walk that goes a step further gets stuck where the walk from there does. -/
theorem GetsStuck.step {u : Tree}
    (hstep : ∀ {depth v}, WalksTo source u depth v → WalksTo source t (depth + 1) v)
    (h : GetsStuck source levels u) : GetsStuck source (levels + 1) t := by
  obtain ⟨depth, v, hwalks, hstuck⟩ := h
  exact ⟨depth + 1, v, hstep hwalks, hstuck.imp_left Nat.succ_le_succ⟩

theorem getsStuck_container (h : t.uid? = none) :
    GetsStuck source (levels + 1) t ↔ ∃ child ∈ t.children, GetsStuck source levels child := by
  constructor
  · rintro ⟨depth, u, hwalks, hstuck⟩
    cases hwalks with
    | here =>
      rcases hstuck with hdeep | ⟨slot, -, -, rfl⟩
      · cases hdeep
      · cases h
    | child hchild hwalks =>
      exact ⟨_, hchild, _, u, hwalks, hstuck.imp_left Nat.le_of_succ_le_succ⟩
    | reference => cases h
  · rintro ⟨child, hchild, hstuck⟩
    exact hstuck.step (.child hchild)

theorem not_getsStuck_null : ¬GetsStuck source (levels + 1) (.uid 0) := by
  rintro ⟨depth, u, hwalks, hstuck⟩
  cases hwalks with
  | here =>
    rcases hstuck with hdeep | ⟨slot, hslot, -, huid⟩
    · cases hdeep
    · cases huid
      exact hslot rfl
  | child hchild => cases hchild
  | reference hslot => exact hslot rfl

theorem getsStuck_reference (hslot : slot ≠ 0) {object : Tree}
    (hobject : source.find? slot = some object) :
    GetsStuck source (levels + 1) (.uid slot) ↔ GetsStuck source levels object := by
  constructor
  · rintro ⟨depth, u, hwalks, hstuck⟩
    cases hwalks with
    | here =>
      rcases hstuck with hdeep | ⟨_, -, hout, huid⟩
      · cases hdeep
      · cases huid
        rw [find?_eq_none_iff.mpr hout] at hobject
        cases hobject
    | child hchild => cases hchild
    | reference _ hfound hwalks =>
      rw [hobject] at hfound
      cases hfound
      exact ⟨_, u, hwalks, hstuck.imp_left Nat.le_of_succ_le_succ⟩
  · exact fun hstuck => hstuck.step (.reference hslot hobject)

theorem getsStuck_of_find?_eq_none (hslot : slot ≠ 0) (h : source.find? slot = none) :
    GetsStuck source levels (.uid slot) :=
  ⟨0, _, .here, .inr ⟨slot, hslot, find?_eq_none_iff.mp h, rfl⟩⟩

/-! ## When a merge fails -/

theorem mergeItems_fault_iff {walk : Tree → Archive → Merged Tree} {stuck : Tree → Prop}
    (htable : ∀ t a, HasTable a → HasTable (walk t a).archive)
    (hwalk : ∀ t a, HasTable a → ((walk t a).fault ≠ none ↔ stuck t)) (ts : List Tree)
    (ha : HasTable a) : (mergeItems walk ts a).fault ≠ none ↔ ∃ t ∈ ts, stuck t := by
  induction ts generalizing a with
  | nil => simp [mergeItems]
  | cons t ts ih =>
    have hb := htable t a ha
    rw [mergeItems, List.exists_mem_cons_iff, ← hwalk t a ha]
    generalize walk t a = m at hb ⊢
    obtain ⟨node, fault, b⟩ := m
    cases fault with
    | some e => simp
    | none => simp [← ih hb]

/-- **When a merge fails.**  The induction is on the levels, which each step of the walk takes one
of. -/
theorem mergeNode_fault_iff (source : Archive) (levels : Nat) (t : Tree) (ha : HasTable a) :
    (mergeNode source levels t a).fault ≠ none ↔ GetsStuck source levels t := by
  induction levels generalizing t a with
  | zero => simp [mergeNode, getsStuck_zero]
  | succ levels ih =>
    cases huid : t.uid? with
    | none =>
      rw [mergeNode_container source levels huid, getsStuck_container huid]
      exact mergeItems_fault_iff (fun t _ ha => (mergeNode_appended source levels t ha).hasTable ha)
        (fun t _ ha => ih t ha) t.children ha
    | some slot =>
      obtain rfl := Tree.uid?_eq_some_iff.mp huid
      rw [mergeNode]
      by_cases hslot : slot = 0
      · subst hslot
        simp [not_getsStuck_null]
      · rw [if_neg hslot]
        cases hobject : source.object slot with
        | error e =>
          have hnone : source.find? slot = none := by rw [find?, hobject]; rfl
          simp [mergeSlot, hobject, getsStuck_of_find?_eq_none hslot hnone]
        | ok object =>
          have hb := ha.grown [placeholder]
          obtain ⟨new, hwalked⟩ := mergeNode_walked source levels object hb
          rw [ha.mergeSlot_eq hobject hwalked.archive_eq, ih object hb,
            getsStuck_reference hslot (find?_eq_some_of_object hobject)]

end Walking

/-! ## What is left of it -/

/-- What a merge that has failed has made of the archive `a`: the archive `b`, with the objects
`new` behind the table of `a`. -/
structure LeftBehind (source a b : Archive) (new : List Tree) : Prop where
  /-- The table of `a` ends with the slot that `a` knows as its last one. -/
  hasTable : HasTable a
  /-- The old objects are in their slots, and the new ones behind them. -/
  objects_eq : b.objects = .ok (a.table ++ new)
  /-- The last slot is known. -/
  length_objects : (a.table ++ new).length = b.lastUid + 1
  /-- Nothing else has changed: not the names of the root objects, and neither the version nor the
  archiver. -/
  get?_root : ∀ key, key ≠ objectsKey → Dict.get? b.root key = Dict.get? a.root key
  /-- In a new slot there is a finished copy, or what stands for no object. -/
  placeholder_or_copy : ∀ object ∈ new,
    object = .string nullText ∨ FinishedCopy source b.find? object
  /-- What is in a new slot refers to new slots at most. -/
  refersWithin : ∀ object ∈ new, object.RefersWithin (a.lastUid + 1) (b.lastUid + 1)
  /-- They are other slots, all of them behind it. -/
  forward : Forward (a.lastUid + 1) new

/-- **Merges that fail.**  A merge into an archive that calls can make fails exactly if the walk
from the node comes to a reference out of the source or to a node deeper than the limit.  What it
leaves is the old archive, and behind its table finished copies and placeholders. -/
theorem mergeObject_fault {source : Archive} {t : Tree} {a : Archive} (ha : Reachable a) :
    ((mergeObject source t a).fault ≠ none ↔
      ∃ depth u, WalksTo source t depth u ∧ (maxDepth < depth ∨ LeadsOut source u)) ∧
    ((mergeObject source t a).fault ≠ none →
      ∃ new, LeftBehind source a (mergeObject source t a).archive new) := by
  have htable := ha.hasTable
  refine ⟨mergeNode_fault_iff source (maxDepth + 1) t htable, fun _ => ?_⟩
  obtain ⟨new, hb, happended⟩ := mergeNode_appended source (maxDepth + 1) t htable
  obtain ⟨_, hwalk⟩ := mergeNode_walked source (maxDepth + 1) t htable
  obtain rfl := grown_inj (hb.symm.trans hwalk.archive_eq)
  rw [mergeObject, hb]
  refine ⟨new, htable, ?_, ?_, ?_, ?_, ?_, happended.forward⟩
  · rw [(htable.grown new).objects_eq, table_grown]
  · rw [← table_grown, (htable.grown new).length_table]
  · exact fun key hkey => get?_root_grown a new hkey
  · exact happended.placeholder_or_copy (htable.finds_grown new)
  · rw [lastUid_grown, Nat.add_right_comm]
    exact hwalk.refersWithin

/-- A source whose array refers to a string, and then to itself. -/
def revolving : Archive where
  root := [(objectsKey, .array [.string nullText, .string "kept", .array [.uid 1, .uid 2]])]
  lastUid := 2

/-- The copies of the string are finished before the walk is given up. -/
theorem mergeObject_fault_revolving : Reachable new ∧
    (mergeObject revolving (.uid 2) new).fault ≠ none ∧
    (∃ depth u, WalksTo revolving (.uid 2) depth u ∧
      (maxDepth < depth ∨ LeadsOut revolving u)) ∧
    ∃ copies, LeftBehind revolving new (mergeObject revolving (.uid 2) new).archive copies := by
  have hreachable : Reachable new := .initial (.inl rfl)
  have hfault : (mergeObject revolving (.uid 2) new).fault ≠ none := by decide +kernel
  obtain ⟨hiff, hleft⟩ := @mergeObject_fault revolving (.uid 2) new hreachable
  exact ⟨hreachable, hfault, hiff.mp hfault, hleft hfault⟩

end PlistCodec.Archive
