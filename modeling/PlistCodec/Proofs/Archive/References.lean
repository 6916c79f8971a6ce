import PlistCodec.Proofs.Archive.History

/-!
# No reference leads out of the table

The archives that calls make of the new archive are *closed*: whatever refers to a slot, in the
table or under `$top`, refers to one that is there.  A call that fails leaves its objects behind,
half done, and the archive is closed all the same, because a forward reference is written in the
same step as its target or to a slot that the very walk has appended.

All this is up to the property lists that a caller stores as they are: a reference inside one of
these is stored unread, and has to lead to a slot that is there when the call is made.  Property
lists to be archived as objects, and archives to be copied from, may hold anything.
-/

namespace PlistCodec.Archive

/-- All references of the archive are to slots of its table, whose first one holds `$null`. -/
structure Closed (a : Archive) : Prop where
  /-- There is a table. -/
  hasTable : HasTable a
  /-- Its first slot holds the string for no object. -/
  getElem?_zero : a.table[0]? = some (.string nullText)
  /-- References are to slots of the table. -/
  refersWithin : ∀ t ∈ a.stored, t.RefersWithin 0 a.table.length

/-- The references of the property lists that a call stores as they are lead to slots that are
there. -/
def Call.RefersInto (call : Call) (a : Archive) : Prop :=
  ∀ t ∈ call.rawTrees, ∀ slot, Tree.uid slot ∈ t.nodes → slot < a.table.length

theorem closed_new : Closed new where
  hasTable := hasTable_new
  getElem?_zero := rfl
  refersWithin := by
    have hstored : new.stored = [.string nullText] := rfl
    rw [hstored, List.forall_mem_singleton]
    exact Tree.refersWithin_of_scalar rfl rfl

/-- **One call.**  It leaves a closed archive closed, whether it succeeds or not. -/
theorem Closed.after {a : Archive} (h : Closed a) {call : Call} (hcall : call.RefersInto a) :
    Closed (a.after call) := by
  have hraw : ∀ t ∈ call.rawTrees, t.RefersWithin 0 a.table.length := by
    intro t ht slot hslot
    exact ⟨Nat.zero_le _, hcall t ht slot (Tree.mem_references_iff.mp hslot).1⟩
  have hfollows := after_follows h.hasTable hraw
  have hle : a.table.length ≤ (a.after call).table.length := by
    rw [h.hasTable.length_table, hfollows.hasTable.length_table]
    exact Nat.succ_le_succ hfollows.lastUid_le
  refine ⟨hfollows.hasTable, hfollows.getElem?_table 0 _ h.getElem?_zero rfl, ?_⟩
  refine hfollows.refersWithin _ (Nat.max_le.mpr ⟨hle, ?_⟩) fun t ht =>
    (h.refersWithin t ht).mono (Nat.le_refl _) hle
  exact Nat.le_of_eq hfollows.hasTable.length_table.symm

theorem Closed.of_reached {a : Archive}
    (h : Reached (· = new) (fun a call => call.RefersInto a) a) : Closed a := by
  induction h with
  | initial h => rw [h]; exact closed_new
  | step _ hcall ih => exact ih.after hcall

/-- **No reference leads out of the table.**  After any calls on the new archive, successful or not,
slot 0 holds `$null` and every reference in the table and under `$top` is to a slot of the table, as
long as the property lists that the calls store as they are refer to slots that are there. -/
theorem uid_lt_length_of_reached {a : Archive}
    (h : Reached (· = new) (fun a call => call.RefersInto a) a) :
    ∃ objects, a.objects = .ok objects ∧ objects[0]? = some (.string nullText) ∧
      (∀ object ∈ objects, ∀ slot, Tree.uid slot ∈ object.nodes → slot < objects.length) ∧
      ∀ top, Dict.get? a.root topKey = some top →
        ∀ slot, Tree.uid slot ∈ top.nodes → slot < objects.length := by
  have hclosed := Closed.of_reached h
  have hall : ∀ t ∈ a.stored, ∀ slot, Tree.uid slot ∈ t.nodes → slot < a.table.length := by
    intro t ht slot hslot
    by_cases hzero : slot = 0
    · rw [hzero, hclosed.hasTable.length_table]
      exact Nat.succ_pos _
    · exact (hclosed.refersWithin t ht slot (Tree.mem_references_iff.mpr ⟨hslot, hzero⟩)).2
  refine ⟨a.table, hclosed.hasTable.objects_eq, hclosed.getElem?_zero, ?_, ?_⟩
  · exact fun object hobject => hall object (List.mem_append_left _ hobject)
  · intro top htop
    refine hall top (List.mem_append_right _ ?_)
    rw [htop]
    exact List.mem_singleton.mpr rfl

/-- An array whose only item refers to itself. -/
def endless : Archive where
  root := [(objectsKey, .array [.string nullText, .array [.uid 1]])]
  lastUid := 1

/-- An array instance that holds its own description, and what a walk on `endless` leaves. -/
def afterEndlessWalk : Archive :=
  ((new.after (.addTopClass "NSArray" ["NSObject"])).after
    (.appendItem 1 (.inlineTree (.array [.uid 2])))).after (.merge endless (.uid 1))

theorem uid_lt_length_afterEndlessWalk :
    Reached (· = new) (fun a call => call.RefersInto a) afterEndlessWalk ∧
      ∃ objects, afterEndlessWalk.objects = .ok objects ∧
        objects[0]? = some (.string nullText) ∧
        (∀ object ∈ objects, ∀ slot, Tree.uid slot ∈ object.nodes → slot < objects.length) ∧
        ∀ top, Dict.get? afterEndlessWalk.root topKey = some top →
          ∀ slot, Tree.uid slot ∈ top.nodes → slot < objects.length := by
  have hreached : Reached (· = new) (fun a call => call.RefersInto a) afterEndlessWalk := by
    refine .step (.step (.step (.initial rfl) ?_) ?_) ?_
    · exact List.forall_mem_nil _
    · intro t ht slot hslot
      have hlength : (new.after (.addTopClass "NSArray" ["NSObject"])).table.length = 3 := by
        decide +kernel
      rw [List.mem_singleton.mp ht] at hslot
      have hslot' : slot = 2 := by simpa [Tree.nodes, Tree.itemNodes] using hslot
      rw [hlength, hslot']
      decide
    · exact List.forall_mem_nil _
  exact ⟨hreached, uid_lt_length_of_reached hreached⟩

end PlistCodec.Archive
