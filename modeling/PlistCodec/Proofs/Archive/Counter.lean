import PlistCodec.Proofs.Archive.History

/-!
# Counting slots

The number of the last slot is kept beside the table, and not taken from it.  On every archive that
can be made the two agree, however the calls ended that made it; so the next object goes to the slot
whose number is the length of the table, and that is the slot that appending gives back.
-/

namespace PlistCodec.Archive

/-- The objects that a call places from the slot on that it gives back. -/
def Call.placed (slot : Nat) : Call → List Tree
  | .appendObject object => [object]
  | .appendClass name ancestors => [bareInstance (slot + 1), classDescription name ancestors]
  | .addTopClass name ancestors => [bareInstance (slot + 1), classDescription name ancestors]
  | _ => []

section Placing

variable {a b : Archive} {slot : Nat}

theorem HasTable.table_of_run_appendObject (ha : HasTable a) {object : Tree}
    (h : (appendObject object).run a = .ok slot b) :
    slot = a.table.length ∧ b.table = a.table ++ [object] := by
  rw [ha.run_appendObject] at h
  cases h
  simp [ha.length_table]

theorem HasTable.table_of_run_appendClass (ha : HasTable a) {name : String}
    {ancestors : List String} (h : (appendClass name ancestors).run a = .ok slot b) :
    slot = a.table.length ∧
      b.table = a.table ++ [bareInstance (slot + 1), classDescription name ancestors] := by
  by_cases hname : name.isEmpty = true
  · simp only [appendClass, hname, if_true] at h
    cases (run_bind_of_error rfl).symm.trans h
  · rw [ha.run_appendClass ancestors (by simpa using hname)] at h
    cases h
    simp [ha.length_table]

theorem HasTable.table_of_run_addTopClass (ha : HasTable a) {name : String}
    {ancestors : List String} (h : (addTopClass name ancestors).run a = .ok slot b) :
    slot = a.table.length ∧
      b.table = a.table ++ [bareInstance (slot + 1), classDescription name ancestors] := by
  obtain ⟨placed, c, hclass, h⟩ := exists_of_run_bind_eq_ok h
  obtain ⟨_, d, htop, h⟩ := exists_of_run_bind_eq_ok h
  obtain ⟨rfl, rfl⟩ : placed = slot ∧ d = b := by cases h; exact ⟨rfl, rfl⟩
  have hgrows := grows_appendClass (I := anything) name ancestors ha
  have hc : HasTable c := (of_ends_of_run_ok hgrows hclass).1.hasTable ha
  have htable : d.table = c.table := by
    rw [eq_withTop_of_run_addTop hc htop, table_withTop]
  rw [htable]
  exact ha.table_of_run_appendClass hclass

/-- **Placing.**  A slot that a call gives back is the one behind the old table, and what the call
places stands from there on. -/
theorem HasTable.table_of_run_perform (ha : HasTable a) {call : Call}
    (h : (perform call).run a = .ok (.slot slot) b) :
    slot = a.table.length ∧ b.table = a.table ++ call.placed slot := by
  cases call with
  | appendObject object =>
    obtain ⟨placed, c, hrun, h⟩ := exists_of_run_bind_eq_ok h
    cases h
    exact ha.table_of_run_appendObject hrun
  | appendClass name ancestors =>
    obtain ⟨placed, c, hrun, h⟩ := exists_of_run_bind_eq_ok h
    cases h
    exact ha.table_of_run_appendClass hrun
  | addTopClass name ancestors =>
    obtain ⟨placed, c, hrun, h⟩ := exists_of_run_bind_eq_ok h
    cases h
    exact ha.table_of_run_addTopClass hrun
  | merge source node => cases h
  -- all other calls reply with nothing
  | _ =>
    obtain ⟨_, c, -, h⟩ := exists_of_run_bind_eq_ok h
    cases h

end Placing

/-- **The counter.**  On every archive that can be made, and after every further call, successful or
not, there is a table that is one longer than the number of the last slot, and that number has not
become smaller.  A slot that the call gives back is the one behind the old table, and there stands
what the call placed. -/
theorem length_objects_of_reachable {a : Archive} (ha : Reachable a) (call : Call) :
    ∃ old new : List Tree,
      (a.objects = .ok old ∧ old.length = a.lastUid + 1) ∧
      ((a.after call).objects = .ok new ∧ new.length = (a.after call).lastUid + 1) ∧
      a.lastUid ≤ (a.after call).lastUid ∧
      ∀ slot b, (perform call).run a = .ok (.slot slot) b →
        slot = old.length ∧ new = old ++ call.placed slot := by
  have htable := ha.hasTable
  obtain ⟨bound, hbound⟩ := exists_refersWithin call.rawTrees
  have hafter := after_follows htable hbound
  refine ⟨a.table, (a.after call).table, ⟨htable.objects_eq, htable.length_table⟩,
    ⟨hafter.hasTable.objects_eq, hafter.hasTable.length_table⟩, hafter.lastUid_le, ?_⟩
  intro slot b hrun
  have hb : a.after call = b := by rw [after, hrun]
  rw [hb]
  exact htable.table_of_run_perform hrun

/-- An archive with one class pair, between a call that fails for want of a name and one that fails
for want of an instance. -/
def afterFailures : Archive :=
  ((new.after (.appendClass "" [])).after (.addTopClass "NSArray" ["NSObject"])).after
    (.appendItem 7 (.integer 5))

theorem length_objects_afterFailures :
    Reachable afterFailures ∧ ∃ old new : List Tree,
      (afterFailures.objects = .ok old ∧ old.length = afterFailures.lastUid + 1) ∧
      ((afterFailures.after (.appendClass "NSDate" ["NSObject"])).objects = .ok new ∧
        new.length = (afterFailures.after (.appendClass "NSDate" ["NSObject"])).lastUid + 1) ∧
      afterFailures.lastUid ≤ (afterFailures.after (.appendClass "NSDate" ["NSObject"])).lastUid ∧
      ∀ slot b, (perform (.appendClass "NSDate" ["NSObject"])).run afterFailures
          = .ok (.slot slot) b →
        slot = old.length ∧ new = old ++ Call.placed slot (.appendClass "NSDate" ["NSObject"]) :=
  have hreachable : Reachable afterFailures :=
    .step (.step (.step (.initial (.inl rfl)) trivial) trivial) trivial
  ⟨hreachable, length_objects_of_reachable hreachable (.appendClass "NSDate" ["NSObject"])⟩

end PlistCodec.Archive
