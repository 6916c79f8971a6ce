import PlistCodec.Proofs.Archive.Flattening

/-!
# Changing what is there

A property, an item or an entry of an instance is stored by overwriting the instance in its slot.
`Archive.withEntries` says so as an equation, as `Archive.grown` does for what is appended: the
archive that such a step leaves is the one that it found, with other entries in one slot.  A root
object is named by overwriting `$top`, and `Archive.withTop` says so of that.
-/

namespace PlistCodec.Archive

/-! ## Slots of a changed archive -/

/-- The archive with other entries in the instance in a slot. -/
def withEntries (a : Archive) (slot : Nat) (entries : Dict Tree) : Archive :=
  a.withObjects (a.table.set slot (.dict entries))

section Slots

variable {a : Archive} {slot : Nat} {object : Tree} {entries : Dict Tree}

theorem HasTable.lt_length_of_find? (ha : HasTable a) (h : a.find? slot = some object) :
    slot < a.table.length := by
  rw [ha.find?_eq] at h
  exact (List.getElem?_eq_some_iff.mp h).1

theorem HasTable.find?_grown (ha : HasTable a) (new : List Tree)
    (h : a.find? slot = some object) : (a.grown new).find? slot = some object := by
  have hlt := ha.lt_length_of_find? h
  rw [(ha.grown new).find?_eq, table_grown, List.getElem?_append_left hlt, ← ha.find?_eq, h]

theorem HasTable.withEntries (ha : HasTable a) (slot : Nat) (entries : Dict Tree) :
    HasTable (a.withEntries slot entries) := by
  refine hasTable_of_objects (objects_withObjects a _) ?_
  rw [List.length_set, ha.length_table]
  rfl

theorem HasTable.find?_withEntries_self (ha : HasTable a) (hslot : slot < a.table.length)
    (entries : Dict Tree) : (a.withEntries slot entries).find? slot = some (.dict entries) := by
  rw [(ha.withEntries slot entries).find?_eq, Archive.withEntries, table_withObjects,
    List.getElem?_set_self hslot]

theorem HasTable.find?_withEntries_of_ne (ha : HasTable a) {other : Nat} (h : other ≠ slot)
    (entries : Dict Tree) : (a.withEntries slot entries).find? other = a.find? other := by
  rw [(ha.withEntries slot entries).find?_eq, Archive.withEntries, table_withObjects,
    List.getElem?_set_ne h.symm, ha.find?_eq]

/-- Of two changes of one instance the second counts. -/
theorem withEntries_withEntries (a : Archive) (slot : Nat) (first second : Dict Tree) :
    (a.withEntries slot first).withEntries slot second = a.withEntries slot second := by
  have hroot : ((a.withEntries slot first).withEntries slot second).root
      = (a.withEntries slot second).root := by
    simp only [Archive.withEntries, withObjects, table, objects, arrayAt, Dict.get?_insert_self,
      Dict.insert_insert]
    simp [orFail, bind, Except.bind, Except.toOption, Tree.array?]
  calc (a.withEntries slot first).withEntries slot second
      = ⟨((a.withEntries slot first).withEntries slot second).root, a.lastUid⟩ := rfl
    _ = a.withEntries slot second := by rw [hroot]; rfl

end Slots

/-! ## Runs on an instance -/

section Runs

variable {a : Archive} {slot : Nat} {entries : Dict Tree} {name : String}

theorem HasTable.run_modifyInstance (ha : HasTable a) (hslot : a.find? slot = some (.dict entries))
    (change : Dict Tree → Dict Tree) :
    (modifyInstance slot change).run a = .ok () (a.withEntries slot (change entries)) := by
  have hinstance := instanceAt_eq_ok_iff_find?.mpr hslot
  rw [modifyInstance, run_bind_of_ok (run_fromArchive_of_ok hinstance)]
  exact ha.run_putObject _ (ha.lt_length_of_find? hslot)

/-- A list that is there already is left alone. -/
theorem run_ensureArray_of_array (hslot : a.find? slot = some (.dict entries)) {items : List Tree}
    (hitems : entries.get? name = some (.array items)) :
    (ensureArray slot name).run a = .ok () a := by
  have hinstance := instanceAt_eq_ok_iff_find?.mpr hslot
  rw [ensureArray, run_bind_of_ok (run_fromArchive_of_ok hinstance), hitems]
  rfl

/-- A list that is missing is there afterwards, and empty. -/
theorem HasTable.run_ensureArray_of_none (ha : HasTable a)
    (hslot : a.find? slot = some (.dict entries)) (hname : entries.get? name = none) :
    (ensureArray slot name).run a
      = .ok () (a.withEntries slot (entries.insert name (.array []))) := by
  have hinstance := instanceAt_eq_ok_iff_find?.mpr hslot
  rw [ensureArray, run_bind_of_ok (run_fromArchive_of_ok hinstance), hname]
  exact ha.run_modifyInstance hslot _

/-- A property is made sure to be a list: the instance had one, or it had no such property and has
an empty list now.  A failure changes nothing. -/
theorem ensureArray_ends (ha : HasTable a) :
    Ends (ensureArray slot name) a
      (fun _ b => ∃ entries : Dict Tree, a.find? slot = some (.dict entries) ∧
        ((∃ items, entries.get? name = some (.array items)) ∧ b = a ∨
          entries.get? name = none ∧ b = a.withEntries slot (entries.insert name (.array []))))
      fun b => b = a := by
  have hread : Ends (fromArchive fun a => a.instanceAt slot) a
      (fun entries b => a.find? slot = some (.dict entries) ∧ b = a) fun b => b = a :=
    ends_fromArchive (fun _ h => ⟨instanceAt_eq_ok_iff_find?.mp h, rfl⟩) rfl
  refine hread.bind ?_
  rintro entries _ ⟨hslot, rfl⟩
  cases hvalue : Dict.get? entries name with
  | none =>
    exact ends_of_run_ok (ha.run_modifyInstance hslot _) ⟨entries, hslot, .inr ⟨hvalue, rfl⟩⟩
  | some value =>
    cases value with
    | array items => exact ends_pure ⟨entries, hslot, .inl ⟨⟨items, hvalue⟩, rfl⟩⟩
    | _ => exact ends_throw rfl

theorem HasTable.run_pushItem (ha : HasTable a) (hslot : a.find? slot = some (.dict entries))
    {items : List Tree} (hitems : entries.get? name = some (.array items)) (item : Tree) :
    (pushItem slot name item).run a
      = .ok () (a.withEntries slot (entries.insert name (.array (items ++ [item])))) := by
  have hinstance := instanceAt_eq_ok_iff_find?.mpr hslot
  rw [pushItem, run_bind_of_ok (run_fromArchive_of_ok hinstance), hitems]
  exact ha.run_modifyInstance hslot _

end Runs

/-! ## Root objects -/

section Roots

variable {a : Archive}

theorem objects_withTop (a : Archive) (top : Dict Tree) : (a.withTop top).objects = a.objects := by
  rw [Archive.objects, Archive.objects, arrayAt, arrayAt, withTop,
    Dict.get?_insert_of_ne _ _ (by decide)]

@[simp] theorem table_withTop (a : Archive) (top : Dict Tree) :
    (a.withTop top).table = a.table := by
  rw [table, table, objects_withTop]

@[simp] theorem find?_withTop (a : Archive) (top : Dict Tree) (slot : Nat) :
    (a.withTop top).find? slot = a.find? slot := by
  rw [find?, find?, object, object, objects_withTop]

theorem get?_root_withTop (a : Archive) (top : Dict Tree) :
    Dict.get? (a.withTop top).root topKey = some (.dict top) :=
  Dict.get?_insert_self _ _ _

theorem HasTable.withTop (ha : HasTable a) (top : Dict Tree) : HasTable (a.withTop top) :=
  hasTable_of_objects ((objects_withTop a top).trans ha.objects_eq) ha.length_table

/-- The names of the root objects with the nodes that they stand for; there are none without
`$top`. -/
def roots (a : Archive) : Dict Tree := a.top?.getD []

theorem top?_withTop (a : Archive) (top : Dict Tree) : (a.withTop top).top? = some top := by
  rw [top?, get?_root_withTop]
  rfl

@[simp] theorem roots_withTop (a : Archive) (top : Dict Tree) : (a.withTop top).roots = top := by
  rw [roots, top?_withTop]
  rfl

@[simp] theorem roots_withEntries (a : Archive) (slot : Nat) (entries : Dict Tree) :
    (a.withEntries slot entries).roots = a.roots := by
  rw [roots, roots, top?, top?, withEntries, get?_root_withObjects _ _ (by decide)]

@[simp] theorem roots_grown (a : Archive) (new : List Tree) : (a.grown new).roots = a.roots := by
  rw [roots, roots, top?, top?, get?_root_grown a new (by decide)]

theorem run_addTop {slot : Nat} (ha : HasTable a) (hslot : slot < a.table.length) :
    (addTop slot).run a = .ok ()
      (a.withTop (Dict.insert a.roots (numberedTopKey a.roots.length) (.uid slot))) := by
  have hobject : a.object slot = .ok a.table[slot] := by
    rw [ha.object_eq, List.getElem?_eq_getElem hslot]
    rfl
  rw [addTop, run_bind_of_ok (run_fromArchive_of_ok hobject), run_modify, roots]
  cases a.top? with
  | none => rfl
  | some top => rfl

theorem run_addTop_of_le {slot : Nat} (ha : HasTable a) (hslot : a.table.length ≤ slot) :
    (addTop slot).run a = .error (.uidOutOfRange slot a.table.length) a := by
  have hobject : a.object slot = .error (.uidOutOfRange slot a.table.length) := by
    rw [ha.object_eq, List.getElem?_eq_none hslot]
    rfl
  rw [addTop, run_bind_of_error (run_fromArchive_of_error hobject)]

/-- How naming a root object succeeds. -/
theorem eq_withTop_of_run_addTop {slot : Nat} {b : Archive} (ha : HasTable a)
    (h : (addTop slot).run a = .ok () b) :
    b = a.withTop (Dict.insert a.roots (numberedTopKey a.roots.length) (.uid slot)) := by
  by_cases hslot : slot < a.table.length
  · rw [run_addTop ha hslot] at h
    cases h
    rfl
  · rw [run_addTop_of_le ha (Nat.le_of_not_lt hslot)] at h
    cases h

theorem get?_root_of_top? {top : Dict Tree} (h : a.top? = some top) :
    Dict.get? a.root topKey = some (.dict top) := by
  obtain ⟨value, hvalue, hdict⟩ := Option.bind_eq_some_iff.mp h
  rw [Tree.dict?_eq_some_iff.mp hdict] at hvalue
  exact hvalue

/-- What a root object is does not depend on its name. -/
theorem exists_of_mem_renameFirst {name : String} {top : Dict Tree} {e : String × Tree}
    (h : e ∈ renameFirst name top) : ∃ old ∈ top, old.2 = e.2 := by
  cases top with
  | nil => cases h
  | cons first rest =>
    rcases List.mem_cons.mp h with rfl | h
    · exact ⟨first, List.mem_cons_self, rfl⟩
    · exact ⟨e, List.mem_cons_of_mem _ h, rfl⟩

end Roots

end PlistCodec.Archive
