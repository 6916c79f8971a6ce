import PlistCodec.Archive.Call
import PlistCodec.Proofs.Dict
import PlistCodec.Proofs.Except

/-!
# Growing tables

Whatever is archived goes behind the objects that are there.  `Archive.grown` says so as an
equation: the archive that a computation leaves is the one that it began with, with more objects
behind its table and nothing else changed.  The steps that all changes are made of are stated here
in this form.
-/

namespace PlistCodec

namespace Dict

variable {α : Type}

theorem insert_of_get? {d : Dict α} {key : String} {value : α} (h : d.get? key = some value) :
    d.insert key value = d := by
  induction d with
  | nil => cases h
  | cons entry rest ih =>
    obtain ⟨name, old⟩ := entry
    by_cases hname : name = key
    · rw [get?, if_pos hname] at h
      cases h
      rw [insert, if_pos hname]
    · rw [get?, if_neg hname] at h
      rw [insert, if_neg hname, ih h]

theorem insert_insert (d : Dict α) (key : String) (first second : α) :
    (d.insert key first).insert key second = d.insert key second := by
  induction d with
  | nil => simp [insert]
  | cons entry rest ih =>
    obtain ⟨name, old⟩ := entry
    by_cases hname : name = key <;> simp [insert, hname, ih]

end Dict

namespace Archive

/-! ## The table -/

/-- The objects of an archive; there are none if it has no table. -/
def table (a : Archive) : List Tree := (a.objects.toOption).getD []

/-- An archive has a table, and knows the number of its last slot. -/
structure HasTable (a : Archive) : Prop where
  /-- There is a table. -/
  objects_eq : a.objects = .ok a.table
  /-- The last slot is known. -/
  length_table : a.table.length = a.lastUid + 1

theorem hasTable_of_objects {a : Archive} {objects : List Tree} (h : a.objects = .ok objects)
    (hlength : objects.length = a.lastUid + 1) : HasTable a := by
  have htable : a.table = objects := by rw [table, h]; rfl
  exact ⟨by rw [htable]; exact h, by rw [htable]; exact hlength⟩

theorem objects_withObjects (a : Archive) (objects : List Tree) :
    (a.withObjects objects).objects = .ok objects := by
  rw [Archive.objects, arrayAt, withObjects, Dict.get?_insert_self]
  rfl

@[simp] theorem table_withObjects (a : Archive) (objects : List Tree) :
    (a.withObjects objects).table = objects := by
  rw [table, objects_withObjects]
  rfl

theorem HasTable.get?_objectsKey {a : Archive} (h : HasTable a) :
    Dict.get? a.root objectsKey = some (.array a.table) := by
  have hobjects := h.objects_eq
  rw [Archive.objects, arrayAt] at hobjects
  cases hget : Dict.get? a.root objectsKey with
  | none => rw [hget] at hobjects; cases hobjects
  | some value =>
    rw [hget] at hobjects
    cases value with
    | array items => cases hobjects; rfl
    | _ => cases hobjects

theorem HasTable.withObjects_table {a : Archive} (h : HasTable a) :
    a.withObjects a.table = a := by
  rw [withObjects, Dict.insert_of_get? h.get?_objectsKey]

/-- Writing the table leaves all other entries of the property list alone. -/
theorem get?_root_withObjects (a : Archive) (objects : List Tree) {key : String}
    (h : key ≠ objectsKey) :
    Dict.get? (a.withObjects objects).root key = Dict.get? a.root key :=
  Dict.get?_insert_of_ne _ _ h.symm

/-! ## Growth -/

/-- The archive with more objects behind its table. -/
def grown (a : Archive) (new : List Tree) : Archive :=
  { a.withObjects (a.table ++ new) with lastUid := a.lastUid + new.length }

@[simp] theorem table_grown (a : Archive) (new : List Tree) :
    (a.grown new).table = a.table ++ new :=
  table_withObjects a _

@[simp] theorem lastUid_grown (a : Archive) (new : List Tree) :
    (a.grown new).lastUid = a.lastUid + new.length := rfl

theorem get?_root_grown (a : Archive) (new : List Tree) {key : String} (h : key ≠ objectsKey) :
    Dict.get? (a.grown new).root key = Dict.get? a.root key :=
  get?_root_withObjects a _ h

theorem HasTable.grown {a : Archive} (h : HasTable a) (new : List Tree) : HasTable (a.grown new) :=
  hasTable_of_objects (objects_withObjects a _) (by
    rw [List.length_append, h.length_table, lastUid_grown]
    omega)

theorem HasTable.grown_nil {a : Archive} (h : HasTable a) : a.grown [] = a := by
  rw [Archive.grown, List.append_nil, h.withObjects_table]
  rfl

theorem grown_grown (a : Archive) (first second : List Tree) :
    (a.grown first).grown second = a.grown (first ++ second) := by
  have hroot : ((a.grown first).withObjects ((a.grown first).table ++ second)).root
      = (a.withObjects (a.table ++ (first ++ second))).root := by
    rw [table_grown, List.append_assoc]
    exact Dict.insert_insert _ _ _ _
  have hlast : a.lastUid + first.length + second.length
      = a.lastUid + (first ++ second).length := by
    rw [List.length_append, Nat.add_assoc]
  rw [Archive.grown, hroot, lastUid_grown, hlast]
  rfl

/-- What has been appended can be told from the archive. -/
theorem grown_inj {a : Archive} {new other : List Tree} (h : a.grown new = a.grown other) :
    new = other := by
  have htable := congrArg table h
  rwa [table_grown, table_grown, List.append_cancel_left_eq] at htable

/-- The objects behind the old table may be exchanged for others. -/
theorem withObjects_grown (a : Archive) {new other : List Tree} (h : other.length = new.length) :
    (a.grown new).withObjects (a.table ++ other) = a.grown other := by
  have hroot : ((a.grown new).withObjects (a.table ++ other)).root
      = (a.withObjects (a.table ++ other)).root :=
    Dict.insert_insert _ _ _ _
  have hlast : (a.grown new).lastUid = a.lastUid + other.length := by rw [lastUid_grown, h]
  calc (a.grown new).withObjects (a.table ++ other)
      = ⟨((a.grown new).withObjects (a.table ++ other)).root, (a.grown new).lastUid⟩ := rfl
    _ = a.grown other := by rw [hroot, hlast]; rfl

/-! ## Readings -/

theorem orFail_eq_ok_iff {α : Type} {e : Error} {x? : Option α} {x : α} :
    orFail e x? = .ok x ↔ x? = some x := by
  cases x? <;> simp [orFail]

/-! ## Runs -/

section Runs

variable {α β : Type} {m : Builder α} {f : α → Builder β} {a b : Archive}

theorem run_bind_of_ok {x : α} (h : m.run a = .ok x b) : (m >>= f).run a = (f x).run b := by
  simp only [EStateM.run, bind, EStateM.bind] at h ⊢
  rw [h]

theorem run_bind_of_error {e : Error} (h : m.run a = .error e b) :
    (m >>= f).run a = .error e b := by
  simp only [EStateM.run, bind, EStateM.bind] at h ⊢
  rw [h]

/-- Success of two computations in a row is success of both. -/
theorem exists_of_run_bind_eq_ok {y : β} {c : Archive} (h : (m >>= f).run a = .ok y c) :
    ∃ x b, m.run a = .ok x b ∧ (f x).run b = .ok y c := by
  cases hrun : m.run a with
  | ok x b => exact ⟨x, b, rfl, (run_bind_of_ok hrun).symm.trans h⟩
  | error e b => cases (run_bind_of_error hrun).symm.trans h

theorem run_get : (get : Builder Archive).run a = .ok a a := rfl

theorem run_modify {change : Archive → Archive} :
    (modify change : Builder PUnit).run a = .ok () (change a) := rfl

theorem run_fromArchive_of_ok {read : Archive → Except Error α} {x : α} (h : read a = .ok x) :
    (fromArchive read).run a = .ok x a := by
  rw [fromArchive, run_bind_of_ok run_get, h]
  rfl

theorem run_fromArchive_of_error {read : Archive → Except Error α} {e : Error}
    (h : read a = .error e) : (fromArchive read).run a = .error e a := by
  rw [fromArchive, run_bind_of_ok run_get, h]
  rfl

theorem eq_ok_of_run_fromArchive {read : Archive → Except Error α} {x : α}
    (h : (fromArchive read).run a = .ok x b) : read a = .ok x ∧ a = b := by
  cases hread : read a with
  | ok y =>
    cases (run_fromArchive_of_ok hread).symm.trans h
    exact ⟨rfl, rfl⟩
  | error e => cases (run_fromArchive_of_error hread).symm.trans h

end Runs

/-! ## Outcomes -/

/-- How a computation ends on an archive: a success and the archive that it leaves satisfy `ok`, and
the archive that a failure leaves satisfies `err`. -/
def Ends {α : Type} (m : Builder α) (a : Archive) (ok : α → Archive → Prop)
    (err : Archive → Prop) : Prop :=
  match m.run a with
  | .ok x b => ok x b
  | .error _ b => err b

section Ends

variable {α β : Type} {m : Builder α} {f : α → Builder β} {a : Archive}
variable {ok : α → Archive → Prop} {err : Archive → Prop}

theorem ends_pure {x : α} (h : ok x a) : Ends (pure x) a ok err := h

theorem ends_throw {e : Error} (h : err a) : Ends (throw e) a ok err := h

theorem ends_of_run_ok {x : α} {b : Archive} (hrun : m.run a = .ok x b) (h : ok x b) :
    Ends m a ok err := by
  rw [Ends, hrun]
  exact h

theorem ends_of_run_error {e : Error} {b : Archive} (hrun : m.run a = .error e b) (h : err b) :
    Ends m a ok err := by
  rw [Ends, hrun]
  exact h

theorem of_ends_of_run_ok {x : α} {b : Archive} (h : Ends m a ok err) (hrun : m.run a = .ok x b) :
    ok x b := by
  rw [Ends, hrun] at h
  exact h

theorem Ends.mono {ok' : α → Archive → Prop} {err' : Archive → Prop} (h : Ends m a ok err)
    (hok : ∀ x b, ok x b → ok' x b) (herr : ∀ b, err b → err' b) : Ends m a ok' err' := by
  unfold Ends at h ⊢
  cases hrun : m.run a with
  | ok x b => rw [hrun] at h; exact hok x b h
  | error e b => rw [hrun] at h; exact herr b h

theorem Ends.bind {ok' : β → Archive → Prop} (h : Ends m a ok err)
    (hf : ∀ x b, ok x b → Ends (f x) b ok' err) : Ends (m >>= f) a ok' err := by
  unfold Ends at h
  cases hrun : m.run a with
  | ok x b =>
    rw [hrun] at h
    have hrest := hf x b h
    unfold Ends at hrest ⊢
    rw [run_bind_of_ok hrun]
    exact hrest
  | error e b =>
    rw [hrun] at h
    exact ends_of_run_error (run_bind_of_error hrun) h

/-- What a computation yields may be wrapped up afterwards. -/
theorem Ends.bind_pure {p : Archive → Prop} {wrap : α → β} (h : Ends m a (fun _ b => p b) p) :
    Ends (do return wrap (← m)) a (fun _ b => p b) p :=
  h.bind fun _ _ hb => ends_pure hb

theorem ends_get_bind {f : Archive → Builder β} {ok : β → Archive → Prop}
    (h : Ends (f a) a ok err) : Ends (get >>= f) a ok err := by
  unfold Ends at h ⊢
  rw [run_bind_of_ok run_get]
  exact h

/-- A reading leaves the archive as it is. -/
theorem ends_fromArchive {read : Archive → Except Error α} (hok : ∀ x, read a = .ok x → ok x a)
    (herr : err a) : Ends (fromArchive read) a ok err := by
  cases h : read a with
  | ok x => exact ends_of_run_ok (run_fromArchive_of_ok h) (hok x h)
  | error e => exact ends_of_run_error (run_fromArchive_of_error h) herr

end Ends

/-! ## The steps that changes are made of -/

theorem HasTable.object_eq {a : Archive} (h : HasTable a) (slot : Nat) :
    a.object slot = orFail (.uidOutOfRange slot a.table.length) a.table[slot]? := by
  rw [Archive.object, h.objects_eq]
  rfl

theorem HasTable.run_appendObject {a : Archive} (h : HasTable a) (object : Tree) :
    (appendObject object).run a = .ok (a.lastUid + 1) (a.grown [object]) := by
  rw [appendObject, run_bind_of_ok (run_fromArchive_of_ok h.objects_eq)]
  rfl

theorem HasTable.run_putObject {a : Archive} (h : HasTable a) {slot : Nat} (object : Tree)
    (hslot : slot < a.table.length) :
    (putObject slot object).run a = .ok () (a.withObjects (a.table.set slot object)) := by
  rw [putObject, run_bind_of_ok (run_fromArchive_of_ok h.objects_eq), if_pos hslot]
  rfl

/-- An object of one's own, that is, one behind the old table, is overwritten in place. -/
theorem HasTable.run_putObject_grown {a : Archive} (h : HasTable a) {new : List Tree} {i : Nat}
    (object : Tree) (hi : i < new.length) :
    (putObject (a.lastUid + 1 + i) object).run (a.grown new)
      = .ok () (a.grown (new.set i object)) := by
  have hslot : a.lastUid + 1 + i < (a.grown new).table.length := by
    rw [table_grown, List.length_append, h.length_table]
    omega
  have hset : (a.table ++ new).set (a.lastUid + 1 + i) object = a.table ++ new.set i object := by
    rw [← h.length_table, List.set_append_right _ _ (Nat.le_add_right _ _),
      Nat.add_sub_cancel_left]
  rw [(h.grown new).run_putObject object hslot, table_grown, hset,
    withObjects_grown a (List.length_set ..)]

/-- An instance of one's own, when it is the first new object. -/
theorem HasTable.instanceAt_grown {a : Archive} (h : HasTable a) (entries : Dict Tree)
    (rest : List Tree) : (a.grown (.dict entries :: rest)).instanceAt (a.lastUid + 1)
      = .ok entries := by
  rw [instanceAt, (h.grown _).object_eq, table_grown, ← h.length_table,
    List.getElem?_append_right (Nat.le_refl _), Nat.sub_self]
  rfl

theorem HasTable.run_modifyInstance_grown {a : Archive} (h : HasTable a) (entries : Dict Tree)
    (rest : List Tree) (change : Dict Tree → Dict Tree) :
    (modifyInstance (a.lastUid + 1) change).run (a.grown (.dict entries :: rest))
      = .ok () (a.grown (.dict (change entries) :: rest)) := by
  have hput := @HasTable.run_putObject_grown a h (.dict entries :: rest) 0 (.dict (change entries))
    (Nat.succ_pos _)
  rw [modifyInstance, run_bind_of_ok (run_fromArchive_of_ok (h.instanceAt_grown entries rest))]
  exact hput

/-- An instance without properties, whose class description stands in a slot. -/
def bareInstance (description : Nat) : Tree := .dict [(classKey, .uid description)]

/-- The description of a class. -/
def classDescription (name : String) (ancestors : List String) : Tree :=
  .dict [(classesKey, .array ((name :: ancestors).map .string)), (classnameKey, .string name)]

theorem HasTable.run_appendClass {a : Archive} (h : HasTable a) {name : String}
    (ancestors : List String) (hname : name.isEmpty = false) :
    (appendClass name ancestors).run a = .ok (a.lastUid + 1)
      (a.grown [bareInstance (a.lastUid + 2), classDescription name ancestors]) := by
  have hinstance := h.run_appendObject (bareInstance (a.lastUid + 2))
  have hdescription := (h.grown [bareInstance (a.lastUid + 2)]).run_appendObject
    (classDescription name ancestors)
  rw [grown_grown] at hdescription
  simp only [appendClass, hname, Bool.false_eq_true, if_false]
  rw [run_bind_of_ok run_get]
  refine (run_bind_of_ok hinstance).trans ?_
  refine (run_bind_of_ok hdescription).trans ?_
  rfl

end Archive

end PlistCodec
