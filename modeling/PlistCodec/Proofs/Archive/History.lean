import Mathlib.Algebra.Order.Group.Nat
import Mathlib.Algebra.Order.BigOperators.Group.List
import PlistCodec.Proofs.Archive.Steps

/-!
# Histories

An archive is made by one call after the other, whether they succeed or not.  What holds of all
archives that can be made is proved by induction on their histories, and the step is the same for
every call: the archive that a call leaves *follows* the one that it found (`after_follows`).  An
archive that follows another has its table still, no shorter than it was, and has all its objects
still, save that instances may have got other entries.  What stands beside the table is as it was,
but for the names of root objects after a call that names one.

What is new refers to slots of the new table, and beyond them only to what the property lists given
for storage in place refer to; the bound `bound` in the statements stands for their references.
Everything else that is written, forward references included, has its target by the end.
-/

namespace PlistCodec.Archive

/-! ## References of what is stored -/

/-- Nothing refers beyond the table but to slots below a bound. -/
def refersBelow (bound : Nat) : Invariant where
  Objects first new := ∀ t ∈ new, t.RefersWithin 0 (max bound (first + new.length))
  Node slots t := t.RefersWithin 0 (max bound slots)
  below h := h.mono (Nat.le_refl _) (Nat.le_max_right _ _)
  mono h hle := h.mono (Nat.le_refl _) (by omega)
  array h := Tree.refersWithin_array.mpr h
  nil _ := List.forall_mem_nil _
  append := by
    intro first new more hnew hmore t ht
    rw [List.length_append, ← Nat.add_assoc]
    rcases List.mem_append.mp ht with ht | ht
    · exact (hnew t ht).mono (Nat.le_refl _) (by omega)
    · exact hmore t ht
  object _ h := List.forall_mem_singleton.mpr h
  classPair := by
    intro first name ancestors properties more _ hproperties hmore
    have hslots : first + 2 + more.length = first + (more.length + 1 + 1) := by omega
    rw [hslots] at hproperties hmore
    refine List.forall_mem_cons.mpr ⟨?_, List.forall_mem_cons.mpr ⟨?_, hmore⟩⟩
    · have hlt : first + 1 < max bound (first + (more.length + 1 + 1)) := by omega
      exact Tree.refersWithin_dict.mpr
        (List.forall_mem_cons.mpr ⟨Tree.refersWithin_uid (Nat.zero_le _) hlt, hproperties⟩)
    · rw [classDescription, Tree.refersWithin_dict, List.forall_mem_cons, List.forall_mem_singleton,
        Tree.refersWithin_array, List.forall_mem_map]
      exact ⟨fun _ _ => Tree.refersWithin_of_scalar rfl rfl, Tree.refersWithin_of_scalar rfl rfl⟩

/-- A copy refers to what has been copied for it. -/
theorem copiesAs_refersBelow (bound : Nat) (source : Archive) :
    CopiesAs (refersBelow bound) source := by
  refine copiesAs_of_copied fun {_ _ first _ _ new} _ hcopied hnew => ?_
  have hslots : first + (new.length + 1) = first + 1 + new.length := by omega
  refine List.forall_mem_cons.mpr ⟨hcopied.refersWithin.mono (Nat.zero_le _) ?_, ?_⟩
  · rw [List.length_cons, hslots]
    exact Nat.le_max_right _ _
  · rw [List.length_cons, hslots]
    exact hnew

theorem Call.brings_refersBelow {bound : Nat} {call : Call}
    (hcall : ∀ t ∈ call.rawTrees, t.RefersWithin 0 bound) : call.Brings (refersBelow bound) where
  object := by
    rintro object rfl first
    have hobject := hcall object (List.mem_singleton.mpr rfl)
    exact List.forall_mem_singleton.mpr (hobject.mono (Nat.le_refl _) (Nat.le_max_left _ _))
  raw t ht _ := (hcall t ht).mono (Nat.le_refl _) (Nat.le_max_left _ _)
  source source _ := copiesAs_refersBelow bound source

/-! ## Archives that follow each other -/

/-- Everything that an archive holds references in: its objects, and what stands under `$top`. -/
def stored (a : Archive) : List Tree := a.table ++ (Dict.get? a.root topKey).toList

/-- The slots below which stored objects may refer: those of the table, and those that the property
lists stored in place refer to. -/
def limit (bound : Nat) (a : Archive) : Nat := max bound (a.lastUid + 1)

/-- What a call may do to an archive that has a table, where `naming` says whether it may change the
names of the root objects. -/
structure Follows (bound : Nat) (naming : Prop) (a b : Archive) : Prop where
  /-- There is a table still. -/
  hasTable : HasTable b
  /-- It has not become shorter. -/
  lastUid_le : a.lastUid ≤ b.lastUid
  /-- An object that is no dictionary stays what it is. -/
  getElem?_table : ∀ (slot : Nat) (object : Tree), a.table[slot]? = some object →
    object.dict? = none → b.table[slot]? = some object
  /-- Beside the table only `$top` changes, and that only by naming. -/
  get?_root : ∀ key, key ≠ objectsKey → (naming → key ≠ topKey) →
    Dict.get? b.root key = Dict.get? a.root key
  /-- New references are below the limit. -/
  refersWithin : ∀ high, limit bound b ≤ high → (∀ t ∈ a.stored, t.RefersWithin 0 high) →
    ∀ t ∈ b.stored, t.RefersWithin 0 high

section Following

variable {bound : Nat} {naming : Prop} {a b c : Archive}

theorem Follows.refl (h : HasTable a) : Follows bound naming a a :=
  ⟨h, Nat.le_refl _, fun _ _ hslot _ => hslot, fun _ _ _ => rfl, fun _ _ hall => hall⟩

theorem Follows.limit_le (h : Follows bound naming a b) : limit bound a ≤ limit bound b := by
  have := h.lastUid_le
  unfold limit
  omega

theorem Follows.trans (h : Follows bound naming a b) (h' : Follows bound naming b c) :
    Follows bound naming a c where
  hasTable := h'.hasTable
  lastUid_le := Nat.le_trans h.lastUid_le h'.lastUid_le
  getElem?_table slot object hslot hobject :=
    h'.getElem?_table slot object (h.getElem?_table slot object hslot hobject) hobject
  get?_root key hkey hnaming :=
    (h'.get?_root key hkey hnaming).trans (h.get?_root key hkey hnaming)
  refersWithin high hhigh hall :=
    h'.refersWithin high hhigh (h.refersWithin high (Nat.le_trans h'.limit_le hhigh) hall)

theorem stored_grown (a : Archive) (new : List Tree) :
    (a.grown new).stored = a.table ++ new ++ (Dict.get? a.root topKey).toList := by
  rw [stored, table_grown, get?_root_grown a new (by decide)]

/-- Objects behind the table. -/
theorem grown_follows (ha : HasTable a) {new : List Tree}
    (hnew : (refersBelow bound).Objects (a.lastUid + 1) new) :
    Follows bound naming a (a.grown new) where
  hasTable := ha.grown new
  lastUid_le := Nat.le_add_right _ _
  getElem?_table slot object hslot _ := by
    rw [table_grown, List.getElem?_append_left (List.getElem?_eq_some_iff.mp hslot).1, hslot]
  get?_root key hkey _ := get?_root_grown a new hkey
  refersWithin := by
    intro high hhigh hall t ht
    rw [stored_grown, List.append_assoc, List.mem_append, List.mem_append] at ht
    rw [limit, lastUid_grown, Nat.add_right_comm] at hhigh
    rcases ht with ht | ht | ht
    · exact hall t (List.mem_append_left _ ht)
    · exact (hnew t ht).mono (Nat.le_refl _) hhigh
    · exact hall t (List.mem_append_right _ ht)

/-- A new value of an entry refers below the limit, or to what the archive refers to already. -/
theorem NewValue.refersWithin {entries : Dict Tree} {name : String} {value : Tree} {low high : Nat}
    (h : NewValue (fun t => t.RefersWithin 0 low) entries name value) (hle : low ≤ high)
    (hentries : ∀ e ∈ entries, e.2.RefersWithin 0 high) : value.RefersWithin 0 high := by
  cases h with
  | node h => exact h.mono (Nat.le_refl _) hle
  | item hitems h =>
    have hold := Tree.refersWithin_array.mp (hentries _ (Dict.mem_of_get? hitems))
    have hnew := h.mono (Nat.le_refl _) hle
    exact Tree.refersWithin_array.mpr
      (List.forall_mem_append.mpr ⟨hold, List.forall_mem_singleton.mpr hnew⟩)

/-- An entry of an instance. -/
theorem withEntries_follows (ha : HasTable a) {slot : Nat} {entries : Dict Tree} {name : String}
    {value : Tree} (hslot : a.find? slot = some (.dict entries))
    (hvalue : NewValue ((refersBelow bound).Node (a.lastUid + 1)) entries name value) :
    Follows bound naming a (a.withEntries slot (entries.insert name value)) where
  hasTable := ha.withEntries slot _
  lastUid_le := Nat.le_refl _
  getElem?_table := by
    intro other object hother hobject
    rw [ha.find?_eq] at hslot
    rw [withEntries, table_withObjects, List.getElem?_set_ne, hother]
    rintro rfl
    rw [hslot] at hother
    cases hother
    cases hobject
  get?_root key hkey _ := get?_root_withObjects a _ hkey
  refersWithin := by
    intro high hhigh hall t ht
    rw [stored, withEntries, table_withObjects, get?_root_withObjects a _ (by decide)] at ht
    rcases List.mem_append.mp ht with ht | ht
    · rcases List.mem_or_eq_of_mem_set ht with ht | rfl
      · exact hall t (List.mem_append_left _ ht)
      · rw [ha.find?_eq] at hslot
        have hentries := Tree.refersWithin_dict.mp
          (hall _ (List.mem_append_left _ (List.mem_of_getElem? hslot)))
        exact Tree.refersWithin_dict.mpr
          (Dict.forall_insert (hvalue.refersWithin hhigh hentries) hentries)
    · exact hall t (List.mem_append_right _ ht)

theorem refersWithin_roots {high : Nat} (hall : ∀ t ∈ a.stored, t.RefersWithin 0 high) :
    ∀ e ∈ a.roots, e.2.RefersWithin 0 high := by
  rw [roots]
  cases htop : a.top? with
  | none => exact List.forall_mem_nil _
  | some top =>
    refine Tree.refersWithin_dict.mp (hall _ (List.mem_append_right _ ?_))
    rw [get?_root_of_top? htop]
    exact List.mem_singleton.mpr rfl

/-- The root objects may get entries that refer below the limit, or to what they refer to
already. -/
theorem withTop_follows {top : Dict Tree} (ha : HasTable a) (hnaming : naming)
    (htop : ∀ high, limit bound a ≤ high → (∀ e ∈ a.roots, e.2.RefersWithin 0 high) →
      ∀ e ∈ top, e.2.RefersWithin 0 high) : Follows bound naming a (a.withTop top) where
  hasTable := ha.withTop top
  lastUid_le := Nat.le_refl _
  getElem?_table slot object hslot _ := by rw [table_withTop, hslot]
  get?_root key _ hnames := Dict.get?_insert_of_ne _ _ (hnames hnaming).symm
  refersWithin high hhigh hall t ht := by
    rw [stored, table_withTop, get?_root_withTop] at ht
    rcases List.mem_append.mp ht with ht | ht
    · exact hall t (List.mem_append_left _ ht)
    · rw [List.mem_singleton.mp ht]
      exact Tree.refersWithin_dict.mpr (htop high hhigh (refersWithin_roots hall))

/-- **One step.**  The archive that it leaves follows the one that it found. -/
theorem Step.follows {call : Call} (h : Step (refersBelow bound) call a b) (ha : HasTable a) :
    Follows bound call.Names a b := by
  cases h with
  | grow hnew => exact grown_follows ha hnew
  | write hslot _ hvalue => exact withEntries_follows ha hslot hvalue
  | @add slot hnames hslot =>
    refine withTop_follows ha hnames fun high hhigh hall => ?_
    have hlt : slot < high := by
      rw [ha.length_table] at hslot
      exact Nat.lt_of_lt_of_le hslot (Nat.le_trans (Nat.le_max_right _ _) hhigh)
    exact Dict.forall_insert (Tree.refersWithin_uid (Nat.zero_le _) hlt) hall
  | rename hcall htop =>
    have hnames : call.Names := by
      rw [hcall]
      trivial
    refine withTop_follows ha hnames fun high hhigh hall e he => ?_
    obtain ⟨old, hold, heq⟩ := exists_of_mem_renameFirst he
    rw [← heq]
    rw [roots, htop] at hall
    exact hall old hold

theorem Steps.follows {call : Call} (h : Steps (refersBelow bound) call a b) (ha : HasTable a) :
    Follows bound call.Names a b :=
  (h.keep (p := Follows bound call.Names a) ha (.refl ha) fun _ _ hc hac hcd =>
    hac.trans (hcd.follows hc)).2

/-- **One call.**  However it ends, the archive that it leaves follows the one that it found. -/
theorem after_follows (ha : HasTable a) {call : Call}
    (hcall : ∀ t ∈ call.rawTrees, t.RefersWithin 0 bound) :
    Follows bound call.Names a (a.after call) :=
  (steps_after (Call.brings_refersBelow hcall) ha).follows ha

end Following

/-! ## Archives that can be made -/

/-- The archives that calls make of those that satisfy `start`, where each call is one that
`allowed` lets through on the archive it is made on.  A call that fails counts as well. -/
inductive Reached (start : Archive → Prop) (allowed : Archive → Call → Prop) : Archive → Prop where
  /-- No call has been made yet. -/
  | initial {a : Archive} (h : start a) : Reached start allowed a
  /-- A further call. -/
  | step {a : Archive} {call : Call} (h : Reached start allowed a) (hcall : allowed a call) :
      Reached start allowed (a.after call)

/-- The archives that calls make of the new archive or of one that was read. -/
def Reachable (a : Archive) : Prop :=
  Reached (fun a => a = new ∨ ∃ t, ofTree t = .ok a) (fun _ _ => True) a

theorem hasTable_new : HasTable new := ⟨rfl, rfl⟩

theorem findObjects_eq_ok {root : Dict Tree} {objects : List Tree}
    (h : findObjects root = .ok objects) :
    arrayAt root objectsKey = .ok objects ∧ objects ≠ [] := by
  obtain ⟨found, hfound, h⟩ := exists_of_bind_eq_ok h
  cases found with
  | nil => cases h
  | cons first rest =>
    cases h
    exact ⟨hfound, List.cons_ne_nil _ _⟩

theorem hasTable_ofTree {t : Tree} {a : Archive} (h : ofTree t = .ok a) : HasTable a := by
  obtain ⟨root, -, h⟩ := exists_of_bind_eq_ok h
  -- neither the archiver nor the version has a say in this
  obtain ⟨-, -, h⟩ := exists_of_bind_eq_ok h
  obtain ⟨-, -, h⟩ := exists_of_bind_eq_ok h
  obtain ⟨slot, -, h⟩ := exists_of_bind_eq_ok h
  obtain ⟨objects, hfound, h⟩ := exists_of_bind_eq_ok h
  obtain ⟨hobjects, hne⟩ := findObjects_eq_ok hfound
  have hlength : objects.length ≠ 0 := fun hzero => hne (List.length_eq_zero_iff.mp hzero)
  by_cases hslot : slot < objects.length
  · rw [if_pos hslot] at h
    cases h
    exact hasTable_of_objects hobjects (Nat.succ_pred hlength).symm
  · rw [if_neg hslot] at h
    cases h

/-- Some number is larger than all slots that the property lists refer to. -/
theorem exists_refersWithin (ts : List Tree) : ∃ bound, ∀ t ∈ ts, t.RefersWithin 0 bound := by
  refine ⟨(ts.flatMap Tree.references).sum + 1, fun t ht slot hslot => ⟨Nat.zero_le _, ?_⟩⟩
  exact Nat.lt_succ_of_le (List.le_sum_of_mem (List.mem_flatMap.mpr ⟨t, ht, hslot⟩))

/-- Beside the table a call changes nothing but `$top`, and that only if it may name root
objects. -/
theorem get?_root_after {a : Archive} (ha : HasTable a) {call : Call} {key : String}
    (hkey : key ≠ objectsKey) (hnames : call.Names → key ≠ topKey) :
    Dict.get? (a.after call).root key = Dict.get? a.root key := by
  obtain ⟨bound, hbound⟩ := exists_refersWithin call.rawTrees
  exact (after_follows ha hbound).get?_root key hkey hnames

theorem hasTable_of_reached {start : Archive → Prop} {allowed : Archive → Call → Prop}
    (hstart : ∀ a, start a → HasTable a) {a : Archive} (h : Reached start allowed a) :
    HasTable a := by
  induction h with
  | initial h => exact hstart _ h
  | step _ _ ih => exact ih.after _

theorem Reachable.hasTable {a : Archive} (h : Reachable a) : HasTable a := by
  refine hasTable_of_reached ?_ h
  rintro a (rfl | ⟨t, ht⟩)
  · exact hasTable_new
  · exact hasTable_ofTree ht

/-- Objects that are no dictionaries stay in their slots, that of slot 0 for one. -/
theorem getElem?_table_of_reached {start : Archive → Prop} {allowed : Archive → Call → Prop}
    {slot : Nat} {object : Tree} (hobject : object.dict? = none)
    (hstart : ∀ a, start a → HasTable a ∧ a.table[slot]? = some object) {a : Archive}
    (h : Reached start allowed a) : a.table[slot]? = some object := by
  induction h with
  | initial h => exact (hstart _ h).2
  | @step a call h _ ih =>
    obtain ⟨bound, hbound⟩ := exists_refersWithin call.rawTrees
    have ha := hasTable_of_reached (fun a h => (hstart a h).1) h
    exact (after_follows ha hbound).getElem?_table slot object ih hobject

theorem Reached.reachable {allowed : Archive → Call → Prop} {a : Archive}
    (h : Reached (· = new) allowed a) : Reachable a := by
  induction h with
  | initial h => exact .initial (.inl h)
  | step _ _ ih => exact .step ih trivial

/-- After any calls on the new archive there is a table, and slot 0 holds the string for no
object. -/
theorem null_of_reached {allowed : Archive → Call → Prop} {a : Archive}
    (h : Reached (· = new) allowed a) : HasTable a ∧ a.find? 0 = some (.string nullText) := by
  have hstart : ∀ a, a = new → HasTable a ∧ a.table[0]? = some (.string nullText) := by
    rintro _ rfl
    exact ⟨hasTable_new, rfl⟩
  have htable : HasTable a := hasTable_of_reached (fun a h => (hstart a h).1) h
  have hnull : a.table[0]? = some (.string nullText) := getElem?_table_of_reached rfl hstart h
  exact ⟨htable, by rw [htable.find?_eq, hnull]⟩

end PlistCodec.Archive
