import PlistCodec.Proofs.Archive.DefaultRoot

/-!
# Reading what has been built

Reading checks five things of a property list: the archiver, the version, the table, that there is a
default root object, and that it is in the table.  An archive that is made from scratch has all but
one of them at any time (`Readable`), since root objects are named by slots of the table only, and
the table never gets shorter.  The one thing is the default root object, which there is not before
one has been named, and not after its name has been changed.  So `ofTree_toTree_iff` holds: the
property list of such an archive is read as the archive itself exactly if it has a default root
object.
-/

namespace PlistCodec.Archive

/-! ## The default root object, read -/

section Reading

variable {a : Archive} {slot : Nat}

/-- Reading finds the default root object where the archive has it. -/
theorem findDefaultRoot_eq_ok_iff :
    findDefaultRoot a.root = .ok slot ↔ a.topUid? none = some slot := by
  rw [topUid?_none_eq, roots, top?]
  constructor
  · intro h
    obtain ⟨top, htop, h⟩ := exists_of_bind_eq_ok h
    obtain ⟨entry, hentry, h⟩ := exists_of_bind_eq_ok h
    obtain ⟨value, hvalue, hdict⟩ := exists_of_bind_eq_ok htop
    rw [orFail_eq_ok_iff] at hentry h hvalue hdict
    rw [hvalue, Option.bind_some, hdict, Option.getD_some, hentry, Option.bind_some, h]
  · intro h
    obtain ⟨entry, hentry, huid⟩ := Option.bind_eq_some_iff.mp h
    cases htop : (Dict.get? a.root topKey).bind Tree.dict? with
    | none =>
      rw [htop] at hentry
      cases hentry
    | some top =>
      obtain ⟨value, hvalue, hdict⟩ := Option.bind_eq_some_iff.mp htop
      rw [htop, Option.getD_some] at hentry
      rw [findDefaultRoot, dictAt, hvalue]
      simp only [orFail, bind, Except.bind, hdict, hentry, huid]

/-- An archive that has been read has a default root object. -/
theorem exists_topUid?_of_ofTree {t : Tree} (h : ofTree t = .ok a) :
    ∃ slot, a.topUid? none = some slot := by
  obtain ⟨root, -, h⟩ := exists_of_bind_eq_ok h
  -- neither the archiver nor the version has a say in this
  obtain ⟨-, -, h⟩ := exists_of_bind_eq_ok h
  obtain ⟨-, -, h⟩ := exists_of_bind_eq_ok h
  obtain ⟨slot, hslot, h⟩ := exists_of_bind_eq_ok h
  obtain ⟨objects, -, h⟩ := exists_of_bind_eq_ok h
  by_cases hlt : slot < objects.length
  · rw [if_pos hlt] at h
    cases h
    exact ⟨slot, findDefaultRoot_eq_ok_iff.mp hslot⟩
  · rw [if_neg hlt] at h
    cases h

theorem HasTable.findObjects_eq (ha : HasTable a) : findObjects a.root = .ok a.table := by
  have hobjects : arrayAt a.root objectsKey = .ok a.table := ha.objects_eq
  have hlength := ha.length_table
  rw [findObjects, hobjects]
  cases htable : a.table with
  | nil => rw [htable] at hlength; cases hlength
  | cons first rest => rfl

end Reading

/-! ## Archives that can be read, but for the default root object -/

/-- The root objects are in the table. -/
def RootsFit (a : Archive) : Prop :=
  ∀ e ∈ a.roots, ∃ slot, e.2 = .uid slot ∧ slot < a.table.length

/-- Everything that reading checks of an archive, save that there is a default root object. -/
structure Readable (a : Archive) : Prop where
  /-- There is a table, and its last slot is known. -/
  hasTable : HasTable a
  /-- The archiver is the known one. -/
  archiver : Dict.get? a.root archiverKey = some (.string archiverName)
  /-- The version is the known one. -/
  version : Dict.get? a.root versionKey = some (.int archiverVersion)
  /-- The root objects are in the table. -/
  roots : RootsFit a

section Readable

variable {I : Invariant} {call : Call} {a b : Archive}

theorem readable_new : Readable new where
  hasTable := hasTable_new
  archiver := rfl
  version := rfl
  roots := List.forall_mem_nil _

/-- One step keeps the root objects in the table. -/
theorem RootsFit.step (h : RootsFit a) (hstep : Step I call a b) : RootsFit b := by
  intro e he
  cases hstep with
  | @grow new =>
    obtain ⟨slot, heq, hlt⟩ := h e (by simpa using he)
    rw [table_grown, List.length_append]
    exact ⟨slot, heq, Nat.lt_add_right _ hlt⟩
  | write =>
    rw [roots_withEntries] at he
    simpa [withEntries] using h e he
  | @add slot _ hslot =>
    simp only [roots_withTop, table_withTop] at he ⊢
    rcases Dict.mem_insert he with rfl | he
    · exact ⟨slot, rfl, hslot⟩
    · exact h e he
  | rename _ htop =>
    simp only [roots_withTop, table_withTop] at he ⊢
    obtain ⟨old, hold, heq⟩ := exists_of_mem_renameFirst he
    rw [← heq]
    exact h old (by rw [roots, htop]; exact hold)

/-- One call. -/
theorem Readable.after (h : Readable a) (call : Call) : Readable (a.after call) := by
  obtain ⟨htable, hroots⟩ := (steps_after call.brings_anything h.hasTable).keep h.hasTable h.roots
    fun _ _ _ hfit hstep => hfit.step hstep
  refine ⟨htable, ?_, ?_, hroots⟩
  · rw [get?_root_after h.hasTable (by decide) fun _ => by decide, h.archiver]
  · rw [get?_root_after h.hasTable (by decide) fun _ => by decide, h.version]

/-- Any calls. -/
theorem readable_of_reached {allowed : Archive → Call → Prop} (h : Reached (· = new) allowed a) :
    Readable a := by
  induction h with
  | initial h => rw [h]; exact readable_new
  | step _ _ ih => exact ih.after _

/-- The default root object is in the table. -/
theorem Readable.topUid?_lt (h : Readable a) {slot : Nat} (hslot : a.topUid? none = some slot) :
    slot < a.table.length := by
  rw [topUid?_none_eq] at hslot
  obtain ⟨entry, hentry, huid⟩ := Option.bind_eq_some_iff.mp hslot
  obtain ⟨key, hmem⟩ : ∃ key, (key, entry) ∈ a.roots := by
    rcases Option.or_eq_some_iff.mp hentry with hdefault | ⟨-, hroot⟩
    · exact ⟨_, Dict.mem_of_get? hdefault⟩
    · exact ⟨_, Dict.mem_of_get? hroot⟩
  obtain ⟨place, hplace, hlt⟩ := h.roots _ hmem
  obtain rfl := Tree.uid.inj (hplace.symm.trans (Tree.uid?_eq_some_iff.mp huid))
  exact hlt

theorem Readable.ofTree_toTree (h : Readable a) {slot : Nat} (hslot : a.topUid? none = some slot) :
    ofTree a.toTree = .ok a := by
  have harchiver : checkArchiver a.root = .ok () := by
    rw [checkArchiver, h.archiver]
    rfl
  have hversion : checkVersion a.root = .ok () := by
    rw [checkVersion, h.version]
    rfl
  have hlast : a.table.length - 1 = a.lastUid := by
    rw [h.hasTable.length_table, Nat.add_sub_cancel]
  simp only [ofTree, toTree, Tree.dict?, orFail, bind, Except.bind, harchiver, hversion,
    findDefaultRoot_eq_ok_iff.mpr hslot, h.hasTable.findObjects_eq, if_pos (h.topUid?_lt hslot),
    hlast]

/-- **Reading what has been built.**  The property list of an archive that any calls, successful or
not, have made of the new archive is read as the archive itself if and only if the archive has a
default root object. -/
theorem ofTree_toTree_iff (h : Reached (· = new) (fun _ _ => True) a) :
    ofTree a.toTree = .ok a ↔ ∃ slot, a.topUid? none = some slot := by
  constructor
  · exact exists_topUid?_of_ofTree
  · rintro ⟨slot, hslot⟩
    exact (readable_of_reached h).ofTree_toTree hslot

end Readable

/-- An archive whose root object has the other usual name, after a call that has failed. -/
def underRoot : Archive :=
  ((new.after (.addTopClass "NSArray" ["NSObject"])).after (.renameTop rootTopKey)).after
    (.appendItem 1 (.nsArray .fixed [.string "text", .fromPlist (.int 1)]))

/-- It can be read, and `anonymous` cannot. -/
theorem ofTree_toTree_iff_underRoot :
    Reached (· = new) (fun _ _ => True) underRoot ∧
    (ofTree underRoot.toTree = .ok underRoot ↔ ∃ slot, underRoot.topUid? none = some slot) ∧
    underRoot.topUid? none = some 1 ∧ ofTree underRoot.toTree = .ok underRoot ∧
    Reached (· = new) (fun _ _ => True) anonymous ∧
    anonymous.topUid? none = none ∧ ofTree anonymous.toTree ≠ .ok anonymous := by
  have hreached : Reached (· = new) (fun _ _ => True) underRoot :=
    .step (.step (.step (.initial rfl) trivial) trivial) trivial
  have hanonymous : Reached (· = new) (fun _ _ => True) anonymous :=
    .step (.step (.initial rfl) trivial) trivial
  have htop : underRoot.topUid? none = some 1 := rfl
  have hnone : anonymous.topUid? none = none := rfl
  have hiff := ofTree_toTree_iff hreached
  refine ⟨hreached, hiff, htop, hiff.mpr ⟨1, htop⟩, hanonymous, hnone, fun hread => ?_⟩
  obtain ⟨slot, hslot⟩ := (ofTree_toTree_iff hanonymous).mp hread
  cases hnone.symm.trans hslot

end PlistCodec.Archive
