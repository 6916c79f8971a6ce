import PlistCodec.Proofs.Archive.Fitting
import PlistCodec.Proofs.Archive.Items

/-!
# The depth limit of storing and of flattening

Storing, copying and flattening stop at the same depth, but they do not count from the same place.
Flattening counts from the object that it begins with.  Storing counts from the value, although an
item or an entry ends up one level below the instance that takes it; and copying counts from the
start, although an archive may be copied into the middle of a value.  So not everything that is
stored can be flattened.

Whether flattening runs out of levels is said by the levels that the value fits within: all of them
if the value is a root object, and one less if it is an item or an entry (`LimitedBy`,
`flatten_limitedBy`).  A value that nothing is copied into fits within all levels when it is stored,
so it can be flattened as a root object; as an item it may be one level too deep.
-/

namespace PlistCodec

/-- No archive is copied into the middle of the value: it holds none, or it is one itself and can be
flattened. -/
def ArchiveValue.HasNoInnerCopies (v : ArchiveValue) : Prop :=
  v.sources = [] ∨ ∃ source w, v = .nsKeyedArchive source ∧ source.flatten = .ok w

namespace Archive

/-! ## Outcomes of flattening -/

/-- The levels that the value fits within decide whether flattening runs out of levels. -/
structure LimitedBy (levels : Nat) (v : ArchiveValue) (outcome : Except Error Tree) : Prop where
  /-- If the value fits, flattening does not run out of levels. -/
  within : v.FitsWithin levels → outcome ≠ .error (.recursionLimit maxDepth)
  /-- If it does not, flattening fails. -/
  fails : ¬ v.FitsWithin levels → ∃ e, outcome = .error e
  /-- It fails for want of levels if the value means something. -/
  exceeds : ¬ v.FitsWithin levels → ∀ w, v.meaning? = some w →
    outcome = .error (.recursionLimit maxDepth)

section Outcomes

variable {a b : Archive} {slot levels : Nat} {v : ArchiveValue}

/-- It is enough that the object settles if the value fits, and that it could be flattened with more
levels if the value means something. -/
theorem limitedBy_of_settles_iff (hnull : b.find? 0 = some (.string nullText))
    (hsettles : b.Settles (maxDepth + 1) (.uid slot) ↔ v.FitsWithin levels)
    (hmeaning : ∀ w, v.meaning? = some w → ∃ more w', maxDepth + 1 ≤ more ∧
      b.flattenWithin more slot = .ok w') : LimitedBy levels v (b.flattenObject slot) := by
  have hfails : ¬ v.FitsWithin levels → ∀ w, b.flattenObject slot ≠ .ok w :=
    fun hnot w hw => hnot (hsettles.mp (settles_of_resolves hw))
  refine ⟨fun hfits => (hsettles.mpr hfits).resolve_ne hnull, fun hnot => ?_, fun hnot w hw => ?_⟩
  · cases houtcome : b.flattenObject slot with
    | error e => exact ⟨e, rfl⟩
    | ok w => exact absurd houtcome (hfails hnot w)
  · obtain ⟨more, w', hle, hmore⟩ := hmeaning w hw
    refine (flattenWithin_eq_or hle).resolve_right fun hsame => ?_
    exact hfails hnot w' (hsame.trans hmore)

/-! ## Stored values -/

/-- What is known of the node of a stored value: the levels that it settles within, and what it
stands for. -/
def StoredAs (v : ArchiveValue) (d : Archive) (node : Tree) : Prop :=
  SettlesAs v d node ∧ ∀ w, v.meaning? = some w → d.Resolves (maxDepth + 1) node w

theorem encodeValue_storedAs (hv : ∀ t ∈ v.rawTrees, t.uid? = none) (ha : HasTable a) :
    Provides (Holds (StoredAs v)) (encodeValue (maxDepth + 1) v) a := by
  have hsettles := @encodeValue_settlesAs (maxDepth + 1) a v hv ha
  cases hmeaning : v.meaning? with
  | none =>
    refine hsettles.mono fun _ _ _ h d hnull hfinds => ⟨h d hnull hfinds, fun w hw => ?_⟩
    rw [hmeaning] at hw
    cases hw
  | some w =>
    have hboth := hsettles.and (encodeValue_storesAs hmeaning ha)
    refine hboth.mono fun _ _ _ h d hnull hfinds => ⟨h.1 d hnull hfinds, fun w' hw' => ?_⟩
    obtain rfl := Option.some.inj (hmeaning.symm.trans hw')
    exact h.2 d hnull hfinds

theorem limitedBy_appendRoot (ha : HasTable a) (hnull : a.find? 0 = some (.string nullText))
    (htop : Dict.get? a.root topKey = none) (hv : ∀ t ∈ v.rawTrees, t.uid? = none)
    (h : (appendRoot v).run a = .ok () b) : LimitedBy (maxDepth + 1) v b.flatten := by
  obtain ⟨slot, c, hencode, hfind, hroot⟩ := exists_of_appendRoot ha htop h
  obtain ⟨new, rfl, hnode⟩ := of_ends_of_run_ok (encodeValue_storedAs hv ha) hencode
  have hnull' : b.find? 0 = some (.string nullText) := by rw [hfind, ha.find?_grown new hnull]
  have hfinds : Finds b.find? (a.lastUid + 1) new := by rw [hfind]; exact ha.finds_grown new
  have hstored : StoredAs v b (.uid slot) := hnode b hnull' hfinds
  rw [flatten, hroot]
  exact limitedBy_of_settles_iff hnull' (hstored.1 hnull' _) fun w hw =>
    ⟨maxDepth + 1, w, Nat.le_refl _, hstored.2 w hw⟩

end Outcomes

/-! ## Instances without lists -/

section Fresh

variable {a b : Archive} {slot place : Nat} {c : ObjectClass} {entries entries' : Dict Tree}
variable {v : ArchiveValue} {key : String}

theorem IsInstance.withEntries (h : a.IsInstance slot c entries) (ha : HasTable a)
    (hnull : a.find? 0 = some (.string nullText)) (hclass : SameClass entries entries')
    (objects : List Tree) :
    ((a.grown objects).withEntries slot entries').IsInstance slot c entries' := by
  have hnot : ¬ a.FlattensWithin 0 slot := by
    rintro ⟨levels, w, hlevels, hw⟩
    obtain rfl := Nat.le_zero.mp hlevels
    cases hw
  exact (changed_withEntries ha hnull h hclass hnot (Nat.le_refl 0) objects).isInstance

theorem find?_zero_withEntries (ha : HasTable a) (hnull : a.find? 0 = some (.string nullText))
    (hslot : a.find? slot = some (.dict entries)) (entries' : Dict Tree) (objects : List Tree) :
    ((a.grown objects).withEntries slot entries').find? 0 = some (.string nullText) := by
  have hzero : Holds (fun d _ => d.find? 0 = some (.string nullText)) (a.lastUid + 1) objects
      (.uid 0) := fun _ hnull _ => hnull
  exact ha.of_holds_withEntries hnull hslot hzero

/-- A list that an instance does not have is there when it has been made sure of. -/
theorem IsInstance.exists_of_ensureArray (h : a.IsInstance slot c entries) (ha : HasTable a)
    (hnull : a.find? 0 = some (.string nullText)) {name : String} (hclass : name ≠ classKey)
    (hclassname : name ≠ classnameKey) (hname : entries.get? name = none) :
    ∃ b, (ensureArray slot name).run a = .ok () b ∧ HasTable b ∧
      b.find? 0 = some (.string nullText) ∧
      b.IsInstance slot c (entries.insert name (.array [])) := by
  have hsame := sameClass_insert entries (.array []) hclass hclassname
  have hinstance := h.withEntries ha hnull hsame []
  have hzero := find?_zero_withEntries ha hnull h.find?_eq (entries.insert name (.array [])) []
  rw [ha.grown_nil] at hinstance hzero
  exact ⟨_, ha.run_ensureArray_of_none h.find?_eq hname, ha.withEntries slot _, hzero, hinstance⟩

/-- The entries of an instance that has a class and nothing else. -/
def classEntries (place : Nat) : Dict Tree := [(classKey, .uid place)]

/-- An array object without a list gets one with the item that is stored in it. -/
theorem exists_of_appendItem (ha : HasTable a) (hnull : a.find? 0 = some (.string nullText))
    (hfresh : a.IsInstance slot .array (classEntries place)) {P : Archive → Tree → Prop}
    (hv : ∀ b, HasTable b → Provides (Holds P) (encodeValue (maxDepth + 1) v) b)
    (h : (appendItem slot v).run a = .ok () b) :
    ∃ (entries : Dict Tree) (node : Tree), b.IsInstance slot .array entries ∧
      entries.get? itemsKey = some (.array [node]) ∧ b.find? 0 = some (.string nullText) ∧
      P b node := by
  have hnone : Dict.get? (classEntries place) itemsKey = none := rfl
  obtain ⟨d, hrun, hd, hzero, hlist⟩ :=
    hfresh.exists_of_ensureArray ha hnull (by decide) (by decide) hnone
  have hitems : Dict.get? ((classEntries place).insert itemsKey (.array [])) itemsKey
      = some (.array []) := rfl
  have hagain : (appendItem slot v).run d = .ok () b := by
    rw [appendItem, run_bind_of_ok (run_ensureArray_of_array hlist.find?_eq hitems)]
    rw [appendItem, run_bind_of_ok hrun] at h
    exact h
  obtain ⟨objects, node, hnode, rfl⟩ := appendItem_eq_ok hd hlist.find?_eq hitems hv hagain
  have hsame := sameClass_insert ((classEntries place).insert itemsKey (.array [])) (.array [node])
    (by decide : itemsKey ≠ classKey) (by decide)
  exact ⟨_, node, hlist.withEntries hd hzero hsame objects, rfl,
    find?_zero_withEntries hd hzero hlist.find?_eq _ _,
    hd.of_holds_withEntries hzero hlist.find?_eq hnode⟩

/-- A dictionary object without lists gets both with the entry that is stored in it. -/
theorem exists_of_addEntry (ha : HasTable a) (hnull : a.find? 0 = some (.string nullText))
    (hfresh : a.IsInstance slot .dictionary (classEntries place)) {P Q : Archive → Tree → Prop}
    (hkey : ∀ b, HasTable b → Provides (Holds P) (encodeValue (maxDepth + 1) (.string key)) b)
    (hv : ∀ b, HasTable b → Provides (Holds Q) (encodeValue (maxDepth + 1) v) b)
    (h : (addEntry slot key v).run a = .ok () b) :
    ∃ (entries : Dict Tree) (keyNode node : Tree), b.IsInstance slot .dictionary entries ∧
      entries.get? keysKey = some (.array [keyNode]) ∧
      entries.get? itemsKey = some (.array [node]) ∧ b.find? 0 = some (.string nullText) ∧
      P b keyNode ∧ Q b node := by
  have hnoKeys : Dict.get? (classEntries place) keysKey = none := rfl
  obtain ⟨d, hrunKeys, hd, hzero, hlist⟩ :=
    hfresh.exists_of_ensureArray ha hnull (by decide) (by decide) hnoKeys
  have hnone : Dict.get? ((classEntries place).insert keysKey (.array [])) itemsKey = none := rfl
  obtain ⟨e, hrun, he, hzero, hlists⟩ :=
    hlist.exists_of_ensureArray hd hzero (by decide) (by decide) hnone
  have hkeys : Dict.get? (((classEntries place).insert keysKey (.array [])).insert itemsKey
      (.array [])) keysKey = some (.array []) := rfl
  have hitems : Dict.get? (((classEntries place).insert keysKey (.array [])).insert itemsKey
      (.array [])) itemsKey = some (.array []) := rfl
  have hagain : (addEntry slot key v).run e = .ok () b := by
    rw [addEntry, run_bind_of_ok (run_ensureArray_of_array hlists.find?_eq hkeys),
      run_bind_of_ok (run_ensureArray_of_array hlists.find?_eq hitems)]
    rw [addEntry, run_bind_of_ok hrunKeys, run_bind_of_ok hrun] at h
    exact h
  obtain ⟨objects, keyNode, node, hkeyNode, hnode, rfl⟩ :=
    addEntry_eq_ok he hlists.find?_eq hkeys hitems stable_holds stable_holds hkey hv hagain
  have hsame := (sameClass_insert (((classEntries place).insert keysKey (.array [])).insert itemsKey
    (.array [])) (.array [keyNode]) (by decide : keysKey ≠ classKey) (by decide)).trans
      (sameClass_insert _ (.array [node]) (by decide : itemsKey ≠ classKey) (by decide))
  exact ⟨_, keyNode, node, hlists.withEntries he hzero hsame objects, rfl, rfl,
    find?_zero_withEntries he hzero hlists.find?_eq _ _,
    he.of_holds_withEntries hzero hlists.find?_eq hkeyNode,
    he.of_holds_withEntries hzero hlists.find?_eq hnode⟩

/-! ## Items and entries -/

theorem limitedBy_appendItem (ha : HasTable a) (hnull : a.find? 0 = some (.string nullText))
    (hfresh : a.IsInstance slot .array (classEntries place))
    (hv : ∀ t ∈ v.rawTrees, t.uid? = none) (h : (appendItem slot v).run a = .ok () b) :
    LimitedBy maxDepth v (b.flattenObject slot) := by
  obtain ⟨entries, node, hinstance, hitems, hzero, hstored⟩ :=
    exists_of_appendItem ha hnull hfresh (fun b hb => encodeValue_storedAs hv hb) h
  refine limitedBy_of_settles_iff hzero ?_ fun w hw => ⟨maxDepth + 2, .array [w], by omega, ?_⟩
  · rw [hinstance.settles_iff hzero, nodesOf, hinstance.listedNodes_eq hitems,
      List.forall_mem_singleton]
    exact hstored.1 hzero maxDepth
  · exact hinstance.flatten_array hitems (.cons (hstored.2 w hw) .nil)

theorem limitedBy_addEntry (ha : HasTable a) (hnull : a.find? 0 = some (.string nullText))
    (hfresh : a.IsInstance slot .dictionary (classEntries place))
    (hv : ∀ t ∈ v.rawTrees, t.uid? = none) (h : (addEntry slot key v).run a = .ok () b) :
    LimitedBy maxDepth v (b.flattenObject slot) := by
  have hkey : ∀ b, HasTable b →
      Provides (Holds (StoredAs (.string key))) (encodeValue (maxDepth + 1) (.string key)) b :=
    fun b hb => encodeValue_storedAs (List.forall_mem_nil _) hb
  obtain ⟨entries, keyNode, node, hinstance, hkeys, hitems, hzero, hstoredKey, hstored⟩ :=
    exists_of_addEntry ha hnull hfresh hkey (fun b hb => encodeValue_storedAs hv hb) h
  refine limitedBy_of_settles_iff hzero ?_ fun w hw =>
    ⟨maxDepth + 2, .dict (Dict.ofList [(key, w)]), by omega, ?_⟩
  · have hkeySettles : b.Settles maxDepth keyNode := (hstoredKey.1 hzero maxDepth).mpr .string
    rw [hinstance.settles_iff hzero, nodesOf, hinstance.listedNodes_eq hkeys,
      hinstance.listedNodes_eq hitems, List.forall_mem_append, List.forall_mem_singleton,
      List.forall_mem_singleton, and_iff_right hkeySettles]
    exact hstored.1 hzero maxDepth
  · have hpairs : List.Forall₂ (fun n e => b.Resolves (maxDepth + 1) n.1 (.string e.1) ∧
        b.Resolves (maxDepth + 1) n.2 e.2) [(keyNode, node)] [(key, w)] :=
      .cons ⟨hstoredKey.2 _ rfl, hstored.2 w hw⟩ .nil
    refine hinstance.flatten_dictionary ?_ ?_ hpairs
    · exact hkeys
    · exact hitems

end Fresh

/-! ## The limit -/

/-- What is stored fits within all levels if nothing is copied into the middle of it. -/
theorem fitsWithin_of_hasNoInnerCopies {a b : Archive} {v : ArchiveValue} {node : Tree}
    (hv : v.HasNoInnerCopies) (h : (encodeValue (maxDepth + 1) v).run a = .ok node b) :
    v.FitsWithin (maxDepth + 1) := by
  rcases hv with hv | ⟨source, w, rfl, hw⟩
  · exact fitsWithin_of_encodeValue hv h
  · exact fitsWithin_of_flatten hw

/-- **The depth limit.**  Let a value with no reference stored in place be stored in an archive that
calls have made of the new one.  As the first root object of the archive it can be followed if it
fits within all levels that flattening has, and it does so if nothing was copied into the middle of
it.  As the only item of an array object, or the only entry of a dictionary object, it can be
followed if it fits within one level less; and that is not asked for when it is stored. -/
theorem flatten_limitedBy {a : Archive} {v : ArchiveValue}
    (ha : Reached (· = new) (fun _ _ => True) a) (hv : ∀ t ∈ v.rawTrees, t.uid? = none) :
    (∀ b, Dict.get? a.root topKey = none → (appendRoot v).run a = .ok () b →
      LimitedBy (maxDepth + 1) v b.flatten ∧
      (v.HasNoInnerCopies → v.FitsWithin (maxDepth + 1))) ∧
    (∀ slot place b, a.IsInstance slot .array (classEntries place) →
      (appendItem slot v).run a = .ok () b → LimitedBy maxDepth v (b.flattenObject slot) ∧
      (v.HasNoInnerCopies → v.FitsWithin (maxDepth + 1))) ∧
    ∀ slot place key b, a.IsInstance slot .dictionary (classEntries place) →
      (addEntry slot key v).run a = .ok () b → LimitedBy maxDepth v (b.flattenObject slot) ∧
      (v.HasNoInnerCopies → v.FitsWithin (maxDepth + 1)) := by
  obtain ⟨htable, hnull⟩ := null_of_reached ha
  refine ⟨fun b htop h => ?_, fun slot place b hfresh h => ?_, fun slot place key b hfresh h => ?_⟩
  · refine ⟨limitedBy_appendRoot htable hnull htop hv h, fun hcopies => ?_⟩
    obtain ⟨_, _, hencode, -⟩ := exists_of_appendRoot htable htop h
    exact fitsWithin_of_hasNoInnerCopies hcopies hencode
  · refine ⟨limitedBy_appendItem htable hnull hfresh hv h, fun hcopies => ?_⟩
    obtain ⟨_, _, -, h⟩ := exists_of_run_bind_eq_ok h
    obtain ⟨_, _, hencode, -⟩ := exists_of_run_bind_eq_ok h
    exact fitsWithin_of_hasNoInnerCopies hcopies hencode
  · refine ⟨limitedBy_addEntry htable hnull hfresh hv h, fun hcopies => ?_⟩
    obtain ⟨_, _, -, h⟩ := exists_of_run_bind_eq_ok h
    obtain ⟨_, _, -, h⟩ := exists_of_run_bind_eq_ok h
    obtain ⟨_, _, -, h⟩ := exists_of_run_bind_eq_ok h
    obtain ⟨_, _, hencode, -⟩ := exists_of_run_bind_eq_ok h
    exact fitsWithin_of_hasNoInnerCopies hcopies hencode

/-- An array object and a dictionary object that have a class and nothing else. -/
def emptyInstances : Archive :=
  (new.after (.appendClass "NSArray" ["NSObject"])).after
    (.appendClass "NSMutableDictionary" ["NSDictionary", "NSObject"])

/-- A list with an archive in the middle of it, beside a string object and a reference inside of a
property list. -/
def listWithArchive : ArchiveValue :=
  .nsArray .mutable [.nsKeyedArchive (new.after (.appendRoot (.boolean true))),
    .nsString .fixed "text", .inlineTree (.array [.uid 1])]

theorem isInstance_emptyInstances : emptyInstances.IsInstance 1 .array (classEntries 2) ∧
    emptyInstances.IsInstance 3 .dictionary (classEntries 4) := by
  have harray : emptyInstances.find? 2 = some (classDescription (ObjectClass.array.formName .fixed)
      (ObjectClass.array.ancestors .fixed)) := rfl
  have hdictionary : emptyInstances.find? 4 = some (classDescription
      (ObjectClass.dictionary.formName .mutable) (ObjectClass.dictionary.ancestors .mutable)) := rfl
  exact ⟨isInstance_of_find? rfl rfl (by decide) harray,
    isInstance_of_find? rfl rfl (by decide) hdictionary⟩

theorem flatten_limitedBy_listWithArchive :
    Reached (· = new) (fun _ _ => True) emptyInstances ∧
    (∀ t ∈ listWithArchive.rawTrees, t.uid? = none) ∧
    Dict.get? emptyInstances.root topKey = none ∧
    emptyInstances.IsInstance 1 .array (classEntries 2) ∧
    emptyInstances.IsInstance 3 .dictionary (classEntries 4) ∧
    (∃ b, (appendRoot listWithArchive).run emptyInstances = .ok () b ∧
      LimitedBy (maxDepth + 1) listWithArchive b.flatten) ∧
    (∃ b, (appendItem 1 listWithArchive).run emptyInstances = .ok () b ∧
      LimitedBy maxDepth listWithArchive (b.flattenObject 1)) ∧
    ∃ b, (addEntry 3 "key" listWithArchive).run emptyInstances = .ok () b ∧
      LimitedBy maxDepth listWithArchive (b.flattenObject 3) := by
  have hreached : Reached (· = new) (fun _ _ => True) emptyInstances :=
    .step (.step (.initial rfl) trivial) trivial
  have hraw : ∀ t ∈ listWithArchive.rawTrees, t.uid? = none := by decide
  obtain ⟨harray, hdictionary⟩ := isInstance_emptyInstances
  have hroot : ∃ b, (appendRoot listWithArchive).run emptyInstances = .ok () b := ⟨_, rfl⟩
  have hitem : ∃ b, (appendItem 1 listWithArchive).run emptyInstances = .ok () b := ⟨_, rfl⟩
  have hentry : ∃ b, (addEntry 3 "key" listWithArchive).run emptyInstances = .ok () b := ⟨_, rfl⟩
  obtain ⟨b, hb⟩ := hroot
  obtain ⟨c, hc⟩ := hitem
  obtain ⟨d, hd⟩ := hentry
  obtain ⟨hlimitRoot, hlimitItem, hlimitEntry⟩ := flatten_limitedBy hreached hraw
  exact ⟨hreached, hraw, rfl, harray, hdictionary, ⟨b, hb, (hlimitRoot b rfl hb).1⟩,
    ⟨c, hc, (hlimitItem 1 2 c harray hc).1⟩, d, hd, (hlimitEntry 3 4 "key" d hdictionary hd).1⟩

/-! ## An item that is one level too deep -/

/-- A truth value in `n` lists. -/
def nestedArrays : Nat → ArchiveValue
  | 0 => .boolean true
  | n + 1 => .nsArray .fixed [nestedArrays n]

theorem exists_meaning?_nestedArrays (n : Nat) : ∃ w, (nestedArrays n).meaning? = some w := by
  induction n with
  | zero => exact ⟨.bool true, rfl⟩
  | succ n ih =>
    obtain ⟨w, hw⟩ := ih
    refine ⟨.array [w], ?_⟩
    rw [nestedArrays, ArchiveValue.meaning?, ArchiveValue.itemMeanings?, hw]
    rfl

theorem rawTrees_nestedArrays (n : Nat) : (nestedArrays n).rawTrees = [] := by
  induction n with
  | zero => rfl
  | succ n ih => rw [nestedArrays, ArchiveValue.rawTrees_nsArray, List.flatMap_singleton, ih]

theorem lt_of_fitsWithin_nestedArrays {n levels : Nat}
    (h : (nestedArrays n).FitsWithin levels) : n < levels := by
  induction n generalizing levels with
  | zero => cases h; exact Nat.succ_pos _
  | succ n ih =>
    cases h with
    | nsArray h => exact Nat.succ_lt_succ (ih (List.forall_mem_singleton.mp h))

theorem exists_run_nestedArrays {n levels : Nat} (hlt : n < levels) {a : Archive}
    (ha : HasTable a) :
    ∃ node new, (encodeValue levels (nestedArrays n)).run a = .ok node (a.grown new) := by
  induction n generalizing levels a with
  | zero =>
    obtain ⟨levels, rfl⟩ := Nat.exists_eq_add_of_le' hlt
    exact ⟨_, _, run_bind_of_ok (ha.run_appendObject (.bool true))⟩
  | succ n ih =>
    obtain ⟨levels, rfl⟩ := Nat.exists_eq_add_of_le' (Nat.one_le_of_lt hlt)
    have hclass : (appendInstance .array .fixed).run a
        = .ok (a.lastUid + 1) (a.withInstance .array .fixed [] []) := ha.run_appendClass _ rfl
    obtain ⟨node, new, hnode⟩ := ih (Nat.lt_of_succ_lt_succ hlt) (ha.withInstance [] [])
    have hnodes : ([nestedArrays n].mapM (encodeValue levels)).run
        (a.withInstance .array .fixed [] [])
          = .ok [node] (a.withInstance .array .fixed [] new) := by
      rw [List.mapM_cons, run_bind_of_ok hnode, withInstance_grown]
      rfl
    rw [nestedArrays, encodeValue, run_bind_of_ok hclass, run_bind_of_ok hnodes, withInstance,
      run_bind_of_ok (ha.run_modifyInstance_grown _ _ _)]
    exact ⟨_, _, rfl⟩

/-- With as many lists as there are levels, the value is stored as an item of the empty array
object, which cannot be flattened then. -/
theorem flattenObject_nestedArrays : Reached (· = new) (fun _ _ => True) emptyInstances ∧
    emptyInstances.IsInstance 1 .array (classEntries 2) ∧
    (∃ w, (nestedArrays maxDepth).meaning? = some w) ∧
    ∃ b, (appendItem 1 (nestedArrays maxDepth)).run emptyInstances = .ok () b ∧
      b.flattenObject 1 = .error (.recursionLimit maxDepth) := by
  have hreached : Reached (· = new) (fun _ _ => True) emptyInstances :=
    .step (.step (.initial rfl) trivial) trivial
  have harray := isInstance_emptyInstances.1
  obtain ⟨htable, hnull⟩ := null_of_reached hreached
  have hstored : ∃ b, (appendItem 1 (nestedArrays maxDepth)).run emptyInstances = .ok () b := by
    have hnone : Dict.get? (classEntries 2) itemsKey = none := rfl
    obtain ⟨c, hlist, hc, -, hinstance⟩ :=
      harray.exists_of_ensureArray htable hnull (by decide) (by decide) hnone
    obtain ⟨node, new, hnode⟩ := exists_run_nestedArrays (Nat.lt_succ_self maxDepth) hc
    have hpush := (hc.grown new).run_pushItem (hc.find?_grown new hinstance.find?_eq)
      (Dict.get?_insert_self _ _ _) node
    rw [appendItem, run_bind_of_ok hlist, run_bind_of_ok hnode]
    exact ⟨_, hpush⟩
  have hraw : ∀ t ∈ (nestedArrays maxDepth).rawTrees, t.uid? = none := by
    rw [rawTrees_nestedArrays]
    exact List.forall_mem_nil _
  have hnot : ¬ (nestedArrays maxDepth).FitsWithin maxDepth :=
    fun hfits => Nat.lt_irrefl _ (lt_of_fitsWithin_nestedArrays hfits)
  obtain ⟨w, hw⟩ := exists_meaning?_nestedArrays maxDepth
  obtain ⟨b, hb⟩ := hstored
  have hlimit := limitedBy_appendItem htable hnull harray hraw hb
  exact ⟨hreached, harray, ⟨w, hw⟩, b, hb, hlimit.exceeds hnot w hw⟩

end Archive

end PlistCodec
