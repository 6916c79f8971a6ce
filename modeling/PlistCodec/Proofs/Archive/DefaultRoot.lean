import PlistCodec.Proofs.Archive.Roots

/-!
# The default root object

A value that is stored as a root object becomes the first new object of the archive, or is the
object of slot 0 (`encodeValue_archivedAt`).  If the archive has no default root object, that object
is to become it.  The name, however, is made of the number of root objects, as for any further one,
so it is `$0` only if there are none (`topUid?_appendRoot`): an archive whose first root object has
been renamed gets a root object more, and still no default one.
-/

namespace PlistCodec

theorem ArchiveValue.isInline_ofTree {t : Tree} {v : ArchiveValue} (h : ofTree t = .ok v) :
    v.isInline = false := by
  cases t with
  | string text => cases h; rfl
  | array items => cases h; rfl
  | dict entries => cases h; rfl
  | _ => cases h

namespace Archive

/-! ## Where a value is archived -/

/-- What is archived on the way from `a` to `b` has its place in `slot`: it is the first new object,
or, without any new object, that of slot 0. -/
def ArchivedAt (a : Archive) (slot : Nat) (b : Archive) : Prop :=
  slot = a.lastUid + 1 ∧ a.lastUid < b.lastUid ∨ slot = 0 ∧ b.table = a.table

/-- A computation that archives something: it yields a reference to where that is. -/
def Archives (m : Builder Tree) (a : Archive) : Prop :=
  Ends m a (fun node b => ∃ slot, node = .uid slot ∧ ArchivedAt a slot b) fun _ => True

section Archiving

variable {a : Archive}

theorem archives_null : Archives (pure (.uid 0)) a :=
  ends_pure ⟨0, rfl, .inr ⟨rfl, rfl⟩⟩

theorem archives_appendObject (ha : HasTable a) (object : Tree) :
    Archives (do return .uid (← appendObject object)) a :=
  ends_of_run_ok (run_bind_of_ok (ha.run_appendObject object))
    ⟨_, rfl, .inl ⟨rfl, Nat.lt_succ_self _⟩⟩

theorem GrowsInstance.archives {I : Invariant} {m : Builder Tree} (h : GrowsInstance I m a) :
    Archives m a := by
  refine h.mono ?_ fun _ _ => trivial
  rintro node b ⟨hgrew, rfl⟩
  exact ⟨_, rfl, .inl ⟨rfl, hgrew.lastUid_lt⟩⟩

/-- A walk from a reference ends with a reference to the first new object. -/
theorem mergeNode_uid {source : Archive} {levels slot : Nat} (ha : HasTable a) (hslot : slot ≠ 0)
    (hdone : (mergeNode source levels (.uid slot) a).fault = none) :
    (mergeNode source levels (.uid slot) a).node = .uid (a.lastUid + 1) ∧
      a.lastUid < (mergeNode source levels (.uid slot) a).archive.lastUid := by
  obtain ⟨new, hwalk⟩ := mergeNode_walked source levels (.uid slot) ha
  have hnode : (mergeNode source levels (.uid slot) a).node = .uid (a.lastUid + 1) := by
    cases levels with
    | zero => cases hdone
    | succ levels =>
      rw [mergeNode, if_neg hslot, mergeSlot] at hdone ⊢
      cases hobject : source.object slot with
      | error e => rw [hobject] at hdone; cases hdone
      | ok copy =>
        simp only [ha.run_appendObject placeholder]
        split
        · rfl
        · split <;> rfl
  have hperm := (hwalk.copied_of_done hdone).references_perm.length_eq
  rw [hnode, Tree.references_uid (Nat.succ_ne_zero _), List.length_append, List.length_singleton,
    List.length_range'] at hperm
  rw [hwalk.archive_eq, lastUid_grown]
  exact ⟨hnode, by omega⟩

theorem archives_mergeArchive (source : Archive) (ha : HasTable a) :
    Archives (mergeArchive source) a := by
  unfold Archives Ends EStateM.run mergeArchive
  cases source.topUid? none with
  | none => exact ⟨0, rfl, .inr ⟨rfl, rfl⟩⟩
  | some slot =>
    by_cases hslot : slot = 0
    · subst hslot
      exact ⟨0, rfl, .inr ⟨rfl, rfl⟩⟩
    · have hwalk := @mergeNode_uid a source (maxDepth + 1) slot ha hslot
      simp only [mergeObject]
      generalize mergeNode source (maxDepth + 1) (.uid slot) a = m at hwalk ⊢
      obtain ⟨node, fault, b⟩ := m
      cases fault with
      | some e => trivial
      | none =>
        obtain ⟨hnode, hlt⟩ := hwalk rfl
        exact ⟨_, hnode, .inl ⟨rfl, hlt⟩⟩

/-- Every value that is not stored in place becomes an object, or is that of slot 0. -/
theorem encodeValue_archivedAt {levels : Nat} {v : ArchiveValue} (hv : v.isInline = false)
    (ha : HasTable a) : Archives (encodeValue levels v) a := by
  induction levels generalizing v with
  | zero => exact ends_throw trivial
  | succ levels ih =>
    cases v with
    | integer value => cases hv
    | inlineString text => cases hv
    | inlineTree tree => cases hv
    | data bytes => cases hv
    | integerObject value => exact archives_appendObject ha _
    | boolean value => exact archives_appendObject ha _
    | real value => exact archives_appendObject ha _
    | string text =>
      rw [encodeValue, encodeString]
      by_cases htext : text = nullText
      · rw [if_pos htext]
        exact archives_null
      · rw [if_neg htext]
        exact archives_appendObject ha _
    | nsKeyedArchive source => exact archives_mergeArchive source ha
    | fromPlist tree =>
      rw [encodeValue]
      cases htree : ArchiveValue.ofTree tree with
      | error e => exact ends_throw trivial
      | ok value => exact ih (ArchiveValue.isInline_ofTree htree)
    | _ => exact (encodeValue_growsInstance rfl (brings_anything _) ha).archives

end Archiving

/-! ## Storing a root object -/

/-- How a call that stores a value as a root object succeeds: the value is archived, and the object
becomes a root object if there is no default one. -/
theorem appendRoot_eq_ok {a b : Archive} {v : ArchiveValue} (h : (appendRoot v).run a = .ok () b) :
    v.isInline = false ∧ ∃ slot c, (encodeValue (maxDepth + 1) v).run a = .ok (.uid slot) c ∧
      ((c.topUid? none ≠ none ∧ b = c) ∨
        (c.topUid? none = none ∧ (addTop slot).run c = .ok () b)) := by
  unfold appendRoot at h
  cases hinline : v.isInline with
  | true =>
    rw [hinline] at h
    cases h
  | false =>
    rw [hinline] at h
    obtain ⟨node, c, hencode, h⟩ := exists_of_run_bind_eq_ok h
    refine ⟨rfl, ?_⟩
    cases node with
    | uid slot =>
      refine ⟨slot, c, hencode, ?_⟩
      rw [run_bind_of_ok run_get] at h
      cases htop : c.topUid? none with
      | some root =>
        rw [htop] at h
        cases h
        exact .inl ⟨Option.some_ne_none _, rfl⟩
      | none =>
        rw [htop] at h
        exact .inr ⟨rfl, h⟩
    | _ => cases h

/-! ## The default root object among the root objects -/

theorem topUid?_none_eq (a : Archive) : a.topUid? none = (defaultTop? a.roots).bind Tree.uid? := by
  rw [topUid?, roots, top?]
  cases hget : Dict.get? a.root topKey with
  | none => rfl
  | some value =>
    cases hdict : value.dict? with
    | none => simp [hdict, defaultTop?]
    | some top => simp [hdict]

theorem topUid?_withTop (a : Archive) (top : Dict Tree) :
    (a.withTop top).topUid? none = (defaultTop? top).bind Tree.uid? := by
  rw [topUid?_none_eq, roots_withTop]

theorem numberedTopKey_zero : numberedTopKey 0 = defaultTopKey := rfl

theorem numberedTopKey_ne_rootTopKey (n : Nat) : numberedTopKey n ≠ rootTopKey := by
  intro h
  have hchars := congrArg String.toList h
  rw [numberedTopKey, String.toList_append] at hchars
  exact absurd (List.cons.inj hchars).1 (by decide)

/-- A further root object is no default one: its name has another number in it. -/
theorem defaultTop?_insert_numberedTopKey {top : Dict Tree} (h : top ≠ []) (value : Tree) :
    defaultTop? (top.insert (numberedTopKey top.length) value) = defaultTop? top := by
  have hlength : top.length ≠ 0 := fun hzero => h (List.length_eq_zero_iff.mp hzero)
  have hdefault : numberedTopKey top.length ≠ defaultTopKey := by
    rw [← numberedTopKey_zero]
    exact fun heq => hlength (numberedTopKey_injective heq)
  rw [defaultTop?, defaultTop?, Dict.get?_insert_of_ne _ _ hdefault,
    Dict.get?_insert_of_ne _ _ (numberedTopKey_ne_rootTopKey _)]

/-- **The default root object after a value has been stored as a root object.**  It is the one that
the archive had.  If it had none, it is the object that the value has become, as long as there were
no root objects at all; otherwise there is none still. -/
theorem topUid?_appendRoot {a b : Archive} {v : ArchiveValue} (ha : Reachable a)
    (h : (appendRoot v).run a = .ok () b) :
    ∃ slot, (∃ c, (encodeValue (maxDepth + 1) v).run a = .ok (.uid slot) c) ∧ ArchivedAt a slot b ∧
      (∀ root, a.topUid? none = some root → b.topUid? none = some root) ∧
      (a.topUid? none = none → a.roots = [] → b.topUid? none = some slot) ∧
      (a.topUid? none = none → a.roots ≠ [] → b.topUid? none = none) := by
  have htable := ha.hasTable
  obtain ⟨hinline, slot, c, hencode, hroot⟩ := appendRoot_eq_ok h
  have hgrew : GrewBy anything a c :=
    (of_ends_of_run_ok (encodeValue_grows (brings_anything v) htable) hencode).1
  have hplace : ArchivedAt a slot c := by
    obtain ⟨other, hnode, hplace⟩ :=
      of_ends_of_run_ok (encodeValue_archivedAt hinline htable) hencode
    obtain rfl : slot = other := Tree.uid.inj hnode
    exact hplace
  have hroots : c.roots = a.roots := hgrew.roots_eq
  have htop : c.topUid? none = a.topUid? none := by
    rw [topUid?_none_eq, topUid?_none_eq, hroots]
  refine ⟨slot, ⟨c, hencode⟩, ?_⟩
  rw [htop] at hroot
  rcases hroot with ⟨hsome, rfl⟩ | ⟨hnone, hadd⟩
  · refine ⟨hplace, fun root hroot => htop.trans hroot, ?_, ?_⟩
    · exact fun hnone => absurd hnone hsome
    · exact fun hnone => absurd hnone hsome
  · obtain rfl := eq_withTop_of_run_addTop (hgrew.hasTable htable) hadd
    rw [hroots, topUid?_withTop]
    refine ⟨?_, ?_, ?_, ?_⟩
    · rw [ArchivedAt, table_withTop]
      exact hplace
    · intro root hroot
      rw [hnone] at hroot
      cases hroot
    · intro _ hempty
      rw [hempty]
      rfl
    · intro _ hroots
      rw [defaultTop?_insert_numberedTopKey hroots, ← topUid?_none_eq]
      exact hnone

/-- An archive whose only root object has another name than the usual ones. -/
def anonymous : Archive := (new.after (.appendRoot (.integerObject 1))).after (.renameTop "main")

theorem topUid?_appendRoot_anonymous : Reachable anonymous ∧
    ∃ b, (appendRoot (.integerObject 2)).run anonymous = .ok () b ∧
      ∃ slot, (∃ c, (encodeValue (maxDepth + 1) (.integerObject 2)).run anonymous
          = .ok (.uid slot) c) ∧ ArchivedAt anonymous slot b ∧
        (∀ root, anonymous.topUid? none = some root → b.topUid? none = some root) ∧
        (anonymous.topUid? none = none → anonymous.roots = [] → b.topUid? none = some slot) ∧
        (anonymous.topUid? none = none → anonymous.roots ≠ [] → b.topUid? none = none) := by
  have hreachable : Reachable anonymous := .step (.step (.initial (.inl rfl)) trivial) trivial
  have hrun : ∃ b, (appendRoot (.integerObject 2)).run anonymous = .ok () b := ⟨_, rfl⟩
  obtain ⟨b, hb⟩ := hrun
  exact ⟨hreachable, b, hb, topUid?_appendRoot hreachable hb⟩

/-- The integer 2 is archived in `anonymous`, in slot 2, and there is no default root object. -/
theorem no_topUid?_of_anonymous : Reachable anonymous ∧ anonymous.topUid? none = none ∧
    ∃ b, (appendRoot (.integerObject 2)).run anonymous = .ok () b ∧
      b.object 2 = .ok (.int 2) ∧ b.topUid? none = none :=
  ⟨.step (.step (.initial (.inl rfl)) trivial) trivial, rfl, _, rfl, rfl, rfl⟩

end Archive

end PlistCodec
