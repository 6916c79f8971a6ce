import PlistCodec.Proofs.Archive.Embedding
import PlistCodec.Proofs.Archive.Failing

/-!
# Archiving a property list

A property list is archived in part.  Strings and arrays become objects; of a dictionary only the
entries with truth values, integers and texts are kept, and of an integer its 64 bits, so a negative
one comes back as a large one (`Tree.prune`).  What is kept is what the archive is flattened to
afterwards (`flatten_appendRoot_fromPlist`).

Pruning is done one level at a time, while the objects are appended, and each property list takes a
level for itself and one for the object that it becomes.  Flattening has the object alone to count,
so it does not run out of levels.

An array may hold what becomes no object, and this is no entry to be left out.  It is the only
reason to fail, besides running out of levels (`encodeValue_fromPlist_failsBy`).
-/

namespace PlistCodec

namespace Tree

/-! ## Pruning -/

/-- What is kept of a value in a dictionary: truth values, texts, and the 64 bits of integers. -/
def plain? : Tree → Option Tree
  | .bool value => some (.bool value)
  | .int value => some (.int (value % 2 ^ 64))
  | .string text => some (.string text)
  | _ => none

/-- The entries of a dictionary whose values are kept. -/
def plainEntries (entries : List (String × Tree)) : List (String × Tree) :=
  entries.filterMap fun e => (plain? e.2).map fun kept => (e.1, kept)

mutual

/-- What is archived of a property list: all of a string, each element of an array, and the entries
of a dictionary whose values are plain. -/
def prune : Tree → Tree
  | .array items => .array (pruneItems items)
  | .dict entries => .dict (plainEntries entries)
  | other => other
termination_by structural t => t

/-- What is archived of a list of property lists. -/
def pruneItems : List Tree → List Tree
  | [] => []
  | t :: ts => t.prune :: pruneItems ts
termination_by structural ts => ts

end

theorem prune_array (items : List Tree) : (Tree.array items).prune = .array (items.map prune) := by
  rw [prune]
  congr 1
  induction items with
  | nil => rfl
  | cons t ts ih => rw [pruneItems, ih, List.map_cons]

/-- The keys that are kept stand in the order in which they stood. -/
theorem keys_plainEntries_sublist (entries : Dict Tree) :
    (Dict.keys (plainEntries entries)).Sublist entries.keys := by
  induction entries with
  | nil => exact List.Sublist.refl _
  | cons e es ih =>
    rw [plainEntries, List.filterMap_cons]
    cases plain? e.2 with
    | none => exact ih.cons e.1
    | some kept => exact ih.cons_cons e.1

theorem distinct_plainEntries {entries : Dict Tree} (h : entries.Distinct) :
    Dict.Distinct (plainEntries entries) :=
  h.sublist (keys_plainEntries_sublist entries)

theorem cast_wordOfInt (value : Int) : (wordOfInt value : Int) = value % 2 ^ 64 :=
  Int.toNat_of_nonneg (Int.emod_nonneg value (by decide))

/-! ## What cannot be archived -/

/-- Strings, arrays and dictionaries become objects. -/
def Archivable : Tree → Prop
  | .string _ => True
  | .array _ => True
  | .dict _ => True
  | _ => False

/-- The tree itself, or an element of an array that is reached through arrays only. -/
inductive InArrays (s : Tree) : Tree → Prop where
  /-- The tree itself. -/
  | self : InArrays s s
  /-- A place in an element of an array. -/
  | item {items : List Tree} {item : Tree} (hitem : item ∈ items) (h : InArrays s item) :
    InArrays s (.array items)

end Tree

/-! ## Plain values -/

namespace ArchiveValue

theorem exists_meaning?_of_ofPlainTree? {t : Tree} {v : ArchiveValue}
    (h : ofPlainTree? t = some v) : ∃ w, v.meaning? = some w ∧ t.plain? = some w := by
  cases t with
  | bool value => cases h; exact ⟨_, rfl, rfl⟩
  | string text => cases h; exact ⟨_, rfl, rfl⟩
  | int value =>
    cases h
    refine ⟨_, rfl, ?_⟩
    rw [Tree.plain?, Tree.cast_wordOfInt]
  | _ => cases h

theorem plain?_eq_none_of_ofPlainTree? {t : Tree} (h : ofPlainTree? t = none) :
    t.plain? = none := by
  cases t with
  | bool value => cases h
  | string text => cases h
  | int value => cases h
  | _ => rfl

/-- The values that a dictionary is archived with mean what is kept of it. -/
theorem entryMeanings?_plainEntries (entries : List (String × Tree)) :
    entryMeanings? (entries.filterMap fun (key, item) =>
      (ofPlainTree? item).map fun value => (key, value)) = some (Tree.plainEntries entries) := by
  induction entries with
  | nil => rfl
  | cons e es ih =>
    obtain ⟨key, item⟩ := e
    cases hplain : ofPlainTree? item with
    | none =>
      have hnone := plain?_eq_none_of_ofPlainTree? hplain
      simpa [Tree.plainEntries, hplain, hnone] using ih
    | some v =>
      obtain ⟨w, hmeaning, hkept⟩ := exists_meaning?_of_ofPlainTree? hplain
      simp only [Tree.plainEntries] at ih
      simp [Tree.plainEntries, hplain, hkept, entryMeanings?, hmeaning, ih]

end ArchiveValue

namespace Archive

/-! ## Storing what is kept -/

section Storing

variable {a : Archive} {levels more : Nat} {w : Tree}

theorem StoresAs.mono {m : Builder Tree} (h : StoresAs levels w m a) (hle : levels ≤ more) :
    StoresAs more w m a :=
  Provides.mono h fun _ _ _ hnode c hnull hfinds => (hnode c hnull hfinds).mono hle

/-- A property list takes a level, and the object that it becomes takes another one. -/
theorem storesAs_fromPlist {t : Tree} {v : ArchiveValue} (hv : ArchiveValue.ofTree t = .ok v)
    (h : ∀ levels, StoresAs (levels + 1) w (encodeValue (levels + 1) v) a) :
    StoresAs levels w (encodeValue levels (.fromPlist t)) a := by
  match levels with
  | 0 => exact provides_throw
  | 1 =>
    rw [encodeValue, hv]
    exact provides_throw
  | levels + 2 =>
    rw [encodeValue, hv]
    exact (h levels).mono (Nat.le_succ _)

/-- **Storing a property list.**  If it succeeds, the node that is yielded stands for what is
kept. -/
theorem encodeValue_fromPlist_storesAs {t : Tree} (ht : t.WellFormed) (ha : HasTable a) :
    StoresAs levels t.prune (encodeValue levels (.fromPlist t)) a := by
  induction t using Tree.induct generalizing a levels with
  | string text => exact storesAs_fromPlist rfl fun _ => encodeValue_storesAs rfl ha
  | dict entries =>
    have hdistinct := Tree.distinct_plainEntries ((Tree.wellFormed_dict entries).mp ht).1
    refine storesAs_fromPlist rfl fun _ => encodeValue_storesAs ?_ ha
    rw [ArchiveValue.meaning?, ArchiveValue.entryMeanings?_plainEntries, Option.map_some,
      Dict.ofList_of_distinct hdistinct, Tree.prune]
  | array items ih =>
    have hwell := (Tree.wellFormed_array items).mp ht
    refine storesAs_fromPlist rfl fun levels => ?_
    have hitems : List.Forall₂ (fun v w => ∀ b, HasTable b →
        StoresAs levels w (encodeValue levels v) b) (items.map .fromPlist)
        (items.map Tree.prune) := by
      rw [List.forall₂_map_left_iff, List.forall₂_map_right_iff]
      exact List.forall₂_same.mpr fun item hitem b hb => ih item hitem (hwell item hitem) hb
    rw [Tree.prune_array]
    exact provides_items hitems
      (fun hinstance hnodes hvalues => hinstance.flatten_array hnodes hvalues) ha
  | _ =>
    cases levels with
    | zero => exact provides_throw
    | succ levels => exact provides_throw

end Storing

/-! ## Why storing a property list fails -/

/-- Why a property list cannot be archived: it nests too deep, or it is, or holds in its arrays,
what becomes no object. -/
def CannotArchive (t : Tree) (e : Error) : Prop :=
  e = .recursionLimit maxDepth ∨ ∃ s : Tree, s.InArrays t ∧ ¬ s.Archivable ∧
    e = .unexpectedValue "plist" s!"string, array, or dictionary, found {s.kindName}"

section Failing

variable {a : Archive} {levels : Nat} {P : Error → Prop}

theorem CannotArchive.of_item {items : List Tree} {item : Tree} {e : Error}
    (h : CannotArchive item e) (hitem : item ∈ items) : CannotArchive (.array items) e := by
  rcases h with h | ⟨s, hs, h⟩
  · exact .inl h
  · exact .inr ⟨s, .item hitem hs, h⟩

/-- Texts, and the values that are kept of a dictionary, are stored unless no level is left. -/
theorem encodeValue_string_failsBy (hP : P (.recursionLimit maxDepth)) (text : String)
    (ha : HasTable a) : FailsBy P (encodeValue levels (.string text)) a := by
  cases levels with
  | zero => exact failsBy_throw hP
  | succ levels => exact failsBy_encodeString ha text

theorem encodeValue_plain_failsBy (hP : P (.recursionLimit maxDepth)) {t : Tree} {v : ArchiveValue}
    (hv : ArchiveValue.ofPlainTree? t = some v) (ha : HasTable a) :
    FailsBy P (encodeValue levels v) a := by
  cases levels with
  | zero => exact failsBy_throw hP
  | succ levels =>
    cases t with
    | bool value => cases hv; exact failsBy_reference ha _
    | int value => cases hv; exact failsBy_pure ha
    | string text => cases hv; exact failsBy_encodeString ha text
    | _ => cases hv

/-- A property list that becomes an object is stored if the object is, unless there are not enough
levels for both. -/
theorem failsBy_fromPlist {t : Tree} {v : ArchiveValue} (hv : ArchiveValue.ofTree t = .ok v)
    (hP : P (.recursionLimit maxDepth))
    (h : ∀ levels, FailsBy P (encodeValue (levels + 1) v) a) :
    FailsBy P (encodeValue levels (.fromPlist t)) a := by
  match levels with
  | 0 => exact failsBy_throw hP
  | 1 =>
    rw [encodeValue, hv]
    exact failsBy_throw hP
  | levels + 2 =>
    rw [encodeValue, hv]
    exact h levels

/-- **Why storing fails.**  A property list that is not stored cannot be archived. -/
theorem encodeValue_fromPlist_failsBy {t : Tree} (ha : HasTable a) :
    FailsBy (CannotArchive t) (encodeValue levels (.fromPlist t)) a := by
  induction t using Tree.induct generalizing a levels with
  | string text =>
    refine failsBy_fromPlist rfl (.inl rfl) fun levels => failsBy_property (fun b hb => ?_) ha
    exact encodeValue_string_failsBy (.inl rfl) text hb
  | dict entries =>
    refine failsBy_fromPlist rfl (.inl rfl) fun levels => failsBy_list (fun e he b hb => ?_) ha
    obtain ⟨⟨key, item⟩, -, he⟩ := List.mem_filterMap.mp he
    obtain ⟨v, hv, rfl⟩ := Option.map_eq_some_iff.mp he
    refine (encodeValue_string_failsBy (.inl rfl) key hb).bind fun keyNode c hbc => ?_
    refine (encodeValue_plain_failsBy (.inl rfl) hv hbc.hasTable).bind fun valueNode d hcd => ?_
    exact failsBy_pure hcd.hasTable
  | array items ih =>
    refine failsBy_fromPlist rfl (.inl rfl) fun levels => failsBy_list (fun v hv b hb => ?_) ha
    obtain ⟨item, hitem, rfl⟩ := List.mem_map.mp hv
    exact (ih item hitem hb).mono fun e he => he.of_item hitem
  | _ =>
    cases levels with
    | zero => exact failsBy_throw (.inl rfl)
    | succ levels => exact failsBy_throw (.inr ⟨_, .self, fun h => h, rfl⟩)

end Failing

/-! ## Archiving a property list -/

/-- **Archiving a property list.**  Let a property list, in whose dictionaries no key occurs twice,
be stored as the first root object of an archive that calls have made of the new one.  If this
succeeds, the archive is flattened to what is kept of the property list.  If it fails, the property
list nests too deep, or it is, or holds as an element of an array that is reached through arrays
only, something else than a string, an array or a dictionary. -/
theorem flatten_appendRoot_fromPlist {a : Archive} (ha : Reached (· = new) (fun _ _ => True) a)
    (htop : Dict.get? a.root topKey = none) {t : Tree} (ht : t.WellFormed) :
    (∀ b, (appendRoot (.fromPlist t)).run a = .ok () b → b.flatten = .ok t.prune) ∧
    ∀ e b, (appendRoot (.fromPlist t)).run a = .error e b →
      e = .recursionLimit maxDepth ∨ ∃ s : Tree, s.InArrays t ∧ ¬ s.Archivable ∧
        e = .unexpectedValue "plist" s!"string, array, or dictionary, found {s.kindName}" := by
  obtain ⟨htable, hnull⟩ := null_of_reached ha
  constructor
  · intro b h
    obtain ⟨slot, c, hencode, hfind, hroot⟩ := exists_of_appendRoot htable htop h
    obtain ⟨new, rfl, hnode⟩ :=
      of_ends_of_run_ok (encodeValue_fromPlist_storesAs ht htable) hencode
    have hnull' : b.find? 0 = some (.string nullText) := by
      rw [hfind, htable.find?_grown new hnull]
    have hfinds : Finds b.find? (a.lastUid + 1) new := by rw [hfind]; exact htable.finds_grown new
    rw [flatten, hroot]
    exact hnode b hnull' hfinds
  · intro e b h
    obtain ⟨c, hencode⟩ := encodeValue_eq_error_of_appendRoot htable rfl h
    exact of_failsBy_of_run_error (encodeValue_fromPlist_failsBy htable) hencode

/-- A list with the text of slot 0, a dictionary inside of another list, and entries that are kept,
changed and left out. -/
def prunedList : Tree :=
  .array [.string nullText, .array [.dict [(nullText, .string nullText), ("minus", .int (-1)),
    ("items", .array []), ("last", .bool true)]]]

/-- A list with an integer inside of another list. -/
def looseInteger : Tree := .array [.array [.int 5]]

theorem flatten_appendRoot_fromPlist_prunedList :
    Reached (· = new) (fun _ _ => True) (new.after (.appendObject (.int 5))) ∧
    Dict.get? (new.after (.appendObject (.int 5))).root topKey = none ∧
    prunedList.WellFormed ∧ looseInteger.WellFormed ∧
    prunedList.prune = .array [.string nullText, .array [.dict [(nullText, .string nullText),
      ("minus", .int 18446744073709551615), ("last", .bool true)]]] ∧
    (∃ b, (appendRoot (.fromPlist prunedList)).run (new.after (.appendObject (.int 5))) = .ok () b ∧
      b.flatten = .ok prunedList.prune) ∧
    ∃ e b, (appendRoot (.fromPlist looseInteger)).run (new.after (.appendObject (.int 5)))
        = .error e b ∧ e ≠ .recursionLimit maxDepth ∧
      ∃ s : Tree, s.InArrays looseInteger ∧ ¬ s.Archivable := by
  have hreached : Reached (· = new) (fun _ _ => True) (new.after (.appendObject (.int 5))) :=
    .step (.initial rfl) trivial
  have hpruned : prunedList.WellFormed := by
    simp [prunedList, Tree.WellFormed, Tree.WellFormedEntries, Tree.WellFormedItems, Dict.Distinct,
      Dict.keys, nullText]
  have hloose : looseInteger.WellFormed := by
    simp [looseInteger, Tree.WellFormed, Tree.WellFormedItems]
  have hrun : ∃ b, (appendRoot (.fromPlist prunedList)).run (new.after (.appendObject (.int 5)))
      = .ok () b := ⟨_, rfl⟩
  have hfails : ∃ b, (appendRoot (.fromPlist looseInteger)).run
      (new.after (.appendObject (.int 5))) = .error
        (.unexpectedValue "plist" "string, array, or dictionary, found integer") b := ⟨_, rfl⟩
  obtain ⟨b, hb⟩ := hrun
  obtain ⟨c, hc⟩ := hfails
  have hkept := (flatten_appendRoot_fromPlist hreached rfl hpruned).1 b hb
  have hreason := (flatten_appendRoot_fromPlist hreached rfl hloose).2 _ c hc
  obtain ⟨s, hs, hkind, -⟩ := hreason.resolve_left (by rintro ⟨⟩)
  exact ⟨hreached, rfl, hpruned, hloose, rfl, ⟨b, hb, hkept⟩, _, c, hc, by rintro ⟨⟩, s, hs, hkind⟩

end Archive

end PlistCodec
