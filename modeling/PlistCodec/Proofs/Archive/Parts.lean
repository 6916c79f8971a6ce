import PlistCodec.Archive.Value

/-!
# What a value is made of

Two things get into an archive from outside with a value, at whatever depth of it: property lists
that are stored as they are (`ArchiveValue.rawTrees`), and archives that are copied
(`ArchiveValue.sources`).  A property list that is to become objects brings neither.
-/

namespace PlistCodec

/-! ## Property lists stored in place -/

namespace ArchiveValue

open Archive (Mutability)

mutual

/-- The property lists that are stored as they are, at any place of a value. -/
def rawTrees : ArchiveValue → List Tree
  | .inlineTree tree => [tree]
  | .nsArray _ items => rawTreesOfItems items
  | .nsDictionary _ entries => rawTreesOfEntries entries
  | .nsUrl base relative => rawTreesOfOption base ++ rawTreesOfOption relative
  | _ => []
termination_by structural v => v

/-- The property lists that are stored as they are in a list of values. -/
def rawTreesOfItems : List ArchiveValue → List Tree
  | [] => []
  | v :: vs => v.rawTrees ++ rawTreesOfItems vs
termination_by structural vs => vs

/-- The property lists that are stored as they are in the values of entries. -/
def rawTreesOfEntries : List (String × ArchiveValue) → List Tree
  | [] => []
  | (_, v) :: es => v.rawTrees ++ rawTreesOfEntries es
termination_by structural es => es

/-- The property lists that are stored as they are in a value that may be missing. -/
def rawTreesOfOption : Option ArchiveValue → List Tree
  | some v => v.rawTrees
  | none => []
termination_by structural v? => v?

end

theorem rawTreesOfItems_eq (items : List ArchiveValue) :
    rawTreesOfItems items = items.flatMap rawTrees := by
  induction items with
  | nil => rfl
  | cons v vs ih => rw [rawTreesOfItems, ih, List.flatMap_cons]

theorem rawTreesOfEntries_eq (entries : List (String × ArchiveValue)) :
    rawTreesOfEntries entries = entries.flatMap fun e => e.2.rawTrees := by
  induction entries with
  | nil => rfl
  | cons e es ih => rw [rawTreesOfEntries, ih, List.flatMap_cons]

theorem rawTrees_nsArray (form : Mutability) (items : List ArchiveValue) :
    (nsArray form items).rawTrees = items.flatMap rawTrees :=
  rawTreesOfItems_eq items

theorem rawTrees_nsDictionary (form : Mutability) (entries : List (String × ArchiveValue)) :
    (nsDictionary form entries).rawTrees = entries.flatMap fun e => e.2.rawTrees :=
  rawTreesOfEntries_eq entries

theorem rawTrees_ofPlainTree? {t : Tree} {v : ArchiveValue} (h : ofPlainTree? t = some v) :
    v.rawTrees = [] := by
  cases t with
  | bool _ => cases h; rfl
  | int _ => cases h; rfl
  | string _ => cases h; rfl
  | _ => cases h

/-- What a property list becomes: a string object, an array object of property lists, or a
dictionary object of plain values. -/
theorem ofTree_eq_ok {t : Tree} {v : ArchiveValue} (h : ofTree t = .ok v) :
    (∃ text, v = .nsString .mutable text) ∨
    (∃ items : List Tree, v = .nsArray .mutable (items.map .fromPlist)) ∨
    ∃ entries, v = .nsDictionary .fixed entries ∧
      ∀ e ∈ entries, ∃ t, ofPlainTree? t = some e.2 := by
  cases t with
  | string text => cases h; exact .inl ⟨text, rfl⟩
  | array items => cases h; exact .inr (.inl ⟨items, rfl⟩)
  | dict entries =>
    cases h
    refine .inr (.inr ⟨_, rfl, fun e he => ?_⟩)
    obtain ⟨⟨key, item⟩, -, he⟩ := List.mem_filterMap.mp he
    obtain ⟨value, hvalue, rfl⟩ := Option.map_eq_some_iff.mp he
    exact ⟨item, hvalue⟩
  | _ => cases h

/-- What a property list becomes has no property list stored in place. -/
theorem rawTrees_ofTree {t : Tree} {v : ArchiveValue} (h : ofTree t = .ok v) : v.rawTrees = [] := by
  rcases ofTree_eq_ok h with ⟨text, rfl⟩ | ⟨items, rfl⟩ | ⟨entries, rfl, hplain⟩
  · rfl
  · rw [rawTrees_nsArray, List.flatMap_map]
    exact List.flatMap_eq_nil_iff.mpr fun _ _ => rfl
  · rw [rawTrees_nsDictionary]
    refine List.flatMap_eq_nil_iff.mpr fun e he => ?_
    obtain ⟨item, hitem⟩ := hplain e he
    exact rawTrees_ofPlainTree? hitem

/-! ## Archives inside of a value -/

mutual

/-- The archives that are copied for a value. -/
def sources : ArchiveValue → List Archive
  | .nsArray _ items => sourcesOfItems items
  | .nsDictionary _ entries => sourcesOfEntries entries
  | .nsUrl base relative => sourcesOfOption base ++ sourcesOfOption relative
  | .nsKeyedArchive source => [source]
  | _ => []
termination_by structural v => v

/-- The archives that are copied for a list of values. -/
def sourcesOfItems : List ArchiveValue → List Archive
  | [] => []
  | v :: vs => v.sources ++ sourcesOfItems vs
termination_by structural vs => vs

/-- The archives that are copied for the values of entries. -/
def sourcesOfEntries : List (String × ArchiveValue) → List Archive
  | [] => []
  | (_, v) :: es => v.sources ++ sourcesOfEntries es
termination_by structural es => es

/-- The archives that are copied for a value that may be missing. -/
def sourcesOfOption : Option ArchiveValue → List Archive
  | some v => v.sources
  | none => []
termination_by structural v? => v?

end

theorem sources_nsArray (form : Mutability) (items : List ArchiveValue) :
    (nsArray form items).sources = items.flatMap sources := by
  rw [sources]
  induction items with
  | nil => rfl
  | cons v vs ih => rw [sourcesOfItems, ih, List.flatMap_cons]

theorem sources_nsDictionary (form : Mutability) (entries : List (String × ArchiveValue)) :
    (nsDictionary form entries).sources = entries.flatMap fun e => e.2.sources := by
  rw [sources]
  induction entries with
  | nil => rfl
  | cons e es ih => rw [sourcesOfEntries, ih, List.flatMap_cons]

theorem sources_ofPlainTree? {t : Tree} {v : ArchiveValue} (h : ofPlainTree? t = some v) :
    v.sources = [] := by
  cases t with
  | bool _ => cases h; rfl
  | int _ => cases h; rfl
  | string _ => cases h; rfl
  | _ => cases h

/-- What a property list becomes has no archive in it. -/
theorem sources_ofTree {t : Tree} {v : ArchiveValue} (h : ofTree t = .ok v) : v.sources = [] := by
  rcases ofTree_eq_ok h with ⟨text, rfl⟩ | ⟨items, rfl⟩ | ⟨entries, rfl, hplain⟩
  · rfl
  · rw [sources_nsArray, List.flatMap_map]
    exact List.flatMap_eq_nil_iff.mpr fun _ _ => rfl
  · rw [sources_nsDictionary]
    refine List.flatMap_eq_nil_iff.mpr fun e he => ?_
    obtain ⟨item, hitem⟩ := hplain e he
    exact sources_ofPlainTree? hitem

end ArchiveValue

end PlistCodec
