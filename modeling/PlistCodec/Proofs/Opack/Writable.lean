import PlistCodec.Proofs.Opack.Recognition
import PlistCodec.Proofs.Opack.Refusals

/-!
# Writing what was read

A tree without references, whose dates have seconds, is written unless it is higher than there are
levels (`exists_encode_iff`).  Every sentence denotes such a tree, of at most as many levels as the
reader had (`Sentence.writable`), so each value of a stream can be written.

The tree that a stream of several values stands for is higher than they are if a value has become an
item of an array.  Reading has no limit for that, and writing has: `encode_of_decode` says for which
streams it strikes.  Whatever keys are repeated in the stream, none is repeated in a dictionary of
that tree (`wellFormed_of_decode`), which is the first thing that `Returns` asks of a tree.
-/

namespace PlistCodec.Opack

/-! ## Trees that can be written -/

theorem writable_array {items : List Tree} :
    Writable (.array items) ↔ ∀ t ∈ items, Writable t := by
  simp only [Writable, Tree.nodes_array, List.forall_mem_cons, List.forall_mem_flatMap, HasForm,
    true_and]

theorem writable_dict {entries : List (String × Tree)} :
    Writable (.dict entries) ↔ ∀ e ∈ entries, Writable e.2 := by
  simp only [Writable, Tree.nodes_dict, List.forall_mem_cons, List.forall_mem_flatMap, HasForm,
    true_and]

/-! ## What sentences denote -/

theorem Leaf.writable {bytes : Bytes} {tree : Tree} (h : Leaf bytes tree) :
    Writable tree ∧ tree.height = 1 := by
  have hscalar : ∀ {t : Tree}, HasForm t → t.nodes = [t] → Writable t := by
    intro t hform hnodes node hnode
    rw [hnodes] at hnode
    rwa [List.mem_singleton.mp hnode]
  cases h with
  | date _ hdate => exact ⟨hscalar (Date.isSome_toReferenceSeconds? hdate) rfl, rfl⟩
  | short _ h => cases h <;> exact ⟨hscalar trivial rfl, rfl⟩
  | sized _ _ _ h => cases h <;> exact ⟨hscalar trivial rfl, rfl⟩
  | _ => exact ⟨hscalar trivial rfl, rfl⟩

/-- A dictionary has no values but those of the entries that build it up. -/
theorem forall_values_ofList {p : Tree → Prop} {entries : List (Piece String × Piece Tree)}
    (h : ∀ e ∈ entries, p e.2.value) :
    ∀ e ∈ Dict.ofList (entries.map fun e => (e.1.value, e.2.value)), p e.2 := by
  intro e he
  obtain ⟨entry, hentry, rfl⟩ := List.mem_map.mp (Dict.mem_ofList he)
  exact h entry hentry

/-- **What a sentence denotes can be written**, with as many levels as there are at its depth. -/
theorem Sentence.writable {depth : Nat} {bytes : Bytes} {tree : Tree}
    (h : Sentence depth bytes tree) : Writable tree ∧ tree.height ≤ levelsAt depth := by
  have hitems : ∀ {depth : Nat} {items : List (Piece Tree)}, depth ≤ maxDepth →
      (∀ item ∈ items, Writable item.value ∧ item.value.height ≤ levelsAt (depth + 1)) →
      Writable (.array (items.map Piece.value)) ∧
        (Tree.array (items.map Piece.value)).height ≤ levelsAt depth := by
    intro depth items hdepth hall
    rw [levelsAt_eq_succ hdepth, writable_array, Tree.height_array_le, List.forall_mem_map,
      List.forall_mem_map]
    exact ⟨fun item hitem => (hall item hitem).1, fun item hitem => (hall item hitem).2⟩
  have hentries : ∀ {depth : Nat} {entries : List (Piece String × Piece Tree)}, depth ≤ maxDepth →
      (∀ e ∈ entries, Writable e.2.value ∧ e.2.value.height ≤ levelsAt (depth + 1)) →
      Writable (.dict (Dict.ofList (entries.map fun e => (e.1.value, e.2.value)))) ∧
        (Tree.dict (Dict.ofList (entries.map fun e => (e.1.value, e.2.value)))).height
          ≤ levelsAt depth := by
    intro depth entries hdepth hall
    have hkept : ∀ e ∈ Dict.ofList (entries.map fun e => (e.1.value, e.2.value)),
        Writable e.2 ∧ e.2.height ≤ levelsAt (depth + 1) :=
      @forall_values_ofList (fun t => Writable t ∧ t.height ≤ levelsAt (depth + 1)) _ hall
    rw [levelsAt_eq_succ hdepth, writable_dict, Tree.height_dict_le]
    exact ⟨fun e he => (hkept e he).1, fun e he => (hkept e he).2⟩
  induction h with
  | @leaf depth _ _ hdepth h =>
    obtain ⟨hwritable, hheight⟩ := h.writable
    refine ⟨hwritable, ?_⟩
    rw [hheight, levelsAt_eq_succ hdepth]
    exact Nat.le_add_left 1 _
  | countedArray hdepth _ _ ih => exact hitems hdepth ih
  | openArray hdepth _ ih => exact hitems (Nat.le_of_succ_le hdepth) ih
  | countedDict hdepth _ _ _ _ ih => exact hentries hdepth ih
  | openDict hdepth _ _ _ ih => exact hentries (Nat.le_of_succ_le hdepth) ih

theorem Leaf.wellFormed {bytes : Bytes} {tree : Tree} (h : Leaf bytes tree) :
    tree.WellFormed := by
  cases h with
  | short _ h => cases h <;> exact trivial
  | sized _ _ _ h => cases h <;> exact trivial
  | _ => exact trivial

/-- **What a sentence denotes is well-formed.**  Its dictionaries are built up by their entries, so
keys that are repeated in the sentence are not repeated there. -/
theorem Sentence.wellFormed {depth : Nat} {bytes : Bytes} {tree : Tree}
    (h : Sentence depth bytes tree) : tree.WellFormed := by
  have hitems : ∀ {items : List (Piece Tree)}, (∀ item ∈ items, item.value.WellFormed) →
      (Tree.array (items.map Piece.value)).WellFormed := by
    intro items hall
    rwa [Tree.wellFormed_array, List.forall_mem_map]
  have hentries : ∀ {entries : List (Piece String × Piece Tree)},
      (∀ e ∈ entries, e.2.value.WellFormed) →
      (Tree.dict (Dict.ofList (entries.map fun e => (e.1.value, e.2.value)))).WellFormed := by
    intro entries hall
    rw [Tree.wellFormed_dict]
    exact ⟨Dict.distinct_ofList _, forall_values_ofList hall⟩
  induction h with
  | leaf _ h => exact h.wellFormed
  | countedArray _ _ _ ih => exact hitems ih
  | openArray _ _ ih => exact hitems ih
  | countedDict _ _ _ _ _ ih => exact hentries ih
  | openDict _ _ _ _ ih => exact hentries ih

theorem exists_sentence_of_readValues {stream : Bytes} {values : List Tree}
    (h : readValues stream = .ok values) : ∀ v ∈ values, ∃ bytes, Sentence 0 bytes v := by
  obtain ⟨pieces, hsplits, rfl⟩ := exists_splits_of_readValues h
  intro v hv
  obtain ⟨piece, hpiece, hvalue⟩ := List.mem_filterMap.mp hv
  have hisPiece := hsplits.isPiece piece hpiece
  rw [hvalue] at hisPiece
  exact ⟨piece.bytes, sentence_of_isPiece hisPiece⟩

/-- What a single value of a stream can be: written as it is. -/
def Fits (v : Tree) : Prop := Writable v ∧ v.height ≤ maxDepth + 1

theorem fits_of_readValues {stream : Bytes} {values : List Tree}
    (h : readValues stream = .ok values) : ∀ v ∈ values, Fits v := by
  intro v hv
  obtain ⟨bytes, hsentence⟩ := exists_sentence_of_readValues h v hv
  exact hsentence.writable

/-! ## One tree out of several values -/

/-- The items that a value adds to an array. -/
def itemsOf : Tree → List Tree
  | .array items => items
  | other => [other]

theorem merge_array (items : List Tree) (value : Tree) :
    merge (some (.array items)) value = .array (items ++ itemsOf value) := by
  cases value <;> rfl

theorem mergeAll_array (items values : List Tree) :
    mergeAll (some (.array items)) values = some (.array (items ++ values.flatMap itemsOf)) := by
  induction values generalizing items with
  | nil => simp [mergeAll]
  | cons value rest ih =>
    have hstep : mergeAll (some (.array items)) (value :: rest)
        = mergeAll (some (merge (some (.array items)) value)) rest := rfl
    rw [hstep, merge_array, ih, List.flatMap_cons, List.append_assoc]

/-- A value leaves room for an array around it, unless it is one itself and its items are taken out
of it. -/
def LeavesRoom (value : Tree) : Prop := value.array? = none → value.height ≤ maxDepth

/-- Behind a value: an array takes what follows as its items. -/
def Roomy (before behind : Tree) : Prop := before.array?.isSome → LeavesRoom behind

theorem fits_array {items : List Tree} :
    Fits (.array items) ↔ ∀ t ∈ items, Writable t ∧ t.height ≤ maxDepth := by
  rw [Fits, writable_array, Tree.height_array_le]
  exact ⟨fun h t ht => ⟨h.1 t ht, h.2 t ht⟩,
    fun h => ⟨fun t ht => (h t ht).1, fun t ht => (h t ht).2⟩⟩

theorem fits_dict {entries : List (String × Tree)} :
    Fits (.dict entries) ↔ ∀ e ∈ entries, Writable e.2 ∧ e.2.height ≤ maxDepth := by
  rw [Fits, writable_dict, Tree.height_dict_le]
  exact ⟨fun h e he => ⟨h.1 e he, h.2 e he⟩,
    fun h => ⟨fun e he => (h e he).1, fun e he => (h e he).2⟩⟩

theorem itemsOf_of_not_array {value : Tree} (h : value.array? = none) :
    itemsOf value = [value] := by
  cases value with
  | array items => cases h
  | _ => rfl

/-- The items that a value adds leave room for the array around them exactly if the value does. -/
theorem itemsOf_leaveRoom {value : Tree} (hvalue : Fits value) :
    (∀ t ∈ itemsOf value, Writable t) ∧
      ((∀ t ∈ itemsOf value, t.height ≤ maxDepth) ↔ LeavesRoom value) := by
  by_cases harray : value.array? = none
  · rw [itemsOf_of_not_array harray, List.forall_mem_singleton, List.forall_mem_singleton,
      LeavesRoom]
    exact ⟨hvalue.1, fun h _ => h, fun h => h harray⟩
  · obtain ⟨items, hitems⟩ := Option.ne_none_iff_exists'.mp harray
    obtain rfl := Tree.array?_eq_some_iff.mp hitems
    have hall := fits_array.mp hvalue
    exact ⟨fun t ht => (hall t ht).1, fun _ h => absurd h harray, fun _ t ht => (hall t ht).2⟩

/-- An array with several values behind it. -/
theorem writable_array_append {items values : List Tree} (hitems : Fits (.array items))
    (hvalues : ∀ value ∈ values, Fits value) :
    Writable (.array (items ++ values.flatMap itemsOf)) ∧
      ((Tree.array (items ++ values.flatMap itemsOf)).height ≤ maxDepth + 1 ↔
        ∀ value ∈ values, LeavesRoom value) := by
  have hfirst := fits_array.mp hitems
  rw [writable_array, Tree.height_array_le]
  constructor
  · intro t ht
    rcases List.mem_append.mp ht with ht | ht
    · exact (hfirst t ht).1
    · obtain ⟨value, hvalue, ht⟩ := List.mem_flatMap.mp ht
      exact (itemsOf_leaveRoom (hvalues value hvalue)).1 t ht
  · constructor
    · intro h value hvalue
      refine (itemsOf_leaveRoom (hvalues value hvalue)).2.mp fun t ht => ?_
      exact h t (List.mem_append_right _ (List.mem_flatMap.mpr ⟨value, hvalue, ht⟩))
    · intro h t ht
      rcases List.mem_append.mp ht with ht | ht
      · exact (hfirst t ht).2
      · obtain ⟨value, hvalue, ht⟩ := List.mem_flatMap.mp ht
        exact (itemsOf_leaveRoom (hvalues value hvalue)).2.mpr (h value hvalue) t ht

/-- As long as there is no array, no value becomes part of another, save entries of dictionaries. -/
theorem fits_merge {out : Option Tree} {value : Tree}
    (hout : ∀ t, out = some t → t.array? = none ∧ Fits t) (hvalue : Fits value) :
    Fits (merge out value) ∧ (merge out value).array? = value.array? := by
  rcases out with _ | t
  · cases value <;> exact ⟨hvalue, rfl⟩
  obtain ⟨harray, ht⟩ := hout t rfl
  cases t with
  | array items => cases harray
  | dict entries =>
    cases value with
    | dict more =>
      refine ⟨fits_dict.mpr fun e he => ?_, rfl⟩
      rcases Dict.mem_insertAll he with he | he
      · exact fits_dict.mp ht e he
      · exact fits_dict.mp hvalue e he
    | _ => exact ⟨hvalue, rfl⟩
  | _ => cases value <;> exact ⟨hvalue, rfl⟩

/-- **Several values.**  What they make up can be written, unless one of them is too high for the
array that it has become an item of.  The induction is on the values, up to the first array. -/
theorem writable_mergeAll {out : Option Tree} {values : List Tree}
    (hout : ∀ t, out = some t → t.array? = none ∧ Fits t) (hvalues : ∀ value ∈ values, Fits value)
    {v : Tree} (h : mergeAll out values = some v) :
    Writable v ∧ (v.height ≤ maxDepth + 1 ↔ values.Pairwise Roomy) := by
  induction values generalizing out with
  | nil =>
    obtain ⟨-, hwritable, hheight⟩ := hout v h
    exact ⟨hwritable, fun _ => .nil, fun _ => hheight⟩
  | cons value rest ih =>
    obtain ⟨hvalue, hrest⟩ := List.forall_mem_cons.mp hvalues
    obtain ⟨hfits, hkind⟩ := fits_merge hout hvalue
    have hstep : mergeAll (some (merge out value)) rest = some v := h
    rw [List.pairwise_cons]
    by_cases harray : value.array? = none
    · have hnext : ∀ t, some (merge out value) = some t → t.array? = none ∧ Fits t := by
        rintro _ ⟨⟩
        exact ⟨hkind.trans harray, hfits⟩
      obtain ⟨hwritable, hiff⟩ := ih hnext hrest hstep
      refine ⟨hwritable, hiff.trans ⟨fun h => ⟨fun behind _ hsome => ?_, h⟩, And.right⟩⟩
      rw [harray] at hsome
      cases hsome
    · obtain ⟨items, hitems⟩ := Option.ne_none_iff_exists'.mp harray
      rw [hitems] at hkind
      rw [Tree.array?_eq_some_iff.mp hkind] at hfits hstep
      rw [mergeAll_array, Option.some.injEq] at hstep
      subst hstep
      obtain ⟨hwritable, hiff⟩ := writable_array_append hfits hrest
      refine ⟨hwritable, hiff.trans ⟨fun h => ⟨fun behind hbehind _ => h behind hbehind, ?_⟩, ?_⟩⟩
      · exact List.pairwise_of_forall_mem_list fun _ _ behind hbehind _ => h behind hbehind
      · exact fun h behind hbehind => h.1 behind hbehind (by rw [hitems]; rfl)

theorem wellFormed_merge {out : Option Tree} {value : Tree}
    (hout : ∀ t, out = some t → t.WellFormed) (hvalue : value.WellFormed) :
    (merge out value).WellFormed := by
  rcases out with _ | t
  · cases value <;> exact hvalue
  have ht := hout t rfl
  cases t with
  | array items =>
    rw [merge_array, Tree.wellFormed_array, List.forall_mem_append]
    refine ⟨(Tree.wellFormed_array items).mp ht, ?_⟩
    cases value with
    | array more => exact (Tree.wellFormed_array more).mp hvalue
    | _ => exact List.forall_mem_singleton.mpr hvalue
  | dict entries =>
    cases value with
    | dict more =>
      obtain ⟨hdistinct, hentries⟩ := (Tree.wellFormed_dict entries).mp ht
      obtain ⟨-, hmore⟩ := (Tree.wellFormed_dict more).mp hvalue
      refine (Tree.wellFormed_dict _).mpr ⟨hdistinct.insertAll more, fun e he => ?_⟩
      rcases Dict.mem_insertAll he with he | he
      · exact hentries e he
      · exact hmore e he
    | _ => exact hvalue
  | _ => cases value <;> exact hvalue

theorem wellFormed_mergeAll {out : Option Tree} {values : List Tree}
    (hout : ∀ t, out = some t → t.WellFormed) (hvalues : ∀ value ∈ values, value.WellFormed)
    {v : Tree} (h : mergeAll out values = some v) : v.WellFormed := by
  induction values generalizing out with
  | nil => exact hout v h
  | cons value rest ih =>
    obtain ⟨hvalue, hrest⟩ := List.forall_mem_cons.mp hvalues
    have hnext : ∀ t, some (merge out value) = some t → t.WellFormed := by
      rintro _ ⟨⟩
      exact wellFormed_merge hout hvalue
    exact ih hnext hrest h

theorem decode_eq_ok {stream : Bytes} {v : Tree} (h : decode stream = .ok v) :
    ∃ values, readValues stream = .ok values ∧ mergeAll none values = some v := by
  unfold decode at h
  split at h
  · cases h
  · next values hvalues =>
    refine ⟨values, hvalues, ?_⟩
    split at h
    · next value hvalue => cases h; exact hvalue
    · cases h

/-- **What was read is well-formed**: no key occurs twice in a dictionary, be the dictionary put
together from the entries of one sentence or of several. -/
theorem wellFormed_of_decode {stream : Bytes} {v : Tree} (h : decode stream = .ok v) :
    v.WellFormed := by
  obtain ⟨values, hvalues, hmerge⟩ := decode_eq_ok h
  have hnone : ∀ t, (none : Option Tree) = some t → t.WellFormed := by
    rintro _ ⟨⟩
  refine wellFormed_mergeAll hnone (fun value hvalue => ?_) hmerge
  obtain ⟨bytes, hsentence⟩ := exists_sentence_of_readValues hvalues value hvalue
  exact hsentence.wellFormed

/-- **Writing what was read.**  Whatever a stream decodes to has a written form, unless an array
stands in the stream somewhere before a value that is no array and fills all levels itself.  That
value is an item of the array afterwards, one level too deep, and writing fails for this reason. -/
theorem encode_of_decode {stream : Bytes} {v : Tree} (h : decode stream = .ok v) :
    ∃ values, readValues stream = .ok values ∧
      (values.Pairwise Roomy → ∃ bytes, encode v = .ok bytes) ∧
      (¬values.Pairwise Roomy → encode v = .error (.recursionLimit maxDepth)) := by
  obtain ⟨values, hvalues, hmerge⟩ := decode_eq_ok h
  have hnone : ∀ t, (none : Option Tree) = some t → t.array? = none ∧ Fits t := by
    rintro _ ⟨⟩
  obtain ⟨hwritable, hiff⟩ := writable_mergeAll hnone (fits_of_readValues hvalues) hmerge
  refine ⟨values, hvalues, fun hroomy => ?_, fun hnot => ?_⟩
  · exact exists_encode_iff.mpr ⟨hwritable, hiff.mpr hroomy⟩
  · exact encode_of_lt_height hwritable (Nat.lt_of_not_le (mt hiff.mp hnot))

/-! ## A stream that is read and cannot be written -/

/-- A truth value inside arrays of one item each. -/
def nested : (depth : Nat) → Tree
  | 0 => .bool true
  | depth + 1 => .array [nested depth]

/-- The bytes of `nested`. -/
def nestedBytes (depth : Nat) : Bytes := List.replicate depth 0xD1 ++ [0x01]

theorem sentence_nested {start depth : Nat} (h : start + depth ≤ maxDepth) :
    Sentence start (nestedBytes depth) (nested depth) := by
  induction depth generalizing start with
  | zero => exact .leaf (by omega) .yes
  | succ depth ih =>
    have hitem := @ih (start + 1) (by omega)
    have harray := @Sentence.countedArray start [⟨nestedBytes depth, nested depth⟩] (by omega)
      (Nat.succ_le_succ (Nat.zero_le 13)) (List.forall_mem_singleton.mpr hitem)
    have hjoin : join [(⟨nestedBytes depth, nested depth⟩ : Piece Tree)] = nestedBytes depth := by
      simp [join]
    rw [hjoin] at harray
    exact harray

theorem height_nested (depth : Nat) : (nested depth).height = depth + 1 := by
  induction depth with
  | zero => rfl
  | succ depth ih => simp [nested, Tree.height, Tree.itemsHeight, ih]

/-- An empty array, and behind it a dictionary that fills all levels. -/
def overhanging : List (Piece (Option Tree)) :=
  [⟨[0xD0], some (.array [])⟩,
   ⟨0xE1 :: 0x41 :: 0x6B :: nestedBytes 99, some (.dict [("k", nested 99)])⟩]

theorem splits_overhanging : Splits (join overhanging) overhanging := by
  have hempty : Sentence 0 [0xD0] (.array []) :=
    @Sentence.countedArray 0 [] (by decide) (by decide) (List.forall_mem_nil _)
  have hkey : Sentence 1 [0x41, 0x6B] (.string "k") :=
    .leaf (by decide) (@Leaf.short .text _ _ (by decide) (.text "k"))
  have hdict := @Sentence.countedDict 0 [(⟨[0x41, 0x6B], "k"⟩, ⟨nestedBytes 99, nested 99⟩)]
    (by decide) (by decide) (List.forall_mem_singleton.mpr hkey)
    (List.forall_mem_singleton.mpr (sentence_nested (by decide)))
  refine ⟨rfl, ?_⟩
  simp only [overhanging, List.forall_mem_cons]
  exact ⟨.sentence hempty, .sentence hdict, List.forall_mem_nil _⟩

theorem decode_join_overhanging :
    decode (join overhanging) = .ok (.array [.dict [("k", nested 99)]]) := by
  rw [decode, splits_overhanging.readValues_eq]
  rfl

theorem encode_of_decode_overhanging :
    decode (join overhanging) = .ok (.array [.dict [("k", nested 99)]]) ∧
      ∃ values, readValues (join overhanging) = .ok values ∧
        (values.Pairwise Roomy → ∃ bytes, encode (.array [.dict [("k", nested 99)]]) = .ok bytes) ∧
        (¬values.Pairwise Roomy →
          encode (.array [.dict [("k", nested 99)]]) = .error (.recursionLimit maxDepth)) :=
  ⟨decode_join_overhanging, encode_of_decode decode_join_overhanging⟩

/-- What it decodes to has no written form. -/
theorem encode_overhanging_eq_error :
    decode (join overhanging) = .ok (.array [.dict [("k", nested 99)]]) ∧
      encode (.array [.dict [("k", nested 99)]]) = .error (.recursionLimit maxDepth) := by
  have hnested : Writable (nested 99) := (@sentence_nested 1 99 (by decide)).writable.1
  refine ⟨decode_join_overhanging, encode_of_lt_height ?_ ?_⟩
  · rw [writable_array, List.forall_mem_singleton, writable_dict, List.forall_mem_singleton]
    exact hnested
  · simp only [Tree.height, Tree.itemsHeight, Tree.entriesHeight, height_nested]
    decide

end PlistCodec.Opack
