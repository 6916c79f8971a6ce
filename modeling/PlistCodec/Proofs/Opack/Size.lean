import PlistCodec.Proofs.Opack.Parts
import PlistCodec.Proofs.Opack.Writable

/-!
# What is read is no larger than the stream

Every node of a tree that was decoded has been paid for by bytes of the stream: a node by its tag,
text and data by their payload, a key by its own sentence (`Sentence.size_le`).  Nothing is paid for
twice when values are put together, since a node of the result is a node of one of the values
(`size_mergeAll_le`).  So a tree is no larger than the stream that it was decoded from
(`size_le_length_of_decode`), whatever lengths and counts stand in there.
-/

namespace PlistCodec

namespace Tree

/-! ## Size -/

mutual

/-- The size of a tree: one for each node, and the bytes of all texts, data and keys, with one more
for each key. -/
def size : Tree → Nat
  | .string text => 1 + (Bytes.ofString text).length
  | .data bytes => 1 + bytes.length
  | .array items => 1 + itemsSize items
  | .dict entries => 1 + entriesSize entries
  | _ => 1
termination_by structural t => t

/-- The size of a list of trees. -/
def itemsSize : List Tree → Nat
  | [] => 0
  | t :: ts => t.size + itemsSize ts
termination_by structural ts => ts

/-- The size of a list of entries. -/
def entriesSize : List (String × Tree) → Nat
  | [] => 0
  | (key, t) :: es => 1 + (Bytes.ofString key).length + t.size + entriesSize es
termination_by structural es => es

end

theorem itemsSize_append (items more : List Tree) :
    itemsSize (items ++ more) = itemsSize items + itemsSize more := by
  induction items with
  | nil => exact (Nat.zero_add _).symm
  | cons t ts ih => rw [List.cons_append, itemsSize, itemsSize, ih, Nat.add_assoc]

/-- Keys and values are weighed each for itself. -/
theorem entriesSize_eq (entries : List (String × Tree)) :
    entriesSize entries
      = Dict.weight (fun key => 1 + (Bytes.ofString key).length) size entries := by
  induction entries with
  | nil => rfl
  | cons e es ih => rw [entriesSize, Dict.weight, ih]

theorem entriesSize_ofList_le (entries : List (String × Tree)) :
    entriesSize (Dict.ofList entries) ≤ entriesSize entries := by
  rw [entriesSize_eq, entriesSize_eq]
  exact Dict.weight_ofList_le _ _ entries

theorem entriesSize_insertAll_le (d : Dict Tree) (entries : List (String × Tree)) :
    entriesSize (d.insertAll entries) ≤ entriesSize d + entriesSize entries := by
  rw [entriesSize_eq, entriesSize_eq, entriesSize_eq]
  exact Dict.weight_insertAll_le _ _ d entries

end Tree

namespace Opack

/-! ## Sentences -/

theorem IsPayload.size_eq {kind : Payload} {payload : Bytes} {tree : Tree}
    (h : IsPayload kind payload tree) : tree.size = 1 + payload.length := by
  cases h <;> rfl

theorem Leaf.size_le {bytes : Bytes} {tree : Tree} (h : Leaf bytes tree) :
    tree.size ≤ bytes.length := by
  cases h with
  | short _ h =>
    exact Nat.le_of_eq (by rw [h.size_eq, List.length_cons, Nat.add_comm])
  | sized _ _ _ h =>
    rw [h.size_eq, List.length_cons, List.length_append]
    omega
  | _ => exact Nat.succ_le_succ (Nat.zero_le _)

theorem itemsSize_le_join {items : List (Piece Tree)}
    (h : ∀ item ∈ items, item.value.size ≤ item.bytes.length) :
    Tree.itemsSize (items.map Piece.value) ≤ (join items).length := by
  induction items with
  | nil => exact Nat.zero_le _
  | cons item items ih =>
    obtain ⟨hfirst, hrest⟩ := List.forall_mem_cons.mp h
    rw [join_cons, List.map_cons, Tree.itemsSize, List.length_append]
    exact Nat.add_le_add hfirst (ih hrest)

/-- Keys are paid for like the texts that they are read as; replaced values cost nothing. -/
theorem entriesSize_le_flatten {entries : List (Piece String × Piece Tree)}
    (hkeys : ∀ e ∈ entries, (Tree.string e.1.value).size ≤ e.1.bytes.length)
    (hvalues : ∀ e ∈ entries, e.2.value.size ≤ e.2.bytes.length) :
    Tree.entriesSize (Dict.ofList (entries.map fun e => (e.1.value, e.2.value)))
      ≤ (entries.map fun e => e.1.bytes ++ e.2.bytes).flatten.length := by
  refine Nat.le_trans (Tree.entriesSize_ofList_le _) ?_
  induction entries with
  | nil => exact Nat.zero_le _
  | cons e es ih =>
    obtain ⟨hkey, hkeys⟩ := List.forall_mem_cons.mp hkeys
    obtain ⟨hvalue, hvalues⟩ := List.forall_mem_cons.mp hvalues
    have hrest := ih hkeys hvalues
    rw [Tree.size] at hkey
    simp only [List.map_cons, List.flatten_cons, List.length_append, Tree.entriesSize]
    omega

/-- **A sentence pays for what it denotes.** -/
theorem Sentence.size_le {depth : Nat} {bytes : Bytes} {tree : Tree}
    (h : Sentence depth bytes tree) : tree.size ≤ bytes.length := by
  induction h with
  | leaf _ h => exact h.size_le
  | countedArray _ _ _ ih =>
    have hitems := itemsSize_le_join ih
    rw [Tree.size, List.length_cons]
    omega
  | openArray _ _ ih =>
    have hitems := itemsSize_le_join ih
    rw [Tree.size, List.length_cons, List.length_append]
    omega
  | countedDict _ _ _ _ ihkeys ihvalues =>
    have hentries := entriesSize_le_flatten ihkeys ihvalues
    rw [Tree.size, List.length_cons]
    omega
  | openDict _ _ _ ihkeys ihvalues =>
    have hentries := entriesSize_le_flatten ihkeys ihvalues
    rw [Tree.size, List.length_cons, List.length_append]
    omega

/-! ## Streams -/

/-- The values of a stream take no more than its bytes, end marks between them included. -/
theorem itemsSize_denoted_le {stream : Bytes} {pieces : List (Piece (Option Tree))}
    (h : Splits stream pieces) : Tree.itemsSize (denoted pieces) ≤ stream.length := by
  rw [← h.join_eq]
  have hpieces := h.isPiece
  clear h
  induction pieces with
  | nil => exact Nat.zero_le _
  | cons piece pieces ih =>
    obtain ⟨hpiece, hrest⟩ := List.forall_mem_cons.mp hpieces
    have hbehind := ih hrest
    obtain ⟨bytes, value⟩ := piece
    rw [join_cons, List.length_append]
    cases hpiece with
    | sentence hsentence =>
      exact Nat.add_le_add hsentence.size_le hbehind
    | mark => exact Nat.le_trans hbehind (Nat.le_add_left _ _)

/-! ## One tree out of several values -/

/-- The size of a tree, or of nothing. -/
def sizeOf? : Option Tree → Nat
  | none => 0
  | some t => t.size

theorem itemsSize_itemsOf_le (value : Tree) : Tree.itemsSize (itemsOf value) ≤ value.size := by
  cases value with
  | array items => exact Nat.le_add_left _ _
  | _ => exact Nat.le_refl _

/-- One more value adds its size at most. -/
theorem size_merge_le (out : Option Tree) (value : Tree) :
    (merge out value).size ≤ sizeOf? out + value.size := by
  have hreplaced : value.size ≤ sizeOf? out + value.size := Nat.le_add_left _ _
  rcases out with _ | t
  · cases value <;> exact hreplaced
  cases t with
  | array items =>
    have hitems := itemsSize_itemsOf_le value
    rw [merge_array, Tree.size, Tree.itemsSize_append, sizeOf?, Tree.size]
    omega
  | dict entries =>
    cases value with
    | dict more =>
      have hentries := Tree.entriesSize_insertAll_le entries more
      simp only [merge, sizeOf?, Tree.size]
      omega
    | _ => exact hreplaced
  | _ => cases value <;> exact hreplaced

/-- **Putting values together adds nothing.** -/
theorem size_mergeAll_le (out : Option Tree) (values : List Tree) :
    sizeOf? (mergeAll out values) ≤ sizeOf? out + Tree.itemsSize values := by
  induction values generalizing out with
  | nil => exact Nat.le_refl _
  | cons value rest ih =>
    have hstep : mergeAll out (value :: rest) = mergeAll (some (merge out value)) rest := rfl
    have hrest := ih (some (merge out value))
    have hfirst := size_merge_le out value
    rw [hstep, Tree.itemsSize]
    rw [sizeOf?] at hrest
    omega

/-- **No amplification.**  A tree is no larger than the stream that it was decoded from. -/
theorem size_le_length_of_decode {stream : Bytes} {v : Tree} (h : decode stream = .ok v) :
    v.size ≤ stream.length := by
  obtain ⟨values, hvalues, hmerge⟩ := decode_eq_ok h
  obtain ⟨pieces, hsplits, rfl⟩ := exists_splits_of_readValues hvalues
  have hmerged := size_mergeAll_le none (denoted pieces)
  rw [hmerge, sizeOf?, sizeOf?, Nat.zero_add] at hmerged
  exact Nat.le_trans hmerged (itemsSize_denoted_le hsplits)

/-- Two dictionaries are put together, and the second value of a key replaces the first one. -/
theorem size_le_length_of_decode_replaced :
    decode [0xE1, 0x41, 0x6B, 0x01, 0xE1, 0x41, 0x6B, 0x70] = .ok (.dict [("k", .data [])]) ∧
      (Tree.dict [("k", .data [])]).size ≤ 8 := by
  have hkey : Sentence 1 [0x41, 0x6B] (.string "k") :=
    .leaf (by decide) (@Leaf.short .text _ _ (by decide) (.text "k"))
  have hentry : ∀ {bytes : Bytes} {tree : Tree}, Leaf bytes tree →
      IsPiece 0 (0xE1 :: 0x41 :: 0x6B :: bytes) (some (.dict [("k", tree)])) := by
    intro bytes tree h
    have hdict := @Sentence.countedDict 0 [(⟨[0x41, 0x6B], "k"⟩, ⟨bytes, tree⟩)] (by decide)
      (Nat.succ_le_succ (Nat.zero_le 13)) (List.forall_mem_singleton.mpr hkey)
      (List.forall_mem_singleton.mpr (.leaf (by decide) h))
    simp only [List.map_cons, List.map_nil, List.flatten_cons, List.flatten_nil,
      List.append_nil] at hdict
    exact .sentence hdict
  have hdata : Leaf [0x70] (.data []) := @Leaf.short .data [] _ (by decide) (.data [])
  have hsplits : Splits [0xE1, 0x41, 0x6B, 0x01, 0xE1, 0x41, 0x6B, 0x70]
      [⟨[0xE1, 0x41, 0x6B, 0x01], some (.dict [("k", .bool true)])⟩,
       ⟨[0xE1, 0x41, 0x6B, 0x70], some (.dict [("k", .data [])])⟩] := by
    refine ⟨rfl, ?_⟩
    simp only [List.forall_mem_cons]
    exact ⟨hentry .yes, hentry hdata, List.forall_mem_nil _⟩
  have hdecode : decode [0xE1, 0x41, 0x6B, 0x01, 0xE1, 0x41, 0x6B, 0x70]
      = .ok (.dict [("k", .data [])]) := by
    rw [decode, hsplits.readValues_eq]
    rfl
  exact ⟨hdecode, size_le_length_of_decode hdecode⟩

end Opack

end PlistCodec
