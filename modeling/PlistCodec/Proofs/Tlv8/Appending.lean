import Mathlib.Algebra.Order.Ring.Nat
import PlistCodec.Tlv8.Buffer

/-!
# What appending writes and looking up finds

A buffer that values were appended to reads back as the pieces of these values, each under its tag.
The reader steps from header to header by the lengths that the writer wrote, so a value may hold any
bytes, those of headers for instance, and no piece is lost or found where there is none.

Looking up a tag therefore sees the values that were appended under it and nothing else: `joined?`
all of them, and `first?` the first piece of the first one that has pieces.
-/

namespace PlistCodec.Tlv8

/-! ## Pieces of a value -/

/-- The pieces of a value: full ones, and a shorter last one if something is left. -/
def pieces (value : Bytes) : List Bytes :=
  if value.isEmpty then [] else value.take maxValue :: pieces (value.drop maxValue)
termination_by value.length
decreasing_by
  have hne : value.length ≠ 0 := by simp_all
  have hpos : 0 < maxValue := by decide
  rw [List.length_drop]
  omega

/-- A value is cut into pieces that are full, but for the last one, which may be shorter and is not
empty. -/
structure IsCut (value : Bytes) (pieces : List Bytes) : Prop where
  /-- The pieces make up the value. -/
  flatten_eq : pieces.flatten = value
  /-- All but the last one are full. -/
  length_of_mem_dropLast : ∀ piece ∈ pieces.dropLast, piece.length = maxValue
  /-- Each fits into a record, and is not empty. -/
  length_of_mem : ∀ piece ∈ pieces, 0 < piece.length ∧ piece.length ≤ maxValue

theorem split_eq_map_pieces (tag : UInt8) (value : Bytes) :
    split tag value = (pieces value).map (Record.mk tag) := by
  fun_induction pieces value with
  | case1 value h => rw [split, if_pos h]; rfl
  | case2 value h ih => rw [split, if_neg h, ih]; rfl

@[simp] theorem pieces_eq_nil_iff {value : Bytes} : pieces value = [] ↔ value = [] := by
  rw [pieces]
  split <;> simp_all

theorem drop_maxValue_ne_nil_iff {value : Bytes} :
    value.drop maxValue ≠ [] ↔ maxValue < value.length := by
  rw [Ne, List.drop_eq_nil_iff]
  omega

theorem isCut_pieces (value : Bytes) : IsCut value (pieces value) := by
  fun_induction pieces value with
  | case1 value h => exact ⟨by simp_all, by simp, by simp⟩
  | case2 value h ih =>
    have hpos : 0 < value.length := by
      rw [List.length_pos_iff]
      simpa using h
    have hmax : 0 < maxValue := by decide
    refine ⟨?_, ?_, ?_⟩
    · rw [List.flatten_cons, ih.flatten_eq, List.take_append_drop]
    · intro piece hpiece
      by_cases hlast : pieces (value.drop maxValue) = []
      · simp [hlast] at hpiece
      · rw [List.dropLast_cons_of_ne_nil hlast] at hpiece
        rcases List.mem_cons.mp hpiece with rfl | hpiece
        · have := drop_maxValue_ne_nil_iff.mp (mt pieces_eq_nil_iff.mpr hlast)
          rw [List.length_take]
          omega
        · exact ih.length_of_mem_dropLast piece hpiece
    · intro piece hpiece
      rcases List.mem_cons.mp hpiece with rfl | hpiece
      · rw [List.length_take]
        omega
      · exact ih.length_of_mem piece hpiece

/-- A value is cut in one way only. -/
theorem IsCut.eq_pieces {value : Bytes} {cut : List Bytes} (h : IsCut value cut) :
    cut = pieces value := by
  fun_induction pieces value generalizing cut with
  | case1 value hempty =>
    have hvalue : value = [] := by simpa using hempty
    rw [List.eq_nil_iff_forall_not_mem]
    intro piece hpiece
    have hnil := h.flatten_eq
    rw [hvalue, List.flatten_eq_nil_iff] at hnil
    simpa [hnil piece hpiece] using h.length_of_mem piece hpiece
  | case2 value hempty ih =>
    rcases cut with _ | ⟨first, rest⟩
    · simp [← h.flatten_eq] at hempty
    have hfirst := (h.length_of_mem first List.mem_cons_self).2
    have hvalue : first ++ rest.flatten = value := h.flatten_eq
    by_cases hrest : rest = []
    · have hlast : first = value := by simpa [hrest] using hvalue
      have htake : value.take maxValue = first := by
        rw [List.take_of_length_le (by rwa [← hlast]), hlast]
      have hdrop : value.drop maxValue = [] := by
        rw [List.drop_eq_nil_iff, ← hlast]
        exact hfirst
      rw [htake, hdrop, hrest, pieces_eq_nil_iff.mpr rfl]
    · have hdropLast := List.dropLast_cons_of_ne_nil (x := first) hrest
      have hfull : first.length = maxValue := by
        refine h.length_of_mem_dropLast first ?_
        rw [hdropLast]
        exact List.mem_cons_self
      have hcut : IsCut (value.drop maxValue) rest := by
        refine ⟨?_, fun piece hpiece => ?_, fun piece hpiece => ?_⟩
        · rw [← hvalue, ← hfull, List.drop_left]
        · refine h.length_of_mem_dropLast piece ?_
          rw [hdropLast]
          exact List.mem_cons_of_mem _ hpiece
        · exact h.length_of_mem piece (List.mem_cons_of_mem _ hpiece)
      rw [← ih hcut, ← hvalue, ← hfull, List.take_left]

/-- The bytes of the pieces, with two more for each header. -/
theorem length_flatMap_encode_split (tag : UInt8) (value : Bytes) :
    ((split tag value).flatMap Record.encode).length = encodedLength value.length := by
  fun_induction split tag value with
  | case1 value h =>
    have hvalue : value = [] := by simpa using h
    rw [hvalue]
    rfl
  | case2 value h ih =>
    have hpos : 0 < value.length := by
      rw [List.length_pos_iff]
      simpa using h
    rw [List.flatMap_cons, List.length_append, ih, List.length_drop]
    simp only [Record.encode, List.length_cons, List.length_take, encodedLength, maxValue]
    omega

/-! ## Reading what was written -/

theorem next_encode_append {record : Record} (h : record.value.length ≤ maxValue) (rest : Bytes) :
    next (record.encode ++ rest) = (some record, rest) := by
  have hlength : (UInt8.ofNat record.value.length).toNat = record.value.length :=
    UInt8.toNat_ofNat_of_lt (by simp only [maxValue, UInt8.size] at *; omega)
  have htake : Bytes.takeExactly? record.value.length (record.value ++ rest)
      = some (record.value, rest) :=
    Bytes.takeExactly?_eq_some_iff.mpr ⟨rfl, rfl⟩
  simp only [Record.encode, List.cons_append, next, hlength, htake]

theorem records_encode_append {record : Record} (h : record.value.length ≤ maxValue)
    (rest : Bytes) : records (record.encode ++ rest) = record :: records rest := by
  rw [records]
  split
  case h_1 hnext => rw [next_encode_append h] at hnext; cases hnext
  case h_2 hnext => rw [next_encode_append h] at hnext; cases hnext; rfl

/-- Records that fit are read back one by one, whatever stands behind them. -/
theorem records_flatMap_encode_append {written : List Record}
    (h : ∀ record ∈ written, record.value.length ≤ maxValue) (rest : Bytes) :
    records (written.flatMap Record.encode ++ rest) = written ++ records rest := by
  induction written with
  | nil => rfl
  | cons record others ih =>
    rw [List.flatMap_cons, List.append_assoc, records_encode_append (h record List.mem_cons_self),
      ih fun other hother => h other (List.mem_cons_of_mem _ hother), List.cons_append]

theorem records_flatMap_encode {written : List Record}
    (h : ∀ record ∈ written, record.value.length ≤ maxValue) :
    records (written.flatMap Record.encode) = written := by
  have hread := records_flatMap_encode_append h []
  have hnil : records [] = [] := by rw [records]; rfl
  rwa [List.append_nil, hnil, List.append_nil] at hread

/-! ## Buffers -/

/-- The buffer that values are appended to, each under its tag. -/
def Buffer.ofValues (values : List (UInt8 × Bytes)) : Buffer :=
  values.foldl (fun b value => b.append value.1 value.2) .empty

/-- The records of values, each under its tag. -/
def recordsOf (values : List (UInt8 × Bytes)) : List Record :=
  values.flatMap fun value => (pieces value.2).map (Record.mk value.1)

/-- The values under a tag, in order. -/
def valuesUnder (tag : UInt8) (values : List (UInt8 × Bytes)) : List Bytes :=
  (values.filter fun value => value.1 = tag).map Prod.snd

section Buffers

variable (values : List (UInt8 × Bytes))

theorem bytes_foldl_append (b : Buffer) :
    (values.foldl (fun b value => b.append value.1 value.2) b).bytes
      = b.bytes ++ (recordsOf values).flatMap Record.encode := by
  induction values generalizing b with
  | nil => simp [recordsOf]
  | cons value rest ih =>
    rw [List.foldl_cons, ih]
    simp [Buffer.append, recordsOf, split_eq_map_pieces]

theorem Buffer.bytes_ofValues :
    (Buffer.ofValues values).bytes = (recordsOf values).flatMap Record.encode :=
  bytes_foldl_append values .empty

theorem length_of_mem_recordsOf {record : Record} (h : record ∈ recordsOf values) :
    record.value.length ≤ maxValue := by
  obtain ⟨value, -, hrecord⟩ := List.mem_flatMap.mp h
  obtain ⟨piece, hpiece, rfl⟩ := List.mem_map.mp hrecord
  exact ((isCut_pieces value.2).length_of_mem piece hpiece).2

theorem records_ofValues : records (Buffer.ofValues values).bytes = recordsOf values := by
  rw [Buffer.bytes_ofValues, records_flatMap_encode fun _ h => length_of_mem_recordsOf values h]

theorem length_bytes_ofValues : (Buffer.ofValues values).bytes.length
    = (values.map fun value => encodedLength value.2.length).sum := by
  rw [Buffer.bytes_ofValues]
  induction values with
  | nil => rfl
  | cons value rest ih =>
    rw [recordsOf, List.flatMap_cons, ← split_eq_map_pieces, List.flatMap_append,
      List.length_append, length_flatMap_encode_split, ← recordsOf, ih, List.map_cons,
      List.sum_cons]

/-! ## Looking up -/

/-- The records with a tag are the pieces of the values under it. -/
theorem filter_recordsOf (tag : UInt8) :
    (recordsOf values).filter (fun record => record.tag = tag)
      = ((valuesUnder tag values).flatMap pieces).map (Record.mk tag) := by
  induction values with
  | nil => rfl
  | cons value rest ih =>
    rw [recordsOf, List.flatMap_cons, ← recordsOf, List.filter_append, ih]
    by_cases htag : value.1 = tag
    · have hall : (pieces value.2).filter (fun _ => true) = pieces value.2 := by simp
      simp [valuesUnder, htag, List.filter_map, Function.comp_def, hall]
    · simp [valuesUnder, htag, List.filter_map, Function.comp_def]

theorem flatten_flatMap_pieces (under : List Bytes) :
    (under.flatMap pieces).flatten = under.flatten := by
  induction under with
  | nil => rfl
  | cons value rest ih =>
    rw [List.flatMap_cons, List.flatten_append, (isCut_pieces value).flatten_eq, ih,
      List.flatten_cons]

theorem joined_ofValues (tag : UInt8) :
    joined (Buffer.ofValues values).bytes tag = (valuesUnder tag values).flatten := by
  rw [joined, records_ofValues, filter_recordsOf, List.flatMap_map, ← flatten_flatMap_pieces,
    List.flatMap_id']

/-- A tag has no records exactly if nothing but empty values were appended under it. -/
theorem filter_recordsOf_eq_nil_iff (tag : UInt8) :
    (recordsOf values).filter (fun record => record.tag = tag) = [] ↔
      ∀ value ∈ valuesUnder tag values, value = [] := by
  rw [filter_recordsOf, List.map_eq_nil_iff, List.flatMap_eq_nil_iff]
  simp

theorem joined?_ofValues (tag : UInt8) : joined? (Buffer.ofValues values).bytes tag
    = if ∀ value ∈ valuesUnder tag values, value = [] then none
      else some (valuesUnder tag values).flatten := by
  have hempty := filter_recordsOf_eq_nil_iff values tag
  rw [joined?, records_ofValues, joined_ofValues]
  by_cases h : ∀ value ∈ valuesUnder tag values, value = []
  · have hany : (recordsOf values).any (fun record => record.tag = tag) = false := by
      simpa using hempty.mpr h
    simp only [hany, if_pos h]
    rfl
  · have hany : (recordsOf values).any (fun record => record.tag = tag) = true := by
      simpa using mt hempty.mp h
    simp only [hany, if_neg h]
    rfl

theorem head?_pieces (value : Bytes) :
    (pieces value).head? = if value = [] then none else some (value.take maxValue) := by
  rw [pieces]
  by_cases h : value = [] <;> simp [h]

theorem first?_ofValues (tag : UInt8) : first? (Buffer.ofValues values).bytes tag
    = ((valuesUnder tag values).find? fun value => value ≠ []).map (List.take maxValue) := by
  rw [first?, records_ofValues, ← List.head?_filter, filter_recordsOf, List.head?_map,
    List.head?_flatMap]
  induction valuesUnder tag values with
  | nil => rfl
  | cons value rest ih =>
    rw [List.findSome?_cons, List.find?_cons, head?_pieces]
    by_cases h : value = []
    · simpa [h] using ih
    · simp [h]

/-- **Appending and looking up.**  Whatever values are appended to a new buffer, each under a tag:
the records are the pieces of the values, in order, each value being cut into full pieces and a
shorter last one; the length is what `encodedLength` foretells; all values under a tag joined are
what `joined?` finds, if one of them is not empty; and the first bytes of the first one that is not
empty are what `first?` finds. -/
theorem lookup_of_appended :
    records (Buffer.ofValues values).bytes
        = values.flatMap (fun value => (pieces value.2).map (Record.mk value.1)) ∧
      (∀ value ∈ values, IsCut value.2 (pieces value.2)) ∧
      (Buffer.ofValues values).bytes.length
        = (values.map fun value => encodedLength value.2.length).sum ∧
      (∀ tag, joined? (Buffer.ofValues values).bytes tag
        = if ∀ value ∈ valuesUnder tag values, value = [] then none
          else some (valuesUnder tag values).flatten) ∧
      ∀ tag, first? (Buffer.ofValues values).bytes tag
        = ((valuesUnder tag values).find? fun value => value ≠ []).map (List.take maxValue) :=
  ⟨records_ofValues values, fun value _ => isCut_pieces value.2, length_bytes_ofValues values,
    joined?_ofValues values, first?_ofValues values⟩

end Buffers

end PlistCodec.Tlv8
