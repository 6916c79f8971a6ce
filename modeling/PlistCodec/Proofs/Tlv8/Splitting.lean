import PlistCodec.Proofs.Tlv8.Appending

/-!
# How a stream falls into records

Any bytes fall into records and a rest that is none: nothing, a tag without a length, or a header
that asks for more bytes than there are (`IsRest`).  They do so in one way only, and `records` finds
it (`records_eq_iff`), so the reader neither skips bytes nor takes the bytes of a value for a
header.

What was read stays what it is when more bytes come behind the stream: these can at most complete
the rest.  Reading record by record gives the same records, and once it has given none it gives none
for good (`next_unread`).
-/

namespace PlistCodec.Tlv8

/-! ## What is no record -/

/-- What may stand behind the records of a stream. -/
inductive IsRest : Bytes → Prop where
  /-- Nothing. -/
  | empty : IsRest []
  /-- A tag without a length. -/
  | lone (tag : UInt8) : IsRest [tag]
  /-- A header that asks for more bytes than there are behind it. -/
  | cut {tag length : UInt8} {behind : Bytes} (h : behind.length < length.toNat) :
    IsRest (tag :: length :: behind)

/-- A reading finds no record exactly where none stands. -/
theorem next_fst_eq_none_iff {data : Bytes} : (next data).1 = none ↔ IsRest data := by
  unfold next
  split
  case h_1 tag length behind =>
    have hshort := @Bytes.takeExactly?_eq_none_iff length.toNat behind
    cases htake : Bytes.takeExactly? length.toNat behind with
    | none => exact iff_of_true rfl (.cut (hshort.mp htake))
    | some parts =>
      refine iff_of_false (Option.some_ne_none _) ?_
      rintro (_ | _ | hcut)
      rw [hshort.mpr hcut] at htake
      cases htake
  case h_2 hheader =>
    refine iff_of_true rfl ?_
    match data, hheader with
    | [], _ => exact .empty
    | [tag], _ => exact .lone tag
    | tag :: length :: behind, hheader => exact absurd rfl (hheader tag length behind)

/-- What is left after a reading that found no record holds none either. -/
theorem IsRest.next_snd {data : Bytes} (h : IsRest data) : IsRest (next data).2 := by
  cases h with
  | empty => exact .empty
  | lone tag => exact .lone tag
  | cut h =>
    rw [next, Bytes.takeExactly?_eq_none_iff.mpr h]
    exact .empty

theorem IsRest.records_eq {data : Bytes} (h : IsRest data) : records data = [] := by
  have hnone := next_fst_eq_none_iff.mpr h
  rw [records]
  split
  · rfl
  case h_2 record rest hnext =>
    rw [hnext] at hnone
    cases hnone

/-! ## Records and a rest -/

/-- A record that was read stands at the front, as it would have been written. -/
theorem eq_encode_append_of_next {data rest : Bytes} {record : Record}
    (h : next data = (some record, rest)) :
    data = record.encode ++ rest ∧ record.value.length ≤ maxValue := by
  unfold next at h
  split at h
  case h_2 => cases h
  case h_1 tag length behind =>
    split at h
    case h_2 => cases h
    case h_1 value remaining htake =>
      obtain ⟨hlength, rfl⟩ := Bytes.takeExactly?_eq_some_iff.mp htake
      cases h
      have hbyte : UInt8.ofNat value.length = length := by rw [hlength, UInt8.ofNat_toNat]
      refine ⟨?_, ?_⟩
      · rw [Record.encode, hbyte, List.cons_append, List.cons_append]
      · rw [hlength]
        exact Nat.le_of_lt_succ length.toNat_lt

theorem exists_rest (data : Bytes) :
    (∃ rest, data = (records data).flatMap Record.encode ++ rest ∧ IsRest rest) ∧
      ∀ record ∈ records data, record.value.length ≤ maxValue := by
  fun_induction records data with
  | case1 data rest hnext =>
    have hrest : IsRest data := next_fst_eq_none_iff.mp (by rw [hnext])
    exact ⟨⟨data, rfl, hrest⟩, List.forall_mem_nil _⟩
  | case2 data record remaining hnext ih =>
    obtain ⟨hdata, hfits⟩ := eq_encode_append_of_next hnext
    obtain ⟨⟨rest, hremaining, hrest⟩, hall⟩ := ih
    refine ⟨⟨rest, ?_, hrest⟩, List.forall_mem_cons.mpr ⟨hfits, hall⟩⟩
    rw [List.flatMap_cons, List.append_assoc, ← hremaining]
    exact hdata

/-- **One way to split a stream.**  Its records are those that fit, one behind the other, and leave
a rest that is none. -/
theorem records_eq_iff {data : Bytes} {found : List Record} :
    records data = found ↔ (∀ record ∈ found, record.value.length ≤ maxValue) ∧
      ∃ rest, data = found.flatMap Record.encode ++ rest ∧ IsRest rest := by
  constructor
  · rintro rfl
    exact (exists_rest data).symm
  · rintro ⟨hfits, rest, rfl, hrest⟩
    rw [records_flatMap_encode_append hfits, hrest.records_eq, List.append_nil]

/-- The records of a stream are the first ones of any longer stream. -/
theorem records_prefix_append (data more : Bytes) : records data <+: records (data ++ more) := by
  obtain ⟨⟨rest, hdata, -⟩, hfits⟩ := exists_rest data
  refine ⟨records (rest ++ more), ?_⟩
  rw [← records_flatMap_encode_append hfits, ← List.append_assoc, ← hdata]

/-! ## Reading record by record -/

/-- What is left to be read after a number of readings, whether these found records or not. -/
def unread (data : Bytes) : (readings : Nat) → Bytes
  | 0 => data
  | readings + 1 => unread (next data).2 readings

theorem IsRest.unread {data : Bytes} (h : IsRest data) (readings : Nat) :
    IsRest (unread data readings) := by
  induction readings generalizing data with
  | zero => exact h
  | succ readings ih => exact ih h.next_snd

theorem unread_add (data : Bytes) (first second : Nat) :
    unread data (first + second) = unread (unread data first) second := by
  induction first generalizing data with
  | zero => rw [Nat.zero_add, unread]
  | succ first ih => rw [Nat.succ_add, unread, ih, unread]

/-- The readings find the records one after the other, and nothing more behind them. -/
theorem next_unread (data : Bytes) (readings : Nat) :
    (next (unread data readings)).1 = (records data)[readings]? := by
  fun_induction records data generalizing readings with
  | case1 data rest hnext =>
    have hrest : IsRest data := next_fst_eq_none_iff.mp (by rw [hnext])
    exact next_fst_eq_none_iff.mpr (hrest.unread readings)
  | case2 data record remaining hnext ih =>
    cases readings with
    | zero => rw [unread, hnext, List.getElem?_cons_zero]
    | succ readings => rw [unread, hnext, ih, List.getElem?_cons_succ]

/-! ## Any bytes -/

/-- **Splitting any bytes.**  A stream consists of its records, as they would have been written, and
a rest that is none.  Reading record by record finds these records; a reading that finds none is
followed by such readings only.  The records of a longer stream begin with those of the stream. -/
theorem records_split (data : Bytes) :
    ((∃ rest, data = (records data).flatMap Record.encode ++ rest ∧ IsRest rest) ∧
      ∀ record ∈ records data, record.value.length ≤ maxValue) ∧
    (∀ readings, (next (unread data readings)).1 = (records data)[readings]?) ∧
    (∀ readings later, readings ≤ later → (next (unread data readings)).1 = none →
      (next (unread data later)).1 = none) ∧
    ∀ more, records data <+: records (data ++ more) := by
  refine ⟨exists_rest data, next_unread data, ?_, records_prefix_append data⟩
  intro readings later hle hnone
  obtain ⟨more, rfl⟩ := Nat.exists_eq_add_of_le hle
  rw [unread_add]
  rw [next_fst_eq_none_iff] at hnone ⊢
  exact hnone.unread more

/-- An empty record, one whose value looks like a header, and a record that is cut off. -/
def cutStream : Bytes := [7, 0, 1, 2, 1, 0, 9, 3, 5, 5]

theorem records_split_cutStream : ⟨1, [1, 0]⟩ ∈ records cutStream ∧
    (next (unread cutStream 2)).1 = none ∧
    (∃ rest, cutStream = (records cutStream).flatMap Record.encode ++ rest ∧ IsRest rest) ∧
    (⟨1, [1, 0]⟩ : Record).value.length ≤ maxValue ∧ (next (unread cutStream 5)).1 = none ∧
    records cutStream <+: records (cutStream ++ [5]) := by
  have hmem : ⟨1, [1, 0]⟩ ∈ records cutStream := by decide +kernel
  have hnone : (next (unread cutStream 2)).1 = none := rfl
  obtain ⟨⟨hrest, hfits⟩, -, hfused, happend⟩ := records_split cutStream
  exact ⟨hmem, hnone, hrest, hfits _ hmem, hfused 2 5 (by decide) hnone, happend [5]⟩

end PlistCodec.Tlv8
