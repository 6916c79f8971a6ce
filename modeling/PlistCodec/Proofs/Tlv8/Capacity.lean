import PlistCodec.Proofs.Tlv8.Appending

/-!
# The capacity of a buffer

The capacity of a buffer is a number of whole blocks, and what was appended fits into it
(`Buffer.Roomy`).  An append makes room for its records before it writes any of them, so three
numbers have to agree: the length that `encodedLength` foretells, the blocks that are added for it,
and the bytes that are written in the end.  They do.  Written one by one, the bytes never meet a
full buffer, whatever a full buffer would do then (`Buffer.append_eq_foldl_push`), and what is added
is no more than the records need and one block (`Buffer.extendedBy_append`).
-/

namespace PlistCodec.Tlv8

/-! ## Whole blocks -/

/-- The capacity that is added for `required` more bytes: their whole blocks and one more. -/
def growth (required : Nat) : Nat := (required / blockSize + 1) * blockSize

theorem lt_growth (required : Nat) : required < growth required := by
  simp only [growth, blockSize]
  omega

theorem growth_le (required : Nat) : growth required ≤ required + blockSize := by
  simp only [growth, blockSize]
  omega

theorem blockSize_dvd_growth (required : Nat) : blockSize ∣ growth required :=
  Nat.dvd_mul_left blockSize _

namespace Buffer

/-- A buffer of whole blocks, at least one, which hold its bytes. -/
structure Roomy (b : Buffer) : Prop where
  /-- The capacity is a number of whole blocks. -/
  blockSize_dvd : blockSize ∣ b.capacity
  /-- There is a block. -/
  capacity_pos : 0 < b.capacity
  /-- The bytes fit. -/
  length_le : b.bytes.length ≤ b.capacity

/-! ## Writing byte by byte -/

/-- Makes room for `additional` more bytes, and for these only, unless there is room already. -/
def reserve (b : Buffer) (additional : Nat) : Buffer :=
  if b.bytes.length + additional ≤ b.capacity then b
  else { b with capacity := b.bytes.length + additional }

/-- Makes room for `required` more bytes.  What is reserved is counted from the bytes that are
there, and what is added from the capacity. -/
def makeRoom (b : Buffer) (required : Nat) : Buffer :=
  if b.capacity < b.bytes.length + required then
    b.reserve (b.capacity + growth required - b.bytes.length)
  else b

/-- Writes one byte.  Without room for it, the capacity becomes what `enlarge` makes of it. -/
def push (enlarge : Nat → Nat) (b : Buffer) (byte : UInt8) : Buffer :=
  ⟨b.bytes ++ [byte], if b.bytes.length < b.capacity then b.capacity else enlarge b.capacity⟩

variable {b : Buffer}

/-- Bytes for which there is room leave the capacity as it is. -/
theorem foldl_push (enlarge : Nat → Nat) {bytes : Bytes}
    (h : b.bytes.length + bytes.length ≤ b.capacity) :
    bytes.foldl (push enlarge) b = ⟨b.bytes ++ bytes, b.capacity⟩ := by
  induction bytes generalizing b with
  | nil => rw [List.foldl_nil, List.append_nil]
  | cons byte rest ih =>
    rw [List.length_cons] at h
    have hroom : b.bytes.length < b.capacity := by omega
    have hpush : b.push enlarge byte = ⟨b.bytes ++ [byte], b.capacity⟩ := by
      rw [push, if_pos hroom]
    have hrest : (b.bytes ++ [byte]).length + rest.length ≤ b.capacity := by
      rw [List.length_append, List.length_singleton]
      omega
    rw [List.foldl_cons, hpush, ih hrest, List.append_assoc, List.singleton_append]

/-- What is reserved brings the capacity to the one that the buffer grows to. -/
theorem Roomy.makeRoom_eq (h : b.Roomy) (required : Nat) :
    b.makeRoom required = ⟨b.bytes, b.grown required⟩ := by
  have hle := h.length_le
  rw [makeRoom, grown]
  split
  case isTrue hfull =>
    have hgrowth := lt_growth required
    have hreserved : b.bytes.length + (b.capacity + growth required - b.bytes.length)
        = b.capacity + growth required := by omega
    rw [reserve, hreserved, if_neg (by omega)]
    rfl
  case isFalse => rfl

theorem length_add_le_grown (b : Buffer) (required : Nat) (h : b.bytes.length ≤ b.capacity) :
    b.bytes.length + required ≤ b.grown required := by
  have hgrowth : required < (required / blockSize + 1) * blockSize := lt_growth required
  rw [grown]
  split <;> omega

/-- **No byte meets a full buffer.**  An append makes room and then writes the bytes of its records
one by one; how a full buffer would grow does not matter. -/
theorem Roomy.append_eq_foldl_push (h : b.Roomy) (enlarge : Nat → Nat) (tag : UInt8)
    (value : Bytes) :
    b.append tag value = ((split tag value).flatMap Record.encode).foldl (push enlarge)
      (b.makeRoom (encodedLength value.length)) := by
  have hroom := b.length_add_le_grown (encodedLength value.length) h.length_le
  rw [h.makeRoom_eq, foldl_push enlarge]
  · rfl
  · rwa [length_flatMap_encode_split]

/-! ## One append -/

/-- What an append of a value of `length` bytes makes of a buffer. -/
structure ExtendedBy (length : Nat) (b b' : Buffer) : Prop where
  /-- The buffer becomes longer by the bytes of the records. -/
  length_eq : b'.bytes.length = b.bytes.length + encodedLength length
  /-- It does not shrink. -/
  capacity_le : b.capacity ≤ b'.capacity
  /-- It grows exactly if the records do not fit. -/
  capacity_ne_iff : b'.capacity ≠ b.capacity ↔ b.capacity < b.bytes.length + encodedLength length
  /-- The bytes that are there can be taken off the capacity that is asked for. -/
  length_le_asked : b.bytes.length ≤ b.capacity + growth (encodedLength length)
  /-- After it has grown, less is free than the records take and one block. -/
  free_lt : b'.capacity ≠ b.capacity →
    b'.capacity - b'.bytes.length < encodedLength length + blockSize

theorem capacity_append (b : Buffer) (tag : UInt8) (value : Bytes) :
    (b.append tag value).capacity = b.grown (encodedLength value.length) := rfl

theorem length_bytes_append (b : Buffer) (tag : UInt8) (value : Bytes) :
    (b.append tag value).bytes.length = b.bytes.length + encodedLength value.length := by
  rw [append, List.length_append, length_flatMap_encode_split]

theorem Roomy.extendedBy_append (h : b.Roomy) (tag : UInt8) (value : Bytes) :
    ExtendedBy value.length b (b.append tag value) := by
  have hfits := h.length_le
  have hlt := lt_growth (encodedLength value.length)
  have hle := growth_le (encodedLength value.length)
  have hlength := b.length_bytes_append tag value
  have hasked : b.bytes.length ≤ b.capacity + growth (encodedLength value.length) := by omega
  by_cases hfull : b.capacity < b.bytes.length + encodedLength value.length
  · have hcapacity : (b.append tag value).capacity
        = b.capacity + growth (encodedLength value.length) := by
      rw [capacity_append, grown, if_pos hfull]
      rfl
    refine ⟨hlength, by omega, iff_of_true (by omega) hfull, hasked, fun _ => ?_⟩
    rw [hcapacity, hlength]
    omega
  · have hcapacity : (b.append tag value).capacity = b.capacity := by
      rw [capacity_append, grown, if_neg hfull]
    exact ⟨hlength, hcapacity.ge, iff_of_false (not_not.mpr hcapacity) hfull, hasked,
      fun hne => absurd hcapacity hne⟩

/-- **One append** leaves whole blocks that hold the bytes. -/
theorem Roomy.append (h : b.Roomy) (tag : UInt8) (value : Bytes) : (b.append tag value).Roomy := by
  have hextended := h.extendedBy_append tag value
  refine ⟨?_, Nat.lt_of_lt_of_le h.capacity_pos hextended.capacity_le, ?_⟩
  · rw [capacity_append, grown]
    split
    · exact Nat.dvd_add h.blockSize_dvd (blockSize_dvd_growth _)
    · exact h.blockSize_dvd
  · rw [length_bytes_append]
    exact b.length_add_le_grown _ h.length_le

/-! ## Any number of appends -/

theorem roomy_empty : Roomy empty := ⟨Nat.dvd_refl _, by decide, Nat.zero_le _⟩

/-- The buffer after further appends, one after the other. -/
def appendAll (b : Buffer) (values : List (UInt8 × Bytes)) : Buffer :=
  values.foldl (fun b value => b.append value.1 value.2) b

theorem Roomy.appendAll (h : b.Roomy) (values : List (UInt8 × Bytes)) :
    (b.appendAll values).Roomy ∧ b.capacity ≤ (b.appendAll values).capacity := by
  induction values generalizing b with
  | nil => exact ⟨h, Nat.le_refl _⟩
  | cons value rest ih =>
    obtain ⟨hroomy, hle⟩ := ih (h.append value.1 value.2)
    exact ⟨hroomy, (h.extendedBy_append value.1 value.2).capacity_le.trans hle⟩

theorem ofValues_append (values more : List (UInt8 × Bytes)) :
    ofValues (values ++ more) = (ofValues values).appendAll more :=
  List.foldl_append

/-- **Growing in blocks.**  Whatever values are appended to a new buffer, its capacity is a positive
number of whole blocks that hold its bytes, and further appends do not make it less.  The next
append makes the buffer longer by what `encodedLength` foretells, and grows it exactly if that does
not fit; what it asks for is never less than what is there, no byte that it writes meets a full
buffer, and right after it has grown the free space is less than the records and one block. -/
theorem capacity_of_appended (values : List (UInt8 × Bytes)) :
    Roomy (ofValues values) ∧
      (∀ more, (ofValues values).capacity ≤ (ofValues (values ++ more)).capacity) ∧
      ∀ (tag : UInt8) (value : Bytes),
        ExtendedBy value.length (ofValues values) ((ofValues values).append tag value) ∧
        ∀ enlarge : Nat → Nat, (ofValues values).append tag value
          = ((split tag value).flatMap Record.encode).foldl (push enlarge)
            ((ofValues values).makeRoom (encodedLength value.length)) := by
  have hroomy : Roomy (ofValues values) := (roomy_empty.appendAll values).1
  refine ⟨hroomy, fun more => ?_, fun tag value => ⟨hroomy.extendedBy_append tag value, ?_⟩⟩
  · rw [ofValues_append]
    exact (hroomy.appendAll more).2
  · exact fun enlarge => hroomy.append_eq_foldl_push enlarge tag value

/-- A value whose records fill the first block to its last byte. -/
def blockful : List (UInt8 × Bytes) := [(2, List.replicate 1016 0x7f)]

/-- One more byte makes the buffer grow, by one block. -/
theorem capacity_of_appended_blockful : (ofValues blockful).bytes.length = blockSize ∧
    (ofValues blockful).capacity = blockSize ∧
    (ofValues (blockful ++ [(3, [1])])).capacity = 2 * blockSize ∧
    ExtendedBy 1 (ofValues blockful) ((ofValues blockful).append 3 [1]) ∧
    ((ofValues blockful).append 3 [1]).capacity - ((ofValues blockful).append 3 [1]).bytes.length
      < encodedLength 1 + blockSize := by
  have hrequired : encodedLength (List.replicate 1016 (0x7f : UInt8)).length = blockSize := by
    rw [List.length_replicate]
    rfl
  have hlength : (ofValues blockful).bytes.length = blockSize := by
    rw [length_bytes_ofValues, blockful, List.map_singleton, List.sum_singleton, hrequired]
  have hcapacity : (ofValues blockful).capacity = blockSize := by
    rw [ofValues, blockful, List.foldl_cons, List.foldl_nil, capacity_append, hrequired]
    decide
  have hnext : (ofValues (blockful ++ [(3, [1])])).capacity = 2 * blockSize := by
    rw [ofValues_append, appendAll, List.foldl_cons, List.foldl_nil, capacity_append, grown,
      hlength, hcapacity]
    rfl
  have hextended := ((capacity_of_appended blockful).2.2 3 [1]).1
  refine ⟨hlength, hcapacity, hnext, hextended, hextended.free_lt ?_⟩
  rw [hextended.capacity_ne_iff, hlength, hcapacity]
  decide

end Buffer

end PlistCodec.Tlv8
