import PlistCodec.Proofs.Binary64.Short
import PlistCodec.Proofs.Opack.Parts
import PlistCodec.Proofs.Opack.Writable

/-!
# No form is shorter

There are several forms for most values: integers, reals and lengths may be wider than they need to
be, containers may be open although they are short, and a dictionary may have entries that later
ones replace.  Whatever form a value was read from, the one that is written for it is not longer
(`length_encode_le`).

There are two exceptions.  An integer of one byte with its sign bit set is read as a number of 64
bits, and not-a-number has no short form that is written.
-/

namespace PlistCodec.Opack

/-! ## How long scalars are -/

theorem length_lengthHeader_short (kind : Payload) {length : Nat} (h : length ≤ Tag.maxShort) :
    (lengthHeader kind length).length = 1 := by
  rw [lengthHeader, if_pos h]
  rfl

/-- A length takes no more bytes than any field that holds it. -/
theorem length_lengthHeader_le (kind : Payload) {length : Nat} (width : Width)
    (h : length < Bytes.values width.bytes) :
    (lengthHeader kind length).length ≤ 1 + width.bytes := by
  unfold lengthHeader
  split
  · exact Nat.le_add_right 1 _
  rw [List.length_cons, Bytes.length_littleEndian, Nat.add_comm]
  refine Nat.add_le_add_left ?_ 1
  have h2 : Bytes.values 1 ≤ Bytes.values 2 := by decide
  have h4 : Bytes.values 2 ≤ Bytes.values 4 := by decide
  -- each width is tried before all wider ones
  cases width <;> simp only [Width.bytes] at h <;> split_ifs <;> simp [Width.bytes]

theorem length_encodeWord_le (n : Nat) : (encodeWord n).length ≤ 9 := by
  unfold encodeWord
  split_ifs <;> simp

theorem length_encodeReal_le (x : Binary64) : (encodeReal x).length ≤ 9 := by
  simp only [encodeReal]
  split_ifs <;> simp

/-- A number of the short form is written in the short form. -/
theorem length_encodeReal_widen {short : UInt32} (h : (Binary64.widen short).isNaN = false) :
    (encodeReal (Binary64.widen short)).length = 5 := by
  have hself : (Binary64.widen short).numEq (Binary64.widen short) := by
    simp [Binary64.numEq, h]
  simp only [encodeReal, Binary64.narrow_widen h, hself, if_true]
  simp

theorem length_encodeWord_small {n : Nat} (h : n ≤ Tag.maxSmall) : (encodeWord n).length = 1 := by
  rw [encodeWord, if_pos h]
  rfl

/-- An integer of one byte is written in as many, if its sign bit is not set. -/
theorem length_encodeWord_int8 {byte : UInt8} (h : byte < 0x80) :
    (encodeWord (Tree.wordOfInt byte.toInt8.toInt)).length ≤ 2 := by
  have all : ∀ n : Fin 128,
      (encodeWord (Tree.wordOfInt (UInt8.ofNat n).toInt8.toInt)).length ≤ 2 := by
    decide +kernel
  have hbyte := all ⟨byte.toNat, h⟩
  simpa using hbyte

theorem length_encodeWord_int32 {n : Nat} (h : n < Bytes.values 4) :
    (encodeWord n).length ≤ 5 := by
  unfold encodeWord
  rw [if_pos h]
  split_ifs <;> simp

/-! ## How long trees are -/

/-- The number of bytes that a run has written; one that has failed has written none. -/
def written (run : Except Error Bytes) : Nat := (run.toOption.getD []).length

@[simp] theorem written_ok (bytes : Bytes) : written (.ok bytes) = bytes.length := rfl

/-- Of two runs in a row, the second one writes nothing if the first one fails. -/
theorem written_bind_le (front : Bytes) (first second : Except Error Bytes) :
    written (do
      let head ← first
      let tail ← second
      return front ++ head ++ tail) ≤ front.length + written first + written second := by
  cases first with
  | error e => exact Nat.zero_le _
  | ok head =>
    cases second with
    | error e => exact Nat.zero_le _
    | ok tail => simp [bind, Except.bind, pure, Except.pure, Nat.add_assoc]

theorem written_int {n : Nat} (h : n < Bytes.values 8) (levels : Nat) :
    written (encodeWithin (.int n) (levels + 1)) = (encodeWord n).length := by
  have hword : Tree.wordOfInt n = n := by
    rw [Tree.wordOfInt, ← Int.natCast_emod, Nat.mod_eq_of_lt h]
    rfl
  rw [encodeWithin, hword]
  rfl

theorem written_date_le (d : Date) (levels : Nat) :
    written (encodeWithin (.date d) (levels + 1)) ≤ 9 := by
  rw [encodeWithin, encodeDate]
  cases d.toReferenceSeconds? with
  | none => exact Nat.zero_le _
  | some seconds => simp

theorem written_payload {kind : Payload} {payload : Bytes} {tree : Tree}
    (h : IsPayload kind payload tree) (levels : Nat) :
    written (encodeWithin tree (levels + 1))
      = (lengthHeader kind payload.length).length + payload.length := by
  cases h <;> exact List.length_append

/-- What a container takes beside its children: a tag and, if it is open, an end mark. -/
def frameLength (count : Nat) : Nat := if count ≤ Tag.maxCount then 1 else 2

theorem frameLength_mono {count more : Nat} (h : count ≤ more) :
    frameLength count ≤ frameLength more := by
  unfold frameLength
  split_ifs <;> omega

theorem frameLength_le (count : Nat) : frameLength count ≤ 2 := by
  unfold frameLength
  split_ifs <;> decide

theorem written_container (kind : Container) (count : Nat) (run : Except Error Bytes) :
    written (run.map (encodeContainer kind count)) ≤ frameLength count + written run := by
  cases run with
  | error e => exact Nat.zero_le _
  | ok children =>
    rw [Except.map, written_ok, written_ok, encodeContainer, frameLength]
    split_ifs
    · simp [Nat.add_comm]
    · simp [Nat.add_comm, Nat.add_left_comm]

/-- Items are written one behind the other. -/
theorem written_items_le {items : List (Piece Tree)} {levels : Nat}
    (h : ∀ item ∈ items, written (encodeWithin item.value levels) ≤ item.bytes.length) :
    written (encodeItems (items.map Piece.value) levels) ≤ (join items).length := by
  induction items with
  | nil => exact Nat.zero_le _
  | cons item items ih =>
    obtain ⟨hfirst, hrest⟩ := List.forall_mem_cons.mp h
    have hbelow := ih hrest
    have hbind := written_bind_le [] (encodeWithin item.value levels)
      (encodeItems (items.map Piece.value) levels)
    simp only [List.nil_append, List.length_nil, Nat.zero_add] at hbind
    rw [join_cons, List.map_cons, encodeItems, List.length_append]
    omega

/-- What the entries of a dictionary are written in, keys and values each for itself. -/
def entriesWeight (levels : Nat) (entries : List (String × Tree)) : Nat :=
  Dict.weight (fun key => (encodeText key).length) (fun t => written (encodeWithin t levels)) entries

theorem written_entries_le (entries : List (String × Tree)) (levels : Nat) :
    written (encodeEntries entries levels) ≤ entriesWeight levels entries := by
  unfold entriesWeight
  induction entries with
  | nil => exact Nat.zero_le _
  | cons e es ih =>
    have hbind := written_bind_le (encodeText e.1) (encodeWithin e.2 levels)
      (encodeEntries es levels)
    rw [encodeEntries, Dict.weight]
    omega

/-! ## Sentences -/

/-- What is written for the sentence is not longer, as far as the sentence goes itself. -/
structure Ordinary (sentence : Bytes) : Prop where
  /-- An integer of one byte does not have its sign bit set. -/
  int8 : ∀ byte, sentence = [0x30, byte] → byte < 0x80
  /-- A short real is a number. -/
  real32 : ∀ payload, sentence = 0x35 :: payload → (realOfShort payload).isNaN = false

theorem Leaf.written_le {bytes : Bytes} {tree : Tree} (h : Leaf bytes tree)
    (hbytes : Ordinary bytes) (levels : Nat) :
    written (encodeWithin tree (levels + 1)) ≤ bytes.length := by
  cases h with
  | yes => exact Nat.le_refl _
  | no => exact Nat.le_refl _
  | date hlength hdate =>
    rw [List.length_cons, hlength]
    exact written_date_le _ levels
  | @small n h =>
    rw [written_int (Nat.lt_of_le_of_lt h (by decide)), length_encodeWord_small h]
    exact Nat.le_refl 1
  | int8 byte =>
    rw [written_int (wordOfInt_lt _)]
    exact length_encodeWord_int8 (hbytes.int8 byte rfl)
  | @int32 payload hlength =>
    have hlt := Bytes.ofLittleEndian_lt payload
    rw [hlength] at hlt
    rw [written_int (Nat.lt_trans hlt (by decide)), List.length_cons, hlength]
    exact length_encodeWord_int32 hlt
  | @int64 payload hlength =>
    have hlt := Bytes.ofLittleEndian_lt payload
    rw [hlength] at hlt
    rw [written_int hlt, List.length_cons, hlength]
    exact length_encodeWord_le _
  | real32 hlength =>
    rw [List.length_cons, hlength]
    exact Nat.le_of_eq (length_encodeReal_widen (hbytes.real32 _ rfl))
  | real64 hlength =>
    rw [List.length_cons, hlength]
    exact length_encodeReal_le _
  | short hshort h =>
    rw [written_payload h, length_lengthHeader_short _ hshort, List.length_cons]
    omega
  | @sized kind tag width field payload _ htag hwidth hlength h =>
    obtain ⟨w, rfl, rfl⟩ := exists_width_of_mem_sizedTags htag
    have hlt := Bytes.ofLittleEndian_lt field
    rw [hwidth, hlength] at hlt
    have hheader := length_lengthHeader_le kind w hlt
    rw [written_payload h, List.length_cons, List.length_append, hwidth]
    omega

/-- Entries are not longer when they are written than when they were read; those that later ones
replace are not written at all. -/
theorem entriesWeight_ofList_le {depth : Nat} {entries : List (Piece String × Piece Tree)}
    (hkeys : ∀ e ∈ entries, Sentence depth e.1.bytes (.string e.1.value))
    (hkey : ∀ e ∈ entries,
      written (encodeWithin (.string e.1.value) (levelsAt depth)) ≤ e.1.bytes.length)
    (hvalue : ∀ e ∈ entries,
      written (encodeWithin e.2.value (levelsAt depth)) ≤ e.2.bytes.length) :
    entriesWeight (levelsAt depth) (Dict.ofList (entries.map fun e => (e.1.value, e.2.value)))
      ≤ (entries.map fun e => e.1.bytes ++ e.2.bytes).flatten.length := by
  refine Nat.le_trans (Dict.weight_ofList_le _ _ _) ?_
  induction entries with
  | nil => exact Nat.zero_le _
  | cons e es ih =>
    obtain ⟨hsentence, hkeys⟩ := List.forall_mem_cons.mp hkeys
    obtain ⟨hfirst, hkey⟩ := List.forall_mem_cons.mp hkey
    obtain ⟨hsecond, hvalue⟩ := List.forall_mem_cons.mp hvalue
    have hrest := ih hkeys hkey hvalue
    have htext : written (encodeWithin (.string e.1.value) (levelsAt depth))
        = (encodeText e.1.value).length := by
      rw [levelsAt_eq_succ hsentence.depth_le]
      rfl
    rw [htext] at hfirst
    simp only [List.map_cons, List.flatten_cons, List.length_append, Dict.weight]
    omega

theorem written_array_le {items : List (Piece Tree)} {levels : Nat}
    (h : ∀ item ∈ items, written (encodeWithin item.value levels) ≤ item.bytes.length) :
    written (encodeWithin (.array (items.map Piece.value)) (levels + 1))
      ≤ frameLength items.length + (join items).length := by
  rw [encodeWithin, List.length_map]
  exact Nat.le_trans (written_container .array items.length _)
    (Nat.add_le_add_left (written_items_le h) _)

theorem written_dict_le {depth : Nat} {entries : List (Piece String × Piece Tree)}
    (hkeys : ∀ e ∈ entries, Sentence depth e.1.bytes (.string e.1.value))
    (hkey : ∀ e ∈ entries,
      written (encodeWithin (.string e.1.value) (levelsAt depth)) ≤ e.1.bytes.length)
    (hvalue : ∀ e ∈ entries,
      written (encodeWithin e.2.value (levelsAt depth)) ≤ e.2.bytes.length) :
    written (encodeWithin (.dict (Dict.ofList (entries.map fun e => (e.1.value, e.2.value))))
        (levelsAt depth + 1))
      ≤ frameLength entries.length
        + (entries.map fun e => e.1.bytes ++ e.2.bytes).flatten.length := by
  have hcount := Dict.length_ofList_le (entries.map fun e => (e.1.value, e.2.value))
  rw [List.length_map] at hcount
  rw [encodeWithin]
  refine Nat.le_trans (written_container .dict _ _)
    (Nat.add_le_add (frameLength_mono hcount) ?_)
  exact Nat.le_trans (written_entries_le _ _) (entriesWeight_ofList_le hkeys hkey hvalue)

/-- **What is written for a sentence is not longer.**  The induction is on the sentence; a container
takes no more for itself, since it has no more children when it is written than when it is read. -/
theorem Sentence.written_le {depth : Nat} {bytes : Bytes} {tree : Tree}
    (h : Sentence depth bytes tree) (hparts : ∀ part, Part depth part bytes → Ordinary part) :
    written (encodeWithin tree (levelsAt depth)) ≤ bytes.length := by
  induction h with
  | @leaf depth _ _ hdepth h =>
    rw [levelsAt_eq_succ hdepth]
    exact h.written_le (hparts _ .self) _
  | @countedArray depth items hdepth hcount hitems ih =>
    have hbelow := (children_countedArray hcount hitems).forall_part hparts
    have hle := written_array_le fun item hitem =>
      ih item hitem (hbelow _ (List.mem_map_of_mem hitem))
    have hframe : frameLength items.length = 1 := if_pos hcount
    rw [levelsAt_eq_succ hdepth, List.length_cons]
    omega
  | @openArray depth items hdepth hitems ih =>
    have hbelow := (children_openArray hdepth hitems).forall_part hparts
    have hle := written_array_le fun item hitem =>
      ih item hitem (hbelow _ (List.mem_map_of_mem hitem))
    have hframe := frameLength_le items.length
    rw [levelsAt_eq_succ (Nat.le_of_succ_le hdepth), List.length_cons, List.length_append,
      List.length_singleton]
    omega
  | @countedDict depth entries hdepth hcount hkeys hvalues ihkeys ihvalues =>
    have hbelow := (children_countedDict hcount hkeys hvalues).forall_part hparts
    have hle := written_dict_le hkeys
      (fun e he => ihkeys e he (hbelow _ (key_mem_entryParts he)))
      fun e he => ihvalues e he (hbelow _ (value_mem_entryParts he))
    have hframe : frameLength entries.length = 1 := if_pos hcount
    rw [levelsAt_eq_succ hdepth, List.length_cons]
    omega
  | @openDict depth entries hdepth hkeys hvalues ihkeys ihvalues =>
    have hbelow := (children_openDict hdepth hkeys hvalues).forall_part hparts
    have hle := written_dict_le hkeys
      (fun e he => ihkeys e he (hbelow _ (key_mem_entryParts he)))
      fun e he => ihvalues e he (hbelow _ (value_mem_entryParts he))
    have hframe := frameLength_le entries.length
    rw [levelsAt_eq_succ (Nat.le_of_succ_le hdepth), List.length_cons, List.length_append,
      List.length_singleton]
    omega

/-! ## Streams -/

theorem length_le_join {α : Type} {pieces : List (Piece α)} {piece : Piece α}
    (h : piece ∈ pieces) : piece.bytes.length ≤ (join pieces).length := by
  induction pieces with
  | nil => cases h
  | cons first pieces ih =>
    rw [join_cons, List.length_append]
    rcases List.mem_cons.mp h with rfl | h
    · exact Nat.le_add_right _ _
    · exact Nat.le_trans (ih h) (Nat.le_add_left _ _)

/-- **No form is shorter.**  A stream that is read as one value is not shorter than what is written
for this value, unless an integer of one byte in it has its sign bit set or a real of four bytes is
not a number. -/
theorem length_encode_le {stream : Bytes} {v : Tree}
    (h : (Reader.ofBytes stream).parse.1 = .ok [v])
    (hint8 : ∀ byte, OccursIn [0x30, byte] stream → byte < 0x80)
    (hreal32 : ∀ payload, OccursIn (0x35 :: payload) stream →
      (realOfShort payload).isNaN = false) :
    ∃ bytes, encode v = .ok bytes ∧ bytes.length ≤ stream.length := by
  have hread : readValues stream = .ok [v] := h
  obtain ⟨pieces, hsplits, hdenoted⟩ := exists_splits_of_readValues hread
  have hmem : v ∈ denoted pieces := hdenoted ▸ List.mem_singleton_self v
  obtain ⟨piece, hpiece, hvalue⟩ := List.mem_filterMap.mp hmem
  have hsentence : Sentence 0 piece.bytes v := by
    have hisPiece := hsplits.isPiece piece hpiece
    rw [hvalue] at hisPiece
    exact sentence_of_isPiece hisPiece
  have hordinary : ∀ part, Part 0 part piece.bytes → Ordinary part := by
    intro part hpart
    have hoccurs : OccursIn part stream := ⟨pieces, hsplits, piece, hpiece, hpart⟩
    constructor
    · rintro byte rfl
      exact hint8 byte hoccurs
    · rintro payload rfl
      exact hreal32 payload hoccurs
  obtain ⟨bytes, hbytes⟩ := exists_encode_iff.mpr hsentence.writable
  refine ⟨bytes, hbytes, ?_⟩
  have hle : written (encode v) ≤ piece.bytes.length := hsentence.written_le hordinary
  rw [hbytes] at hle
  calc bytes.length ≤ piece.bytes.length := hle
    _ ≤ (join pieces).length := length_le_join hpiece
    _ = stream.length := by rw [hsplits.join_eq]

/-- Two entries under one key, with an integer of one byte and a real of four. -/
def rivals : List (Piece String × Piece Tree) :=
  [(⟨[0x41, 0x6B], "k"⟩, ⟨[0x30, 0x07], .int 7⟩),
   (⟨[0x41, 0x6B], "k"⟩,
    ⟨[0x35, 0x3F, 0xC0, 0x00, 0x00], .real (realOfShort [0x3F, 0xC0, 0x00, 0x00])⟩)]

/-- The open dictionary of these entries. -/
def rivalsBytes : Bytes :=
  [0xEF, 0x41, 0x6B, 0x30, 0x07, 0x41, 0x6B, 0x35, 0x3F, 0xC0, 0x00, 0x00, 0x03]

theorem sentence_rivals : Sentence 0 rivalsBytes
      (.dict [("k", .real (realOfShort [0x3F, 0xC0, 0x00, 0x00]))]) ∧
    ∀ part, Part 0 part rivalsBytes → part ∈ [rivalsBytes, [0x41, 0x6B], [0x30, 0x07],
      [0x35, 0x3F, 0xC0, 0x00, 0x00]] := by
  have hkey : Leaf [0x41, 0x6B] (.string "k") := @Leaf.short .text _ _ (by decide) (.text "k")
  have hint : Leaf [0x30, 0x07] (.int 7) := .int8 0x07
  have hreal : Leaf [0x35, 0x3F, 0xC0, 0x00, 0x00] (.real (realOfShort [0x3F, 0xC0, 0x00, 0x00])) :=
    .real32 rfl
  have hkeys : ∀ e ∈ rivals, Sentence 1 e.1.bytes (.string e.1.value) := by
    simp only [rivals, List.forall_mem_cons]
    exact ⟨.leaf (by decide) hkey, .leaf (by decide) hkey, List.forall_mem_nil _⟩
  have hvalues : ∀ e ∈ rivals, Sentence 1 e.2.bytes e.2.value := by
    simp only [rivals, List.forall_mem_cons]
    exact ⟨.leaf (by decide) hint, .leaf (by decide) hreal, List.forall_mem_nil _⟩
  have hchildren : Children 0 rivalsBytes
      [[0x41, 0x6B], [0x30, 0x07], [0x41, 0x6B], [0x35, 0x3F, 0xC0, 0x00, 0x00]] :=
    @children_openDict 0 rivals (by decide) hkeys hvalues
  refine ⟨@Sentence.openDict 0 rivals (by decide) hkeys hvalues, fun part hpart => ?_⟩
  rw [part_iff_of_children hchildren] at hpart
  simp only [List.mem_cons, exists_eq_or_imp, exists_eq_left, List.not_mem_nil, or_false,
    part_iff_of_leaf hkey, part_iff_of_leaf hint, part_iff_of_leaf hreal] at hpart ⊢
  tauto

theorem length_encode_le_rivals :
    (Reader.ofBytes rivalsBytes).parse.1
        = .ok [.dict [("k", .real (realOfShort [0x3F, 0xC0, 0x00, 0x00]))]] ∧
      (∀ byte, OccursIn [0x30, byte] rivalsBytes → byte < 0x80) ∧
      (∀ payload, OccursIn (0x35 :: payload) rivalsBytes →
        (realOfShort payload).isNaN = false) ∧
      ∃ bytes, encode (.dict [("k", .real (realOfShort [0x3F, 0xC0, 0x00, 0x00]))]) = .ok bytes ∧
        bytes.length ≤ rivalsBytes.length := by
  obtain ⟨hsentence, hparts⟩ := sentence_rivals
  have hsplits : Splits rivalsBytes [⟨rivalsBytes, _⟩] :=
    ⟨rfl, List.forall_mem_singleton.mpr (.sentence hsentence)⟩
  have hread := hsplits.readValues_eq
  have hoccurs : ∀ part, OccursIn part rivalsBytes → part ∈ [rivalsBytes, [0x41, 0x6B],
      [0x30, 0x07], [0x35, 0x3F, 0xC0, 0x00, 0x00]] := by
    intro part hpart
    obtain ⟨piece, hpiece, hpart⟩ := (occursIn_iff hsplits).mp hpart
    rw [List.mem_singleton.mp hpiece] at hpart
    exact hparts part hpart
  have hint8 : ∀ byte, OccursIn [0x30, byte] rivalsBytes → byte < 0x80 := by
    intro byte hbyte
    have hmem := hoccurs _ hbyte
    simp [rivalsBytes] at hmem
    rw [hmem]
    decide
  have hreal32 : ∀ payload, OccursIn (0x35 :: payload) rivalsBytes →
      (realOfShort payload).isNaN = false := by
    intro payload hpayload
    have hmem := hoccurs _ hpayload
    simp [rivalsBytes] at hmem
    rw [hmem]
    decide +kernel
  exact ⟨hread, hint8, hreal32, length_encode_le hread hint8 hreal32⟩

end PlistCodec.Opack
