import PlistCodec.Proofs.Opack.Reports
import PlistCodec.Proofs.Opack.Streaming

/-!
# What a failure to decode says

A decoder that reports a failure says something about the stream, and here is what: an index behind
the end and the true length, a byte that begins nothing, the end mark or the key at fault, the
limit, or that there was nothing at all (`decode_error_truthful`).

Which bytes begin something is said by the format table, given as ranges (`tagRanges`).  The reader
goes by its own case distinction on bytes; that the two agree is checked byte by byte.
-/

namespace PlistCodec.Opack

/-! ## The format table -/

/-- The first bytes of texts. -/
def textRanges : List (Nat × Nat) := [(0x40, 0x60), (0x61, 0x64)]

/-- The end mark and the first bytes of all values. -/
def tagRanges : List (Nat × Nat) :=
  [(0x01, 0x02), (0x03, 0x03), (0x06, 0x06), (0x08, 0x2F), (0x30, 0x30), (0x32, 0x32),
   (0x33, 0x33), (0x35, 0x36)] ++ textRanges ++
  [(0x70, 0x90), (0x91, 0x94), (0xD0, 0xDE), (0xDF, 0xDF), (0xE0, 0xEE), (0xEF, 0xEF)]

/-- The byte lies in one of the ranges. -/
def InRanges (ranges : List (Nat × Nat)) (byte : UInt8) : Prop :=
  ∃ range ∈ ranges, range.1 ≤ byte.toNat ∧ byte.toNat ≤ range.2

instance (ranges : List (Nat × Nat)) (byte : UInt8) : Decidable (InRanges ranges byte) :=
  inferInstanceAs (Decidable (∃ range ∈ ranges, range.1 ≤ byte.toNat ∧ byte.toNat ≤ range.2))

/-- The bytes that announce something are those of the table. -/
theorem isSome_ofByte?_iff (byte : UInt8) :
    (Tag.ofByte? byte).isSome ↔ InRanges tagRanges byte := by
  have all : ∀ n : Fin 256,
      ((Tag.ofByte? (UInt8.ofNat n)).isSome ↔ InRanges tagRanges (UInt8.ofNat n)) := by
    decide +kernel
  simpa only [UInt8.ofNat_toNat] using all ⟨byte.toNat, byte.toNat_lt⟩

/-- The bytes that announce a text are those of its rows. -/
theorem isText_of_inRanges {byte : UInt8} {tag : Tag} (htag : Tag.ofByte? byte = some tag)
    (h : InRanges textRanges byte) : tag.IsText := by
  have all : ∀ n : Fin 256, InRanges textRanges (UInt8.ofNat n) →
      Tag.ofByte? (UInt8.ofNat n)
        = some (Tag.ofPayloadOffset .text ((UInt8.ofNat n).toNat - 0x40)) := by
    decide +kernel
  have hbyte := all ⟨byte.toNat, byte.toNat_lt⟩
  simp only [UInt8.ofNat_toNat] at hbyte
  rw [hbyte h, Option.some.injEq] at htag
  rw [← htag, Tag.ofPayloadOffset]
  split <;> trivial

/-! ## Truthful failures -/

/-- What a failure to decode says is true of the stream.  A stream may be so long that the greatest
index that can be reported does not lie behind its end. -/
def Error.Truthful (stream : Bytes) : Error → Prop
  | .outOfBounds stop length =>
    length = stream.length ∧ (stream.length < Cursor.maxIndex → length < stop)
  | .unexpectedByte byte offset => stream[offset]? = some byte ∧ ¬InRanges tagRanges byte
  | .unexpectedTerminator offset => stream[offset]? = some 0x03
  | .invalidKey offset => ∃ byte, stream[offset]? = some byte ∧ InRanges tagRanges byte ∧
      byte ≠ 0x03 ∧ ¬InRanges textRanges byte
  | .recursionLimit depth => depth = 100
  | .empty => ∀ byte ∈ stream, byte = 0x03
  | .invalidText _ => True
  | .invalidDate _ => True
  | .unsupportedKind _ => False

theorem Error.TrueOf.truthful {stream : Bytes} {e : Error} (h : e.TrueOf stream) :
    e.Truthful stream := by
  cases e with
  | outOfBounds stop length =>
    obtain ⟨rfl, past, hpast, rfl⟩ := h
    exact ⟨rfl, fun hindex => Nat.lt_min.mpr ⟨hpast, hindex⟩⟩
  | unexpectedByte byte offset =>
    obtain ⟨hbyte, hnone⟩ := h
    refine ⟨hbyte, fun hrange => ?_⟩
    rw [← isSome_ofByte?_iff, hnone] at hrange
    cases hrange
  | invalidKey offset =>
    obtain ⟨byte, tag, hbyte, htag, hterminator, htext⟩ := h
    refine ⟨byte, hbyte, ?_, ?_, fun hrange => htext (isText_of_inRanges htag hrange)⟩
    · rw [← isSome_ofByte?_iff, htag]
      rfl
    · rintro rfl
      exact hterminator (Option.some.inj htag).symm
  | empty => cases h
  | _ => exact h

/-! ## Streams without values -/

/-- End marks, each for itself. -/
def marks (count : Nat) : List (Piece (Option Tree)) := List.replicate count ⟨[0x03], none⟩

theorem splits_marks (count : Nat) : Splits (List.replicate count 0x03) (marks count) := by
  constructor
  · induction count with
    | zero => rfl
    | succ count ih =>
      have hcons : marks (count + 1) = ⟨[0x03], none⟩ :: marks count := rfl
      rw [hcons, join_cons, ih]
      rfl
  · intro piece hpiece
    rw [List.eq_of_mem_replicate hpiece]
    exact .mark (Nat.zero_le _)

/-- A stream holds no value exactly if it consists of end marks. -/
theorem readValues_eq_nil_iff (stream : Bytes) :
    readValues stream = .ok [] ↔ ∀ byte ∈ stream, byte = 0x03 := by
  constructor
  · intro h byte hbyte
    obtain ⟨pieces, hsplits, hdenoted⟩ := exists_splits_of_readValues h
    rw [← hsplits.join_eq, join, List.mem_flatten] at hbyte
    obtain ⟨bytes, hbytes, hbyte⟩ := hbyte
    obtain ⟨piece, hpiece, rfl⟩ := List.mem_map.mp hbytes
    have hnone := List.filterMap_eq_nil_iff.mp hdenoted.symm piece hpiece
    have hisPiece := hsplits.isPiece piece hpiece
    rw [hnone] at hisPiece
    generalize piece.bytes = bytes at hisPiece hbyte
    cases hisPiece with
    | mark => exact List.mem_singleton.mp hbyte
  · intro h
    rw [List.eq_replicate_of_mem h, (splits_marks stream.length).readValues_eq]
    exact congrArg Except.ok (List.filterMap_eq_nil_iff.mpr fun piece hpiece => by
      rw [List.eq_of_mem_replicate hpiece])

/-- As long as there is a value, something is decoded. -/
theorem mergeAll_eq_none_iff (values : List Tree) : mergeAll none values = none ↔ values = [] := by
  have hsome : ∀ (values : List Tree) (t : Tree), (mergeAll (some t) values).isSome := by
    intro values
    induction values with
    | nil => exact fun _ => rfl
    | cons value rest ih => exact fun t => ih (merge (some t) value)
  cases values with
  | nil => exact ⟨fun _ => rfl, fun _ => rfl⟩
  | cons value rest =>
    have hstep : mergeAll none (value :: rest) = mergeAll (some (merge none value)) rest := rfl
    rw [hstep, ← Option.not_isSome_iff_eq_none]
    exact iff_of_false (not_not_intro (hsome rest _)) (List.cons_ne_nil _ _)

/-- Decoding fails because the stream cannot be read, or because it holds no value. -/
theorem decode_eq_error_iff (stream : Bytes) (e : Error) :
    decode stream = .error e ↔
      readValues stream = .error e ∨ readValues stream = .ok [] ∧ e = .empty := by
  unfold decode
  cases hread : readValues stream with
  | error e' => simp
  | ok values =>
    cases hmerge : mergeAll none values with
    | none =>
      obtain rfl := (mergeAll_eq_none_iff values).mp hmerge
      simp [hmerge, eq_comm]
    | some value =>
      have hne : values ≠ [] := by
        rintro rfl
        cases hmerge
      simp [hmerge, hne]

/-! ## Decoding -/

/-- **A failure to decode is truthful**, and that there is nothing to decode is reported exactly of
the streams of end marks. -/
theorem decode_error_truthful (stream : Bytes) :
    (∀ e, decode stream = .error e → e.Truthful stream) ∧
      (decode stream = .error .empty ↔ ∀ byte ∈ stream, byte = 0x03) := by
  have hempty : decode stream = .error .empty ↔ ∀ byte ∈ stream, byte = 0x03 := by
    rw [decode_eq_error_iff, readValues_eq_nil_iff]
    constructor
    · rintro (hread | ⟨hmarks, -⟩)
      · cases trueOf_of_readValues hread
      · exact hmarks
    · exact fun hmarks => .inr ⟨hmarks, rfl⟩
  refine ⟨fun e h => ?_, hempty⟩
  rcases (decode_eq_error_iff stream e).mp h with hread | ⟨hnone, rfl⟩
  · exact (trueOf_of_readValues hread).truthful
  · exact hempty.mp h

/-- The key of an inner dictionary is an integer. -/
theorem decode_error_truthful_innerKey :
    decode [0xD2, 0x01, 0xE1, 0x08, 0x01] = .error (.invalidKey 3) ∧
      (Error.invalidKey 3).Truthful [0xD2, 0x01, 0xE1, 0x08, 0x01] := by
  have hrun : topLevel.run ⟨0, [0xD2, 0x01, 0xE1, 0x08, 0x01]⟩ = .error (.invalidKey 3) := by
    cbv
  have hread := readAll_of_error (List.cons_ne_nil _ _) hrun
  have hdecode : decode [0xD2, 0x01, 0xE1, 0x08, 0x01] = .error (.invalidKey 3) :=
    (decode_eq_error_iff _ _).mpr (.inl hread)
  exact ⟨hdecode, (decode_error_truthful _).1 _ hdecode⟩

end PlistCodec.Opack
