import PlistCodec.Proofs.Date.SecondTrip
import PlistCodec.Proofs.Opack.Failures
import PlistCodec.Proofs.Opack.Frames
import PlistCodec.Proofs.Opack.RoundTrip

/-!
# Dates on the wire

A date is written as its seconds from the reference date.  What is read from them is a date again,
and that date is written as the same bytes (`decode_encode_date`).  Only the last 488 microseconds
for which there is a calendar are written and cannot be read.
-/

namespace PlistCodec.Opack

/-- The bytes of a date, by its seconds. -/
def dateBytes (seconds : Binary64) : Bytes := 0x06 :: Bytes.bigEndian 8 seconds.bits.toNat

section Dates

variable {d : Date} {s : Binary64}

theorem encode_date (h : d.toReferenceSeconds? = some s) :
    encode (.date d) = .ok (dateBytes s) := by
  have hencode : encode (.date d) = encodeDate d := rfl
  rw [hencode, encodeDate, h]
  rfl

theorem decode_dateBytes_of_some (h : Date.ofReferenceSeconds? s = some d) :
    decode (dateBytes s) = .ok (.date d) := by
  rw [← realOfLong_bigEndian s] at h
  exact decode_of_sentence (.leaf (Nat.zero_le _) (.date (Bytes.length_bigEndian 8 _) h))

theorem decode_dateBytes_of_none (h : Date.ofReferenceSeconds? s = none) :
    decode (dateBytes s) = .error (.invalidDate s) := by
  have hbody : ∀ offset rest, readBody (readValue maxDepth) .date
      ⟨offset, Bytes.bigEndian 8 s.bits.toNat ++ rest⟩ = .error (.invalidDate s) := by
    intro offset rest
    have htake := Cursor.take_append offset (Bytes.bigEndian 8 s.bits.toNat) rest
    rw [Bytes.length_bigEndian] at htake
    simp only [readBody, readFixed, htake, dateOfBytes, realOfLong_bigEndian, h]
    rfl
  have hrun := readValue_rejects (t := .date) rfl hbody 0 []
  rw [List.append_nil] at hrun
  rw [decode_eq_error_iff]
  exact .inl (readAll_of_error (List.cons_ne_nil _ _) hrun)

/-- **Dates survive the wire.**  Whatever is written for a date is read as a date that is written in
the same way, unless the seconds were rounded up to the end of the last year that has a calendar. -/
theorem decode_encode_date (h : d.toReferenceSeconds? = some s) :
    ∃ bytes, encode (.date d) = .ok bytes ∧
      (¬d.RoundsPastLatest →
        ∃ again, Date.ofReferenceSeconds? s = some again ∧ again.toReferenceSeconds? = some s ∧
          decode bytes = .ok (.date again) ∧ encode (.date again) = .ok bytes) ∧
      (d.RoundsPastLatest →
        Date.ofReferenceSeconds? s = none ∧ decode bytes = .error (.invalidDate s)) := by
  obtain ⟨hback, hnone⟩ := Date.ofReferenceSeconds?_of_toReferenceSeconds? h
  refine ⟨dateBytes s, encode_date h, fun hnot => ?_, fun hpast => ?_⟩
  · obtain ⟨again, hagain, hseconds⟩ := hback hnot
    exact ⟨again, hagain, hseconds, decode_dateBytes_of_some hagain, encode_date hseconds⟩
  · exact ⟨hnone hpast, decode_dateBytes_of_none (hnone hpast)⟩

end Dates

/-- A date of the last second that has a calendar, 489 microseconds before its end. -/
def lateDate : Date := .ofUtc ⟨UtcTime.latest, 999511000⟩

/-- The doubles are so far apart there that other microseconds come back. -/
theorem decode_encode_date_late :
    lateDate.toReferenceSeconds? = some ⟨0x429DDD7EEA8BFFFF⟩ ∧
      encode (.date lateDate) = .ok (dateBytes ⟨0x429DDD7EEA8BFFFF⟩) ∧
      ∃ again : Date, again ≠ lateDate ∧ again.toReferenceSeconds? = some ⟨0x429DDD7EEA8BFFFF⟩ ∧
        decode (dateBytes ⟨0x429DDD7EEA8BFFFF⟩) = .ok (.date again) := by
  have hseconds : lateDate.toReferenceSeconds? = some ⟨0x429DDD7EEA8BFFFF⟩ := by decide +kernel
  have hother : Date.ofReferenceSeconds? ⟨0x429DDD7EEA8BFFFF⟩ ≠ some lateDate := by
    decide +kernel
  have hnot : ¬lateDate.RoundsPastLatest := by decide
  obtain ⟨bytes, hencode, hback, -⟩ := decode_encode_date hseconds
  obtain ⟨again, hagain, hsame, hdecode, -⟩ := hback hnot
  rw [encode_date hseconds] at hencode
  cases hencode
  refine ⟨hseconds, encode_date hseconds, again, ?_, hsame, hdecode⟩
  rintro rfl
  exact hother hagain

/-- One microsecond later the date is still written, and what is written cannot be read. -/
theorem decode_encode_date_latest :
    encode (.date (.ofUtc ⟨UtcTime.latest, 999512000⟩)) = .ok (dateBytes ⟨0x429DDD7EEA8C0000⟩) ∧
      Date.ofReferenceSeconds? ⟨0x429DDD7EEA8C0000⟩ = none ∧
      decode (dateBytes ⟨0x429DDD7EEA8C0000⟩) = .error (.invalidDate ⟨0x429DDD7EEA8C0000⟩) := by
  have hseconds : (Date.ofUtc ⟨UtcTime.latest, 999512000⟩).toReferenceSeconds?
      = some ⟨0x429DDD7EEA8C0000⟩ := by decide +kernel
  have hnone : Date.ofReferenceSeconds? ⟨0x429DDD7EEA8C0000⟩ = none := by decide +kernel
  exact ⟨encode_date hseconds, hnone, decode_dateBytes_of_none hnone⟩

end PlistCodec.Opack
