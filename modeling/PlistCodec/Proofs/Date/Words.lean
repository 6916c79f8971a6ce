import PlistCodec.Bytes
import PlistCodec.Date.Rfc3339
import PlistCodec.Proofs.Date.ReferenceSeconds

/-!
# Splitting dates in words

A date comes as a distance from 1970, and a calendar wants seconds rounded down and nanoseconds that
count forward.  `wordSplit?` does this in machine words, seconds in 64 bits with a sign and
nanoseconds in 32 bits without one.  Nothing is lost in it: seconds that do not fit are far outside
the years that have a calendar, and where they fit neither turning the sign nor borrowing a second
leaves the word (`exists_wordSplit?`).  So the words say what `floorSplit` says, and `toUtc?` is
exact: it gives the same moment, and it gives one for every date whose year has a calendar.
-/

namespace PlistCodec.Date

/-! ## Words -/

/-- A number as a signed word of 64 bits, if it fits. -/
def signedWord? (n : Nat) : Option Int64 :=
  if n < Bytes.signLimit 8 then some (Int64.ofNat n) else none

/-- The distance of a date in words, as seconds rounded down and nanoseconds to add. -/
def wordSplit? (d : Date) : Option (Int64 × UInt32) :=
  (signedWord? d.seconds).map fun seconds =>
    let nanos := UInt32.ofNat d.nanos
    if d.before then
      if nanos = 0 then (-seconds, 0)
      else (-seconds - 1, UInt32.ofNat nanosPerSecond - nanos)
    else (seconds, nanos)

/-- The calendar takes seconds and nanoseconds that make up less than a second, and knows the
moments of its years and no others.  What it makes of more nanoseconds is left open. -/
def IsCalendar (calendar : Int64 → UInt32 → Option UtcTime) : Prop :=
  ∀ seconds nanos, nanos.toNat < nanosPerSecond →
    calendar seconds nanos =
      if (UtcTime.mk seconds.toInt nanos.toNat).inRange then some ⟨seconds.toInt, nanos.toNat⟩
      else none

section Words

variable {n : Nat}

theorem signLimit_eq : Bytes.signLimit 8 = 9223372036854775808 := rfl

theorem toInt_ofNat_seconds (h : n < Bytes.signLimit 8) : (Int64.ofNat n).toInt = n := by
  rw [signLimit_eq] at h
  exact Int64.toInt_ofNat_of_lt h

/-- Turning the sign stays in the word. -/
theorem toInt_neg_seconds (h : n < Bytes.signLimit 8) : (-Int64.ofNat n).toInt = -(n : Int) := by
  rw [Int64.toInt_neg, toInt_ofNat_seconds h]
  rw [signLimit_eq] at h
  apply Int.bmod_eq_of_le <;> omega

/-- So does borrowing a second afterwards, since there is one more word below zero than above. -/
theorem toInt_borrow_seconds (h : n < Bytes.signLimit 8) :
    (-Int64.ofNat n - 1).toInt = -(n : Int) - 1 := by
  have hone : (1 : Int64).toInt = 1 := rfl
  rw [Int64.toInt_sub, toInt_neg_seconds h, hone]
  rw [signLimit_eq] at h
  apply Int.bmod_eq_of_le <;> omega

theorem toNat_ofNat_nanos (h : n ≤ nanosPerSecond) : (UInt32.ofNat n).toNat = n := by
  apply UInt32.toNat_ofNat_of_lt'
  exact Nat.lt_of_le_of_lt h (by decide)

theorem ofNat_nanos_eq_zero_iff (h : n ≤ nanosPerSecond) : UInt32.ofNat n = 0 ↔ n = 0 := by
  rw [← UInt32.toNat_inj, toNat_ofNat_nanos h]
  rfl

/-- What is left of the second that was borrowed. -/
theorem toNat_borrow_nanos (h : n ≤ nanosPerSecond) :
    (UInt32.ofNat nanosPerSecond - UInt32.ofNat n).toNat = nanosPerSecond - n := by
  have hle : UInt32.ofNat n ≤ UInt32.ofNat nanosPerSecond := by
    rw [UInt32.le_iff_toNat_le, toNat_ofNat_nanos h, toNat_ofNat_nanos (Nat.le_refl _)]
    exact h
  rw [UInt32.toNat_sub_of_le _ _ hle, toNat_ofNat_nanos h, toNat_ofNat_nanos (Nat.le_refl _)]

end Words

section Splitting

variable {d : Date}

/-- **Seconds that fit are split without loss.** -/
theorem exists_wordSplit? (h : d.seconds < Bytes.signLimit 8) :
    ∃ seconds nanos, d.wordSplit? = some (seconds, nanos) ∧
      seconds.toInt = d.floorSplit.seconds ∧ nanos.toNat = d.floorSplit.nanos := by
  have hnanos : d.nanos ≤ nanosPerSecond := Nat.le_of_lt d.nanos_lt
  simp only [wordSplit?, signedWord?, if_pos h, Option.map_some, floorSplit,
    ofNat_nanos_eq_zero_iff hnanos]
  by_cases hbefore : d.before
  · by_cases hzero : d.nanos = 0
    · simp only [if_pos hbefore, if_pos hzero]
      exact ⟨_, _, rfl, toInt_neg_seconds h, rfl⟩
    · simp only [if_pos hbefore, if_neg hzero]
      exact ⟨_, _, rfl, toInt_borrow_seconds h, toNat_borrow_nanos hnanos⟩
  · simp only [if_neg hbefore]
    exact ⟨_, _, rfl, toInt_ofNat_seconds h, toNat_ofNat_nanos hnanos⟩

/-- Seconds that do not fit are outside the years that have a calendar. -/
theorem seconds_lt_of_inRange (h : d.floorSplit.inRange) : d.seconds < Bytes.signLimit 8 := by
  rw [inRange_floorSplit_iff] at h
  obtain ⟨hearliest, hlatest⟩ := h
  have hlt := d.nanos_lt
  rw [signLimit_eq]
  simp only [signedNanos, UtcTime.earliest, UtcTime.latest, nanosPerSecond] at hearliest hlatest hlt
  by_cases hbefore : d.before
  · simp only [if_pos hbefore] at hearliest
    omega
  · simp only [if_neg hbefore] at hlatest
    omega

/-- The calendar time of the words is that of the date. -/
theorem bind_wordSplit? {calendar : Int64 → UInt32 → Option UtcTime}
    (hcalendar : IsCalendar calendar) (d : Date) :
    (d.wordSplit?.bind fun words => calendar words.1 words.2) = d.toUtc? := by
  by_cases hfits : d.seconds < Bytes.signLimit 8
  · obtain ⟨seconds, nanos, hsplit, hseconds, hnanos⟩ := exists_wordSplit? hfits
    have hlt : nanos.toNat < nanosPerSecond := by
      rw [hnanos]
      exact nanos_floorSplit_lt d
    rw [hsplit, Option.bind_some, hcalendar seconds nanos hlt, hseconds, hnanos]
    rfl
  · have hrange : ¬d.floorSplit.inRange := fun hrange => hfits (seconds_lt_of_inRange hrange)
    simp [wordSplit?, signedWord?, hfits, toUtc?, hrange]

end Splitting

/-! ## Exactness -/

theorem toUtc?_eq_some_iff {d : Date} {t : UtcTime} :
    d.toUtc? = some t ↔ d.HasCalendar ∧ t.nanos < nanosPerSecond ∧
      t.signedNanos = d.signedNanos := by
  rw [toUtc?, ← inRange_floorSplit_iff]
  constructor
  · intro h
    simp only [Option.ite_none_right_eq_some, Option.some.injEq] at h
    obtain ⟨hrange, rfl⟩ := h
    exact ⟨hrange, nanos_floorSplit_lt d, signedNanos_floorSplit d⟩
  · rintro ⟨hrange, hnanos, hsigned⟩
    have hsame : d.floorSplit = t := by
      apply eq_of_signedNanos_eq (nanos_floorSplit_lt d) hnanos
      rw [signedNanos_floorSplit, hsigned]
    rw [if_pos hrange, hsame]

theorem isSome_toUtc?_iff (d : Date) : d.toUtc?.isSome ↔ d.HasCalendar := by
  rw [← isSome_toReferenceSeconds?_iff, toReferenceSeconds?, Option.isSome_map]

/-- **Splitting a date is exact.**  The words give the calendar time of the date; it is the same
moment, in seconds rounded down and less than a second to add; and there is none exactly outside the
years that have a calendar.  So there are seconds for a date if and only if there is a text. -/
theorem toUtc?_exact {calendar : Int64 → UInt32 → Option UtcTime}
    (hcalendar : IsCalendar calendar) (d : Date) :
    (d.wordSplit?.bind fun words => calendar words.1 words.2) = d.toUtc? ∧
    (∀ t, d.toUtc? = some t ↔ d.HasCalendar ∧ t.nanos < nanosPerSecond ∧
      t.seconds * nanosPerSecond + t.nanos = d.signedNanos) ∧
    (d.toUtc? = none ↔ d.signedNanos < UtcTime.earliest * nanosPerSecond ∨
      UtcTime.latest * nanosPerSecond + 999999999 < d.signedNanos) ∧
    (d.toReferenceSeconds?.isSome ↔ d.HasCalendar) ∧ (d.format?.isSome ↔ d.HasCalendar) := by
  refine ⟨bind_wordSplit? hcalendar d, ?_, ?_, isSome_toReferenceSeconds?_iff d, ?_⟩
  · intro t
    exact toUtc?_eq_some_iff
  · rw [← Option.not_isSome_iff_eq_none, isSome_toUtc?_iff]
    simp only [HasCalendar, nanosPerSecond]
    omega
  · rw [format?, Option.isSome_map, isSome_toUtc?_iff]

/-- A calendar without leap seconds. -/
def plainCalendar (seconds : Int64) (nanos : UInt32) : Option UtcTime :=
  let t : UtcTime := ⟨seconds.toInt, nanos.toNat⟩
  if t.inRange then some t else none

/-- One nanosecond behind the first moment that has a calendar. -/
def afterEarliest : Date := ⟨true, 8334601228799, 999999999, by decide, by decide⟩

/-- One nanosecond before it. -/
def beforeEarliest : Date := ⟨true, 8334601228800, 1, by decide, by decide⟩

/-- On either side of the first moment a second is borrowed. -/
theorem toUtc?_exact_earliest :
    IsCalendar plainCalendar ∧
    ((afterEarliest.wordSplit?.bind fun words => plainCalendar words.1 words.2)
        = some ⟨-8334601228800, 1⟩ ∧
      (-8334601228800) * nanosPerSecond + 1 = afterEarliest.signedNanos) ∧
    beforeEarliest.toUtc? = none ∧ ¬beforeEarliest.format?.isSome := by
  have hcalendar : IsCalendar plainCalendar := by
    intro seconds nanos _
    rfl
  obtain ⟨hwords, hsome, -⟩ := toUtc?_exact hcalendar afterEarliest
  obtain ⟨-, -, hnone, -, hformat⟩ := toUtc?_exact hcalendar beforeEarliest
  have htime : afterEarliest.toUtc? = some ⟨-8334601228800, 1⟩ := by decide
  obtain ⟨-, -, hmoment⟩ := (hsome _).mp htime
  refine ⟨hcalendar, ⟨hwords.trans htime, hmoment⟩, hnone.mpr (.inl (by decide)), ?_⟩
  rw [hformat]
  decide

end PlistCodec.Date
