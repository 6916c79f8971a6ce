import PlistCodec.Date.ReferenceSeconds
import PlistCodec.Proofs.Binary64.Exact

/-!
# Dates that were made of seconds

A date that was made of a number of seconds can be turned into a number of seconds again
(`isSome_toReferenceSeconds?`).  Making it splits off whole seconds and rounds what is left to
microseconds, and these stay below a second: if they are rounded up to a full second, it is carried.
So the calendar time of the date is the one that was checked to have a calendar.
-/

namespace PlistCodec.Date

open Binary64

/-! ## Calendar times -/

theorem nanos_floorSplit_lt (d : Date) : d.floorSplit.nanos < nanosPerSecond := by
  have hlt := d.nanos_lt
  unfold floorSplit
  by_cases hbefore : d.before
  · rw [if_pos hbefore]
    by_cases hzero : d.nanos = 0
    · rw [if_pos hzero]
      exact Nat.lt_of_le_of_lt (Nat.zero_le _) hlt
    · rw [if_neg hzero]
      exact Nat.sub_lt (Nat.lt_of_le_of_lt (Nat.zero_le _) hlt) (Nat.pos_of_ne_zero hzero)
  · rw [if_neg hbefore]
    exact hlt

theorem signedNanos_floorSplit (d : Date) : d.floorSplit.signedNanos = d.signedNanos := by
  have hlt := d.nanos_lt
  simp only [floorSplit, signedNanos, UtcTime.signedNanos]
  by_cases hbefore : d.before
  · rw [if_pos hbefore, if_pos hbefore]
    by_cases hzero : d.nanos = 0
    · rw [if_pos hzero, hzero, Int.neg_mul]
      simp
    · rw [if_neg hzero, Int.sub_mul, Int.neg_mul]
      simp only []
      omega
  · rw [if_neg hbefore, if_neg hbefore]

theorem eq_of_signedNanos_eq {t u : UtcTime} (ht : t.nanos < nanosPerSecond)
    (hu : u.nanos < nanosPerSecond) (h : t.signedNanos = u.signedNanos) : t = u := by
  obtain ⟨tseconds, tnanos⟩ := t
  obtain ⟨useconds, unanos⟩ := u
  simp only [UtcTime.signedNanos, nanosPerSecond] at ht hu h
  rw [UtcTime.mk.injEq]
  omega

/-- A time whose nanoseconds make up less than a second is the calendar time of its date. -/
theorem floorSplit_ofUtc {t : UtcTime} (h : t.nanos < nanosPerSecond) :
    (ofUtc t).floorSplit = t := by
  refine eq_of_signedNanos_eq (nanos_floorSplit_lt _) h ?_
  rw [signedNanos_floorSplit, ofUtc, signedNanos_ofSignedNanos]

/-! ## The years that have a calendar -/

/-- The date lies between the first and the last moment for which there is a calendar. -/
def HasCalendar (d : Date) : Prop :=
  UtcTime.earliest * nanosPerSecond ≤ d.signedNanos ∧
    d.signedNanos < (UtcTime.latest + 1) * nanosPerSecond

instance (d : Date) : Decidable d.HasCalendar := inferInstanceAs (Decidable (_ ∧ _))

/-- Rounding down to seconds does not leave the range, as it begins and ends at full seconds. -/
theorem inRange_floorSplit_iff (d : Date) : d.floorSplit.inRange ↔ d.HasCalendar := by
  have hnanos := nanos_floorSplit_lt d
  have hsigned := signedNanos_floorSplit d
  unfold UtcTime.signedNanos at hsigned
  unfold UtcTime.inRange HasCalendar
  rw [Bool.and_eq_true, decide_eq_true_eq, decide_eq_true_eq]
  simp only [UtcTime.earliest, UtcTime.latest, nanosPerSecond] at *
  omega

/-- There are seconds for a date exactly if there is a calendar for it. -/
theorem isSome_toReferenceSeconds?_iff (d : Date) :
    d.toReferenceSeconds?.isSome ↔ d.HasCalendar := by
  rw [← inRange_floorSplit_iff, toReferenceSeconds?, Option.isSome_map, toUtc?]
  by_cases h : d.floorSplit.inRange <;> simp [h]

/-! ## Splitting seconds -/

theorem le_exactLimit : 1000000 ≤ exactLimit := by decide

/-- The microseconds that are left of a number of seconds before a full second is carried. -/
theorem within_micros {s : Binary64} (h : s.isFinite) :
    Within 1000000 ((s.sub s.floor).mul microsPerSecond).roundHalfAway := by
  have hmul := within_mul (by decide) (within_sub_floor h) (within_ofNat le_exactLimit)
  exact within_roundHalfAway le_exactLimit hmul

theorem truncate_splitSeconds_lt {s : Binary64} (h : s.isFinite) :
    (splitSeconds s).2.truncate < 1000000 := by
  have hmicros := within_micros h
  simp only [splitSeconds]
  generalize ((s.sub s.floor).mul microsPerSecond).roundHalfAway = micros at hmicros ⊢
  by_cases hcarry : microsPerSecond.numLe micros
  · have hunits := units_eq_of_numLe le_exactLimit (by decide) hmicros hcarry
    rw [if_pos hcarry]
    simp only []
    have hzero := truncate_sub_of_units_eq hmicros.isFinite (within_ofNat le_exactLimit).isFinite
      hunits
    rw [microsPerSecond, hzero]
    decide
  · rw [if_neg hcarry]
    rw [Bool.not_eq_true] at hcarry
    exact truncate_lt_of_numLe_eq_false le_exactLimit (by decide) hmicros.isFinite hcarry

theorem nanos_utcOfReferenceSeconds_lt {s : Binary64} (h : s.isFinite) :
    (utcOfReferenceSeconds s).nanos < nanosPerSecond := by
  have hlt := truncate_splitSeconds_lt h
  simp only [utcOfReferenceSeconds, nanosPerSecond]
  omega

/-- **A date that was made of seconds has seconds.** -/
theorem isSome_toReferenceSeconds? {s : Binary64} {d : Date} (h : ofReferenceSeconds? s = some d) :
    d.toReferenceSeconds?.isSome := by
  unfold ofReferenceSeconds? at h
  by_cases hfinite : s.isFinite
  · by_cases hrange : (utcOfReferenceSeconds s).inRange
    · simp only [hfinite, hrange, if_true, Option.some.injEq] at h
      subst h
      rw [toReferenceSeconds?, toUtc?, floorSplit_ofUtc (nanos_utcOfReferenceSeconds_lt hfinite),
        if_pos hrange]
      rfl
    · simp [hfinite, hrange] at h
  · simp [hfinite] at h

end PlistCodec.Date
