import PlistCodec.Binary64.Basic
import PlistCodec.Date.Basic

/-!
# Seconds since the reference date

Property lists count time in seconds since 2001-01-01T00:00:00Z, the *reference date*, as a double.
`toReferenceSeconds?` and `ofReferenceSeconds?` convert with microsecond precision and only in the
years that have a calendar; `lossyReferenceSeconds` is defined on every date and serves for reports.
-/

namespace PlistCodec

namespace Date

/-- Seconds from 1970-01-01T00:00:00Z to the reference date. -/
def referenceOffset : Nat := 978307200

/-- Microseconds in a second, as a double. -/
def microsPerSecond : Binary64 := .ofNat 1000000

/-- A distance in whole seconds and nanoseconds as one double. -/
def distanceSeconds (seconds nanos : Nat) : Binary64 :=
  (Binary64.ofNat seconds).add ((Binary64.ofNat nanos).div (.ofNat nanosPerSecond))

/-- Seconds from the reference date to a calendar time, to the microsecond below it. -/
def referenceSecondsOfUtc (t : UtcTime) : Binary64 :=
  (Binary64.ofInt (t.seconds - referenceOffset)).add
    ((Binary64.ofNat (t.nanos / 1000)).div microsPerSecond)

/-- Seconds from the reference date to a date whose year has a calendar. -/
def toReferenceSeconds? (d : Date) : Option Binary64 :=
  d.toUtc?.map referenceSecondsOfUtc

/-- Seconds from the reference date to any date, rounded at each step of the calculation. -/
def lossyReferenceSeconds (d : Date) : Binary64 :=
  let distance := distanceSeconds d.seconds d.nanos
  (if d.before then distance.neg else distance).sub (.ofNat referenceOffset)

/-- The whole seconds and the microseconds nearest to a finite number of seconds. -/
def splitSeconds (seconds : Binary64) : Binary64 × Binary64 :=
  let whole := seconds.floor
  let micros := ((seconds.sub whole).mul microsPerSecond).roundHalfAway
  if microsPerSecond.numLe micros then (whole.add (.ofNat 1), micros.sub microsPerSecond)
  else (whole, micros)

/-- The calendar time nearest to a finite number of seconds from the reference date. -/
def utcOfReferenceSeconds (seconds : Binary64) : UtcTime :=
  let (whole, micros) := splitSeconds seconds
  ⟨whole.truncate + referenceOffset, micros.truncate.toNat * 1000⟩

/-- The date nearest to a number of seconds from the reference date, to the microsecond, if the
number is finite and the year has a calendar. -/
def ofReferenceSeconds? (seconds : Binary64) : Option Date :=
  if seconds.isFinite then
    let t := utcOfReferenceSeconds seconds
    if t.inRange then some (ofUtc t) else none
  else none

end Date

end PlistCodec
