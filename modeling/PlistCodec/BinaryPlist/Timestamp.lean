import PlistCodec.Date.Calendar
import PlistCodec.Date.ReferenceSeconds

/-!
# Dates in binary property lists

A date is stored as a double, its seconds from the reference date.  It is read to the nearest
nanosecond and has to lie in the years from -9999 to 9999.
-/

namespace PlistCodec.BinaryPlist

/-- The beginning of a year, in seconds from 1970-01-01T00:00:00Z. -/
def yearStart (year : Int) : Int := CalendarDay.toDays ⟨year, 1, 1⟩ * 86400

/-- The reference date, in nanoseconds from 1970-01-01T00:00:00Z. -/
def referenceNanos : Int := Date.referenceOffset * nanosPerSecond

/-- The date that a number of seconds stands for. -/
def dateOfSeconds? (seconds : Binary64) : Option Date :=
  if seconds.isFinite then
    let distance : Int :=
      FloatGrid.divHalfEven (seconds.magnitude * nanosPerSecond) Binary64.unitsPerOne
    let nanos := referenceNanos + (if seconds.isNegative then -distance else distance)
    if yearStart (-9999) * nanosPerSecond ≤ nanos && nanos < yearStart 10000 * nanosPerSecond then
      some (.ofSignedNanos nanos)
    else none
  else none

/-- The number of seconds that stands for a date. -/
def secondsOfDate (d : Date) : Binary64 :=
  let nanos := d.signedNanos - referenceNanos
  let distance :=
    Date.distanceSeconds (nanos.natAbs / nanosPerSecond) (nanos.natAbs % nanosPerSecond)
  if nanos < 0 then distance.neg else distance

end PlistCodec.BinaryPlist
