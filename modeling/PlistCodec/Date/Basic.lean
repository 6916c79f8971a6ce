/-!
# Dates

A `Date` is a point in time, kept as its distance from 1970-01-01T00:00:00Z: a direction, whole
seconds and nanoseconds.  A `UtcTime` is the same point with its seconds rounded down, which is
what a calendar needs; it exists only for the years from -262143 to 262142.

`toUtc?` goes from one to the other.  A date before 1970 with a fraction borrows a second, so that
its nanoseconds count forward.
-/

namespace PlistCodec

/-- Nanoseconds in a second. -/
def nanosPerSecond : Nat := 1000000000

/-- A point in time, as its distance from 1970-01-01T00:00:00Z. -/
structure Date where
  /-- Whether the point lies before 1970. -/
  before : Bool
  /-- Whole seconds of the distance. -/
  seconds : Nat
  /-- Nanoseconds of the distance beyond the whole seconds. -/
  nanos : Nat
  /-- The nanoseconds make up less than a second. -/
  nanos_lt : nanos < nanosPerSecond
  /-- The beginning of 1970 itself does not lie before 1970. -/
  distance_pos : before = true → 0 < seconds ∨ 0 < nanos
deriving DecidableEq, Repr

/-- A point in time, as seconds from 1970-01-01T00:00:00Z rounded down and nanoseconds to add. -/
structure UtcTime where
  /-- Seconds from the beginning of 1970, rounded down. -/
  seconds : Int
  /-- Nanoseconds to add. -/
  nanos : Nat
deriving DecidableEq, Repr

namespace UtcTime

/-- The first second of the year -262143. -/
def earliest : Int := -8334601228800

/-- The last second of the year 262142. -/
def latest : Int := 8210266876799

/-- Whether a time lies in the years that have a calendar. -/
def inRange (t : UtcTime) : Bool := earliest ≤ t.seconds && t.seconds ≤ latest

/-- A time in nanoseconds from the beginning of 1970. -/
def signedNanos (t : UtcTime) : Int := t.seconds * nanosPerSecond + t.nanos

end UtcTime

namespace Date

/-- A date in nanoseconds from the beginning of 1970. -/
def signedNanos (d : Date) : Int :=
  let distance : Int := d.seconds * nanosPerSecond + d.nanos
  if d.before then -distance else distance

/-- The date that lies `n` nanoseconds after the beginning of 1970. -/
def ofSignedNanos (n : Int) : Date where
  before := n < 0
  seconds := n.natAbs / nanosPerSecond
  nanos := n.natAbs % nanosPerSecond
  nanos_lt := Nat.mod_lt _ (by decide)
  distance_pos h := by
    have hn : n < 0 := of_decide_eq_true h
    have := Nat.div_add_mod n.natAbs nanosPerSecond
    rcases Nat.eq_zero_or_pos (n.natAbs / nanosPerSecond) with hq | hq
    · rw [hq] at this; omega
    · exact .inl hq

/-- The date of a calendar time. -/
def ofUtc (t : UtcTime) : Date := ofSignedNanos t.signedNanos

/-- The distance of a date read as seconds rounded down and nanoseconds to add. -/
def floorSplit (d : Date) : UtcTime :=
  if d.before then
    if d.nanos = 0 then ⟨-(d.seconds : Int), 0⟩
    else ⟨-(d.seconds : Int) - 1, nanosPerSecond - d.nanos⟩
  else ⟨d.seconds, d.nanos⟩

/-- The calendar time of a date, if its year has a calendar. -/
def toUtc? (d : Date) : Option UtcTime :=
  if d.floorSplit.inRange then some d.floorSplit else none

/-! ## Laws -/

@[simp] theorem signedNanos_ofSignedNanos (n : Int) : (ofSignedNanos n).signedNanos = n := by
  have h := Nat.div_add_mod n.natAbs nanosPerSecond
  have hc : ((n.natAbs / nanosPerSecond : Nat) : Int) * nanosPerSecond
      + ((n.natAbs % nanosPerSecond : Nat) : Int) = (n.natAbs : Int) := by
    rw [Nat.mul_comm] at h
    exact_mod_cast h
  simp only [signedNanos, ofSignedNanos, hc]
  by_cases hn : n < 0
  · rw [if_pos (decide_eq_true hn)]
    omega
  · rw [if_neg (by simpa using hn)]
    omega

end Date

end PlistCodec
