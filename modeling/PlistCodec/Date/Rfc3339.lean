import PlistCodec.Date.Basic
import PlistCodec.Date.Calendar

/-!
# Date texts

Dates are written as RFC 3339 prescribes, in UTC with a final `Z`.  The writers differ only in how
much of the fraction they keep: `format?` writes whole groups of three digits and knows every year
of the calendar, `xmlText` drops the trailing zeros.  `ofText?` reads such a text with any offset.
-/

namespace PlistCodec

namespace Date

/-! ## Writing -/

/-- A number with zeros in front up to a width. -/
def padded (width n : Nat) : String :=
  let digits := toString n
  "".pushn '0' (width - digits.length) ++ digits

/-- A year: four digits from 0 to 9999, else a sign and at least four digits. -/
def yearText (year : Int) : String :=
  if year < 0 then "-" ++ padded 4 year.natAbs
  else if 9999 < year then "+" ++ padded 4 year.natAbs
  else padded 4 year.natAbs

/-- Seconds in a day. -/
def secondsPerDay : Int := 86400

/-- A calendar time up to its whole seconds. -/
def secondsText (t : UtcTime) : String :=
  let day := CalendarDay.ofDays (t.seconds / secondsPerDay)
  let second := (t.seconds % secondsPerDay).toNat
  yearText day.year ++ "-" ++ padded 2 day.month ++ "-" ++ padded 2 day.day ++ "T"
    ++ padded 2 (second / 3600) ++ ":" ++ padded 2 (second / 60 % 60) ++ ":"
    ++ padded 2 (second % 60)

/-- A fraction of a second in 0, 3, 6 or 9 digits, the fewest that lose nothing. -/
def groupedFraction (nanos : Nat) : String :=
  if nanos = 0 then ""
  else if nanos % 1000000 = 0 then "." ++ padded 3 (nanos / 1000000)
  else if nanos % 1000 = 0 then "." ++ padded 6 (nanos / 1000)
  else "." ++ padded 9 nanos

/-- A fraction of a second without trailing zeros. -/
def trimmedFraction (nanos : Nat) : String :=
  if nanos = 0 then ""
  else
    let digits := (padded 9 nanos).toList
    "." ++ String.ofList (digits.reverse.dropWhile (· == '0')).reverse

/-- The text of a date whose year has a calendar. -/
def format? (d : Date) : Option String :=
  d.toUtc?.map fun t => secondsText t ++ groupedFraction t.nanos ++ "Z"

/-- The text of a date in an XML property list. -/
def xmlText (d : Date) : String :=
  secondsText d.floorSplit ++ trimmedFraction d.floorSplit.nanos ++ "Z"

/-! ## Reading -/

/-- The value of an ASCII digit. -/
def digit? (c : Char) : Option Nat :=
  if '0' ≤ c && c ≤ '9' then some (c.toNat - '0'.toNat) else none

/-- Exactly `n` digits, added to the number `read` so far, and what follows them. -/
def takeDigits? : (n : Nat) → (read : Nat) → List Char → Option (Nat × List Char)
  | 0, read, cs => some (read, cs)
  | _ + 1, _, [] => none
  | n + 1, read, c :: cs => (digit? c).bind fun d => takeDigits? n (10 * read + d) cs

/-- The character `mark`, and what follows it. -/
def takeMark? (mark : Char) : List Char → Option (List Char)
  | [] => none
  | c :: cs => if c = mark then some cs else none

/-- What follows the single ASCII character that stands between a day and a time. -/
def takeSeparator? : List Char → Option (List Char)
  | [] => none
  | c :: cs => if c.toNat < 0x80 then some cs else none

/-- Nanoseconds of a fraction of a second; digits after the ninth are dropped. -/
def takeFraction? : List Char → Option (Nat × List Char)
  | '.' :: cs =>
    let digits := cs.takeWhile fun c => (digit? c).isSome
    if digits.isEmpty then none
    else
      let nine := (digits ++ List.replicate 9 '0').take 9
      (takeDigits? 9 0 nine).map fun (nanos, _) => (nanos, cs.drop digits.length)
  | cs => some (0, cs)

/-- The offset from UTC in seconds that ends a date. -/
def offset? : List Char → Option Int
  | [] => none
  | sign :: cs =>
    if sign = 'Z' || sign = 'z' then if cs.isEmpty then some 0 else none
    else if sign = '+' || sign = '-' then do
      let (hours, cs) ← takeDigits? 2 0 cs
      let cs ← takeMark? ':' cs
      let (minutes, cs) ← takeDigits? 2 0 cs
      if cs.isEmpty && hours ≤ 23 && minutes ≤ 59 then
        let seconds : Int := hours * 3600 + minutes * 60
        some (if sign = '-' then -seconds else seconds)
      else none
    else none

/-- Whether a time is the last second of a month in UTC. -/
def endsMonth (seconds : Int) : Bool :=
  (seconds + 1) % secondsPerDay = 0
    && (CalendarDay.ofDays ((seconds + 1) / secondsPerDay)).day = 1

/-- Reads a date with its offset from UTC.  A leap second is read as the last nanosecond before
it, and only where one can occur, at the end of a month. -/
def ofText? (text : String) : Option Date := do
  let (year, cs) ← takeDigits? 4 0 text.toList
  let cs ← takeMark? '-' cs
  let (month, cs) ← takeDigits? 2 0 cs
  let cs ← takeMark? '-' cs
  let (day, cs) ← takeDigits? 2 0 cs
  let cs ← takeSeparator? cs
  let (hour, cs) ← takeDigits? 2 0 cs
  let cs ← takeMark? ':' cs
  let (minute, cs) ← takeDigits? 2 0 cs
  let cs ← takeMark? ':' cs
  let (second, cs) ← takeDigits? 2 0 cs
  let (nanos, cs) ← takeFraction? cs
  let offset ← offset? cs
  let date : CalendarDay := ⟨year, month, day⟩
  if date.isValid && hour ≤ 23 && minute ≤ 59 && second ≤ 60 then
    let leap : Bool := second = 60
    let clock : Int := hour * 3600 + minute * 60 + (if leap then 59 else second)
    let seconds := date.toDays * secondsPerDay + clock - offset
    if leap then
      if endsMonth seconds then some (ofUtc ⟨seconds, nanosPerSecond - 1⟩) else none
    else some (ofUtc ⟨seconds, nanos⟩)
  else none

end Date

end PlistCodec
