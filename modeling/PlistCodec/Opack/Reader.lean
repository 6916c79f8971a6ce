import PlistCodec.Date.ReferenceSeconds
import PlistCodec.Opack.Cursor
import PlistCodec.Opack.Tag
import PlistCodec.Tree.Basic

/-!
# Reading OPACK

A value is a tag and what the tag announces.  `readValue` reads one, or the end mark of an open
container, for which it gives `none`; it may enter at most `levels` containers, the value itself
counted.  The children of a container are read by the same function with one level less, in one of
two loops: `Parser.exactly` where the tag holds the count, `Parser.many` up to an end mark.

A `Reader` walks over a whole stream.  It stands at the end of the stream after every attempt.
-/

namespace PlistCodec.Opack

/-- Containers are read and written to this depth; the outermost value has depth 0. -/
def maxDepth : Nat := 100

/-! ## Payloads -/

/-- A payload of a kind and length. -/
def readPayload (kind : Payload) (length : Nat) (c : Cursor) : Except Error (Tree × Cursor) :=
  match c.take length with
  | .error e => .error e
  | .ok (bytes, next) =>
    match kind with
    | .data => .ok (.data bytes, next)
    | .text =>
      match Utf8.decode bytes with
      | .error fault => .error (.invalidText fault)
      | .ok text => .ok (.string text, next)

/-- A payload behind its length. -/
def readSized (kind : Payload) (width : Width) (c : Cursor) : Except Error (Tree × Cursor) :=
  match c.take width.bytes with
  | .error e => .error e
  | .ok (bytes, next) => readPayload kind (Bytes.ofLittleEndian bytes) next

/-- A scalar of a fixed number of bytes. -/
def readFixed (width : Nat) (meaning : Bytes → Except Error Tree) (c : Cursor) :
    Except Error (Tree × Cursor) :=
  match c.take width with
  | .error e => .error e
  | .ok (bytes, next) =>
    match meaning bytes with
    | .error e => .error e
    | .ok value => .ok (value, next)

/-- An integer of one byte, with its sign, in 64 bits. -/
def signExtended (bytes : Bytes) : Nat :=
  let n := Bytes.ofLittleEndian bytes
  if n < Bytes.signLimit 1 then n else Bytes.values 8 - Bytes.values 1 + n

/-- A real of four bytes. -/
def realOfShort (bytes : Bytes) : Binary64 :=
  .widen (UInt32.ofNat (Bytes.ofBigEndian bytes))

/-- A real of eight bytes. -/
def realOfLong (bytes : Bytes) : Binary64 :=
  ⟨UInt64.ofNat (Bytes.ofBigEndian bytes)⟩

/-- A date of eight bytes. -/
def dateOfBytes (bytes : Bytes) : Except Error Tree :=
  let seconds := realOfLong bytes
  match Date.ofReferenceSeconds? seconds with
  | some date => .ok (.date date)
  | none => .error (.invalidDate seconds)

/-! ## Containers -/

/-- A key and its value, or the end mark in place of the key. -/
def readEntry (child : Parser (Option Tree)) (c : Cursor) :
    Except Error (Option (String × Tree) × Cursor) :=
  match child.run c with
  | .error e => .error e
  | .ok (none, next) => .ok (none, next)
  | .ok (some (.string key), next) =>
    match child.run next with
    | .error e => .error e
    | .ok (none, _) => .error (.unexpectedTerminator next.offset)
    | .ok (some value, last) => .ok (some (key, value), last)
  | .ok (some _, _) => .error (.invalidKey c.offset)

theorem readEntry_advances (child : Parser (Option Tree)) {c next : Cursor}
    {entry : Option (String × Tree)} (h : readEntry child c = .ok (entry, next)) :
    next.rest.length < c.rest.length := by
  unfold readEntry at h
  split at h
  · cases h
  · next hr => cases h; exact child.advances hr
  · next mid hr =>
    split at h
    · cases h
    · cases h
    · next hv => cases h; exact Nat.lt_trans (child.advances hv) (child.advances hr)
  · cases h

/-- The parser of the entries of a dictionary. -/
def entryParser (child : Parser (Option Tree)) : Parser (Option (String × Tree)) where
  run := readEntry child
  advances := readEntry_advances child

/-- The node that a container's children make up. -/
def readContainer (child : Parser (Option Tree))
    (loop : ∀ {α : Type}, Parser (Option α) → Cursor → Except Error (List α × Cursor))
    (kind : Container) (c : Cursor) : Except Error (Tree × Cursor) :=
  match kind with
  | .array => (loop child c).map fun (items, next) => (.array items, next)
  | .dict =>
    (loop (entryParser child) c).map fun (entries, next) => (.dict (Dict.ofList entries), next)

/-! ## Values -/

/-- What was read, as something that is there. -/
def present (read : Except Error (Tree × Cursor)) : Except Error (Option Tree × Cursor) :=
  read.map fun (value, next) => (some value, next)

/-- What a tag announces; an end mark stands for nothing. -/
def readBody (child : Parser (Option Tree)) (tag : Tag) (c : Cursor) :
    Except Error (Option Tree × Cursor) :=
  match tag with
  | .terminator => .ok (none, c)
  | .bool value => .ok (some (.bool value), c)
  | .small value => .ok (some (.int value), c)
  | .date => present (readFixed 8 dateOfBytes c)
  | .int8 => present (readFixed 1 (fun bytes => .ok (.int (signExtended bytes))) c)
  | .int32 => present (readFixed 4 (fun bytes => .ok (.int (Bytes.ofLittleEndian bytes))) c)
  | .int64 => present (readFixed 8 (fun bytes => .ok (.int (Bytes.ofLittleEndian bytes))) c)
  | .real32 => present (readFixed 4 (fun bytes => .ok (.real (realOfShort bytes))) c)
  | .real64 => present (readFixed 8 (fun bytes => .ok (.real (realOfLong bytes))) c)
  | .short kind length => present (readPayload kind length c)
  | .sized kind width => present (readSized kind width c)
  | .counted kind count => present (readContainer child (fun p => p.exactly count) kind c)
  | .opened kind => present (readContainer child Parser.many kind c)

/-- A value behind its tag, or the end mark. -/
def readTagged (child : Parser (Option Tree)) (c : Cursor) :
    Except Error (Option Tree × Cursor) :=
  match c.rest with
  | [] => .error (c.short 1)
  | byte :: rest =>
    match Tag.ofByte? byte with
    | none => .error (.unexpectedByte byte c.offset)
    | some tag => readBody child tag ⟨c.offset + 1, rest⟩

theorem readPayload_le {kind : Payload} {length : Nat} {c next : Cursor} {value : Tree}
    (h : readPayload kind length c = .ok (value, next)) : next.rest.length ≤ c.rest.length := by
  unfold readPayload at h
  split at h
  · cases h
  · next ht =>
    have := Cursor.rest_length_of_take ht
    split at h
    · cases h; omega
    · split at h
      · cases h
      · cases h; omega

theorem readFixed_le {width : Nat} {meaning : Bytes → Except Error Tree} {c next : Cursor}
    {value : Tree} (h : readFixed width meaning c = .ok (value, next)) :
    next.rest.length ≤ c.rest.length := by
  unfold readFixed at h
  split at h
  · cases h
  · next ht =>
    have := Cursor.rest_length_of_take ht
    split at h
    · cases h
    · cases h; omega

theorem readSized_le {kind : Payload} {width : Width} {c next : Cursor} {value : Tree}
    (h : readSized kind width c = .ok (value, next)) : next.rest.length ≤ c.rest.length := by
  unfold readSized at h
  split at h
  · cases h
  · next ht =>
    have := Cursor.rest_length_of_take ht
    have := readPayload_le h
    omega

theorem readContainer_le {child : Parser (Option Tree)}
    {loop : ∀ {α : Type}, Parser (Option α) → Cursor → Except Error (List α × Cursor)}
    (shorter : ∀ {α : Type} (p : Parser (Option α)) {c next : Cursor} {as : List α},
      loop p c = .ok (as, next) → next.rest.length ≤ c.rest.length)
    {kind : Container} {c next : Cursor} {value : Tree}
    (h : readContainer child loop kind c = .ok (value, next)) :
    next.rest.length ≤ c.rest.length := by
  cases kind with
  | array =>
    cases hl : loop child c with
    | error e => simp [readContainer, hl, Except.map] at h
    | ok r =>
      simp only [readContainer, hl, Except.map, Except.ok.injEq, Prod.mk.injEq] at h
      obtain ⟨_, rfl⟩ := h
      exact shorter child hl
  | dict =>
    cases hl : loop (entryParser child) c with
    | error e => simp [readContainer, hl, Except.map] at h
    | ok r =>
      simp only [readContainer, hl, Except.map, Except.ok.injEq, Prod.mk.injEq] at h
      obtain ⟨_, rfl⟩ := h
      exact shorter (entryParser child) hl

theorem present_le {read : Except Error (Tree × Cursor)} {bound : Nat}
    (shorter : ∀ {value next}, read = .ok (value, next) → next.rest.length ≤ bound)
    {value : Option Tree} {next : Cursor} (h : present read = .ok (value, next)) :
    next.rest.length ≤ bound := by
  cases read with
  | error e => simp [present, Except.map] at h
  | ok r =>
    simp only [present, Except.map, Except.ok.injEq, Prod.mk.injEq] at h
    obtain ⟨_, rfl⟩ := h
    exact shorter rfl

theorem readBody_le {child : Parser (Option Tree)} {tag : Tag} {c next : Cursor}
    {value : Option Tree} (h : readBody child tag c = .ok (value, next)) :
    next.rest.length ≤ c.rest.length := by
  cases tag with
  | terminator => cases h; exact Nat.le_refl _
  | bool b => cases h; exact Nat.le_refl _
  | small n => cases h; exact Nat.le_refl _
  | short kind length => exact present_le readPayload_le h
  | sized kind width => exact present_le readSized_le h
  | counted kind count => exact present_le (readContainer_le fun p => p.exactly_le) h
  | opened kind => exact present_le (readContainer_le fun p => p.many_le) h
  | _ => exact present_le readFixed_le h

theorem readTagged_advances (child : Parser (Option Tree)) {c next : Cursor} {value : Option Tree}
    (h : readTagged child c = .ok (value, next)) : next.rest.length < c.rest.length := by
  unfold readTagged at h
  split at h
  · cases h
  · next byte rest hc =>
    rw [hc, List.length_cons]
    split at h
    · cases h
    · exact Nat.lt_succ_of_le (readBody_le h)

/-- Reads one value or an end mark, with `levels` levels of nesting left. -/
def readValue : (levels : Nat) → Parser (Option Tree)
  | 0 => .fail (.recursionLimit maxDepth)
  | levels + 1 => ⟨readTagged (readValue levels), readTagged_advances (readValue levels)⟩

/-! ## Streams -/

/-- The parser of the outermost values. -/
def topLevel : Parser (Option Tree) := readValue (maxDepth + 1)

/-- The values of a stream, in order.  End marks between them stand for nothing. -/
def readValues (stream : Bytes) : Except Error (List Tree) :=
  topLevel.readAll ⟨0, stream⟩

/-- A stream and a place in it. -/
structure Reader where
  /-- All bytes of the stream. -/
  stream : Bytes
  /-- The offset of the next byte to be read. -/
  position : Nat
deriving DecidableEq, Repr

namespace Reader

/-- A reader at the start of a stream. -/
def ofBytes (stream : Bytes) : Reader := ⟨stream, 0⟩

/-- The place of a reader as a cursor. -/
def cursor (r : Reader) : Cursor := ⟨r.position, r.stream.drop r.position⟩

/-- Reads all values from the current place on, and moves to the end of the stream. -/
def parse (r : Reader) : Except Error (List Tree) × Reader :=
  (topLevel.readAll r.cursor, ⟨r.stream, r.stream.length⟩)

end Reader

end PlistCodec.Opack
