import Mathlib.Data.List.Forall2
import PlistCodec.Opack.Encode

/-!
# Pieces of a stream

A parser *accepts* a piece of a stream as a value if it reads that value wherever the piece stands
and whatever follows it, and stops right behind it.  Accepted pieces can be put together: a list of
them is accepted by the loops of a container, a key and a value by the parser of entries, and a tag
with the piece that it announces by the parser of values.
-/

namespace PlistCodec

namespace Bytes

theorem ofLittleEndian_of_lt {width n : Nat} (h : n < values width) :
    ofLittleEndian (littleEndian width n) = n := by
  rw [ofLittleEndian_littleEndian, Nat.mod_eq_of_lt h]

theorem ofBigEndian_of_lt {width n : Nat} (h : n < values width) :
    ofBigEndian (bigEndian width n) = n := by
  rw [ofBigEndian_bigEndian, Nat.mod_eq_of_lt h]

end Bytes

namespace Opack

/-! ## Bounded reads -/

theorem Cursor.take_append (offset : Nat) (taken rest : Bytes) :
    Cursor.take ⟨offset, taken ++ rest⟩ taken.length
      = .ok (taken, ⟨offset + taken.length, rest⟩) := by
  have h : Bytes.takeExactly? taken.length (taken ++ rest) = some (taken, rest) :=
    Bytes.takeExactly?_eq_some_iff.mpr ⟨rfl, rfl⟩
  rw [Cursor.take, h]

namespace Parser

variable {α : Type}

/-- The parser reads `piece` as `a`, wherever it stands and whatever follows. -/
def Accepts (p : Parser α) (piece : Bytes) (a : α) : Prop :=
  ∀ offset rest, p.run ⟨offset, piece ++ rest⟩ = .ok (a, ⟨offset + piece.length, rest⟩)

/-! ## Loops, one round at a time -/

theorem many_of_none {p : Parser (Option α)} {c next : Cursor} (h : p.run c = .ok (none, next)) :
    p.many c = .ok ([], next) := by
  rw [many.eq_def]
  split <;> simp_all

theorem many_of_some {p : Parser (Option α)} {c next : Cursor} {a : α}
    (h : p.run c = .ok (some a, next)) :
    p.many c = (p.many next).map fun (as, last) => (a :: as, last) := by
  rw [many.eq_def]
  split
  · simp_all
  · simp_all
  · next b mid hr =>
    obtain ⟨rfl, rfl⟩ : b = a ∧ mid = next := by simpa [h] using hr.symm
    cases p.many mid <;> rfl

theorem readAll_end (p : Parser (Option α)) (offset : Nat) : p.readAll ⟨offset, []⟩ = .ok [] := by
  rw [readAll]
  rfl

theorem readAll_of_ok {p : Parser (Option α)} {c next : Cursor} {a? : Option α}
    (h : p.run c = .ok (a?, next)) :
    p.readAll c = (p.readAll next).map fun as => a?.toList ++ as := by
  have hc : c.rest ≠ [] := by
    intro hc
    have := p.advances h
    rw [hc] at this
    exact absurd this (Nat.not_lt_zero _)
  rw [readAll, if_neg (by simpa using hc)]
  split
  · simp_all
  · next b? mid hr =>
    obtain ⟨rfl, rfl⟩ : b? = a? ∧ mid = next := by simpa [h] using hr.symm
    cases p.readAll mid <;> rfl

/-! ## Loops over accepted pieces -/

/-- A counted loop reads as many pieces as it is asked for. -/
theorem exactly_of_accepts {p : Parser (Option α)} {pieces : List Bytes} {as : List α}
    (h : List.Forall₂ (fun piece a => p.Accepts piece (some a)) pieces as) (offset : Nat)
    (rest : Bytes) :
    p.exactly as.length ⟨offset, pieces.flatten ++ rest⟩
      = .ok (as, ⟨offset + pieces.flatten.length, rest⟩) := by
  induction h generalizing offset with
  | nil => rfl
  | @cons piece a pieces as hp _ ih =>
    have first := hp offset (pieces.flatten ++ rest)
    rw [List.flatten_cons, List.append_assoc, List.length_cons, exactly, first]
    simp only [ih, List.length_append, Nat.add_assoc]

/-- An open loop reads all pieces up to one that has no value. -/
theorem many_of_accepts {p : Parser (Option α)} {pieces : List Bytes} {as : List α} {stop : Bytes}
    (h : List.Forall₂ (fun piece a => p.Accepts piece (some a)) pieces as)
    (hstop : p.Accepts stop none) (offset : Nat) (rest : Bytes) :
    p.many ⟨offset, pieces.flatten ++ stop ++ rest⟩
      = .ok (as, ⟨offset + (pieces.flatten ++ stop).length, rest⟩) := by
  induction h generalizing offset with
  | nil => exact many_of_none (hstop offset rest)
  | @cons piece a pieces as hp _ ih =>
    have first := hp offset (pieces.flatten ++ stop ++ rest)
    rw [List.flatten_cons, List.append_assoc, List.append_assoc, ← List.append_assoc pieces.flatten,
      many_of_some first, ih]
    simp only [Except.map, List.length_append, Nat.add_assoc]

/-- A stream that is one piece holds one value. -/
theorem readAll_of_accepts {p : Parser (Option α)} {piece : Bytes} {a : α}
    (h : p.Accepts piece (some a)) (offset : Nat) : p.readAll ⟨offset, piece⟩ = .ok [a] := by
  have first := h offset []
  rw [List.append_nil] at first
  rw [readAll_of_ok first, readAll_end]
  rfl

end Parser

/-! ## Entries -/

/-- A key and a value make up an entry. -/
theorem entryParser_accepts {child : Parser (Option Tree)} {keyPiece valuePiece : Bytes}
    {key : String} {value : Tree} (hkey : child.Accepts keyPiece (some (.string key)))
    (hvalue : child.Accepts valuePiece (some value)) :
    (entryParser child).Accepts (keyPiece ++ valuePiece) (some (key, value)) := by
  intro offset rest
  have first := hkey offset (valuePiece ++ rest)
  have second := hvalue (offset + keyPiece.length) rest
  rw [List.append_assoc]
  simp only [entryParser, readEntry, first, second, List.length_append, Nat.add_assoc]

/-- An end mark in place of a key ends the entries. -/
theorem entryParser_accepts_none {child : Parser (Option Tree)} {stop : Bytes}
    (h : child.Accepts stop none) : (entryParser child).Accepts stop none := by
  intro offset rest
  have first := h offset rest
  simp only [entryParser, readEntry, first]

/-! ## Tags -/

/-- A tag announces `body` as `value`: that is how `body` is read behind the tag. -/
def Announces (child : Parser (Option Tree)) (t : Tag) (body : Bytes) (value : Option Tree) :
    Prop :=
  ∀ offset rest, readBody child t ⟨offset, body ++ rest⟩
    = .ok (value, ⟨offset + body.length, rest⟩)

theorem readValue_accepts {levels : Nat} {t : Tag} (ht : t.fits) {body : Bytes}
    {value : Option Tree} (h : Announces (readValue levels) t body value) :
    (readValue (levels + 1)).Accepts (t.toByte :: body) value := by
  intro offset rest
  have behind := h (offset + 1) rest
  rw [List.cons_append, readValue]
  simp only [readTagged, Tag.ofByte?_toByte ht, behind, List.length_cons, Nat.add_assoc,
    Nat.add_comm 1]

/-- One end mark is read as nothing. -/
theorem readValue_accepts_terminator (levels : Nat) :
    (readValue (levels + 1)).Accepts [Tag.terminator.toByte] none :=
  readValue_accepts rfl fun _ _ => rfl

/-! ## Scalars and payloads -/

theorem readFixed_append {width : Nat} {meaning : Bytes → Except Error Tree} {bytes : Bytes}
    {value : Tree} (hwidth : bytes.length = width) (hvalue : meaning bytes = .ok value)
    (offset : Nat) (rest : Bytes) :
    readFixed width meaning ⟨offset, bytes ++ rest⟩
      = .ok (value, ⟨offset + bytes.length, rest⟩) := by
  subst hwidth
  simp only [readFixed, Cursor.take_append, hvalue]

/-- A scalar of a fixed width is a tag and its bytes. -/
theorem fixed_accepts {levels width : Nat} {t : Tag} {meaning : Bytes → Except Error Tree}
    (ht : t.fits)
    (hbody : ∀ child c, readBody child t c = present (readFixed width meaning c))
    {bytes : Bytes} {value : Tree} (hwidth : bytes.length = width)
    (hvalue : meaning bytes = .ok value) :
    (readValue (levels + 1)).Accepts (t.toByte :: bytes) (some value) := by
  refine readValue_accepts ht ?_
  intro offset rest
  rw [hbody, readFixed_append hwidth hvalue]
  rfl

/-- The tree that a payload of a kind stands for. -/
def payloadTree? : Payload → Bytes → Option Tree
  | .data, bytes => some (.data bytes)
  | .text, bytes => (Utf8.decode bytes).toOption.map .string

theorem payloadTree?_ofString (text : String) :
    payloadTree? .text (Bytes.ofString text) = some (.string text) := by
  rw [payloadTree?, Utf8.decode_ofString]
  rfl

theorem readPayload_append {kind : Payload} {bytes : Bytes} {value : Tree}
    (h : payloadTree? kind bytes = some value) (offset : Nat) (rest : Bytes) :
    readPayload kind bytes.length ⟨offset, bytes ++ rest⟩
      = .ok (value, ⟨offset + bytes.length, rest⟩) := by
  rw [readPayload, Cursor.take_append]
  cases kind with
  | data => cases h; rfl
  | text =>
    rw [payloadTree?] at h
    cases hd : Utf8.decode bytes with
    | error fault => rw [hd] at h; cases h
    | ok text => rw [hd] at h; cases h; simp only [hd]

/-- The field with the length may be wider than it has to be. -/
theorem readSized_append {kind : Payload} {width : Width} {field bytes : Bytes} {value : Tree}
    (hwidth : field.length = width.bytes) (hlength : Bytes.ofLittleEndian field = bytes.length)
    (h : payloadTree? kind bytes = some value) (offset : Nat) (rest : Bytes) :
    readSized kind width ⟨offset, field ++ bytes ++ rest⟩
      = .ok (value, ⟨offset + (field ++ bytes).length, rest⟩) := by
  have first := Cursor.take_append offset field (bytes ++ rest)
  rw [hwidth] at first
  rw [List.append_assoc, readSized, first]
  simp only [hlength, readPayload_append h, List.length_append, hwidth, Nat.add_assoc]

theorem short_accepts {levels : Nat} {kind : Payload} {bytes : Bytes} {value : Tree}
    (hshort : bytes.length ≤ Tag.maxShort) (h : payloadTree? kind bytes = some value) :
    (readValue (levels + 1)).Accepts ((Tag.short kind bytes.length).toByte :: bytes)
      (some value) := by
  refine readValue_accepts (by simpa [Tag.fits] using hshort) ?_
  intro offset rest
  rw [readBody, readPayload_append h]
  rfl

theorem sized_accepts {levels : Nat} {kind : Payload} {width : Width} {field bytes : Bytes}
    {value : Tree} (hwidth : field.length = width.bytes)
    (hlength : Bytes.ofLittleEndian field = bytes.length)
    (h : payloadTree? kind bytes = some value) :
    (readValue (levels + 1)).Accepts ((Tag.sized kind width).toByte :: (field ++ bytes))
      (some value) := by
  refine readValue_accepts rfl ?_
  intro offset rest
  rw [readBody, readSized_append hwidth hlength h]
  rfl

/-! ## Containers -/

section Containers

variable {α : Type} {levels : Nat} {p : Parser (Option α)} {kind : Container}
variable {build : List α → Tree}

/-- The children of a container of this kind are read by `p`, and `build` makes the tree of them. -/
def ReadBy (levels : Nat) (kind : Container) (p : Parser (Option α)) (build : List α → Tree) :
    Prop :=
  ∀ (loop : ∀ {α : Type}, Parser (Option α) → Cursor → Except Error (List α × Cursor))
    (c : Cursor), readContainer (readValue levels) loop kind c
      = (loop p c).map fun (as, next) => (build as, next)

theorem readBy_array (levels : Nat) : ReadBy levels .array (readValue levels) .array :=
  fun _ _ => rfl

theorem readBy_dict (levels : Nat) : ReadBy levels .dict (entryParser (readValue levels))
    fun entries => .dict (Dict.ofList entries) :=
  fun _ _ => rfl

theorem counted_accepts (hread : ReadBy levels kind p build) {pieces : List Bytes} {as : List α}
    (hcount : as.length ≤ Tag.maxCount)
    (h : List.Forall₂ (fun piece a => p.Accepts piece (some a)) pieces as) :
    (readValue (levels + 1)).Accepts ((Tag.counted kind as.length).toByte :: pieces.flatten)
      (some (build as)) := by
  refine readValue_accepts (by simpa [Tag.fits] using hcount) ?_
  intro offset rest
  rw [readBody, hread, Parser.exactly_of_accepts h]
  rfl

theorem opened_accepts (hread : ReadBy levels kind p build) {stop : Bytes}
    (hstop : p.Accepts stop none) {pieces : List Bytes} {as : List α}
    (h : List.Forall₂ (fun piece a => p.Accepts piece (some a)) pieces as) :
    (readValue (levels + 1)).Accepts ((Tag.opened kind).toByte :: (pieces.flatten ++ stop))
      (some (build as)) := by
  refine readValue_accepts rfl ?_
  intro offset rest
  rw [readBody, hread, Parser.many_of_accepts h hstop]
  rfl

end Containers

end Opack

end PlistCodec
