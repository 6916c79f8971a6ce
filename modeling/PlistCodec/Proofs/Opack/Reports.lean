import PlistCodec.Opack.Decode
import PlistCodec.Proofs.Opack.Recognition

/-!
# What failures report

A failure to read a stream names a byte of it, its length or a limit.  `Error.TrueOf` says what the
report has to mean for the stream, and `reports_readValue` that it does: the offset is that of the
byte at fault, at whatever depth it stands, and a read that is out of bounds would end behind the
end of the stream.

The offset of a cursor is counted while the stream is read, so what is carried through the readings
is that the cursor stands where its offset says (`Cursor.At`).
-/

namespace PlistCodec.Opack

/-! ## Places in a stream -/

/-- The cursor is a place in the stream. -/
def Cursor.At (c : Cursor) (stream : Bytes) : Prop :=
  ∃ before, stream = before ++ c.rest ∧ before.length = c.offset

section Places

variable {c next : Cursor} {stream : Bytes}

theorem Cursor.at_start (stream : Bytes) : Cursor.At ⟨0, stream⟩ stream := ⟨[], rfl, rfl⟩

theorem Cursor.At.streamLength_eq (h : c.At stream) : c.streamLength = stream.length := by
  obtain ⟨before, rfl, hoffset⟩ := h
  rw [Cursor.streamLength, List.length_append, hoffset]

theorem Cursor.At.of_passes (h : c.At stream) {piece : Bytes} (hpasses : c.Passes piece next) :
    next.At stream := by
  obtain ⟨before, rfl, hoffset⟩ := h
  refine ⟨before ++ piece, ?_, ?_⟩
  · rw [hpasses.rest_eq, List.append_assoc]
  · rw [hpasses.offset_eq, List.length_append, hoffset]

theorem Cursor.At.of_reads {α : Type} {read : Cursor → Except Error (α × Cursor)}
    {good : Bytes → α → Prop} (h : c.At stream) (hreads : Reads read good) {a : α}
    (hread : read c = .ok (a, next)) : next.At stream := by
  obtain ⟨piece, hpasses, -⟩ := hreads c next a hread
  exact h.of_passes hpasses

/-- The next byte stands at the offset. -/
theorem Cursor.At.getElem?_eq (h : c.At stream) {byte : UInt8} {rest : Bytes}
    (hrest : c.rest = byte :: rest) : stream[c.offset]? = some byte := by
  obtain ⟨before, rfl, hoffset⟩ := h
  rw [← hoffset, hrest, List.getElem?_append_right (Nat.le_refl _), Nat.sub_self]
  rfl

end Places

/-! ## True reports -/

/-- The tag announces a text. -/
def Tag.IsText : Tag → Prop
  | .short .text _ => True
  | .sized .text _ => True
  | _ => False

/-- What a failure reports is true of the stream.  An index that does not fit into 64 bits is
reported as the greatest one that does. -/
def Error.TrueOf (stream : Bytes) : Error → Prop
  | .outOfBounds stop length =>
    length = stream.length ∧ ∃ past, stream.length < past ∧ stop = min past Cursor.maxIndex
  | .unexpectedByte byte offset => stream[offset]? = some byte ∧ Tag.ofByte? byte = none
  | .unexpectedTerminator offset => stream[offset]? = some Tag.terminator.toByte
  | .invalidKey offset => ∃ byte tag, stream[offset]? = some byte ∧ Tag.ofByte? byte = some tag ∧
      tag ≠ .terminator ∧ ¬tag.IsText
  | .recursionLimit depth => depth = maxDepth
  | .invalidText _ => True
  | .invalidDate _ => True
  | .unsupportedKind _ => False
  | .empty => False

/-- Every failure of the reading is reported truly. -/
def Reports {α : Type} (read : Cursor → Except Error (α × Cursor)) : Prop :=
  ∀ stream c e, c.At stream → read c = .error e → e.TrueOf stream

section Reports

variable {α β : Type} {read : Cursor → Except Error (α × Cursor)} {good : Bytes → α → Prop}

/-- A reading that begins with another one fails with it or behind it. -/
theorem Reports.bind {rest : Cursor → Except Error (β × Cursor)} (h : Reports read)
    (hreads : Reads read good) (herror : ∀ c e, read c = .error e → rest c = .error e)
    (hok : ∀ stream c a next, c.At stream → next.At stream → read c = .ok (a, next) →
      ∀ e, rest c = .error e → e.TrueOf stream) : Reports rest := by
  intro stream c e hat hrest
  cases hread : read c with
  | error e' =>
    rw [herror c e' hread] at hrest
    cases hrest
    exact h stream c e hat hread
  | ok r =>
    obtain ⟨a, next⟩ := r
    exact hok stream c a next hat (hat.of_reads hreads hread) hread e hrest

theorem Reports.map {f : α × Cursor → β × Cursor} (h : Reports read) :
    Reports fun c => (read c).map f := by
  intro stream c e hat hmap
  cases hread : read c with
  | error e' =>
    simp only [hread, Except.map] at hmap
    cases hmap
    exact h stream c e hat hread
  | ok r =>
    simp only [hread, Except.map] at hmap
    cases hmap

end Reports

/-! ## Scalars and payloads -/

theorem reads_take (n : Nat) : Reads (fun c => c.take n) fun taken bytes => taken = bytes := by
  intro c next bytes h
  exact ⟨bytes, (Cursor.passes_of_take h).2, rfl⟩

theorem Cursor.short_trueOf {c : Cursor} {stream : Bytes} {n : Nat} (h : c.At stream)
    (hshort : c.rest.length < n) : (c.short n).TrueOf stream := by
  have hlength := h.streamLength_eq
  refine ⟨hlength, c.offset + n, ?_, rfl⟩
  rw [← hlength, Cursor.streamLength]
  omega

theorem reports_take (n : Nat) : Reports fun c => c.take n := by
  intro stream c e hat h
  simp only [Cursor.take] at h
  split at h
  · cases h
  · next htake =>
    cases h
    exact Cursor.short_trueOf hat (Bytes.takeExactly?_eq_none_iff.mp htake)

theorem reports_fixed {meaning : Bytes → Except Error Tree} (width : Nat)
    (hmeaning : ∀ stream bytes e, meaning bytes = .error e → e.TrueOf stream) :
    Reports (readFixed width meaning) := by
  refine (reports_take width).bind (reads_take width) ?_ ?_
  · intro c e h
    rw [readFixed, h]
  · intro stream c bytes next _ _ htake e h
    rw [readFixed, htake] at h
    cases hvalue : meaning bytes with
    | error e' =>
      simp only [hvalue] at h
      cases h
      exact hmeaning stream bytes e hvalue
    | ok value =>
      simp only [hvalue] at h
      cases h

theorem reports_payload (kind : Payload) (length : Nat) : Reports (readPayload kind length) := by
  refine (reports_take length).bind (reads_take length) ?_ ?_
  · intro c e h
    rw [readPayload, h]
  · intro stream c bytes next _ _ htake e h
    rw [readPayload, htake] at h
    cases kind with
    | data => cases h
    | text =>
      cases hdecode : Utf8.decode bytes with
      | ok text => simp only [hdecode] at h; cases h
      | error fault =>
        simp only [hdecode] at h
        cases h
        trivial

theorem reports_sized (kind : Payload) (width : Width) : Reports (readSized kind width) := by
  refine (reports_take width.bytes).bind (reads_take width.bytes) ?_ ?_
  · intro c e h
    rw [readSized, h]
  · intro stream c field next _ hnext htake e h
    rw [readSized, htake] at h
    exact reports_payload kind _ stream next e hnext h

/-! ## Loops -/

section Loops

variable {α : Type} {p : Parser (Option α)} {good : Bytes → Option α → Prop}

/-- Where the parser finds the end of a container, the end mark stands. -/
def SeesMark (p : Parser (Option α)) : Prop :=
  ∀ c next, p.run c = .ok (none, next) → ∃ rest, c.rest = Tag.terminator.toByte :: rest

theorem reports_exactly (hp : Reports p.run) (hreads : Reads p.run good) (hmark : SeesMark p)
    (n : Nat) : Reports (p.exactly n) := by
  induction n with
  | zero => intro stream c e _ h; cases h
  | succ n ih =>
    refine hp.bind hreads ?_ ?_
    · intro c e h
      rw [Parser.exactly, h]
    · intro stream c a? next hat hnext hrun e h
      simp only [Parser.exactly, hrun] at h
      cases a? with
      | none =>
        cases h
        obtain ⟨rest, hrest⟩ := hmark c next hrun
        exact hat.getElem?_eq hrest
      | some a =>
        cases hexactly : p.exactly n next with
        | ok r => simp only [hexactly] at h; cases h
        | error e' =>
          simp only [hexactly] at h
          cases h
          exact ih stream next e hnext hexactly

theorem reports_many (hp : Reports p.run) (hreads : Reads p.run good) : Reports p.many := by
  intro stream c e hat h
  fun_induction Parser.many p c generalizing e with
  | case1 c e' hrun =>
    cases h
    exact hp stream c e' hat hrun
  | case2 => cases h
  | case3 c a next hrun e' hrest ih =>
    cases h
    exact ih e' (hat.of_reads hreads hrun) hrest
  | case4 => cases h

/-- A stream that cannot be read is reported on truly. -/
theorem trueOf_of_readAll (hp : Reports p.run) (hreads : Reads p.run good) {stream : Bytes}
    {c : Cursor} {e : Error} (hat : c.At stream) (h : p.readAll c = .error e) :
    e.TrueOf stream := by
  fun_induction Parser.readAll p c generalizing e with
  | case1 => cases h
  | case2 c _ e' hrun =>
    cases h
    exact hp stream c e' hat hrun
  | case3 c _ a? next hrun e' hrest ih =>
    cases h
    exact ih (hat.of_reads hreads hrun) hrest
  | case4 => cases h

end Loops

/-! ## Values -/

section Values

variable {child : Parser (Option Tree)} {good : Bytes → Option Tree → Prop}

/-- Where the parser reads something else than a text, it is announced as such. -/
def SeesKind (child : Parser (Option Tree)) : Prop :=
  ∀ c value next, child.run c = .ok (some value, next) → value.string? = none →
    ∃ byte rest tag, c.rest = byte :: rest ∧ Tag.ofByte? byte = some tag ∧ tag ≠ .terminator ∧
      ¬tag.IsText

theorem SeesMark.entryParser (h : SeesMark child) : SeesMark (entryParser child) := by
  intro c next hrun
  simp only [Opack.entryParser, readEntry] at hrun
  split at hrun
  · cases hrun
  · next hkey => exact h c _ hkey
  · split at hrun <;> cases hrun
  · cases hrun

theorem reports_entry (hchild : Reports child.run) (hreads : Reads child.run good)
    (hmark : SeesMark child) (hkind : SeesKind child) : Reports (entryParser child).run := by
  refine hchild.bind hreads ?_ ?_
  · intro c e hrun
    simp only [entryParser, readEntry, hrun]
  · intro stream c key? next hat hnext hrun e h
    simp only [entryParser, readEntry, hrun] at h
    split at h
    case h_1 heq => cases heq
    case h_2 => cases h
    case h_3 key mid heq =>
      cases heq
      split at h
      case h_1 e' hvalue =>
        cases h
        exact hchild stream next e hnext hvalue
      case h_2 hvalue =>
        cases h
        obtain ⟨rest, hrest⟩ := hmark next _ hvalue
        exact hnext.getElem?_eq hrest
      case h_3 => cases h
    case h_4 value mid hnotString heq =>
      cases heq
      cases h
      have hstring : value.string? = none := by
        cases value with
        | string text => exact absurd rfl (hnotString text)
        | _ => rfl
      obtain ⟨byte, rest, tag, hrest, htag, hterminator, htext⟩ := hkind c value next hrun hstring
      exact ⟨byte, tag, hat.getElem?_eq hrest, htag, hterminator, htext⟩

theorem reports_container
    (loop : ∀ {α : Type}, Parser (Option α) → Cursor → Except Error (List α × Cursor))
    (hitems : Reports (loop child)) (hentries : Reports (loop (entryParser child)))
    (kind : Container) : Reports (readContainer child loop kind) := by
  cases kind with
  | array => exact hitems.map
  | dict => exact hentries.map

theorem reports_body (hchild : Reports child.run) (hreads : Reads child.run good)
    (hmark : SeesMark child) (hkind : SeesKind child) (tag : Tag) :
    Reports (readBody child tag) := by
  have hentry := reports_entry hchild hreads hmark hkind
  have hscalar : ∀ (width : Nat) (meaning : Bytes → Tree),
      Reports (readFixed width fun bytes => .ok (meaning bytes)) :=
    fun width meaning => reports_fixed width fun _ _ _ h => by cases h
  cases tag with
  | terminator => intro stream c e _ h; cases h
  | bool value => intro stream c e _ h; cases h
  | small value => intro stream c e _ h; cases h
  | date =>
    refine (reports_fixed 8 fun stream bytes e h => ?_).map
    rw [dateOfBytes] at h
    split at h
    · cases h
    · cases h
      trivial
  | short kind length => exact (reports_payload kind length).map
  | sized kind width => exact (reports_sized kind width).map
  | counted kind count =>
    have hitems := reports_exactly hchild hreads hmark count
    have hentries := reports_exactly hentry (reads_entry hreads) hmark.entryParser count
    exact (reports_container (fun p => p.exactly count) hitems hentries kind).map
  | opened kind =>
    have hitems := reports_many hchild hreads
    have hentries := reports_many hentry (reads_entry hreads)
    exact (reports_container Parser.many hitems hentries kind).map
  | _ => exact (hscalar _ _).map

/-- What is read behind a tag that announces a text is one. -/
theorem string?_of_readBody {tag : Tag} {c next : Cursor} {value : Tree}
    (h : readBody child tag c = .ok (some value, next)) (htag : tag.IsText) :
    value.string?.isSome := by
  have hpayload : ∀ length mid last tree, readPayload .text length mid = .ok (tree, last) →
      tree.string?.isSome := by
    intro length mid last tree hread
    obtain ⟨piece, -, -, htext⟩ := reads_payload .text length mid last tree hread
    cases htext
    rfl
  cases tag with
  | short kind length =>
    cases kind with
    | data => cases htag
    | text =>
      obtain ⟨⟨tree, last⟩, hread, heq⟩ := exists_of_map_eq_ok h
      cases heq
      exact hpayload length c next value hread
  | sized kind width =>
    cases kind with
    | data => cases htag
    | text =>
      obtain ⟨⟨tree, last⟩, hread, heq⟩ := exists_of_map_eq_ok h
      cases heq
      rw [readSized] at hread
      split at hread
      · cases hread
      · exact hpayload _ _ next value hread
  | _ => cases htag

theorem readTagged_eq_ok {c next : Cursor} {value : Option Tree}
    (h : readTagged child c = .ok (value, next)) :
    ∃ byte rest tag, c.rest = byte :: rest ∧ Tag.ofByte? byte = some tag ∧
      readBody child tag ⟨c.offset + 1, rest⟩ = .ok (value, next) := by
  rw [readTagged] at h
  split at h
  · cases h
  · next byte rest hrest =>
    split at h
    · cases h
    · next tag htag => exact ⟨byte, rest, tag, hrest, htag, h⟩

theorem seesMark_readValue (levels : Nat) : SeesMark (readValue levels) := by
  intro c next h
  cases levels with
  | zero => cases h
  | succ levels =>
    obtain ⟨byte, rest, tag, hrest, htag, hbody⟩ := readTagged_eq_ok h
    have hterminator : tag = .terminator := by
      cases tag with
      | terminator => rfl
      | bool value => cases hbody
      | small value => cases hbody
      | _ =>
        obtain ⟨r, -, heq⟩ := exists_of_map_eq_ok hbody
        cases heq
    subst hterminator
    rw [← (Tag.toByte_of_ofByte? htag).1] at hrest
    exact ⟨rest, hrest⟩

theorem seesKind_readValue (levels : Nat) : SeesKind (readValue levels) := by
  intro c value next h hstring
  cases levels with
  | zero => cases h
  | succ levels =>
    obtain ⟨byte, rest, tag, hrest, htag, hbody⟩ := readTagged_eq_ok h
    refine ⟨byte, rest, tag, hrest, htag, ?_, ?_⟩
    · rintro rfl
      cases hbody
    · intro htext
      have hsome := string?_of_readBody hbody htext
      rw [hstring] at hsome
      cases hsome

/-- **Failures are reported truly**, at any depth. -/
theorem reports_readValue {levels : Nat} (hlevels : levels ≤ maxDepth + 1) :
    Reports (readValue levels).run := by
  induction levels with
  | zero =>
    intro stream c e _ h
    cases h
    rfl
  | succ levels ih =>
    have hchild : Reports (readValue levels).run := ih (by omega)
    have hreads : Reads (readValue levels).run (IsPiece (maxDepth + 1 - levels)) :=
      reads_readValue (by omega)
    intro stream c e hat h
    simp only [readValue, readTagged] at h
    split at h
    · next hrest =>
      cases h
      exact Cursor.short_trueOf hat (by rw [hrest]; exact Nat.zero_lt_one)
    · next byte rest hrest =>
      have hpasses : c.Passes [byte] ⟨c.offset + 1, rest⟩ := ⟨hrest, rfl⟩
      have hnext : Cursor.At ⟨c.offset + 1, rest⟩ stream := hat.of_passes hpasses
      split at h
      · next hbyte =>
        cases h
        exact ⟨hat.getElem?_eq hrest, hbyte⟩
      · next tag _ =>
        exact reports_body hchild hreads (seesMark_readValue levels) (seesKind_readValue levels)
          tag stream _ e hnext h

end Values

/-! ## Streams -/

/-- **A stream that cannot be read is reported on truly.** -/
theorem trueOf_of_readValues {stream : Bytes} {e : Error} (h : readValues stream = .error e) :
    e.TrueOf stream := by
  have hreads : Reads topLevel.run (IsPiece 0) := reads_readValue (Nat.zero_add _)
  exact trueOf_of_readAll (reports_readValue (Nat.le_refl _)) hreads (Cursor.at_start stream) h

end PlistCodec.Opack
