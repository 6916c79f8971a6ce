import PlistCodec.Proofs.Opack.Reports
import PlistCodec.Proofs.Opack.Streaming

/-!
# Reading moves forward

A reading that succeeds takes at least one byte and stays in the stream (`Cursor.At.lt_of_run`).
Nothing else ends the loops of the reader: neither the loop over the children of an open container
nor the loop over a stream counts its rounds.  Here both are spelled out round by round, for any
reading, whether it moves or not (`LoopsTo`, `Reader.RunsTo`), so that an outcome is not there by
definition.  The loops of the reader have one, after at most as many rounds as there are bytes left,
and it is the one that `Parser.many` and `Reader.parse` give.
-/

namespace PlistCodec.Opack

/-! ## Places -/

section Places

variable {β : Type} {p : Parser β} {good : Bytes → β → Prop} {c next : Cursor} {stream : Bytes}

theorem Cursor.At.eq_cursor (h : c.At stream) : c = Reader.cursor ⟨stream, c.offset⟩ := by
  obtain ⟨before, rfl, hoffset⟩ := h
  obtain ⟨offset, rest⟩ := c
  simp only [Reader.cursor] at hoffset ⊢
  rw [← hoffset, List.drop_left]

theorem Reader.cursor_at {r : Reader} (h : r.position ≤ r.stream.length) :
    r.cursor.At r.stream := by
  refine ⟨r.stream.take r.position, (List.take_append_drop _ _).symm, ?_⟩
  rw [List.length_take, Nat.min_eq_left h]
  rfl

/-- **A reading that succeeds takes at least one byte, and stays in the stream.** -/
theorem Cursor.At.lt_of_run (h : c.At stream) (hreads : Reads p.run good) {b : β}
    (hrun : p.run c = .ok (b, next)) : next.At stream ∧ c.offset < next.offset := by
  have hnext : next.At stream := h.of_reads hreads hrun
  have hless := p.advances hrun
  have hbefore : c.offset + c.rest.length = stream.length := h.streamLength_eq
  have hafter : next.offset + next.rest.length = stream.length := hnext.streamLength_eq
  refine ⟨hnext, ?_⟩
  omega

end Places

/-! ## The loop over the children of an open container -/

section Loop

variable {α : Type}

/-- The loop that reads items up to an end mark: `rounds` rounds that read an item each, and one
more that finds the end mark or fails. -/
inductive LoopsTo (read : Cursor → Except Error (Option α × Cursor)) :
    (rounds : Nat) → Cursor → Except Error (List α × Cursor) → Prop where
  /-- An end mark ends the loop. -/
  | mark {c next : Cursor} (h : read c = .ok (none, next)) : LoopsTo read 0 c (.ok ([], next))
  /-- So does a failure. -/
  | failure {c : Cursor} {e : Error} (h : read c = .error e) : LoopsTo read 0 c (.error e)
  /-- The loop goes on behind an item. -/
  | item {c next : Cursor} {a : α} {rounds : Nat} {outcome : Except Error (List α × Cursor)}
      (h : read c = .ok (some a, next)) (hrest : LoopsTo read rounds next outcome) :
      LoopsTo read (rounds + 1) c (outcome.map fun (as, last) => (a :: as, last))

/-- The loop has this outcome and no other one, and reads `limit` items at most. -/
structure LoopEnds (read : Cursor → Except Error (Option α × Cursor)) (limit : Nat) (c : Cursor)
    (outcome : Except Error (List α × Cursor)) : Prop where
  /-- The loop ends. -/
  ends : ∃ rounds, LoopsTo read rounds c outcome
  /-- However it ends, it ends like this, and soon enough. -/
  only : ∀ rounds other, LoopsTo read rounds c other → other = outcome ∧ rounds ≤ limit

variable {p : Parser (Option α)}

theorem exists_loopsTo_many (p : Parser (Option α)) (c : Cursor) :
    ∃ rounds, LoopsTo p.run rounds c (p.many c) := by
  fun_induction Parser.many p c with
  | case1 c e hrun => exact ⟨0, .failure hrun⟩
  | case2 c next hrun => exact ⟨0, .mark hrun⟩
  | case3 c a next hrun e hrest ih =>
    obtain ⟨rounds, hloop⟩ := ih
    rw [hrest] at hloop
    exact ⟨rounds + 1, .item hrun hloop⟩
  | case4 c a next hrun as last hrest ih =>
    obtain ⟨rounds, hloop⟩ := ih
    rw [hrest] at hloop
    exact ⟨rounds + 1, .item hrun hloop⟩

theorem LoopsTo.eq_many {rounds : Nat} {c : Cursor} {outcome : Except Error (List α × Cursor)}
    (h : LoopsTo p.run rounds c outcome) : outcome = p.many c ∧ rounds ≤ c.rest.length := by
  induction h with
  | mark hrun => exact ⟨(Parser.many_of_none hrun).symm, Nat.zero_le _⟩
  | failure hrun => exact ⟨(Parser.many_of_error hrun).symm, Nat.zero_le _⟩
  | item hrun _ ih =>
    obtain ⟨rfl, hrounds⟩ := ih
    have hless := p.advances hrun
    exact ⟨(Parser.many_of_some hrun).symm, by omega⟩

/-- **The loop over the children of an open container ends**, since each round moves forward. -/
theorem loopEnds_many (p : Parser (Option α)) (c : Cursor) :
    LoopEnds p.run c.rest.length c (p.many c) where
  ends := exists_loopsTo_many p c
  only _ _ h := h.eq_many

end Loop

/-! ## The loop over a stream -/

/-- The reader goes over what is left of its stream: `rounds` rounds that read a value or an end
mark each, until the stream is over or a reading fails.  It stands behind what was read last, and a
failure moves it to the end of the stream. -/
inductive Reader.RunsTo : Reader → (rounds : Nat) → Except Error (List Tree) → Reader → Prop where
  /-- Nothing is left. -/
  | finished {r : Reader} (h : ¬r.position < r.stream.length) : RunsTo r 0 (.ok []) r
  /-- A reading fails. -/
  | failure {r : Reader} {e : Error} (h : r.position < r.stream.length)
      (hrun : topLevel.run r.cursor = .error e) :
      RunsTo r 0 (.error e) ⟨r.stream, r.stream.length⟩
  /-- The reader goes on behind a value or an end mark. -/
  | value {r last : Reader} {next : Cursor} {value? : Option Tree} {rounds : Nat}
      {outcome : Except Error (List Tree)} (h : r.position < r.stream.length)
      (hrun : topLevel.run r.cursor = .ok (value?, next))
      (hrest : RunsTo ⟨r.stream, next.offset⟩ rounds outcome last) :
      RunsTo r (rounds + 1) (outcome.map fun values => value?.toList ++ values) last

section Stream

variable {r last : Reader}

theorem Reader.parse_at_end (h : r.position = r.stream.length) : r.parse = (.ok [], r) := by
  obtain ⟨stream, position⟩ := r
  obtain rfl : position = stream.length := h
  rw [Reader.parse, Reader.cursor, List.drop_length, Parser.readAll_end]

theorem Reader.parse_of_error {e : Error} (h : r.position < r.stream.length)
    (hrun : topLevel.run r.cursor = .error e) :
    r.parse = (.error e, ⟨r.stream, r.stream.length⟩) := by
  have hrest : r.cursor.rest ≠ [] := by
    intro hnil
    exact absurd (List.drop_eq_nil_iff.mp hnil) (Nat.not_le.mpr h)
  rw [Reader.parse, readAll_of_error hrest hrun]

/-- One round of the reader, and what follows it. -/
theorem Reader.parse_of_ok {next : Cursor} {value? : Option Tree}
    (h : r.position ≤ r.stream.length) (hrun : topLevel.run r.cursor = .ok (value?, next)) :
    r.position < next.offset ∧ next.offset ≤ r.stream.length ∧
      r.parse = ((Reader.parse ⟨r.stream, next.offset⟩).1.map fun values => value?.toList ++ values,
        (Reader.parse ⟨r.stream, next.offset⟩).2) := by
  have hreads : Reads topLevel.run (IsPiece 0) := reads_readValue (Nat.zero_add _)
  obtain ⟨hnext, hless⟩ := (Reader.cursor_at h).lt_of_run hreads hrun
  have hoffset : next.offset + next.rest.length = r.stream.length := hnext.streamLength_eq
  refine ⟨hless, by omega, ?_⟩
  rw [Reader.parse, Parser.readAll_of_ok hrun, hnext.eq_cursor]
  rfl

theorem Reader.exists_runsTo_parse (h : r.position ≤ r.stream.length) :
    ∃ rounds, r.RunsTo rounds r.parse.1 r.parse.2 := by
  induction hleft : r.stream.length - r.position using Nat.strongRecOn generalizing r with
  | ind left ih =>
    by_cases hover : r.position < r.stream.length
    · cases hrun : topLevel.run r.cursor with
      | error e =>
        rw [Reader.parse_of_error hover hrun]
        exact ⟨0, .failure hover hrun⟩
      | ok read =>
        obtain ⟨value?, next⟩ := read
        obtain ⟨hless, hle, hparse⟩ := Reader.parse_of_ok h hrun
        -- fewer bytes are left behind what was read
        have hfewer : r.stream.length - next.offset < left := by omega
        obtain ⟨rounds, hruns⟩ := @ih _ hfewer ⟨r.stream, next.offset⟩ hle rfl
        rw [hparse]
        exact ⟨rounds + 1, .value hover hrun hruns⟩
    · have hend : r.position = r.stream.length := Nat.le_antisymm h (Nat.not_lt.mp hover)
      rw [Reader.parse_at_end hend]
      exact ⟨0, .finished hover⟩

/-- **The reader stops at the end of the stream**, however it gets there. -/
theorem Reader.RunsTo.eq_parse {rounds : Nat} {outcome : Except Error (List Tree)}
    (hruns : r.RunsTo rounds outcome last) (h : r.position ≤ r.stream.length) :
    (outcome, last) = r.parse ∧ r.position + rounds ≤ r.stream.length ∧
      last = ⟨r.stream, r.stream.length⟩ := by
  induction hruns with
  | @finished r hover =>
    have hend : r.position = r.stream.length := Nat.le_antisymm h (Nat.not_lt.mp hover)
    exact ⟨(Reader.parse_at_end hend).symm, h, by rw [← hend]⟩
  | failure hover hrun => exact ⟨(Reader.parse_of_error hover hrun).symm, h, rfl⟩
  | value _ hrun _ ih =>
    obtain ⟨hless, hle, hparse⟩ := Reader.parse_of_ok h hrun
    obtain ⟨hrest, hrounds, hlast⟩ := ih hle
    refine ⟨?_, ?_, hlast⟩
    · rw [hparse, ← hrest]
    · simp only at hrounds
      omega

end Stream

/-- **Reading moves forward and ends at the end of the stream.**  From any place in a stream and at
any depth, a reading that succeeds takes at least one byte and stays in the stream; the loop over
the children of an open container ends, be they items or entries; so does the loop over the stream,
and with or without a failure it leaves the reader at the end, where there is nothing left to
read. -/
theorem reading_advances (r : Reader) (h : r.position ≤ r.stream.length) :
    (∀ depth value? next,
      (readValue (levelsAt depth)).run r.cursor = .ok (value?, next) →
        r.position + 1 ≤ next.offset ∧ next.offset ≤ r.stream.length ∧
          next = Reader.cursor ⟨r.stream, next.offset⟩) ∧
    (∀ depth, let child := readValue (levelsAt depth)
      LoopEnds child.run (r.stream.length - r.position) r.cursor (child.many r.cursor) ∧
        LoopEnds (entryParser child).run (r.stream.length - r.position) r.cursor
          ((entryParser child).many r.cursor)) ∧
    ((∃ rounds, r.RunsTo rounds r.parse.1 r.parse.2) ∧
      ∀ rounds outcome last, r.RunsTo rounds outcome last →
        (outcome, last) = r.parse ∧ r.position + rounds ≤ r.stream.length) ∧
    r.parse.2.position = r.stream.length ∧ r.parse.2.parse = (.ok [], r.parse.2) := by
  have hat : r.cursor.At r.stream := Reader.cursor_at h
  have hleft : r.cursor.rest.length = r.stream.length - r.position := List.length_drop
  obtain ⟨rounds, hruns⟩ := Reader.exists_runsTo_parse h
  obtain ⟨-, -, hlast⟩ := hruns.eq_parse h
  refine ⟨?_, ?_, ⟨⟨rounds, hruns⟩, ?_⟩, ?_, ?_⟩
  · intro depth value? next hrun
    -- all depths beyond `maxDepth` are alike: no level is left
    have hlevels : levelsAt depth ≤ maxDepth + 1 := Nat.sub_le _ _
    have hreads : Reads (readValue (levelsAt depth)).run
        (IsPiece (maxDepth + 1 - levelsAt depth)) := reads_readValue (Nat.sub_add_cancel hlevels)
    obtain ⟨hnext, hless⟩ := hat.lt_of_run hreads hrun
    have hoffset : next.offset + next.rest.length = r.stream.length := hnext.streamLength_eq
    exact ⟨hless, by omega, hnext.eq_cursor⟩
  · intro depth
    rw [← hleft]
    exact ⟨loopEnds_many _ _, loopEnds_many _ _⟩
  · intro rounds outcome last hruns
    obtain ⟨hparse, hrounds, -⟩ := hruns.eq_parse h
    exact ⟨hparse, hrounds⟩
  · rw [hlast]
  · rw [hlast]
    exact Reader.parse_at_end rfl

/-- An open array with an empty text, an end mark of its own, and an integer that is cut short. -/
def emptyTextBytes : Bytes := [0xDF, 0x40, 0x03, 0x03, 0x32, 0x0A, 0x0B]

/-- The empty text takes one byte.  The reader gets to the integer in two rounds, and then to the
end of the stream. -/
theorem reading_advances_emptyText :
    (1 ≤ emptyTextBytes.length ∧
      (readValue (levelsAt 1)).run (Reader.cursor ⟨emptyTextBytes, 1⟩)
        = .ok (some (.string ""), ⟨2, [0x03, 0x03, 0x32, 0x0A, 0x0B]⟩) ∧
      1 + 1 ≤ 2 ∧ 2 ≤ emptyTextBytes.length) ∧
    ((Reader.ofBytes emptyTextBytes).RunsTo 2 (.error (.outOfBounds 9 7)) ⟨emptyTextBytes, 7⟩ ∧
      (Reader.ofBytes emptyTextBytes).parse = (.error (.outOfBounds 9 7), ⟨emptyTextBytes, 7⟩) ∧
      (Reader.mk emptyTextBytes 7).parse = (.ok [], ⟨emptyTextBytes, 7⟩)) := by
  have hempty : Sentence 1 [0x40] (.string "") :=
    .leaf (by decide) (@Leaf.short .text _ _ (by decide) (.text ""))
  have harray : Sentence 0 [0xDF, 0x40, 0x03] (.array [.string ""]) := by
    refine @Sentence.openArray 0 [⟨[0x40], .string ""⟩] (by decide) ?_
    rw [List.forall_mem_singleton]
    exact hempty
  have htext : (readValue (levelsAt 1)).run (Reader.cursor ⟨emptyTextBytes, 1⟩)
      = .ok (some (.string ""), ⟨2, [0x03, 0x03, 0x32, 0x0A, 0x0B]⟩) := hempty.accepts 1 _
  obtain ⟨hless, hle, -⟩ := (reading_advances ⟨emptyTextBytes, 1⟩ (by decide)).1 1 _ _ htext
  have hopen : topLevel.run (Reader.cursor ⟨emptyTextBytes, 0⟩)
      = .ok (some (.array [.string ""]), ⟨3, [0x03, 0x32, 0x0A, 0x0B]⟩) := harray.accepts 0 _
  have hmark : topLevel.run (Reader.cursor ⟨emptyTextBytes, 3⟩)
      = .ok (none, ⟨4, [0x32, 0x0A, 0x0B]⟩) := rfl
  have hinteger : topLevel.run (Reader.cursor ⟨emptyTextBytes, 4⟩)
      = .error (.outOfBounds 9 7) := rfl
  have hruns : (Reader.ofBytes emptyTextBytes).RunsTo 2 (.error (.outOfBounds 9 7))
      ⟨emptyTextBytes, 7⟩ :=
    .value (by decide) hopen (.value (by decide) hmark (.failure (by decide) hinteger))
  obtain ⟨-, -, ⟨-, honly⟩, -, hagain⟩ :=
    reading_advances (Reader.ofBytes emptyTextBytes) (Nat.zero_le _)
  obtain ⟨hparse, -⟩ := honly _ _ _ hruns
  rw [← hparse] at hagain
  exact ⟨⟨by decide, htext, hless, hle⟩, hruns, hparse.symm, hagain⟩

end PlistCodec.Opack
