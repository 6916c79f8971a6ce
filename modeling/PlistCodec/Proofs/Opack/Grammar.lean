import PlistCodec.Proofs.Opack.Piece

/-!
# The grammar of OPACK

The sentences of OPACK are given here by the bytes that they are made of, without any regard to how
they are read.  `Leaf` has the sentences without children, and `Sentence` those with children too,
by their depth in the outermost one.  A stream `Splits` into pieces, each of which is a sentence or
an end mark that denotes nothing.

The parser of values accepts every piece as what it denotes (`IsPiece.accepts`), so whatever splits
into pieces is read (`Splits.readValues_eq`), and it splits in one way only (`Splits.unique`).
-/

namespace PlistCodec.Opack

/-! ## Pieces -/

/-- A part of a stream, with what it denotes. -/
structure Piece (α : Type) where
  /-- The bytes of the part. -/
  bytes : Bytes
  /-- What they denote. -/
  value : α

/-- The bytes of pieces that stand one behind the other. -/
def join {α : Type} (pieces : List (Piece α)) : Bytes := (pieces.map Piece.bytes).flatten

/-- What pieces denote that may denote nothing. -/
def denoted {α : Type} (pieces : List (Piece (Option α))) : List α :=
  pieces.filterMap Piece.value

/-! ## Sentences -/

/-- The tree of a payload.  The payload of a text is its UTF-8 bytes. -/
inductive IsPayload : Payload → Bytes → Tree → Prop where
  /-- A text. -/
  | text (text : String) : IsPayload .text (Bytes.ofString text) (.string text)
  /-- Data. -/
  | data (bytes : Bytes) : IsPayload .data bytes (.data bytes)

/-- The tag of the empty payload.  The tags of longer ones follow it, up to 32 bytes. -/
def shortTag : Payload → Nat
  | .text => 0x40
  | .data => 0x70

/-- The tags that have a length behind them, and how many bytes it takes. -/
def sizedTags : Payload → List (UInt8 × Nat)
  | .text => [(0x61, 1), (0x62, 2), (0x63, 4), (0x64, 8)]
  | .data => [(0x91, 1), (0x92, 2), (0x93, 4), (0x94, 8)]

/-- Sentences without children. -/
inductive Leaf : Bytes → Tree → Prop where
  /-- True. -/
  | yes : Leaf [0x01] (.bool true)
  /-- False. -/
  | no : Leaf [0x02] (.bool false)
  /-- The date that lies a real number of seconds after the reference date, if it has a calendar. -/
  | date {payload : Bytes} {date : Date} (hlength : payload.length = 8)
      (hdate : Date.ofReferenceSeconds? (realOfLong payload) = some date) :
      Leaf (0x06 :: payload) (.date date)
  /-- An integer from 0 to 39. -/
  | small {n : Nat} (h : n ≤ 0x27) : Leaf [UInt8.ofNat (0x08 + n)] (.int n)
  /-- An integer of one byte with its sign, as a word of 64 bits. -/
  | int8 (byte : UInt8) : Leaf [0x30, byte] (.int (Tree.wordOfInt byte.toInt8.toInt))
  /-- An integer of four bytes without a sign. -/
  | int32 {payload : Bytes} (hlength : payload.length = 4) :
      Leaf (0x32 :: payload) (.int (Bytes.ofLittleEndian payload))
  /-- An integer of eight bytes without a sign. -/
  | int64 {payload : Bytes} (hlength : payload.length = 8) :
      Leaf (0x33 :: payload) (.int (Bytes.ofLittleEndian payload))
  /-- A real of four bytes. -/
  | real32 {payload : Bytes} (hlength : payload.length = 4) :
      Leaf (0x35 :: payload) (.real (realOfShort payload))
  /-- A real of eight bytes. -/
  | real64 {payload : Bytes} (hlength : payload.length = 8) :
      Leaf (0x36 :: payload) (.real (realOfLong payload))
  /-- A text or data whose length is in the tag. -/
  | short {kind : Payload} {payload : Bytes} {tree : Tree} (hshort : payload.length ≤ 0x20)
      (h : IsPayload kind payload tree) :
      Leaf (UInt8.ofNat (shortTag kind + payload.length) :: payload) tree
  /-- A text or data behind its length, which may be in more bytes than it needs. -/
  | sized {kind : Payload} {tag : UInt8} {width : Nat} {field payload : Bytes} {tree : Tree}
      (htag : (tag, width) ∈ sizedTags kind) (hwidth : field.length = width)
      (hlength : Bytes.ofLittleEndian field = payload.length) (h : IsPayload kind payload tree) :
      Leaf (tag :: (field ++ payload)) tree

/-- Sentences at a depth, and the trees that they denote.  Containers are counted, with up to 14
children, or open, with an end mark behind their children.  The mark takes a place among them, so an
open container has to leave room for it even if it is empty.  Of entries with the same key, the
first one determines the place and the last one the value. -/
inductive Sentence : (depth : Nat) → Bytes → Tree → Prop where
  /-- A sentence without children. -/
  | leaf {depth : Nat} {bytes : Bytes} {tree : Tree} (hdepth : depth ≤ maxDepth)
      (h : Leaf bytes tree) : Sentence depth bytes tree
  /-- A counted array. -/
  | countedArray {depth : Nat} {items : List (Piece Tree)} (hdepth : depth ≤ maxDepth)
      (hcount : items.length ≤ 14)
      (hitems : ∀ item ∈ items, Sentence (depth + 1) item.bytes item.value) :
      Sentence depth (UInt8.ofNat (0xD0 + items.length) :: join items)
        (.array (items.map Piece.value))
  /-- An open array. -/
  | openArray {depth : Nat} {items : List (Piece Tree)} (hdepth : depth + 1 ≤ maxDepth)
      (hitems : ∀ item ∈ items, Sentence (depth + 1) item.bytes item.value) :
      Sentence depth (0xDF :: (join items ++ [0x03])) (.array (items.map Piece.value))
  /-- A counted dictionary. -/
  | countedDict {depth : Nat} {entries : List (Piece String × Piece Tree)}
      (hdepth : depth ≤ maxDepth) (hcount : entries.length ≤ 14)
      (hkeys : ∀ e ∈ entries, Sentence (depth + 1) e.1.bytes (.string e.1.value))
      (hvalues : ∀ e ∈ entries, Sentence (depth + 1) e.2.bytes e.2.value) :
      Sentence depth (UInt8.ofNat (0xE0 + entries.length) ::
          (entries.map fun e => e.1.bytes ++ e.2.bytes).flatten)
        (.dict (Dict.ofList (entries.map fun e => (e.1.value, e.2.value))))
  /-- An open dictionary. -/
  | openDict {depth : Nat} {entries : List (Piece String × Piece Tree)}
      (hdepth : depth + 1 ≤ maxDepth)
      (hkeys : ∀ e ∈ entries, Sentence (depth + 1) e.1.bytes (.string e.1.value))
      (hvalues : ∀ e ∈ entries, Sentence (depth + 1) e.2.bytes e.2.value) :
      Sentence depth (0xEF :: ((entries.map fun e => e.1.bytes ++ e.2.bytes).flatten ++ [0x03]))
        (.dict (Dict.ofList (entries.map fun e => (e.1.value, e.2.value))))

theorem Sentence.depth_le {depth : Nat} {bytes : Bytes} {tree : Tree}
    (h : Sentence depth bytes tree) : depth ≤ maxDepth := by
  cases h with
  | leaf hdepth => exact hdepth
  | countedArray hdepth => exact hdepth
  | openArray hdepth => exact Nat.le_of_succ_le hdepth
  | countedDict hdepth => exact hdepth
  | openDict hdepth => exact Nat.le_of_succ_le hdepth

/-- What may stand in a place of a stream: a sentence, or an end mark. -/
inductive IsPiece (depth : Nat) : Bytes → Option Tree → Prop where
  /-- A sentence. -/
  | sentence {bytes : Bytes} {tree : Tree} (h : Sentence depth bytes tree) :
      IsPiece depth bytes (some tree)
  /-- An end mark. -/
  | mark (hdepth : depth ≤ maxDepth) : IsPiece depth [0x03] none

/-- The pieces make up the stream. -/
structure Splits (stream : Bytes) (pieces : List (Piece (Option Tree))) : Prop where
  /-- They stand one behind the other. -/
  join_eq : join pieces = stream
  /-- Each is a sentence or an end mark. -/
  isPiece : ∀ piece ∈ pieces, IsPiece 0 piece.bytes piece.value

/-! ## Sentences are accepted -/

theorem signExtended_singleton (byte : UInt8) :
    signExtended [byte] = Tree.wordOfInt byte.toInt8.toInt := by
  have all : ∀ n : Fin 256,
      signExtended [UInt8.ofNat n] = Tree.wordOfInt (UInt8.ofNat n).toInt8.toInt := by
    decide +kernel
  have h := all ⟨byte.toNat, byte.toNat_lt⟩
  simpa using h

theorem IsPayload.payloadTree?_eq {kind : Payload} {payload : Bytes} {tree : Tree}
    (h : IsPayload kind payload tree) : payloadTree? kind payload = some tree := by
  cases h with
  | text text => exact payloadTree?_ofString text
  | data bytes => rfl

theorem mem_sizedTags (kind : Payload) (width : Width) :
    ((Tag.sized kind width).toByte, width.bytes) ∈ sizedTags kind := by
  cases kind <;> cases width <;> decide

theorem exists_width_of_mem_sizedTags {kind : Payload} {tag : UInt8} {width : Nat}
    (h : (tag, width) ∈ sizedTags kind) :
    ∃ w : Width, tag = (Tag.sized kind w).toByte ∧ width = w.bytes := by
  cases kind
  all_goals
    simp only [sizedTags, List.mem_cons, Prod.mk.injEq, List.not_mem_nil, or_false] at h
    rcases h with ⟨rfl, rfl⟩ | ⟨rfl, rfl⟩ | ⟨rfl, rfl⟩ | ⟨rfl, rfl⟩
    · exact ⟨.one, rfl, rfl⟩
    · exact ⟨.two, rfl, rfl⟩
    · exact ⟨.four, rfl, rfl⟩
    · exact ⟨.eight, rfl, rfl⟩

theorem Leaf.accepts {bytes : Bytes} {tree : Tree} (h : Leaf bytes tree) (levels : Nat) :
    (readValue (levels + 1)).Accepts bytes (some tree) := by
  cases h with
  | yes => exact @readValue_accepts levels (.bool true) rfl _ _ fun _ _ => rfl
  | no => exact @readValue_accepts levels (.bool false) rfl _ _ fun _ _ => rfl
  | date hlength hdate =>
    refine @fixed_accepts _ _ .date _ rfl (fun _ _ => rfl) _ _ hlength ?_
    simp only [dateOfBytes, hdate]
  | small h =>
    exact @readValue_accepts levels (.small _) (decide_eq_true h) _ _ fun _ _ => rfl
  | int8 byte =>
    refine @fixed_accepts _ _ .int8 _ rfl (fun _ _ => rfl) [byte] _ rfl ?_
    rw [signExtended_singleton]
  | int32 hlength => exact @fixed_accepts _ _ .int32 _ rfl (fun _ _ => rfl) _ _ hlength rfl
  | int64 hlength => exact @fixed_accepts _ _ .int64 _ rfl (fun _ _ => rfl) _ _ hlength rfl
  | real32 hlength => exact @fixed_accepts _ _ .real32 _ rfl (fun _ _ => rfl) _ _ hlength rfl
  | real64 hlength => exact @fixed_accepts _ _ .real64 _ rfl (fun _ _ => rfl) _ _ hlength rfl
  | @short kind payload _ hshort h =>
    have haccepts := @short_accepts levels kind payload _ hshort h.payloadTree?_eq
    cases kind <;> exact haccepts
  | sized htag hwidth hlength h =>
    obtain ⟨w, rfl, rfl⟩ := exists_width_of_mem_sizedTags htag
    exact sized_accepts hwidth hlength h.payloadTree?_eq

/-- How many levels of nesting are left at a depth. -/
def levelsAt (depth : Nat) : Nat := maxDepth + 1 - depth

theorem levelsAt_eq_succ {depth : Nat} (h : depth ≤ maxDepth) :
    levelsAt depth = levelsAt (depth + 1) + 1 := by
  unfold levelsAt
  omega

theorem mark_accepts {depth : Nat} (h : depth ≤ maxDepth) :
    (readValue (levelsAt depth)).Accepts [0x03] none := by
  rw [levelsAt_eq_succ h]
  exact readValue_accepts_terminator (levelsAt (depth + 1))

theorem forall₂_accepts {α β : Type} {p : Parser (Option β)} {bytes : α → Bytes} {value : α → β}
    {xs : List α} (h : ∀ x ∈ xs, p.Accepts (bytes x) (some (value x))) :
    List.Forall₂ (fun piece a => p.Accepts piece (some a)) (xs.map bytes) (xs.map value) := by
  rw [List.forall₂_map_left_iff, List.forall₂_map_right_iff]
  exact List.forall₂_same.mpr h

/-- **Sentences are accepted** at their depth, as what they denote.  The induction is on the
sentence; the levels that are left decrease as the depth increases. -/
theorem Sentence.accepts {depth : Nat} {bytes : Bytes} {tree : Tree}
    (h : Sentence depth bytes tree) : (readValue (levelsAt depth)).Accepts bytes (some tree) := by
  induction h with
  | @leaf depth _ _ hdepth h =>
    rw [levelsAt_eq_succ hdepth]
    exact h.accepts (levelsAt (depth + 1))
  | @countedArray depth items hdepth hcount _ ih =>
    have haccepts := forall₂_accepts ih
    have hlength : (items.map Piece.value).length = items.length := List.length_map _
    rw [levelsAt_eq_succ hdepth]
    have hcounted := counted_accepts (readBy_array (levelsAt (depth + 1)))
      (by rw [hlength]; exact hcount) haccepts
    rw [hlength] at hcounted
    exact hcounted
  | @openArray depth items hdepth _ ih =>
    have haccepts := forall₂_accepts ih
    rw [levelsAt_eq_succ (Nat.le_of_succ_le hdepth)]
    exact opened_accepts (readBy_array (levelsAt (depth + 1))) (mark_accepts hdepth) haccepts
  | @countedDict depth entries hdepth hcount _ _ ihkeys ihvalues =>
    have haccepts := forall₂_accepts fun e he =>
      entryParser_accepts (ihkeys e he) (ihvalues e he)
    have hlength : (entries.map fun e => (e.1.value, e.2.value)).length = entries.length :=
      List.length_map _
    rw [levelsAt_eq_succ hdepth]
    have hcounted := counted_accepts (readBy_dict (levelsAt (depth + 1)))
      (by rw [hlength]; exact hcount) haccepts
    rw [hlength] at hcounted
    exact hcounted
  | @openDict depth entries hdepth _ _ ihkeys ihvalues =>
    have haccepts := forall₂_accepts fun e he =>
      entryParser_accepts (ihkeys e he) (ihvalues e he)
    rw [levelsAt_eq_succ (Nat.le_of_succ_le hdepth)]
    exact opened_accepts (readBy_dict (levelsAt (depth + 1)))
      (entryParser_accepts_none (mark_accepts hdepth)) haccepts

theorem IsPiece.accepts {depth : Nat} {bytes : Bytes} {value : Option Tree}
    (h : IsPiece depth bytes value) : (readValue (levelsAt depth)).Accepts bytes value := by
  cases h with
  | sentence h => exact h.accepts
  | mark hdepth => exact mark_accepts hdepth

/-! ## Streams of pieces -/

section Streams

variable {α : Type} {p : Parser (Option α)}

theorem ne_nil_of_accepts {piece : Bytes} {value : Option α} (h : p.Accepts piece value) :
    piece ≠ [] := by
  rintro rfl
  have hlt := p.advances (h 0 [])
  exact absurd hlt (Nat.lt_irrefl _)

/-- Only one beginning of a stream is accepted. -/
theorem accepts_unique {piece other rest more : Bytes} {value value' : Option α}
    (h : p.Accepts piece value) (h' : p.Accepts other value')
    (heq : piece ++ rest = other ++ more) :
    piece = other ∧ value = value' ∧ rest = more := by
  have hrun := h 0 rest
  rw [heq, h' 0 more] at hrun
  simp only [Except.ok.injEq, Prod.mk.injEq, Cursor.mk.injEq] at hrun
  obtain ⟨hvalue, -, hrest⟩ := hrun
  rw [hrest] at heq
  exact ⟨List.append_cancel_right heq, hvalue.symm, hrest.symm⟩

theorem join_cons (piece : Piece α) (pieces : List (Piece α)) :
    join (piece :: pieces) = piece.bytes ++ join pieces := by
  simp [join]

/-- Accepted pieces that make up the same bytes are the same. -/
theorem join_injective {pieces others : List (Piece (Option α))}
    (h : ∀ piece ∈ pieces, p.Accepts piece.bytes piece.value)
    (h' : ∀ piece ∈ others, p.Accepts piece.bytes piece.value) (heq : join pieces = join others) :
    pieces = others := by
  induction pieces generalizing others with
  | nil =>
    cases others with
    | nil => rfl
    | cons other others =>
      rw [join_cons] at heq
      have hnil := (List.append_eq_nil_iff.mp heq.symm).1
      exact absurd hnil (ne_nil_of_accepts (h' other List.mem_cons_self))
  | cons piece pieces ih =>
    cases others with
    | nil =>
      rw [join_cons] at heq
      have hnil := (List.append_eq_nil_iff.mp heq).1
      exact absurd hnil (ne_nil_of_accepts (h piece List.mem_cons_self))
    | cons other others =>
      rw [join_cons, join_cons] at heq
      obtain ⟨hbytes, hvalue, hrest⟩ :=
        accepts_unique (h piece List.mem_cons_self) (h' other List.mem_cons_self) heq
      have hpiece : piece = other := by
        cases piece
        cases other
        simp_all
      have hpieces := ih (fun q hq => h q (List.mem_cons_of_mem _ hq))
        (fun q hq => h' q (List.mem_cons_of_mem _ hq)) hrest
      rw [hpiece, hpieces]

/-- Accepted pieces are read before anything that stands behind them. -/
theorem readAll_join_append {pieces : List (Piece (Option α))}
    (h : ∀ piece ∈ pieces, p.Accepts piece.bytes piece.value) (offset : Nat) (rest : Bytes) :
    p.readAll ⟨offset, join pieces ++ rest⟩
      = (p.readAll ⟨offset + (join pieces).length, rest⟩).map fun as => denoted pieces ++ as := by
  induction pieces generalizing offset with
  | nil =>
    have hbehind : offset + (join ([] : List (Piece (Option α)))).length = offset := rfl
    have hempty : join ([] : List (Piece (Option α))) ++ rest = rest := rfl
    rw [hbehind, hempty]
    cases p.readAll ⟨offset, rest⟩ <;> rfl
  | cons piece pieces ih =>
    have hfirst := h piece List.mem_cons_self offset (join pieces ++ rest)
    have hrest := ih (fun q hq => h q (List.mem_cons_of_mem _ hq)) (offset + piece.bytes.length)
    rw [join_cons, List.append_assoc, Parser.readAll_of_ok hfirst, hrest, List.length_append,
      Nat.add_assoc]
    have hdenoted : denoted (piece :: pieces) = piece.value.toList ++ denoted pieces := by
      rw [denoted, List.filterMap_cons]
      cases piece.value <;> rfl
    rw [hdenoted]
    cases p.readAll ⟨offset + (piece.bytes.length + (join pieces).length), rest⟩ with
    | error e => rfl
    | ok as => simp only [Except.map, List.append_assoc]

/-- A stream of accepted pieces is read to its end, wherever it begins. -/
theorem readAll_join {pieces : List (Piece (Option α))}
    (h : ∀ piece ∈ pieces, p.Accepts piece.bytes piece.value) (offset : Nat) :
    p.readAll ⟨offset, join pieces⟩ = .ok (denoted pieces) := by
  have hread := readAll_join_append h offset []
  rw [List.append_nil, Parser.readAll_end] at hread
  rw [hread]
  simp only [Except.map, List.append_nil]

end Streams

variable {stream : Bytes} {pieces others : List (Piece (Option Tree))}

theorem Splits.accepts (h : Splits stream pieces) :
    ∀ piece ∈ pieces, topLevel.Accepts piece.bytes piece.value :=
  fun piece hpiece => (h.isPiece piece hpiece).accepts

theorem Splits.readValues_eq (h : Splits stream pieces) :
    readValues stream = .ok (denoted pieces) := by
  rw [readValues, ← h.join_eq]
  exact readAll_join h.accepts 0

theorem Splits.unique (h : Splits stream pieces) (h' : Splits stream others) : pieces = others :=
  join_injective h.accepts h'.accepts (h.join_eq.trans h'.join_eq.symm)

end PlistCodec.Opack
