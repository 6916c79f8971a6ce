import PlistCodec.Opack.Decode
import PlistCodec.Proofs.Opack.Recognition

/-!
# Streams that grow

Reading is *steady*: with more bytes behind a stream, everything that was read is read again, and a
failure stays the same failure, unless it is for want of bytes (`steady_readValue`).  So a stream
that can be read is read first when more is put behind it, and the rest is read as on its own
(`readAll_append`).  Decoding two streams in a row is decoding one after the other
(`decodeInto_append`).
-/

namespace PlistCodec.Opack

/-- The failures for want of bytes. -/
def Error.IsOutOfBounds : Error → Prop
  | .outOfBounds _ _ => True
  | _ => False

/-- The same place in a stream with more bytes at its end. -/
def Cursor.extend (c : Cursor) (more : Bytes) : Cursor := ⟨c.offset, c.rest ++ more⟩

/-! ## Steady readings -/

section Steady

variable {α β : Type}

/-- What may become of an outcome when there are more bytes: nothing else, unless it is a failure
for want of bytes. -/
inductive Extends (more : Bytes) :
    Except Error (α × Cursor) → Except Error (α × Cursor) → Prop where
  /-- What was read is read again. -/
  | ok (a : α) (next : Cursor) : Extends more (.ok (a, next)) (.ok (a, next.extend more))
  /-- A failure stays the same. -/
  | error (e : Error) : Extends more (.error e) (.error e)
  /-- Bytes that were missing may be there. -/
  | short {e : Error} (h : e.IsOutOfBounds) (outcome : Except Error (α × Cursor)) :
      Extends more (.error e) outcome

/-- The outcome does not depend on bytes that were not looked at. -/
def Steady (read : Cursor → Except Error (α × Cursor)) : Prop :=
  ∀ c more, Extends more (read c) (read (c.extend more))

variable {read : Cursor → Except Error (α × Cursor)} {c next : Cursor}

theorem Steady.of_ok (h : Steady read) {a : α} (hread : read c = .ok (a, next)) (more : Bytes) :
    read (c.extend more) = .ok (a, next.extend more) := by
  have hextends := h c more
  rw [hread] at hextends
  generalize read (c.extend more) = outcome at hextends
  cases hextends with
  | ok => rfl

theorem Steady.of_error (h : Steady read) {e : Error} (hread : read c = .error e)
    (he : ¬e.IsOutOfBounds) (more : Bytes) : read (c.extend more) = .error e := by
  have hextends := h c more
  rw [hread] at hextends
  generalize read (c.extend more) = outcome at hextends
  cases hextends with
  | error => rfl
  | short hshort => exact absurd hshort he

/-- A reading that begins with a steady one is steady if it is so whenever that succeeds. -/
theorem Steady.bind {rest : Cursor → Except Error (β × Cursor)} (h : Steady read)
    (herror : ∀ c e, read c = .error e → rest c = .error e)
    (hok : ∀ c a next more, read c = .ok (a, next) →
      read (c.extend more) = .ok (a, next.extend more) →
      Extends more (rest c) (rest (c.extend more))) : Steady rest := by
  intro c more
  cases hread : read c with
  | ok r =>
    obtain ⟨a, next⟩ := r
    exact hok c a next more hread (h.of_ok hread more)
  | error e =>
    rw [herror c e hread]
    by_cases he : e.IsOutOfBounds
    · exact .short he _
    · rw [herror _ e (h.of_error hread he more)]
      exact .error e

theorem Steady.map {f : α → β} (h : Steady read) :
    Steady fun c => (read c).map fun (a, next) => (f a, next) := by
  refine h.bind ?_ ?_
  · intro c e hread
    rw [hread]
    rfl
  · intro c a next more hread hread'
    rw [hread, hread']
    exact .ok (f a) next

end Steady

/-! ## Scalars and payloads -/

theorem steady_take (n : Nat) : Steady fun c => c.take n := by
  intro c more
  cases htake : c.take n with
  | ok r =>
    obtain ⟨taken, next⟩ := r
    obtain ⟨hlength, hpasses⟩ := Cursor.passes_of_take htake
    have hagain := Cursor.take_append c.offset taken (next.rest ++ more)
    have hnext : next.extend more = ⟨c.offset + taken.length, next.rest ++ more⟩ := by
      rw [Cursor.extend, hpasses.offset_eq]
    have hrest : c.extend more = ⟨c.offset, taken ++ (next.rest ++ more)⟩ := by
      rw [Cursor.extend, hpasses.rest_eq, List.append_assoc]
    have hread : (c.extend more).take n = .ok (taken, next.extend more) := by
      rw [hrest, hnext, ← hlength, hagain]
    simp only [htake, hread]
    exact .ok taken next
  | error e =>
    have hshort : e.IsOutOfBounds := by
      rw [Cursor.take] at htake
      split at htake
      · cases htake
      · cases htake
        trivial
    simp only [htake]
    exact .short hshort _

theorem steady_fixed (width : Nat) (meaning : Bytes → Except Error Tree) :
    Steady (readFixed width meaning) := by
  refine (steady_take width).bind ?_ ?_
  · intro c e h
    rw [readFixed, h]
  · intro c bytes next more h h'
    simp only [readFixed, h, h']
    cases meaning bytes with
    | error e => exact .error e
    | ok tree => exact .ok tree next

theorem steady_payload (kind : Payload) (length : Nat) : Steady (readPayload kind length) := by
  refine (steady_take length).bind ?_ ?_
  · intro c e h
    rw [readPayload, h]
  · intro c bytes next more h h'
    simp only [readPayload, h, h']
    cases kind with
    | data => exact .ok (Tree.data bytes) next
    | text =>
      cases Utf8.decode bytes with
      | error fault => exact .error (.invalidText fault)
      | ok text => exact .ok (Tree.string text) next

theorem steady_sized (kind : Payload) (width : Width) : Steady (readSized kind width) := by
  refine (steady_take width.bytes).bind ?_ ?_
  · intro c e h
    rw [readSized, h]
  · intro c field next more h h'
    simp only [readSized, h, h']
    exact steady_payload kind (Bytes.ofLittleEndian field) next more

/-! ## Loops -/

section Loops

variable {α : Type} {p : Parser (Option α)}

theorem Parser.many_of_error {c : Cursor} {e : Error} (h : p.run c = .error e) :
    p.many c = .error e := by
  rw [Parser.many.eq_def]
  split <;> simp_all

theorem steady_exactly (hp : Steady p.run) (n : Nat) : Steady (p.exactly n) := by
  induction n with
  | zero =>
    intro c more
    exact .ok [] c
  | succ n ih =>
    refine hp.bind ?_ ?_
    · intro c e h
      rw [Parser.exactly, h]
    · intro c a? next more h h'
      simp only [Parser.exactly, h, h']
      cases a? with
      | none => exact .error (.unexpectedTerminator c.offset)
      | some a =>
        have hrest := ih next more
        simp only
        generalize p.exactly n next = outcome, p.exactly n (next.extend more) = outcome' at hrest ⊢
        cases hrest with
        | ok as last => exact .ok (a :: as) last
        | error e => exact .error e
        | short he => exact .short he _

theorem steady_many (hp : Steady p.run) : Steady p.many := by
  intro c more
  fun_induction Parser.many p c with
  | case1 c e hrun =>
    by_cases he : e.IsOutOfBounds
    · exact .short he _
    · rw [Parser.many_of_error (hp.of_error hrun he more)]
      exact .error e
  | case2 c next hrun =>
    rw [Parser.many_of_none (hp.of_ok hrun more)]
    exact .ok [] next
  | case3 c a next hrun e hrest ih =>
    rw [Parser.many_of_some (hp.of_ok hrun more)]
    rw [hrest] at ih
    generalize p.many (next.extend more) = outcome at ih ⊢
    cases ih with
    | error => exact .error e
    | short he => exact .short he _
  | case4 c a next hrun as last hrest ih =>
    rw [Parser.many_of_some (hp.of_ok hrun more)]
    rw [hrest] at ih
    generalize p.many (next.extend more) = outcome at ih ⊢
    cases ih with
    | ok => exact .ok (a :: as) last

end Loops

/-! ## Values -/

section Values

variable {child : Parser (Option Tree)}

theorem steady_entry (h : Steady child.run) : Steady (entryParser child).run := by
  refine h.bind ?_ ?_
  · intro c e hrun
    simp only [entryParser, readEntry, hrun]
  · intro c key? next more hrun hrun'
    simp only [entryParser, readEntry, hrun, hrun']
    cases key? with
    | none => exact .ok none next
    | some key =>
      cases key with
      | string key =>
        have hvalue := h next more
        simp only
        generalize child.run next = outcome, child.run (next.extend more) = outcome' at hvalue ⊢
        cases hvalue with
        | error e => exact .error e
        | short he => exact .short he _
        | ok value? last =>
          cases value? with
          | none => exact .error (.unexpectedTerminator next.offset)
          | some value => exact .ok (some (key, value)) last
      | _ => exact .error (.invalidKey c.offset)

theorem steady_container
    {loop : ∀ {α : Type}, Parser (Option α) → Cursor → Except Error (List α × Cursor)}
    (hloop : ∀ {α : Type} {p : Parser (Option α)}, Steady p.run → Steady (loop p))
    (h : Steady child.run) (kind : Container) : Steady (readContainer child loop kind) := by
  cases kind with
  | array => exact (hloop h).map
  | dict =>
    have hentries := hloop (steady_entry h)
    exact @Steady.map _ _ _ (fun entries => Tree.dict (Dict.ofList entries)) hentries

theorem steady_body (h : Steady child.run) (tag : Tag) : Steady (readBody child tag) := by
  cases tag with
  | terminator => exact fun c _ => .ok none c
  | bool value => exact fun c _ => .ok (some (Tree.bool value)) c
  | small value => exact fun c _ => .ok (some (Tree.int value)) c
  | short kind length => exact (steady_payload kind length).map
  | sized kind width => exact (steady_sized kind width).map
  | counted kind count => exact (steady_container (fun hp => steady_exactly hp count) h kind).map
  | opened kind => exact (steady_container steady_many h kind).map
  | _ => exact (steady_fixed _ _).map

/-- **Reading is steady**, at any depth. -/
theorem steady_readValue (levels : Nat) : Steady (readValue levels).run := by
  induction levels with
  | zero => exact fun _ _ => .error (.recursionLimit maxDepth)
  | succ levels ih =>
    intro c more
    obtain ⟨offset, rest⟩ := c
    cases rest with
    | nil =>
      have hshort : (Cursor.short ⟨offset, []⟩ 1).IsOutOfBounds := trivial
      exact .short hshort _
    | cons byte rest =>
      simp only [readValue, readTagged, Cursor.extend, List.cons_append]
      cases Tag.ofByte? byte with
      | none => exact .error (.unexpectedByte byte offset)
      | some tag => exact steady_body ih tag ⟨offset + 1, rest⟩ more

end Values

/-! ## Streams -/

section Streams

variable {α : Type} {p : Parser (Option α)}

theorem readAll_of_error {c : Cursor} {e : Error} (hrest : c.rest ≠ []) (h : p.run c = .error e) :
    p.readAll c = .error e := by
  rw [Parser.readAll, if_neg (by simpa using hrest)]
  split <;> simp_all

/-- A stream that cannot be read for another reason than its length cannot be read with more bytes
behind it either. -/
theorem readAll_extend_of_error (hp : Steady p.run) {c : Cursor} {e : Error}
    (h : p.readAll c = .error e) (he : ¬e.IsOutOfBounds) (more : Bytes) :
    p.readAll (c.extend more) = .error e := by
  fun_induction Parser.readAll p c with
  | case1 => cases h
  | case2 c hempty e' hrun =>
    cases h
    have hrest : (c.extend more).rest ≠ [] := by
      intro hnil
      exact hempty (List.isEmpty_iff.mpr (List.append_eq_nil_iff.mp hnil).1)
    exact readAll_of_error hrest (hp.of_error hrun he more)
  | case3 c hempty a? next hrun e' hrest ih =>
    cases h
    rw [Parser.readAll_of_ok (hp.of_ok hrun more), ih hrest]
    rfl
  | case4 => cases h

end Streams

theorem readValues_append_of_error {a : Bytes} {e : Error} (h : readValues a = .error e)
    (he : ¬e.IsOutOfBounds) (b : Bytes) : readValues (a ++ b) = .error e :=
  readAll_extend_of_error (steady_readValue (maxDepth + 1)) h he b

/-- A stream that can be read at some place can be read at any. -/
theorem readAll_topLevel_iff (offset : Nat) (stream : Bytes) (values : List Tree) :
    topLevel.readAll ⟨offset, stream⟩ = .ok values ↔ readValues stream = .ok values := by
  have hreads : Reads topLevel.run (IsPiece 0) := reads_readValue (Nat.zero_add _)
  have hany : ∀ offset other, topLevel.readAll ⟨offset, stream⟩ = .ok values →
      topLevel.readAll ⟨other, stream⟩ = .ok values := by
    intro offset other h
    obtain ⟨pieces, rfl, rfl, hpieces⟩ := exists_pieces_of_readAll hreads h
    exact readAll_join (fun piece hpiece => (hpieces piece hpiece).accepts) other
  exact ⟨hany offset 0, hany 0 offset⟩

/-- **A stream that can be read is read first.**  Then the rest is read as a stream of its own. -/
theorem readValues_append_iff {a b : Bytes} {as values : List Tree} (h : readValues a = .ok as) :
    readValues (a ++ b) = .ok values ↔ ∃ bs, readValues b = .ok bs ∧ values = as ++ bs := by
  obtain ⟨pieces, hsplits, rfl⟩ := exists_splits_of_readValues h
  have happend := readAll_join_append hsplits.accepts 0 b
  rw [hsplits.join_eq] at happend
  rw [readValues, happend]
  constructor
  · intro hread
    obtain ⟨bs, hbs, hvalues⟩ := exists_of_map_eq_ok hread
    exact ⟨bs, (readAll_topLevel_iff _ _ _).mp hbs, hvalues.symm⟩
  · rintro ⟨bs, hbs, rfl⟩
    rw [(readAll_topLevel_iff _ _ _).mpr hbs]
    rfl

/-! ## Decoding -/

/-- A stream of one sentence is decoded to what that denotes. -/
theorem decode_of_sentence {bytes : Bytes} {value : Tree} (h : Sentence 0 bytes value) :
    decode bytes = .ok value := by
  have hread : readValues bytes = .ok [value] := Parser.readAll_of_accepts h.accepts 0
  rw [decode, hread]
  rfl

/-- The stream can be decoded; what into is of no importance. -/
def Decodes (stream : Bytes) : Prop := (decodeInto stream none).1 = .ok ()

section Decoding

variable {stream : Bytes} {out : Option Tree}

theorem decodeInto_of_ok {values : List Tree} (h : readValues stream = .ok values) :
    decodeInto stream out = (.ok (), mergeAll out values) := by
  rw [decodeInto, h]

theorem decodeInto_of_error {e : Error} (h : readValues stream = .error e) :
    decodeInto stream out = (.error e, out) := by
  rw [decodeInto, h]

theorem decodeInto_eq_ok_iff :
    (decodeInto stream out).1 = .ok () ↔ ∃ values, readValues stream = .ok values := by
  cases h : readValues stream with
  | error e => simp [decodeInto_of_error h]
  | ok values => simp [decodeInto_of_ok h]

theorem decodes_iff : Decodes stream ↔ ∃ values, readValues stream = .ok values :=
  decodeInto_eq_ok_iff

theorem mergeAll_append (out : Option Tree) (values more : List Tree) :
    mergeAll out (values ++ more) = mergeAll (mergeAll out values) more :=
  List.foldl_append

end Decoding

/-- **Decoding is a fold over streams.**  If the first stream can be decoded, both can be decoded in
one if and only if the second one can; that is the same then as decoding one after the other, and
leaves everything alone otherwise.  If the first one cannot be decoded, and not for want of bytes,
then both cannot for the same reason. -/
theorem decodeInto_append (a b : Bytes) (out : Option Tree) :
    (Decodes a →
      ((decodeInto (a ++ b) out).1 = .ok () ↔ Decodes b) ∧
      (Decodes b → (decodeInto (a ++ b) out).2 = (decodeInto b (decodeInto a out).2).2) ∧
      (¬Decodes b → (decodeInto (a ++ b) out).2 = out)) ∧
    ∀ e, (decodeInto a out).1 = .error e → ¬e.IsOutOfBounds →
      decodeInto (a ++ b) out = (.error e, out) := by
  refine ⟨fun ha => ?_, fun e he hbounds => ?_⟩
  · obtain ⟨as, has⟩ := decodes_iff.mp ha
    refine ⟨?_, fun hb => ?_, fun hb => ?_⟩
    · rw [decodeInto_eq_ok_iff, decodes_iff]
      simp only [readValues_append_iff has]
      constructor
      · rintro ⟨_, bs, hbs, -⟩
        exact ⟨bs, hbs⟩
      · rintro ⟨bs, hbs⟩
        exact ⟨as ++ bs, bs, hbs, rfl⟩
    · obtain ⟨bs, hbs⟩ := decodes_iff.mp hb
      have hboth := (readValues_append_iff has).mpr ⟨bs, hbs, rfl⟩
      rw [decodeInto_of_ok hboth, decodeInto_of_ok has, decodeInto_of_ok hbs, mergeAll_append]
    · cases hboth : readValues (a ++ b) with
      | error e => rw [decodeInto_of_error hboth]
      | ok values =>
        obtain ⟨bs, hbs, -⟩ := (readValues_append_iff has).mp hboth
        exact absurd (decodes_iff.mpr ⟨bs, hbs⟩) hb
  · cases hread : readValues a with
    | ok as =>
      rw [decodeInto_of_ok hread] at he
      cases he
    | error e' =>
      rw [decodeInto_of_error hread] at he
      cases he
      exact decodeInto_of_error (readValues_append_of_error hread hbounds b)

theorem decodeInto_append_pushed :
    (Decodes [0x01] ∧ Decodes [0x09] ∧ decodeInto ([0x01] ++ [0x09]) (some (.array []))
      = (.ok (), some (.array [.bool true, .int 1]))) ∧
    ((decodeInto [0x00] none).1 = .error (.unexpectedByte 0x00 0) ∧
      decodeInto ([0x00] ++ [0x09]) none = (.error (.unexpectedByte 0x00 0), none)) := by
  have hyes : readValues [0x01] = .ok [.bool true] :=
    Parser.readAll_of_accepts (Leaf.yes.accepts maxDepth) 0
  have hone : readValues [0x09] = .ok [.int 1] :=
    Parser.readAll_of_accepts ((@Leaf.small 1 (by decide)).accepts maxDepth) 0
  have hbad : readValues [0x00] = .error (.unexpectedByte 0x00 0) :=
    readAll_of_error (List.cons_ne_nil _ _) rfl
  have hdecodes : Decodes [0x01] ∧ Decodes [0x09] :=
    ⟨decodes_iff.mpr ⟨_, hyes⟩, decodes_iff.mpr ⟨_, hone⟩⟩
  have hfails : (decodeInto [0x00] none).1 = .error (.unexpectedByte 0x00 0) := by
    rw [decodeInto_of_error hbad]
  obtain ⟨hiff, hout, -⟩ := (decodeInto_append [0x01] [0x09] (some (.array []))).1 hdecodes.1
  refine ⟨⟨hdecodes.1, hdecodes.2, ?_⟩, hfails, ?_⟩
  · refine Prod.ext (hiff.mpr hdecodes.2) ((hout hdecodes.2).trans ?_)
    rw [decodeInto_of_ok hyes, decodeInto_of_ok hone]
    rfl
  · exact (decodeInto_append [0x00] [0x09] none).2 _ hfails id

end PlistCodec.Opack
