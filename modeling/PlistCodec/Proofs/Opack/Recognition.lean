import PlistCodec.Proofs.Opack.Grammar

/-!
# Recognizing sentences

What the parser of values reads at a depth is a sentence or an end mark (`reads_readValue`), and it
moves past its bytes and no others.  Together with the other direction this says what the streams
are that can be read, and what is read then (`parse_eq_ok_iff`).
-/

namespace PlistCodec.Opack

/-! ## Moving past a piece -/

/-- The piece stands at `c`, and `next` is the place behind it. -/
structure Cursor.Passes (c : Cursor) (piece : Bytes) (next : Cursor) : Prop where
  /-- The piece comes first. -/
  rest_eq : c.rest = piece ++ next.rest
  /-- Its bytes are counted. -/
  offset_eq : next.offset = c.offset + piece.length

theorem Cursor.Passes.refl (c : Cursor) : c.Passes [] c := ⟨rfl, rfl⟩

theorem Cursor.Passes.append {c mid next : Cursor} {piece more : Bytes} (h : c.Passes piece mid)
    (h' : mid.Passes more next) : c.Passes (piece ++ more) next where
  rest_eq := by rw [h.rest_eq, h'.rest_eq, List.append_assoc]
  offset_eq := by rw [h'.offset_eq, h.offset_eq, List.length_append, Nat.add_assoc]

theorem Cursor.passes_of_take {c next : Cursor} {n : Nat} {taken : Bytes}
    (h : c.take n = .ok (taken, next)) : taken.length = n ∧ c.Passes taken next := by
  rw [Cursor.take] at h
  split at h
  · next taken' rest htake =>
    obtain ⟨hlength, hrest⟩ := Bytes.takeExactly?_eq_some_iff.mp htake
    cases h
    exact ⟨hlength, hrest, by rw [hlength]⟩
  · cases h

/-- Whatever is read is good with the bytes that are passed. -/
def Reads {α : Type} (read : Cursor → Except Error (α × Cursor)) (good : Bytes → α → Prop) : Prop :=
  ∀ c next a, read c = .ok (a, next) → ∃ piece, c.Passes piece next ∧ good piece a

theorem Reads.mono {α : Type} {read : Cursor → Except Error (α × Cursor)}
    {good good' : Bytes → α → Prop} (h : Reads read good)
    (hgood : ∀ piece a, good piece a → good' piece a) : Reads read good' := by
  intro c next a hread
  obtain ⟨piece, hpasses, hpiece⟩ := h c next a hread
  exact ⟨piece, hpasses, hgood piece a hpiece⟩

theorem exists_of_map_eq_ok {α β : Type} {m : Except Error α} {f : α → β} {b : β}
    (h : m.map f = .ok b) : ∃ a, m = .ok a ∧ f a = b := by
  cases m with
  | error e => cases h
  | ok a => exact ⟨a, rfl, Except.ok.inj h⟩

theorem Reads.present {read : Cursor → Except Error (Tree × Cursor)} {good : Bytes → Tree → Prop}
    (h : Reads read good) :
    Reads (fun c => present (read c)) fun piece value =>
      ∃ tree, value = some tree ∧ good piece tree := by
  intro c next value hread
  obtain ⟨⟨tree, mid⟩, hread, heq⟩ := exists_of_map_eq_ok hread
  cases heq
  obtain ⟨piece, hpasses, hgood⟩ := h c next tree hread
  exact ⟨piece, hpasses, tree, rfl, hgood⟩

/-! ## Scalars and payloads -/

theorem reads_fixed (width : Nat) (meaning : Bytes → Except Error Tree) :
    Reads (readFixed width meaning) fun piece tree =>
      piece.length = width ∧ meaning piece = .ok tree := by
  intro c next tree h
  rw [readFixed] at h
  split at h
  · cases h
  · next bytes mid htake =>
    obtain ⟨hlength, hpasses⟩ := Cursor.passes_of_take htake
    split at h
    · cases h
    · next value hvalue =>
      cases h
      exact ⟨bytes, hpasses, hlength, hvalue⟩

theorem reads_payload (kind : Payload) (length : Nat) :
    Reads (readPayload kind length) fun piece tree =>
      piece.length = length ∧ IsPayload kind piece tree := by
  intro c next tree h
  rw [readPayload] at h
  split at h
  · cases h
  · next bytes mid htake =>
    obtain ⟨hlength, hpasses⟩ := Cursor.passes_of_take htake
    cases kind with
    | data =>
      cases h
      exact ⟨bytes, hpasses, hlength, .data bytes⟩
    | text =>
      cases hdecode : Utf8.decode bytes with
      | error fault =>
        simp only [hdecode] at h
        cases h
      | ok text =>
        simp only [hdecode] at h
        cases h
        obtain rfl := Utf8.eq_ofString_of_decode hdecode
        exact ⟨_, hpasses, hlength, .text text⟩

theorem reads_sized (kind : Payload) (width : Width) :
    Reads (readSized kind width) fun piece tree => ∃ field payload, piece = field ++ payload ∧
      field.length = width.bytes ∧ Bytes.ofLittleEndian field = payload.length ∧
      IsPayload kind payload tree := by
  intro c next tree h
  rw [readSized] at h
  split at h
  · cases h
  · next field mid htake =>
    obtain ⟨hwidth, hfield⟩ := Cursor.passes_of_take htake
    obtain ⟨payload, hpayload, hlength, htree⟩ := reads_payload _ _ mid next tree h
    exact ⟨_, hfield.append hpayload, field, payload, rfl, hwidth, hlength.symm, htree⟩

/-! ## Loops -/

section Loops

variable {α : Type} {p : Parser (Option α)} {good : Bytes → Option α → Prop}

/-- Pieces with something in them, one behind the other. -/
def GoodPieces (good : Bytes → Option α → Prop) (pieces : List (Piece α)) : Prop :=
  ∀ piece ∈ pieces, good piece.bytes (some piece.value)

theorem GoodPieces.cons {piece : Piece α} {pieces : List (Piece α)}
    (h : good piece.bytes (some piece.value)) (hpieces : GoodPieces good pieces) :
    GoodPieces good (piece :: pieces) := by
  intro q hq
  rcases List.mem_cons.mp hq with rfl | hq
  · exact h
  · exact hpieces q hq

theorem reads_exactly (h : Reads p.run good) (n : Nat) :
    Reads (p.exactly n) fun bytes as => ∃ pieces, bytes = join pieces ∧
      as = pieces.map Piece.value ∧ pieces.length = n ∧ GoodPieces good pieces := by
  intro c next as hread
  induction n generalizing c as with
  | zero =>
    cases hread
    exact ⟨[], .refl _, [], rfl, rfl, rfl, List.forall_mem_nil _⟩
  | succ n ih =>
    rw [Parser.exactly] at hread
    split at hread
    · cases hread
    · cases hread
    · next a mid hrun =>
      obtain ⟨bytes, hfirst, hgood⟩ := h c mid (some a) hrun
      split at hread
      · cases hread
      · next as last hrest =>
        cases hread
        obtain ⟨_, hpasses, pieces, rfl, rfl, rfl, hpieces⟩ := ih _ _ hrest
        refine ⟨_, hfirst.append hpasses, ⟨bytes, a⟩ :: pieces, ?_, rfl, rfl, hpieces.cons hgood⟩
        rw [join_cons]

theorem reads_many (h : Reads p.run good) :
    Reads p.many fun bytes as => ∃ pieces stop, bytes = join pieces ++ stop ∧
      as = pieces.map Piece.value ∧ GoodPieces good pieces ∧ good stop none := by
  intro c next as hread
  fun_induction Parser.many p c generalizing next as with
  | case1 => cases hread
  | case2 c last hrun =>
    cases hread
    obtain ⟨stop, hpasses, hstop⟩ := h _ _ none hrun
    exact ⟨stop, hpasses, [], stop, rfl, rfl, List.forall_mem_nil _, hstop⟩
  | case3 => cases hread
  | case4 c a mid hrun as last hrest ih =>
    cases hread
    obtain ⟨bytes, hfirst, hgood⟩ := h c mid (some a) hrun
    obtain ⟨_, hpasses, pieces, stop, rfl, rfl, hpieces, hstop⟩ := ih _ _ hrest
    refine ⟨_, hfirst.append hpasses, ⟨bytes, a⟩ :: pieces, stop, ?_, rfl, hpieces.cons hgood,
      hstop⟩
    rw [join_cons, List.append_assoc]

theorem exists_pieces_of_readAll (h : Reads p.run good) {c : Cursor} {as : List α}
    (hread : p.readAll c = .ok as) :
    ∃ pieces : List (Piece (Option α)), c.rest = join pieces ∧ as = denoted pieces ∧
      ∀ piece ∈ pieces, good piece.bytes piece.value := by
  fun_induction Parser.readAll p c generalizing as with
  | case1 c hempty =>
    cases hread
    exact ⟨[], List.isEmpty_iff.mp hempty, rfl, List.forall_mem_nil _⟩
  | case2 => cases hread
  | case3 => cases hread
  | case4 c hempty a? mid hrun as hrest ih =>
    cases hread
    obtain ⟨bytes, hfirst, hgood⟩ := h c mid a? hrun
    obtain ⟨pieces, hjoin, rfl, hpieces⟩ := ih hrest
    refine ⟨⟨bytes, a?⟩ :: pieces, ?_, ?_, List.forall_mem_cons.mpr ⟨hgood, hpieces⟩⟩
    · rw [join_cons, ← hjoin, hfirst.rest_eq]
    · cases a? <;> rfl

end Loops

/-! ## Entries -/

/-- A key with its value, or what ends the entries in place of a key. -/
def GoodEntry (good : Bytes → Option Tree → Prop) (piece : Bytes) : Option (String × Tree) → Prop
  | none => good piece none
  | some (key, value) => ∃ keyPiece valuePiece, piece = keyPiece ++ valuePiece ∧
      good keyPiece (some (.string key)) ∧ good valuePiece (some value)

theorem reads_entry {child : Parser (Option Tree)} {good : Bytes → Option Tree → Prop}
    (h : Reads child.run good) : Reads (entryParser child).run (GoodEntry good) := by
  intro c next entry hread
  simp only [entryParser, readEntry] at hread
  split at hread
  · cases hread
  · next mid hrun =>
    cases hread
    exact h _ _ none hrun
  · next key mid hrun =>
    obtain ⟨keyPiece, hfirst, hkey⟩ := h _ _ _ hrun
    split at hread
    · cases hread
    · cases hread
    · next value last hrun =>
      cases hread
      obtain ⟨valuePiece, hsecond, hvalue⟩ := h _ _ _ hrun
      exact ⟨_, hfirst.append hsecond, keyPiece, valuePiece, rfl, hkey, hvalue⟩
  · cases hread

/-! ## Values -/

section Values

variable {depth : Nat} {child : Parser (Option Tree)}

theorem sentence_of_isPiece {piece : Bytes} {tree : Tree} (h : IsPiece depth piece (some tree)) :
    Sentence depth piece tree := by
  cases h with
  | sentence h => exact h

/-- The children of a dictionary, keys and values each for itself. -/
theorem exists_entries {pieces : List (Piece (String × Tree))}
    (h : GoodPieces (GoodEntry (IsPiece depth)) pieces) :
    ∃ entries : List (Piece String × Piece Tree), entries.length = pieces.length ∧
      join pieces = (entries.map fun e => e.1.bytes ++ e.2.bytes).flatten ∧
      pieces.map Piece.value = entries.map (fun e => (e.1.value, e.2.value)) ∧
      (∀ e ∈ entries, Sentence depth e.1.bytes (.string e.1.value)) ∧
      ∀ e ∈ entries, Sentence depth e.2.bytes e.2.value := by
  induction pieces with
  | nil => exact ⟨[], rfl, rfl, rfl, List.forall_mem_nil _, List.forall_mem_nil _⟩
  | cons piece pieces ih =>
    obtain ⟨keyPiece, valuePiece, hbytes, hkey, hvalue⟩ := h piece List.mem_cons_self
    obtain ⟨entries, hlength, hjoin, hvalues, hkeys, hsentences⟩ :=
      ih fun q hq => h q (List.mem_cons_of_mem _ hq)
    refine ⟨(⟨keyPiece, piece.value.1⟩, ⟨valuePiece, piece.value.2⟩) :: entries, ?_, ?_, ?_, ?_, ?_⟩
    · rw [List.length_cons, List.length_cons, hlength]
    · rw [join_cons, hjoin, hbytes, List.map_cons, List.flatten_cons]
    · rw [List.map_cons, List.map_cons, hvalues]
    · exact List.forall_mem_cons.mpr ⟨sentence_of_isPiece hkey, hkeys⟩
    · exact List.forall_mem_cons.mpr ⟨sentence_of_isPiece hvalue, hsentences⟩

/-- The children of a counted container make it a sentence behind its tag. -/
theorem reads_counted (hchild : Reads child.run (IsPiece (depth + 1))) (hdepth : depth ≤ maxDepth)
    (kind : Container) {n : Nat} (hn : n ≤ 14) :
    Reads (readContainer child (fun p => p.exactly n) kind) fun piece tree =>
      Sentence depth ((Tag.counted kind n).toByte :: piece) tree := by
  intro c next tree h
  cases kind with
  | array =>
    obtain ⟨⟨items, mid⟩, hread, heq⟩ := exists_of_map_eq_ok h
    cases heq
    obtain ⟨_, hpasses, pieces, rfl, rfl, rfl, hpieces⟩ := reads_exactly hchild n _ _ _ hread
    have hitems := fun item hitem => sentence_of_isPiece (hpieces item hitem)
    exact ⟨_, hpasses, .countedArray hdepth hn hitems⟩
  | dict =>
    obtain ⟨⟨items, mid⟩, hread, heq⟩ := exists_of_map_eq_ok h
    cases heq
    obtain ⟨_, hpasses, pieces, rfl, rfl, rfl, hpieces⟩ :=
      reads_exactly (reads_entry hchild) n _ _ _ hread
    obtain ⟨entries, hlength, hjoin, hvalues, hkeys, hsentences⟩ := exists_entries hpieces
    refine ⟨_, hpasses, ?_⟩
    rw [hjoin, hvalues, ← hlength]
    exact .countedDict hdepth (by rw [hlength]; exact hn) hkeys hsentences

theorem reads_opened (hchild : Reads child.run (IsPiece (depth + 1))) (kind : Container) :
    Reads (readContainer child Parser.many kind) fun piece tree =>
      Sentence depth ((Tag.opened kind).toByte :: piece) tree := by
  intro c next tree h
  cases kind with
  | array =>
    obtain ⟨⟨items, mid⟩, hread, heq⟩ := exists_of_map_eq_ok h
    cases heq
    obtain ⟨_, hpasses, pieces, stop, rfl, rfl, hpieces, hstop⟩ := reads_many hchild _ _ _ hread
    have hitems := fun item hitem => sentence_of_isPiece (hpieces item hitem)
    cases hstop with
    | mark hdepth => exact ⟨_, hpasses, .openArray hdepth hitems⟩
  | dict =>
    obtain ⟨⟨items, mid⟩, hread, heq⟩ := exists_of_map_eq_ok h
    cases heq
    obtain ⟨_, hpasses, pieces, stop, rfl, rfl, hpieces, hstop⟩ :=
      reads_many (reads_entry hchild) _ _ _ hread
    obtain ⟨entries, -, hjoin, hvalues, hkeys, hsentences⟩ := exists_entries hpieces
    cases hstop with
    | mark hdepth =>
      refine ⟨_, hpasses, ?_⟩
      rw [hjoin, hvalues]
      exact .openDict hdepth hkeys hsentences

/-- What is read behind a tag makes a piece of it. -/
theorem reads_present {tag : Tag} {read : Cursor → Except Error (Tree × Cursor)}
    {good : Bytes → Tree → Prop} (h : Reads read good)
    (hgood : ∀ piece tree, good piece tree → Sentence depth (tag.toByte :: piece) tree) :
    Reads (fun c => present (read c)) fun piece value =>
      IsPiece depth (tag.toByte :: piece) value := by
  refine h.present.mono ?_
  rintro piece _ ⟨tree, rfl, hpiece⟩
  exact .sentence (hgood piece tree hpiece)

/-- Scalars of a fixed width that cannot fail. -/
theorem reads_scalar {tag : Tag} {width : Nat} {meaning : Bytes → Tree} (hdepth : depth ≤ maxDepth)
    (hleaf : ∀ payload : Bytes, payload.length = width →
      Leaf (tag.toByte :: payload) (meaning payload)) :
    Reads (fun c => present (readFixed width (fun bytes => .ok (meaning bytes)) c))
      fun piece value => IsPiece depth (tag.toByte :: piece) value := by
  refine reads_present (reads_fixed width _) ?_
  rintro piece tree ⟨hlength, hvalue⟩
  cases hvalue
  exact .leaf hdepth (hleaf piece hlength)

theorem reads_body (hchild : Reads child.run (IsPiece (depth + 1))) (hdepth : depth ≤ maxDepth)
    {tag : Tag} (htag : tag.fits) :
    Reads (readBody child tag) fun piece value => IsPiece depth (tag.toByte :: piece) value := by
  cases tag with
  | terminator =>
    intro c next value h
    cases h
    exact ⟨[], .refl _, .mark hdepth⟩
  | bool value =>
    intro c next _ h
    cases h
    cases value
    · exact ⟨[], .refl _, .sentence (.leaf hdepth .no)⟩
    · exact ⟨[], .refl _, .sentence (.leaf hdepth .yes)⟩
  | small n =>
    intro c next _ h
    cases h
    exact ⟨[], .refl _, .sentence (.leaf hdepth (.small (of_decide_eq_true htag)))⟩
  | date =>
    refine reads_present (reads_fixed 8 dateOfBytes) ?_
    rintro piece tree ⟨hlength, hvalue⟩
    rw [dateOfBytes] at hvalue
    split at hvalue
    · next date hdate =>
      cases hvalue
      exact .leaf hdepth (.date hlength hdate)
    · cases hvalue
  | int8 =>
    refine reads_scalar hdepth fun payload hlength => ?_
    obtain ⟨byte, rfl⟩ := List.length_eq_one_iff.mp hlength
    rw [signExtended_singleton]
    exact .int8 byte
  | int32 => exact reads_scalar hdepth fun _ hlength => .int32 hlength
  | int64 => exact reads_scalar hdepth fun _ hlength => .int64 hlength
  | real32 => exact reads_scalar hdepth fun _ hlength => .real32 hlength
  | real64 => exact reads_scalar hdepth fun _ hlength => .real64 hlength
  | short kind length =>
    refine reads_present (reads_payload kind length) ?_
    rintro piece tree ⟨rfl, hpayload⟩
    have hleaf := Leaf.short (of_decide_eq_true htag) hpayload
    cases kind <;> exact .leaf hdepth hleaf
  | sized kind width =>
    refine reads_present (reads_sized kind width) ?_
    rintro _ tree ⟨field, payload, rfl, hwidth, hlength, hpayload⟩
    exact .leaf hdepth (.sized (mem_sizedTags kind width) hwidth hlength hpayload)
  | counted kind n =>
    have hn : n ≤ 14 := of_decide_eq_true htag
    exact reads_present (reads_counted hchild hdepth kind hn) fun _ _ h => h
  | opened kind => exact reads_present (reads_opened hchild kind) fun _ _ h => h

/-- **What is read at a depth is a piece.**  The induction is on the levels that are left. -/
theorem reads_readValue {levels : Nat} (h : depth + levels = maxDepth + 1) :
    Reads (readValue levels).run (IsPiece depth) := by
  induction levels generalizing depth with
  | zero =>
    intro c next value hread
    cases hread
  | succ levels ih =>
    have hchild : Reads (readValue levels).run (IsPiece (depth + 1)) := ih (by omega)
    intro c next value hread
    simp only [readValue, readTagged] at hread
    split at hread
    · cases hread
    · next byte rest hrest =>
      split at hread
      · cases hread
      · next tag htag =>
        obtain ⟨rfl, hfits⟩ := Tag.toByte_of_ofByte? htag
        obtain ⟨piece, hpasses, hpiece⟩ := reads_body hchild (by omega) hfits _ _ _ hread
        refine ⟨tag.toByte :: piece, ⟨?_, ?_⟩, hpiece⟩
        · rw [hrest, List.cons_append, ← hpasses.rest_eq]
        · rw [hpasses.offset_eq, List.length_cons, Nat.add_assoc, Nat.add_comm 1]

end Values

/-! ## Streams -/

theorem exists_splits_of_readValues {stream : Bytes} {values : List Tree}
    (h : readValues stream = .ok values) :
    ∃ pieces, Splits stream pieces ∧ values = denoted pieces := by
  have hreads : Reads topLevel.run (IsPiece 0) := reads_readValue (Nat.zero_add _)
  obtain ⟨pieces, hjoin, hvalues, hpieces⟩ := exists_pieces_of_readAll hreads h
  exact ⟨pieces, ⟨hjoin.symm, hpieces⟩, hvalues⟩

/-- **The streams that can be read** are those that split into sentences and end marks, and what is
read is what the pieces denote, in order.  A stream splits in at most one way. -/
theorem parse_eq_ok_iff (stream : Bytes) (values : List Tree) :
    ((Reader.ofBytes stream).parse.1 = .ok values ↔
      ∃ pieces, Splits stream pieces ∧ values = denoted pieces) ∧
    ∀ pieces others, Splits stream pieces → Splits stream others → pieces = others := by
  refine ⟨⟨?_, ?_⟩, ?_⟩
  · intro h
    exact exists_splits_of_readValues h
  · rintro ⟨pieces, hsplits, rfl⟩
    exact hsplits.readValues_eq
  · intro pieces others hpieces hothers
    exact hpieces.unique hothers

/-- An end mark, and a dictionary with two entries under the same key, whose second key has its
length in a field of its own. -/
def repeatedKey : List (Piece (Option Tree)) :=
  [⟨[0x03], none⟩,
   ⟨[0xE2, 0x41, 0x61, 0x01, 0x62, 0x01, 0x00, 0x61, 0x09], some (.dict [("a", .int 1)])⟩]

theorem parse_repeatedKey : Splits (join repeatedKey) repeatedKey ∧
    (Reader.ofBytes (join repeatedKey)).parse.1 = .ok [.dict [("a", .int 1)]] := by
  have hshort : Sentence 1 [0x41, 0x61] (.string "a") :=
    .leaf (by decide) (@Leaf.short .text _ _ (by decide) (.text "a"))
  have hsized : Sentence 1 [0x62, 0x01, 0x00, 0x61] (.string "a") :=
    .leaf (by decide) (@Leaf.sized .text 0x62 2 [0x01, 0x00] _ _ (by decide) rfl rfl (.text "a"))
  have hyes : Sentence 1 [0x01] (.bool true) := .leaf (by decide) .yes
  have hone : Sentence 1 [0x09] (.int 1) := .leaf (by decide) (@Leaf.small 1 (by decide))
  have hdict : Sentence 0 [0xE2, 0x41, 0x61, 0x01, 0x62, 0x01, 0x00, 0x61, 0x09]
      (.dict [("a", .int 1)]) := by
    refine @Sentence.countedDict 0 [(⟨[0x41, 0x61], "a"⟩, ⟨[0x01], .bool true⟩),
      (⟨[0x62, 0x01, 0x00, 0x61], "a"⟩, ⟨[0x09], .int 1⟩)] (by decide) (by decide) ?_ ?_
    · simp only [List.forall_mem_cons]
      exact ⟨hshort, hsized, List.forall_mem_nil _⟩
    · simp only [List.forall_mem_cons]
      exact ⟨hyes, hone, List.forall_mem_nil _⟩
  have hsplits : Splits (join repeatedKey) repeatedKey := by
    refine ⟨rfl, ?_⟩
    simp only [repeatedKey, List.forall_mem_cons]
    exact ⟨.mark (by decide), .sentence hdict, List.forall_mem_nil _⟩
  exact ⟨hsplits, (parse_eq_ok_iff _ _).1.mpr ⟨repeatedKey, hsplits, rfl⟩⟩

end PlistCodec.Opack
