import PlistCodec.Opack.Decode
import PlistCodec.Proofs.Dict
import PlistCodec.Proofs.Opack.Piece
import PlistCodec.Proofs.Tree.Nodes

/-!
# Reading back what was written

Every piece that the encoder writes for a tree is accepted by the parser of values, with exactly as
many levels of nesting as the encoder had (`encodeWithin_comesBack`).  What it is accepted as is
said by `ReadsBackAs`: the same tree up to the microseconds of its dates and the sign bit of its
one-byte integers.  A stream of one value decodes to that value (`decode_encode`).
-/

namespace PlistCodec.Opack

/-! ## What is read back -/

/-- The number that is read back for a number of 64 bits.  The form of one byte is read with a sign,
so a number that needs all bits of it comes back with all higher bits set. -/
def wordReadBack (n : Nat) : Nat :=
  if Bytes.signLimit 1 ≤ n ∧ n < Bytes.values 1 then Bytes.values 8 - Bytes.values 1 + n else n

/-- The date that is read back for a date, if it can be written and read. -/
def dateReadBack? (d : Date) : Option Date :=
  d.toReferenceSeconds?.bind Date.ofReferenceSeconds?

/-- Two reals are equal as numbers, or both are no number. -/
def SameReal (x y : Binary64) : Prop := x.numEq y ∨ (x.isNaN ∧ y.isNaN)

mutual

/-- `w` is what is read back when `v` was written: it has the shape of `v`, with the same keys in
the same order. -/
def ReadsBackAs : Tree → Tree → Prop
  | .bool value, w => w = .bool value
  | .int value, w => w = .int (wordReadBack (Tree.wordOfInt value))
  | .real x, w => ∃ y, w = .real y ∧ SameReal x y
  | .date d, w => ∃ d', w = .date d' ∧ dateReadBack? d = some d'
  | .string text, w => w = .string text
  | .data bytes, w => w = .data bytes
  | .uid _, _ => False
  | .array items, w => ∃ ws, w = .array ws ∧ ItemsReadBackAs items ws
  | .dict entries, w => ∃ ws, w = .dict ws ∧ EntriesReadBackAs entries ws
termination_by structural v => v

/-- What is read back for a list of trees, one by one. -/
def ItemsReadBackAs : List Tree → List Tree → Prop
  | [], ws => ws = []
  | v :: vs, ws => ∃ w rest, ws = w :: rest ∧ ReadsBackAs v w ∧ ItemsReadBackAs vs rest
termination_by structural vs => vs

/-- What is read back for entries: each key with what is read back for its value. -/
def EntriesReadBackAs : List (String × Tree) → List (String × Tree) → Prop
  | [], ws => ws = []
  | (key, v) :: es, ws =>
    ∃ w rest, ws = (key, w) :: rest ∧ ReadsBackAs v w ∧ EntriesReadBackAs es rest
termination_by structural es => es

end

theorem keys_eq_of_entriesReadBackAs {entries ws : List (String × Tree)}
    (h : EntriesReadBackAs entries ws) : Dict.keys ws = Dict.keys entries := by
  induction entries generalizing ws with
  | nil => rw [EntriesReadBackAs] at h; rw [h]
  | cons e es ih =>
    rw [EntriesReadBackAs] at h
    obtain ⟨w, rest, rfl, -, hrest⟩ := h
    simp only [Dict.keys, List.map_cons] at ih ⊢
    rw [ih hrest]

/-! ## Trees that can be read back -/

/-- The byte strings that stand behind a length when a node is written, those of its children left
out. -/
def nodePayloads : Tree → List Bytes
  | .string text => [Bytes.ofString text]
  | .data bytes => [bytes]
  | .dict entries => entries.map fun e => Bytes.ofString e.1
  | _ => []

/-- What a tree has to be to come back: its dictionaries are dictionaries, its lengths fit into
eight bytes, and its dates can be read once they are written. -/
structure Returns (v : Tree) : Prop where
  /-- No key occurs twice in a dictionary. -/
  wellFormed : v.WellFormed
  /-- Lengths have 64 bits. -/
  payloads_fit : ∀ node ∈ v.nodes, ∀ payload ∈ nodePayloads node, payload.length < Bytes.values 8
  /-- What is written for a date lies in the years that have a calendar. -/
  dates_return : ∀ d, Tree.date d ∈ v.nodes → (dateReadBack? d).isSome

theorem Returns.item {items : List Tree} (h : Returns (.array items)) {t : Tree}
    (ht : t ∈ items) : Returns t where
  wellFormed := (Tree.wellFormed_array items).mp h.wellFormed t ht
  payloads_fit node hn := h.payloads_fit node (Tree.mem_nodes_array ht hn)
  dates_return d hd := h.dates_return d (Tree.mem_nodes_array ht hd)

theorem Returns.value {entries : List (String × Tree)} (h : Returns (.dict entries))
    {e : String × Tree} (he : e ∈ entries) : Returns e.2 where
  wellFormed := ((Tree.wellFormed_dict entries).mp h.wellFormed).2 e he
  payloads_fit node hn := h.payloads_fit node (Tree.mem_nodes_dict he hn)
  dates_return d hd := h.dates_return d (Tree.mem_nodes_dict he hd)

theorem Returns.key_fits {entries : List (String × Tree)} (h : Returns (.dict entries))
    {e : String × Tree} (he : e ∈ entries) : (Bytes.ofString e.1).length < Bytes.values 8 :=
  h.payloads_fit _ (Tree.mem_nodes_self _) _ (List.mem_map.mpr ⟨e, he, rfl⟩)

/-! ## Scalars -/

theorem encodeWord_accepts (levels : Nat) {n : Nat} (h : n < Bytes.values 8) :
    (readValue (levels + 1)).Accepts (encodeWord n) (some (.int (wordReadBack n))) := by
  unfold encodeWord
  split
  · next hsmall =>
    have hback : wordReadBack n = n :=
      if_neg fun hb => absurd hb.1 (Nat.not_le.mpr (Nat.lt_of_le_of_lt hsmall (by decide)))
    rw [hback]
    exact readValue_accepts (by simpa [Tag.fits] using hsmall) fun _ _ => rfl
  split
  · next hsmall hone =>
    refine fixed_accepts rfl (fun _ _ => rfl) (Bytes.length_littleEndian 1 n) ?_
    -- both sides ask whether the sign bit of the byte is set
    rw [signExtended, Bytes.ofLittleEndian_of_lt hone, wordReadBack]
    by_cases hsign : n < Bytes.signLimit 1
    · rw [if_pos hsign, if_neg fun hb => absurd hb.1 (Nat.not_le.mpr hsign)]
    · rw [if_neg hsign, if_pos ⟨Nat.not_lt.mp hsign, hone⟩]
  next hsmall hone =>
  have hback : wordReadBack n = n := if_neg fun hb => hone hb.2
  rw [hback]
  split
  · next hfour =>
    refine fixed_accepts rfl (fun _ _ => rfl) (Bytes.length_littleEndian 4 n) ?_
    rw [Bytes.ofLittleEndian_of_lt hfour]
  · refine fixed_accepts rfl (fun _ _ => rfl) (Bytes.length_littleEndian 8 n) ?_
    rw [Bytes.ofLittleEndian_of_lt h]

theorem wordOfInt_lt (value : Int) : Tree.wordOfInt value < Bytes.values 8 := by
  have hpos : (0 : Int) < (Bytes.values 8 : Int) := by decide
  have hlt := Int.emod_lt_of_pos value hpos
  have hge := Int.emod_nonneg value (Int.ne_of_gt hpos)
  unfold Tree.wordOfInt
  omega

theorem realOfLong_bigEndian (x : Binary64) :
    realOfLong (Bytes.bigEndian 8 x.bits.toNat) = x := by
  rw [realOfLong, Bytes.ofBigEndian_of_lt x.bits.toNat_lt, UInt64.ofNat_toNat]

theorem realOfShort_bigEndian (short : UInt32) :
    realOfShort (Bytes.bigEndian 4 short.toNat) = Binary64.widen short := by
  rw [realOfShort, Bytes.ofBigEndian_of_lt short.toNat_lt, UInt32.ofNat_toNat]

theorem numEq_comm (x y : Binary64) : x.numEq y = y.numEq x := by
  rw [Bool.eq_iff_iff]
  simp only [Binary64.numEq, Bool.and_eq_true, Bool.or_eq_true, decide_eq_true_eq,
    Bool.not_eq_true']
  constructor
  · rintro ⟨⟨hx, hy⟩, h⟩
    exact ⟨⟨hy, hx⟩, h.imp Eq.symm And.symm⟩
  · rintro ⟨⟨hy, hx⟩, h⟩
    exact ⟨⟨hx, hy⟩, h.imp Eq.symm And.symm⟩

theorem sameReal_refl (x : Binary64) : SameReal x x := by
  by_cases h : x.isNaN
  · exact .inr ⟨h, h⟩
  · exact .inl (by simp [Binary64.numEq, h])

/-- A real comes back as the same real: the short form is taken only if it gives the number back. -/
theorem encodeReal_accepts (levels : Nat) (x : Binary64) :
    ∃ y, SameReal x y ∧ (readValue (levels + 1)).Accepts (encodeReal x) (some (.real y)) := by
  unfold encodeReal
  by_cases hshort : (Binary64.widen x.narrow).numEq x
  · refine ⟨Binary64.widen x.narrow, .inl (by rw [numEq_comm]; exact hshort), ?_⟩
    simp only [hshort, if_true]
    refine fixed_accepts rfl (fun _ _ => rfl) (Bytes.length_bigEndian 4 _) ?_
    rw [realOfShort_bigEndian]
  · refine ⟨x, sameReal_refl x, ?_⟩
    simp only [hshort]
    refine fixed_accepts rfl (fun _ _ => rfl) (Bytes.length_bigEndian 8 _) ?_
    rw [realOfLong_bigEndian]

theorem encodeDate_accepts (levels : Nat) {d : Date} {piece : Bytes}
    (h : encodeDate d = .ok piece) (hback : (dateReadBack? d).isSome) :
    ∃ d', dateReadBack? d = some d' ∧
      (readValue (levels + 1)).Accepts piece (some (.date d')) := by
  obtain ⟨d', hd'⟩ := Option.isSome_iff_exists.mp hback
  refine ⟨d', hd', ?_⟩
  obtain ⟨seconds, hseconds, hdate⟩ := Option.bind_eq_some_iff.mp hd'
  rw [encodeDate, hseconds] at h
  cases h
  refine fixed_accepts rfl (fun _ _ => rfl) (Bytes.length_bigEndian 8 _) ?_
  simp only [dateOfBytes, realOfLong_bigEndian, hdate]

/-! ## Payloads -/

/-- A length that does not fit into the tag stands behind it, in a width that holds it. -/
theorem lengthHeader_of_long (kind : Payload) {length : Nat} (hlong : ¬length ≤ Tag.maxShort)
    (hfits : length < Bytes.values 8) :
    ∃ width : Width, length < Bytes.values width.bytes ∧
      lengthHeader kind length
        = (Tag.sized kind width).toByte :: Bytes.littleEndian width.bytes length := by
  unfold lengthHeader
  rw [if_neg hlong]
  by_cases h1 : length < Bytes.values 1
  · exact ⟨.one, h1, by simp only [if_pos h1]⟩
  by_cases h2 : length < Bytes.values 2
  · exact ⟨.two, h2, by simp only [if_neg h1, if_pos h2]⟩
  by_cases h4 : length < Bytes.values 4
  · exact ⟨.four, h4, by simp only [if_neg h1, if_neg h2, if_pos h4]⟩
  · exact ⟨.eight, hfits, by simp only [if_neg h1, if_neg h2, if_neg h4]⟩

theorem encodePayload_accepts (levels : Nat) {kind : Payload} {bytes : Bytes} {value : Tree}
    (hfits : bytes.length < Bytes.values 8) (h : payloadTree? kind bytes = some value) :
    (readValue (levels + 1)).Accepts (encodePayload kind bytes) (some value) := by
  unfold encodePayload
  by_cases hlong : bytes.length ≤ Tag.maxShort
  · rw [lengthHeader, if_pos hlong, List.cons_append, List.nil_append]
    exact short_accepts hlong h
  · obtain ⟨width, hwidth, hheader⟩ := lengthHeader_of_long kind hlong hfits
    rw [hheader, List.cons_append]
    exact sized_accepts (Bytes.length_littleEndian _ _) (Bytes.ofLittleEndian_of_lt hwidth) h

theorem encodeText_accepts (levels : Nat) {text : String}
    (hfits : (Bytes.ofString text).length < Bytes.values 8) :
    (readValue (levels + 1)).Accepts (encodeText text) (some (.string text)) :=
  encodePayload_accepts levels hfits (payloadTree?_ofString text)

/-! ## Containers -/

/-- Where anything is read there is a level left, and then the end mark is accepted too. -/
theorem terminator_accepts_of_run {levels : Nat} {c : Cursor} {r : Option Tree × Cursor}
    (h : (readValue levels).run c = .ok r) :
    (readValue levels).Accepts [Tag.terminator.toByte] none := by
  cases levels with
  | zero => cases h
  | succ levels => exact readValue_accepts_terminator levels

theorem entry_terminator_accepts_of_run {levels : Nat} {c : Cursor}
    {r : Option (String × Tree) × Cursor} (h : (entryParser (readValue levels)).run c = .ok r) :
    (entryParser (readValue levels)).Accepts [Tag.terminator.toByte] none := by
  cases hkey : (readValue levels).run c with
  | error e => simp [entryParser, readEntry, hkey] at h
  | ok r => exact entryParser_accepts_none (terminator_accepts_of_run hkey)

/-- A container is read as what its children make up, in the counted form and in the open one.  Its
children are read by `p`, which has to know the end mark if it reads anything. -/
theorem encodeContainer_accepts {α : Type} {levels : Nat} {p : Parser (Option α)}
    {kind : Container} {build : List α → Tree} (hread : ReadBy levels kind p build)
    (hstop : ∀ {c r}, p.run c = .ok r → p.Accepts [Tag.terminator.toByte] none)
    {pieces : List Bytes} {as : List α}
    (h : List.Forall₂ (fun piece a => p.Accepts piece (some a)) pieces as) :
    (readValue (levels + 1)).Accepts (encodeContainer kind as.length pieces.flatten)
      (some (build as)) := by
  unfold encodeContainer
  by_cases hcount : as.length ≤ Tag.maxCount
  · rw [if_pos hcount]
    exact counted_accepts hread hcount h
  · rw [if_neg hcount, List.cons_append]
    have hend : p.Accepts [Tag.terminator.toByte] none := by
      cases h with
      | nil => exact absurd (Nat.zero_le _) hcount
      | cons hfirst _ => exact hstop (hfirst 0 [])
    exact opened_accepts hread hend h

/-- The items of an array are written one behind the other. -/
theorem encodeItems_eq_ok {items : List Tree} {levels : Nat} {b : Bytes}
    (h : encodeItems items levels = .ok b) :
    ∃ pieces, List.Forall₂ (fun t piece => encodeWithin t levels = .ok piece) items pieces ∧
      pieces.flatten = b := by
  induction items generalizing b with
  | nil =>
    cases h
    exact ⟨[], .nil, rfl⟩
  | cons t ts ih =>
    rw [encodeItems] at h
    cases hhead : encodeWithin t levels with
    | error e => rw [hhead] at h; cases h
    | ok head =>
      cases htail : encodeItems ts levels with
      | error e => rw [hhead, htail] at h; cases h
      | ok tail =>
        rw [hhead, htail] at h
        cases h
        obtain ⟨pieces, hpieces, rfl⟩ := ih htail
        exact ⟨head :: pieces, .cons hhead hpieces, rfl⟩

/-- The entries of a dictionary are written one behind the other, each key before its value. -/
theorem encodeEntries_eq_ok {entries : List (String × Tree)} {levels : Nat} {b : Bytes}
    (h : encodeEntries entries levels = .ok b) :
    ∃ pieces, List.Forall₂ (fun e piece => ∃ value, encodeWithin e.2 levels = .ok value ∧
        piece = encodeText e.1 ++ value) entries pieces ∧
      pieces.flatten = b := by
  induction entries generalizing b with
  | nil =>
    cases h
    exact ⟨[], .nil, rfl⟩
  | cons e es ih =>
    obtain ⟨key, t⟩ := e
    rw [encodeEntries] at h
    cases hhead : encodeWithin t levels with
    | error e => rw [hhead] at h; cases h
    | ok head =>
      cases htail : encodeEntries es levels with
      | error e => rw [hhead, htail] at h; cases h
      | ok tail =>
        rw [hhead, htail] at h
        cases h
        obtain ⟨pieces, hpieces, rfl⟩ := ih htail
        refine ⟨(encodeText key ++ head) :: pieces, .cons ⟨head, hhead, rfl⟩ hpieces, ?_⟩
        rw [List.flatten_cons]

/-! ## Trees -/

/-- The parser of values accepts the piece that is written for `v` as what is read back for it. -/
def ComesBack (levels : Nat) (v : Tree) (piece : Bytes) : Prop :=
  ∃ w, ReadsBackAs v w ∧ (readValue levels).Accepts piece (some w)

theorem items_comeBack {levels : Nat} {items : List Tree} {pieces : List Bytes}
    (h : List.Forall₂ (ComesBack levels) items pieces) :
    ∃ ws, ItemsReadBackAs items ws ∧
      List.Forall₂ (fun piece w => (readValue levels).Accepts piece (some w)) pieces ws := by
  induction h with
  | nil => exact ⟨[], rfl, .nil⟩
  | cons hfirst _ ih =>
    obtain ⟨w, hw, haccepts⟩ := hfirst
    obtain ⟨ws, hws, hrest⟩ := ih
    exact ⟨w :: ws, ⟨w, ws, rfl, hw, hws⟩, .cons haccepts hrest⟩

theorem entries_comeBack {levels : Nat} {entries : List (String × Tree)} {pieces : List Bytes}
    (h : List.Forall₂ (fun e piece => ∃ value, ComesBack levels e.2 value ∧
      (Bytes.ofString e.1).length < Bytes.values 8 ∧ piece = encodeText e.1 ++ value)
      entries pieces) :
    ∃ ws, EntriesReadBackAs entries ws ∧ List.Forall₂
      (fun piece w => (entryParser (readValue levels)).Accepts piece (some w)) pieces ws := by
  induction h with
  | nil => exact ⟨[], rfl, .nil⟩
  | @cons e _ _ _ hfirst _ ih =>
    obtain ⟨value, ⟨w, hw, haccepts⟩, hkey, rfl⟩ := hfirst
    obtain ⟨ws, hws, hrest⟩ := ih
    obtain ⟨key, t⟩ := e
    refine ⟨(key, w) :: ws, ⟨w, ws, rfl, hw, hws⟩, .cons ?_ hrest⟩
    cases levels with
    | zero => exact absurd (haccepts 0 []) (by simp [readValue, Parser.fail])
    | succ levels => exact entryParser_accepts (encodeText_accepts levels hkey) haccepts

theorem encodeWithin_zero (v : Tree) : encodeWithin v 0 = .error (.recursionLimit maxDepth) := by
  cases v <;> rfl

/-- **Writing and reading agree.**  Whatever is written for a tree within some levels of nesting is
read back within as many.  The induction is on the tree; each container passes one level less on to
its children, in writing and in reading alike. -/
theorem encodeWithin_comesBack {v : Tree} (hv : Returns v) {levels : Nat} {b : Bytes}
    (h : encodeWithin v levels = .ok b) : ComesBack levels v b := by
  induction v using Tree.induct generalizing levels b
  all_goals
    obtain _ | levels := levels
    · rw [encodeWithin_zero] at h
      cases h
    rw [encodeWithin] at h
  case bool value =>
    cases h
    exact ⟨.bool value, rfl, readValue_accepts rfl fun _ _ => rfl⟩
  case int value =>
    cases h
    exact ⟨_, rfl, encodeWord_accepts levels (wordOfInt_lt value)⟩
  case real x =>
    cases h
    obtain ⟨y, hy, haccepts⟩ := encodeReal_accepts levels x
    exact ⟨.real y, ⟨y, rfl, hy⟩, haccepts⟩
  case date d =>
    obtain ⟨d', hd', haccepts⟩ :=
      encodeDate_accepts levels h (hv.dates_return d (Tree.mem_nodes_self _))
    exact ⟨.date d', ⟨d', rfl, hd'⟩, haccepts⟩
  case string text =>
    cases h
    have hfits := hv.payloads_fit _ (Tree.mem_nodes_self _) _ (List.mem_singleton_self _)
    exact ⟨.string text, rfl, encodeText_accepts levels hfits⟩
  case data bytes =>
    cases h
    have hfits := hv.payloads_fit _ (Tree.mem_nodes_self _) _ (List.mem_singleton_self _)
    exact ⟨.data bytes, rfl, encodePayload_accepts levels hfits rfl⟩
  case uid slot => cases h
  case array items ih =>
    cases hitems : encodeItems items levels with
    | error e => rw [hitems] at h; cases h
    | ok body =>
      rw [hitems] at h
      cases h
      obtain ⟨pieces, hpieces, rfl⟩ := encodeItems_eq_ok hitems
      have hback : List.Forall₂ (ComesBack levels) items pieces := by
        refine ((List.forall₂_and_left items pieces).mpr ⟨fun t ht => ht, hpieces⟩).imp ?_
        intro t piece ⟨ht, hpiece⟩
        exact ih t ht (hv.item ht) hpiece
      obtain ⟨ws, hws, haccepts⟩ := items_comeBack hback
      refine ⟨.array ws, ⟨ws, rfl, hws⟩, ?_⟩
      rw [hpieces.length_eq, haccepts.length_eq]
      exact encodeContainer_accepts (readBy_array levels) terminator_accepts_of_run haccepts
  case dict entries ih =>
    cases hentries : encodeEntries entries levels with
    | error e => rw [hentries] at h; cases h
    | ok body =>
      rw [hentries] at h
      cases h
      obtain ⟨pieces, hpieces, rfl⟩ := encodeEntries_eq_ok hentries
      have hback : List.Forall₂ (fun e piece => ∃ value, ComesBack levels e.2 value ∧
          (Bytes.ofString e.1).length < Bytes.values 8 ∧ piece = encodeText e.1 ++ value)
          entries pieces := by
        refine ((List.forall₂_and_left entries pieces).mpr ⟨fun e he => he, hpieces⟩).imp ?_
        rintro e piece ⟨he, value, hvalue, rfl⟩
        exact ⟨value, ih e he (hv.value he) hvalue, hv.key_fits he, rfl⟩
      obtain ⟨ws, hws, haccepts⟩ := entries_comeBack hback
      have hdistinct : Dict.Distinct ws := by
        rw [Dict.Distinct, keys_eq_of_entriesReadBackAs hws]
        exact ((Tree.wellFormed_dict entries).mp hv.wellFormed).1
      refine ⟨.dict ws, ⟨ws, rfl, hws⟩, ?_⟩
      have hcontainer := encodeContainer_accepts (readBy_dict levels)
        entry_terminator_accepts_of_run haccepts
      rw [Dict.ofList_of_distinct hdistinct] at hcontainer
      rw [hpieces.length_eq, haccepts.length_eq]
      exact hcontainer

/-! ## Streams of one value -/

/-- **OPACK round trip.**  A tree that has a written form is read back from it, with the same shape,
keys, texts, data and truth values, equal reals, and dates and integers as `ReadsBackAs` says. -/
theorem decode_encode {v : Tree} (hv : Returns v) {b : Bytes} (h : encode v = .ok b) :
    ∃ w, decode b = .ok w ∧ ReadsBackAs v w := by
  obtain ⟨w, hw, haccepts⟩ := encodeWithin_comesBack hv h
  refine ⟨w, ?_, hw⟩
  have hvalues : readValues b = .ok [w] := Parser.readAll_of_accepts haccepts 0
  rw [decode, hvalues]
  rfl

/-- A tree with integers that come back as others, a real without a short form, a date with a
fraction, an array with a terminator and data with a length. -/
def sample : Tree :=
  .dict
    [("negative", .int (-56)), ("drifting", .int 200), ("tenth", .real ⟨0x3FB999999999999A⟩),
     ("date", .date ⟨false, 978307201, 500000000, by decide, by decide⟩),
     ("open", .array (List.replicate 15 (.string "é"))), ("bytes", .data (List.replicate 33 7))]

theorem decode_encode_sample : Returns sample ∧ ∃ b, encode sample = .ok b ∧
    ∃ w, decode b = .ok w ∧ ReadsBackAs sample w := by
  have hreturns : Returns sample := by
    refine ⟨?_, by decide +kernel, ?_⟩
    · simp [sample, Tree.WellFormed, Tree.WellFormedEntries, Tree.wellFormedItems_iff,
        Dict.Distinct, Dict.keys]
    · simp [sample, Tree.nodes, Tree.entryNodes, Tree.itemNodes_eq]
      decide +kernel
  have hencode : ∃ b, encode sample = .ok b := ⟨_, rfl⟩
  obtain ⟨b, hb⟩ := hencode
  exact ⟨hreturns, b, hb, decode_encode hreturns hb⟩

end PlistCodec.Opack
