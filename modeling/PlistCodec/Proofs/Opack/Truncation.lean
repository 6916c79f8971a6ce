import PlistCodec.Proofs.Opack.Reports
import PlistCodec.Proofs.Opack.RoundTrip
import PlistCodec.Proofs.Opack.Streaming

/-!
# Streams that are cut short

A stream that is one value from its first byte to its last is never readable once bytes are missing
at its end, and that they are missing is what is reported.  Two facts make this up.  Reading is
steady, so a beginning that could be read, or that failed for another reason, would do so in the
whole stream too; and what a failure reports is true of the stream that was read.

What is written for a tree is such a stream, provided that it can be read at all: the parser of
values *covers* the pieces that are written, which is to say that it takes the whole of a piece
whenever it gets a value out of it (`encodeWithin_covers`).  The proviso is for dates alone.
-/

namespace PlistCodec

theorem exists_left_of_mem {α β : Type} {R : α → β → Prop} {xs : List α} {ys : List β} {y : β}
    (h : List.Forall₂ R xs ys) (hy : y ∈ ys) : ∃ x ∈ xs, R x y := by
  induction h with
  | nil => cases hy
  | cons hfirst _ ih =>
    rcases List.mem_cons.mp hy with rfl | hy
    · exact ⟨_, List.mem_cons_self, hfirst⟩
    · obtain ⟨x, hx, hR⟩ := ih hy
      exact ⟨x, List.mem_cons_of_mem _ hx, hR⟩

namespace Opack

/-! ## Covered pieces -/

/-- Where the piece stands, a value is read from the whole of it, if one is read at all. -/
def Parser.Covers {α : Type} (p : Parser (Option α)) (piece : Bytes) : Prop :=
  ∀ offset rest a? next, p.run ⟨offset, piece ++ rest⟩ = .ok (a?, next) →
    a?.isSome ∧ next = ⟨offset + piece.length, rest⟩

section Covers

variable {α : Type} {p : Parser (Option α)}

theorem Parser.Accepts.covers {piece : Bytes} {a : α} (h : p.Accepts piece (some a)) :
    p.Covers piece := by
  intro offset rest a? next hrun
  rw [h offset rest] at hrun
  cases hrun
  exact ⟨rfl, rfl⟩

theorem exactly_of_covers {pieces : List Bytes} (h : ∀ piece ∈ pieces, p.Covers piece)
    {offset : Nat} {rest : Bytes} {as : List α} {next : Cursor}
    (hread : p.exactly pieces.length ⟨offset, pieces.flatten ++ rest⟩ = .ok (as, next)) :
    next = ⟨offset + pieces.flatten.length, rest⟩ := by
  induction pieces generalizing offset as with
  | nil =>
    cases hread
    rfl
  | cons piece pieces ih =>
    rw [List.flatten_cons, List.append_assoc, List.length_cons, Parser.exactly] at hread
    split at hread
    · cases hread
    · cases hread
    · next a mid hrun =>
      obtain ⟨-, rfl⟩ := h piece List.mem_cons_self _ _ _ _ hrun
      split at hread
      · cases hread
      · next as' last hrest =>
        cases hread
        have hlast := ih (fun q hq => h q (List.mem_cons_of_mem _ hq)) hrest
        rw [hlast, List.flatten_cons, List.length_append, Nat.add_assoc]

theorem many_of_covers {pieces : List Bytes} {stop : Bytes}
    (h : ∀ piece ∈ pieces, p.Covers piece)
    (hstop : ∀ {c r}, p.run c = .ok r → p.Accepts stop none) {offset : Nat} {rest : Bytes}
    {as : List α} {next : Cursor}
    (hread : p.many ⟨offset, pieces.flatten ++ stop ++ rest⟩ = .ok (as, next)) :
    next = ⟨offset + (pieces.flatten ++ stop).length, rest⟩ := by
  induction pieces generalizing offset as with
  | nil =>
    have hstop' : p.Accepts stop none := by
      cases hrun : p.run ⟨offset, ([] : List Bytes).flatten ++ stop ++ rest⟩ with
      | ok r => exact hstop hrun
      | error e =>
        rw [Parser.many_of_error hrun] at hread
        cases hread
    have hmany : p.many ⟨offset, stop ++ rest⟩ = .ok (as, next) := hread
    rw [Parser.many_of_none (hstop' offset rest)] at hmany
    cases hmany
    rfl
  | cons piece pieces ih =>
    have hsplit : (piece :: pieces).flatten ++ stop ++ rest
        = piece ++ (pieces.flatten ++ stop ++ rest) := by
      simp only [List.flatten_cons, List.append_assoc]
    rw [hsplit] at hread
    cases hrun : p.run ⟨offset, piece ++ (pieces.flatten ++ stop ++ rest)⟩ with
    | error e =>
      rw [Parser.many_of_error hrun] at hread
      cases hread
    | ok r =>
      obtain ⟨a?, mid⟩ := r
      obtain ⟨hsome, rfl⟩ := h piece List.mem_cons_self _ _ _ _ hrun
      obtain ⟨a, rfl⟩ := Option.isSome_iff_exists.mp hsome
      rw [Parser.many_of_some hrun] at hread
      obtain ⟨⟨as', last⟩, hrest, heq⟩ := exists_of_map_eq_ok hread
      cases heq
      have hlast := ih (fun q hq => h q (List.mem_cons_of_mem _ hq)) hrest
      rw [hlast, List.flatten_cons, List.append_assoc, @List.length_append _ piece,
        Nat.add_assoc]

end Covers

/-! ## Covered values -/

section Values

variable {levels : Nat}

theorem entryParser_covers {child : Parser (Option Tree)} {keyPiece valuePiece : Bytes}
    (hkey : child.Covers keyPiece) (hvalue : child.Covers valuePiece) :
    (entryParser child).Covers (keyPiece ++ valuePiece) := by
  intro offset rest entry? next hrun
  simp only [entryParser, readEntry, List.append_assoc] at hrun
  split at hrun
  · cases hrun
  · next mid hfirst =>
    obtain ⟨hsome, -⟩ := hkey _ _ _ _ hfirst
    cases hsome
  · next key mid hfirst =>
    obtain ⟨-, rfl⟩ := hkey _ _ _ _ hfirst
    split at hrun
    · cases hrun
    · cases hrun
    · next value last hsecond =>
      obtain ⟨-, rfl⟩ := hvalue _ _ _ _ hsecond
      cases hrun
      refine ⟨rfl, ?_⟩
      rw [List.length_append, Nat.add_assoc]
  · cases hrun

/-- A tag covers its piece if what is read behind the tag takes the rest of the piece. -/
theorem readValue_covers {tag : Tag} (htag : tag.fits) {body : Bytes}
    {read : Cursor → Except Error (Tree × Cursor)}
    (hbody : ∀ c, readBody (readValue levels) tag c = present (read c))
    (h : ∀ offset rest tree next, read ⟨offset, body ++ rest⟩ = .ok (tree, next) →
      next = ⟨offset + body.length, rest⟩) :
    (readValue (levels + 1)).Covers (tag.toByte :: body) := by
  intro offset rest value? next hrun
  simp only [readValue, readTagged, List.cons_append, Tag.ofByte?_toByte htag, hbody] at hrun
  obtain ⟨⟨tree, last⟩, hread, heq⟩ := exists_of_map_eq_ok hrun
  cases heq
  have hlast := h (offset + 1) rest tree next hread
  refine ⟨rfl, ?_⟩
  rw [hlast, List.length_cons]
  congr 1
  omega

theorem encodeDate_covers {d : Date} {piece : Bytes} (h : encodeDate d = .ok piece) :
    (readValue (levels + 1)).Covers piece := by
  rw [encodeDate] at h
  split at h
  · next seconds _ =>
    cases h
    have hbody : ∀ c, readBody (readValue levels) .date c = present (readFixed 8 dateOfBytes c) :=
      fun _ => rfl
    refine readValue_covers rfl hbody ?_
    intro offset rest tree next hread
    obtain ⟨taken, hpasses, hlength, -⟩ := reads_fixed 8 dateOfBytes _ _ _ hread
    have hwidth := Bytes.length_bigEndian 8 seconds.bits.toNat
    obtain ⟨htaken, hrest⟩ := List.append_inj hpasses.rest_eq (hwidth.trans hlength.symm)
    have hoffset := hpasses.offset_eq
    rw [← htaken] at hoffset
    obtain ⟨_, _⟩ := next
    simp only at hoffset hrest
    rw [hoffset, hrest]
  · cases h

/-- A container is covered, in the counted form and in the open one, if its children are. -/
theorem encodeContainer_covers {α : Type} {p : Parser (Option α)} {kind : Container}
    {build : List α → Tree} (hread : ReadBy levels kind p build)
    (hstop : ∀ {c r}, p.run c = .ok r → p.Accepts [Tag.terminator.toByte] none)
    {pieces : List Bytes} (h : ∀ piece ∈ pieces, p.Covers piece) :
    (readValue (levels + 1)).Covers (encodeContainer kind pieces.length pieces.flatten) := by
  unfold encodeContainer
  by_cases hcount : pieces.length ≤ Tag.maxCount
  · rw [if_pos hcount]
    refine readValue_covers (by simpa [Tag.fits] using hcount) (fun _ => rfl) ?_
    intro offset rest tree next hrun
    rw [hread] at hrun
    obtain ⟨⟨as, last⟩, hexactly, heq⟩ := exists_of_map_eq_ok hrun
    cases heq
    exact exactly_of_covers h hexactly
  · rw [if_neg hcount, List.cons_append]
    refine readValue_covers rfl (fun _ => rfl) ?_
    intro offset rest tree next hrun
    rw [hread] at hrun
    obtain ⟨⟨as, last⟩, hmany, heq⟩ := exists_of_map_eq_ok hrun
    cases heq
    exact many_of_covers h hstop hmany

/-- The lengths of all texts, keys and data of a tree have 64 bits. -/
def PayloadsFit (v : Tree) : Prop :=
  ∀ node ∈ v.nodes, ∀ payload ∈ nodePayloads node, payload.length < Bytes.values 8

/-- **Whatever is written for a tree is covered**, with as many levels of nesting as it was written
with.  Only a date may fail to be read; all other pieces are accepted. -/
theorem encodeWithin_covers {v : Tree} (hv : PayloadsFit v) {b : Bytes}
    (h : encodeWithin v levels = .ok b) : (readValue levels).Covers b := by
  induction v using Tree.induct generalizing levels b
  all_goals
    obtain _ | levels := levels
    · rw [encodeWithin_zero] at h
      cases h
    rw [encodeWithin] at h
  case bool value =>
    cases h
    exact (@readValue_accepts levels (.bool value) rfl [] _ fun _ _ => rfl).covers
  case int value =>
    cases h
    exact (encodeWord_accepts levels (wordOfInt_lt value)).covers
  case real x =>
    cases h
    obtain ⟨y, -, haccepts⟩ := encodeReal_accepts levels x
    exact haccepts.covers
  case date d => exact encodeDate_covers h
  case string text =>
    cases h
    have hfits := hv _ (Tree.mem_nodes_self _) _ (List.mem_singleton_self _)
    exact (encodeText_accepts levels hfits).covers
  case data bytes =>
    cases h
    have hfits := hv _ (Tree.mem_nodes_self _) _ (List.mem_singleton_self _)
    exact (@encodePayload_accepts levels .data bytes _ hfits rfl).covers
  case uid slot => cases h
  case array items ih =>
    cases hitems : encodeItems items levels with
    | error e => rw [hitems] at h; cases h
    | ok body =>
      rw [hitems] at h
      cases h
      obtain ⟨pieces, hpieces, rfl⟩ := encodeItems_eq_ok hitems
      have hcovers : ∀ piece ∈ pieces, (readValue levels).Covers piece := by
        intro piece hpiece
        obtain ⟨t, ht, hencode⟩ := exists_left_of_mem hpieces hpiece
        exact ih t ht (fun node hn => hv node (Tree.mem_nodes_array ht hn)) hencode
      rw [hpieces.length_eq]
      exact encodeContainer_covers (readBy_array levels) terminator_accepts_of_run hcovers
  case dict entries ih =>
    cases hentries : encodeEntries entries levels with
    | error e => rw [hentries] at h; cases h
    | ok body =>
      rw [hentries] at h
      cases h
      obtain ⟨pieces, hpieces, rfl⟩ := encodeEntries_eq_ok hentries
      have hcovers : ∀ piece ∈ pieces, (entryParser (readValue levels)).Covers piece := by
        intro piece hpiece
        obtain ⟨e, he, value, hvalue, rfl⟩ := exists_left_of_mem hpieces hpiece
        have hkey := hv _ (Tree.mem_nodes_self _) _ (List.mem_map.mpr ⟨e, he, rfl⟩)
        have hcovered := ih e he (fun node hn => hv node (Tree.mem_nodes_dict he hn)) hvalue
        cases levels with
        | zero => rw [encodeWithin_zero] at hvalue; cases hvalue
        | succ levels =>
          exact entryParser_covers (encodeText_accepts levels hkey).covers hcovered
      rw [hpieces.length_eq]
      exact encodeContainer_covers (readBy_dict levels) entry_terminator_accepts_of_run hcovers

end Values

/-! ## Streams of one value -/

/-- The stream is one value, from its first byte to its last. -/
def ReadsWhole (stream : Bytes) (value : Tree) : Prop :=
  topLevel.run ⟨0, stream⟩ = .ok (some value, ⟨stream.length, []⟩)

/-- What is written for a tree is one value, if it can be decoded. -/
theorem readsWhole_of_encode {v w : Tree} (hv : PayloadsFit v) {stream : Bytes}
    (h : encode v = .ok stream) (hdecode : decode stream = .ok w) : ReadsWhole stream w := by
  have hcovers : topLevel.Covers stream := encodeWithin_covers hv h
  have hnonempty : stream ≠ [] := by
    rintro rfl
    have hnothing : decode [] = .error .empty := by rw [decode, readValues, Parser.readAll_end]; rfl
    rw [hnothing] at hdecode
    cases hdecode
  rw [decode] at hdecode
  cases hrun : topLevel.run ⟨0, stream⟩ with
  | error e =>
    have hread : readValues stream = .error e := readAll_of_error hnonempty hrun
    rw [hread] at hdecode
    cases hdecode
  | ok r =>
    obtain ⟨value?, next⟩ := r
    obtain ⟨hsome, rfl⟩ := hcovers 0 [] value? next (by rw [List.append_nil]; exact hrun)
    obtain ⟨value, rfl⟩ := Option.isSome_iff_exists.mp hsome
    have hread : readValues stream = .ok [value] := by
      rw [readValues, Parser.readAll_of_ok hrun, Parser.readAll_end]
      rfl
    rw [hread] at hdecode
    cases hdecode
    rw [Nat.zero_add] at hrun
    exact hrun

/-- A beginning of a stream of one value cannot be read, for want of bytes and nothing else. -/
theorem run_of_prefix {stream part : Bytes} {value : Tree} (h : ReadsWhole stream value)
    (hpart : part <+: stream) (hproper : part ≠ stream) :
    ∃ e, topLevel.run ⟨0, part⟩ = .error e ∧ e.IsOutOfBounds := by
  obtain ⟨more, rfl⟩ := hpart
  have hsteady : Steady topLevel.run := steady_readValue (maxDepth + 1)
  cases hrun : topLevel.run ⟨0, part⟩ with
  | ok r =>
    obtain ⟨value?, next⟩ := r
    have hwhole : topLevel.run ⟨0, part ++ more⟩ = .ok (value?, next.extend more) :=
      hsteady.of_ok hrun more
    rw [ReadsWhole] at h
    rw [h] at hwhole
    simp only [Except.ok.injEq, Prod.mk.injEq, Cursor.mk.injEq, Cursor.extend] at hwhole
    have hmore : more = [] := (List.append_eq_nil_iff.mp hwhole.2.2.symm).2
    rw [hmore, List.append_nil] at hproper
    exact absurd rfl hproper
  | error e =>
    refine ⟨e, rfl, ?_⟩
    by_contra he
    have hwhole : topLevel.run ⟨0, part ++ more⟩ = .error e := hsteady.of_error hrun he more
    rw [ReadsWhole] at h
    rw [h] at hwhole
    cases hwhole

/-- **A stream of one value that is cut short cannot be decoded**, and the failure reports the
length of what is there and an index behind its end, as long as indices of that size can be
reported.  The streams that are written for trees are of this kind if they can be decoded. -/
theorem decode_prefix_eq_outOfBounds :
    (∀ v stream w, PayloadsFit v → encode v = .ok stream → decode stream = .ok w →
      ReadsWhole stream w) ∧
    ∀ stream value part, ReadsWhole stream value → part <+: stream → part ≠ stream →
      (∀ w, decode part ≠ .ok w) ∧
      (part ≠ [] → ∃ stop, decode part = .error (.outOfBounds stop part.length) ∧
        (part.length < Cursor.maxIndex → part.length < stop)) := by
  refine ⟨fun v stream w hv h hdecode => readsWhole_of_encode hv h hdecode, ?_⟩
  intro stream value part h hpart hproper
  have hfails : part ≠ [] → ∃ stop, decode part = .error (.outOfBounds stop part.length) ∧
      (part.length < Cursor.maxIndex → part.length < stop) := by
    intro hne
    obtain ⟨e, hrun, he⟩ := run_of_prefix h hpart hproper
    have hread : readValues part = .error e := readAll_of_error hne hrun
    have htrue : e.TrueOf part := trueOf_of_readValues hread
    cases e with
    | outOfBounds stop length =>
      obtain ⟨rfl, past, hpast, rfl⟩ := htrue
      refine ⟨min past Cursor.maxIndex, ?_, fun hindex => Nat.lt_min.mpr ⟨hpast, hindex⟩⟩
      rw [decode, hread]
    | _ => cases he
  refine ⟨fun w hdecode => ?_, hfails⟩
  by_cases hne : part = []
  · subst hne
    rw [decode, readValues, Parser.readAll_end] at hdecode
    cases hdecode
  · obtain ⟨stop, hstop, -⟩ := hfails hne
    rw [hstop] at hdecode
    cases hdecode

/-- A dictionary with an array inside, and a text of more than one byte in that. -/
def nestedText : Tree := .dict [("key", .array [.string "é", .bool true])]

/-- What is written for `nestedText`. -/
def nestedTextBytes : Bytes := [0xE1, 0x43, 0x6B, 0x65, 0x79, 0xD2, 0x42, 0xC3, 0xA9, 0x01]

/-- The text is cut in the middle of its only character. -/
theorem decode_prefix_eq_outOfBounds_inText :
    (PayloadsFit nestedText ∧ encode nestedText = .ok nestedTextBytes ∧
      decode nestedTextBytes = .ok nestedText ∧ ReadsWhole nestedTextBytes nestedText) ∧
    (nestedTextBytes.take 8 <+: nestedTextBytes ∧ nestedTextBytes.take 8 ≠ nestedTextBytes ∧
      (∀ w, decode (nestedTextBytes.take 8) ≠ .ok w) ∧
      ∃ stop, decode (nestedTextBytes.take 8) = .error (.outOfBounds stop 8) ∧ 8 < stop) := by
  have hfit : PayloadsFit nestedText := by
    simp only [PayloadsFit, nestedText, Tree.nodes_dict]
    decide +kernel
  have hreturns : Returns nestedText := by
    refine ⟨?_, hfit, ?_⟩
    · simp [nestedText, Tree.WellFormed, Tree.WellFormedEntries, Tree.WellFormedItems,
        Dict.Distinct, Dict.keys]
    · simp [nestedText, Tree.nodes, Tree.entryNodes, Tree.itemNodes_eq]
  have hencode : encode nestedText = .ok nestedTextBytes := rfl
  have hdecode : decode nestedTextBytes = .ok nestedText := by
    obtain ⟨value, hvalue, haccepts⟩ := encodeWithin_comesBack hreturns hencode
    obtain rfl : value = nestedText := by
      simpa [nestedText, ReadsBackAs, EntriesReadBackAs, ItemsReadBackAs] using hvalue
    have hread : readValues nestedTextBytes = .ok [nestedText] :=
      Parser.readAll_of_accepts haccepts 0
    rw [decode, hread]
    rfl
  have hwhole := decode_prefix_eq_outOfBounds.1 nestedText nestedTextBytes nestedText hfit hencode
    hdecode
  have hpart : nestedTextBytes.take 8 <+: nestedTextBytes := List.take_prefix 8 _
  have hproper : nestedTextBytes.take 8 ≠ nestedTextBytes := by decide
  obtain ⟨hnone, hshort⟩ := decode_prefix_eq_outOfBounds.2 nestedTextBytes nestedText
    (nestedTextBytes.take 8) hwhole hpart hproper
  obtain ⟨stop, hstop, hlt⟩ := hshort (by decide)
  exact ⟨⟨hfit, hencode, hdecode, hwhole⟩, hpart, hproper, hnone, stop, hstop, hlt (by decide)⟩

end Opack

end PlistCodec
