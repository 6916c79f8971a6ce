import Mathlib.Data.List.Induction
import PlistCodec.Proofs.Opack.Parts
import PlistCodec.Proofs.Opack.Streaming

/-!
# Containers as frames around their children

A container is a frame, counted or open, around the bytes of its children (`Frame`), and what it
denotes is made up of what they denote, whatever the frame is (`nodeOf?`).  So a child can be
exchanged for one that denotes the same (`Frame.replace`), and so can the frame.  If instead of a
child something stands there that is rejected, the container is rejected with it (`Frame.rejects`).
-/

namespace PlistCodec.Opack

/-! ## What children make up -/

/-- Keys and values by turns, as entries. -/
def entriesOf? : List Tree → Option (List (String × Tree))
  | [] => some []
  | .string key :: value :: rest => (entriesOf? rest).map ((key, value) :: ·)
  | _ => none

/-- The node that children make up; in a dictionary they are keys and values by turns. -/
def nodeOf? : Container → List Tree → Option Tree
  | .array, children => some (.array children)
  | .dict, children => (entriesOf? children).map fun entries => .dict (Dict.ofList entries)

theorem entriesOf?_entryParts (entries : List (Piece String × Piece Tree)) :
    entriesOf? ((entryParts entries).map Piece.value)
      = some (entries.map fun e => (e.1.value, e.2.value)) := by
  induction entries with
  | nil => rfl
  | cons e es ih =>
    have hcons : (entryParts (e :: es)).map Piece.value
        = .string e.1.value :: e.2.value :: (entryParts es).map Piece.value := rfl
    rw [hcons, entriesOf?, ih]
    rfl

theorem nodeOf?_dict_entryParts (entries : List (Piece String × Piece Tree)) :
    nodeOf? .dict ((entryParts entries).map Piece.value)
      = some (.dict (Dict.ofList (entries.map fun e => (e.1.value, e.2.value)))) := by
  rw [nodeOf?, entriesOf?_entryParts]
  rfl

/-- Only a key with a value behind it begins entries. -/
theorem entriesOf?_cons_cons {first second : Tree} {rest : List Tree}
    (h : (entriesOf? (first :: second :: rest)).isSome) :
    (∃ key, first = .string key) ∧ (entriesOf? rest).isSome := by
  cases first with
  | string key =>
    rw [entriesOf?, Option.isSome_map] at h
    exact ⟨⟨key, rfl⟩, h⟩
  | _ => cases h

theorem exists_entryParts_of_isSome {pieces : List (Piece Tree)}
    (h : (entriesOf? (pieces.map Piece.value)).isSome) : ∃ entries, pieces = entryParts entries := by
  induction pieces using List.twoStepInduction with
  | nil => exact ⟨[], rfl⟩
  | singleton piece =>
    obtain ⟨bytes, value⟩ := piece
    cases value <;> cases h
  | cons_cons keyPiece valuePiece pieces ih _ =>
    obtain ⟨keyBytes, keyValue⟩ := keyPiece
    obtain ⟨⟨key, hkey⟩, hrest⟩ := entriesOf?_cons_cons h
    obtain ⟨entries, rfl⟩ := ih hrest
    simp only at hkey
    subst hkey
    exact ⟨(⟨keyBytes, key⟩, valuePiece) :: entries, rfl⟩

/-! ## Frames -/

/-- The bytes of a container that has its count in the tag. -/
def countedBytes (kind : Container) (count : Nat) (parts : List Bytes) : Bytes :=
  UInt8.ofNat (containerTag kind + count) :: parts.flatten

/-- The bytes of a container that has an end mark behind its children. -/
def openedBytes (kind : Container) (parts : List Bytes) : Bytes :=
  UInt8.ofNat (containerTag kind + 0x0F) :: (parts.flatten ++ [0x03])

/-- The bytes of a container at a depth with these children. -/
inductive Frame (depth : Nat) (kind : Container) (parts : List Bytes) : Bytes → Prop where
  /-- A counted container. -/
  | counted {count : Nat} (hdepth : depth ≤ maxDepth) (hcount : count ≤ 14)
      (hlength : parts.length = sentencesPerChild kind * count) :
      Frame depth kind parts (countedBytes kind count parts)
  /-- An open container, with room for the end mark. -/
  | opened (hdepth : depth + 1 ≤ maxDepth) : Frame depth kind parts (openedBytes kind parts)

section Frames

variable {depth : Nat} {kind : Container} {parts others : List Bytes} {whole : Bytes} {tree : Tree}

theorem Frame.depth_le (h : Frame depth kind parts whole) : depth ≤ maxDepth := by
  cases h with
  | counted hdepth => exact hdepth
  | opened hdepth => exact Nat.le_of_succ_le hdepth

/-- Other children, as many as before, fit into the same frame. -/
theorem Frame.replace {tag : UInt8} {stop : Bytes}
    (h : Frame depth kind parts (tag :: (parts.flatten ++ stop)))
    (hlength : others.length = parts.length) :
    Frame depth kind others (tag :: (others.flatten ++ stop)) := by
  generalize hwhole : tag :: (parts.flatten ++ stop) = whole at h
  cases h with
  | counted hdepth hcount hparts =>
    obtain ⟨rfl, hstop⟩ := List.cons.inj hwhole
    obtain rfl := List.append_right_eq_self.mp hstop
    rw [List.append_nil]
    exact .counted hdepth hcount (hlength.trans hparts)
  | opened hdepth =>
    obtain ⟨rfl, hstop⟩ := List.cons.inj hwhole
    obtain rfl := List.append_cancel_left hstop
    exact .opened hdepth

/-- **A sentence with children is a frame around them.** -/
theorem Sentence.exists_frame (h : Sentence depth whole tree) (hparts : Children depth whole parts) :
    ∃ (kind : Container) (pieces : List (Piece Tree)), pieces.map Piece.bytes = parts ∧
      Frame depth kind parts whole ∧
      (∀ piece ∈ pieces, Sentence (depth + 1) piece.bytes piece.value) ∧
      nodeOf? kind (pieces.map Piece.value) = some tree := by
  cases h with
  | leaf _ h => exact absurd hparts h.not_children
  | @countedArray _ items hdepth hcount hitems =>
    obtain rfl := hparts.unique (children_countedArray hcount hitems)
    refine ⟨.array, items, rfl, ?_, hitems, rfl⟩
    exact @Frame.counted _ .array _ _ hdepth hcount (by simp [sentencesPerChild])
  | @openArray _ items hdepth hitems =>
    obtain rfl := hparts.unique (children_openArray hdepth hitems)
    exact ⟨.array, items, rfl, @Frame.opened _ .array _ hdepth, hitems, rfl⟩
  | @countedDict _ entries hdepth hcount hkeys hvalues =>
    obtain rfl := hparts.unique (children_countedDict hcount hkeys hvalues)
    refine ⟨.dict, entryParts entries, rfl, ?_, forall_entryParts hkeys hvalues,
      nodeOf?_dict_entryParts entries⟩
    rw [← join_entryParts]
    exact @Frame.counted _ .dict _ _ hdepth hcount (by simp [sentencesPerChild, length_entryParts])
  | @openDict _ entries hdepth hkeys hvalues =>
    obtain rfl := hparts.unique (children_openDict hdepth hkeys hvalues)
    refine ⟨.dict, entryParts entries, rfl, ?_, forall_entryParts hkeys hvalues,
      nodeOf?_dict_entryParts entries⟩
    rw [← join_entryParts]
    exact @Frame.opened _ .dict _ hdepth

/-- **A frame around sentences is a sentence**, if they make up a node. -/
theorem Frame.sentence {pieces : List (Piece Tree)}
    (h : Frame depth kind (pieces.map Piece.bytes) whole)
    (hpieces : ∀ piece ∈ pieces, Sentence (depth + 1) piece.bytes piece.value)
    (hnode : nodeOf? kind (pieces.map Piece.value) = some tree) : Sentence depth whole tree := by
  cases kind with
  | array =>
    cases hnode
    cases h with
    | counted hdepth hcount hlength =>
      rw [List.length_map, sentencesPerChild, Nat.one_mul] at hlength
      subst hlength
      exact .countedArray hdepth hcount hpieces
    | opened hdepth => exact .openArray hdepth hpieces
  | dict =>
    have hsome : (entriesOf? (pieces.map Piece.value)).isSome := by
      rw [← Option.isSome_map, ← nodeOf?, hnode]
      rfl
    obtain ⟨entries, rfl⟩ := exists_entryParts_of_isSome hsome
    rw [nodeOf?_dict_entryParts] at hnode
    cases hnode
    have hkeys : ∀ e ∈ entries, Sentence (depth + 1) e.1.bytes (.string e.1.value) := fun e he =>
      hpieces ⟨e.1.bytes, .string e.1.value⟩ (List.mem_flatMap.mpr ⟨e, he, List.mem_cons_self⟩)
    have hvalues : ∀ e ∈ entries, Sentence (depth + 1) e.2.bytes e.2.value := fun e he =>
      hpieces e.2 (List.mem_flatMap.mpr ⟨e, he, List.mem_pair.mpr (.inr rfl)⟩)
    have hjoin : ((entryParts entries).map Piece.bytes).flatten
        = (entries.map fun e => e.1.bytes ++ e.2.bytes).flatten := join_entryParts entries
    cases h with
    | counted hdepth hcount hlength =>
      rw [List.length_map, length_entryParts, sentencesPerChild] at hlength
      obtain rfl : entries.length = _ := Nat.eq_of_mul_eq_mul_left Nat.two_pos hlength
      rw [countedBytes, hjoin]
      exact .countedDict hdepth hcount hkeys hvalues
    | opened hdepth =>
      rw [openedBytes, hjoin]
      exact .openDict hdepth hkeys hvalues

end Frames

/-! ## Rejected pieces -/

namespace Parser

variable {α : Type} {p : Parser (Option α)} {pieces : List Bytes} {as : List α} {bad : Bytes}
  {e : Error}

/-- The parser fails where the piece stands, whatever follows. -/
def Rejects (p : Parser α) (piece : Bytes) (e : Error) : Prop :=
  ∀ offset rest, p.run ⟨offset, piece ++ rest⟩ = .error e

theorem Rejects.append {p : Parser α} (h : p.Rejects bad e) (more : Bytes) :
    p.Rejects (bad ++ more) e := by
  intro offset rest
  rw [List.append_assoc]
  exact h offset (more ++ rest)

/-- A counted loop fails at the first piece that is rejected. -/
theorem exactly_of_rejects
    (h : List.Forall₂ (fun piece a => p.Accepts piece (some a)) pieces as) (hbad : p.Rejects bad e)
    {n : Nat} (hn : as.length < n) (offset : Nat) (rest : Bytes) :
    p.exactly n ⟨offset, pieces.flatten ++ bad ++ rest⟩ = .error e := by
  induction h generalizing n offset with
  | nil =>
    obtain ⟨n, rfl⟩ := Nat.exists_eq_add_one.mpr hn
    have hfirst := hbad offset rest
    rw [List.flatten_nil, List.nil_append, exactly, hfirst]
  | @cons piece a pieces as hp _ ih =>
    obtain ⟨n, rfl⟩ := Nat.exists_eq_add_one.mpr (Nat.zero_lt_of_lt hn)
    have hfirst := hp offset (pieces.flatten ++ bad ++ rest)
    have hrest := ih (Nat.lt_of_succ_lt_succ hn) (offset + piece.length)
    rw [List.flatten_cons, List.append_assoc, List.append_assoc, ← List.append_assoc pieces.flatten,
      exactly, hfirst]
    simp only [hrest]

/-- An open loop fails at the first piece that is rejected. -/
theorem many_of_rejects (h : List.Forall₂ (fun piece a => p.Accepts piece (some a)) pieces as)
    (hbad : p.Rejects bad e) (offset : Nat) (rest : Bytes) :
    p.many ⟨offset, pieces.flatten ++ bad ++ rest⟩ = .error e := by
  induction h generalizing offset with
  | nil => exact many_of_error (hbad offset rest)
  | @cons piece a pieces as hp _ ih =>
    have hfirst := hp offset (pieces.flatten ++ bad ++ rest)
    rw [List.flatten_cons, List.append_assoc, List.append_assoc, ← List.append_assoc pieces.flatten,
      many_of_some hfirst, ih]
    rfl

end Parser

section Rejections

variable {child : Parser (Option Tree)} {bad : Bytes} {e : Error}

theorem entryParser_rejects_key (h : child.Rejects bad e) : (entryParser child).Rejects bad e := by
  intro offset rest
  simp only [entryParser, readEntry, h offset rest]

theorem entryParser_rejects_value {keyPiece : Bytes} {key : String}
    (hkey : child.Accepts keyPiece (some (.string key))) (h : child.Rejects bad e) :
    (entryParser child).Rejects (keyPiece ++ bad) e := by
  intro offset rest
  have hfirst := hkey offset (bad ++ rest)
  rw [List.append_assoc]
  simp only [entryParser, readEntry, hfirst, h (offset + keyPiece.length) rest]

/-- What is rejected in place of a key or of a value is rejected as an entry. -/
theorem exists_rejected_entry {front : List (Piece Tree)}
    (hfront : ∀ piece ∈ front, child.Accepts piece.bytes (some piece.value))
    (hbad : child.Rejects bad e) {value : Tree} {back : List Tree}
    (h : (entriesOf? (front.map Piece.value ++ value :: back)).isSome) :
    ∃ pieces entries badEntry,
      List.Forall₂ (fun piece a => (entryParser child).Accepts piece (some a)) pieces entries ∧
      (entryParser child).Rejects badEntry e ∧
      pieces.flatten ++ badEntry = join front ++ bad ∧ 2 * entries.length ≤ front.length := by
  induction front using List.twoStepInduction with
  | nil => exact ⟨[], [], bad, .nil, entryParser_rejects_key hbad, rfl, Nat.le_refl _⟩
  | singleton keyPiece =>
    obtain ⟨⟨key, hkey⟩, -⟩ := entriesOf?_cons_cons h
    have haccepts := hfront keyPiece (List.mem_singleton_self _)
    rw [hkey] at haccepts
    refine ⟨[], [], keyPiece.bytes ++ bad, .nil, entryParser_rejects_value haccepts hbad, ?_,
      Nat.zero_le _⟩
    rw [join_cons]
    simp [join]
  | cons_cons keyPiece valuePiece front ih _ =>
    obtain ⟨⟨key, hkey⟩, hrest⟩ := entriesOf?_cons_cons h
    obtain ⟨hfirst, hothers⟩ := List.forall_mem_cons.mp hfront
    obtain ⟨hsecond, hothers⟩ := List.forall_mem_cons.mp hothers
    rw [hkey] at hfirst
    obtain ⟨pieces, entries, badEntry, haccepts, hrejects, hjoin, hlength⟩ := ih hothers hrest
    refine ⟨(keyPiece.bytes ++ valuePiece.bytes) :: pieces, (key, valuePiece.value) :: entries,
      badEntry, .cons (entryParser_accepts hfirst hsecond) haccepts, hrejects, ?_, ?_⟩
    · rw [List.flatten_cons, List.append_assoc, hjoin, join_cons, join_cons]
      simp only [List.append_assoc]
    · rw [List.length_cons, List.length_cons, List.length_cons]
      omega

theorem readValue_rejects {levels : Nat} {t : Tag} (ht : t.fits) {body : Bytes}
    (h : ∀ offset rest, readBody (readValue levels) t ⟨offset, body ++ rest⟩ = .error e) :
    (readValue (levels + 1)).Rejects (t.toByte :: body) e := by
  intro offset rest
  rw [List.cons_append, readValue]
  simp only [readTagged, Tag.ofByte?_toByte ht, h (offset + 1) rest]

section Containers

variable {α : Type} {levels : Nat} {p : Parser (Option α)} {kind : Container}
  {build : List α → Tree} {pieces : List Bytes} {as : List α}

theorem counted_rejects (hread : ReadBy levels kind p build)
    (h : List.Forall₂ (fun piece a => p.Accepts piece (some a)) pieces as) (hbad : p.Rejects bad e)
    {count : Nat} (hcount : count ≤ Tag.maxCount) (hlength : as.length < count) :
    (readValue (levels + 1)).Rejects ((Tag.counted kind count).toByte :: (pieces.flatten ++ bad))
      e := by
  refine readValue_rejects (by simpa [Tag.fits] using hcount) ?_
  intro offset rest
  rw [readBody, hread, Parser.exactly_of_rejects h hbad hlength]
  rfl

theorem opened_rejects (hread : ReadBy levels kind p build)
    (h : List.Forall₂ (fun piece a => p.Accepts piece (some a)) pieces as)
    (hbad : p.Rejects bad e) :
    (readValue (levels + 1)).Rejects ((Tag.opened kind).toByte :: (pieces.flatten ++ bad)) e := by
  refine readValue_rejects rfl ?_
  intro offset rest
  rw [readBody, hread, Parser.many_of_rejects h hbad]
  rfl

end Containers

/-- The loop of a container of either kind takes the children in front, and then comes something
that it rejects. -/
theorem exists_rejecting_loop {levels : Nat} {kind : Container} {front : List (Piece Tree)}
    (hfront : ∀ piece ∈ front, (readValue levels).Accepts piece.bytes (some piece.value))
    (hbad : (readValue levels).Rejects bad e) {value tree : Tree} {back : List Tree}
    (hnode : nodeOf? kind (front.map Piece.value ++ value :: back) = some tree) :
    ∃ (α : Type) (p : Parser (Option α)) (build : List α → Tree) (pieces : List Bytes)
      (as : List α) (badPiece : Bytes), ReadBy levels kind p build ∧
      List.Forall₂ (fun piece a => p.Accepts piece (some a)) pieces as ∧ p.Rejects badPiece e ∧
      pieces.flatten ++ badPiece = join front ++ bad ∧
      sentencesPerChild kind * as.length ≤ front.length := by
  cases kind with
  | array =>
    refine ⟨Tree, _, _, front.map Piece.bytes, front.map Piece.value, bad, readBy_array _,
      forall₂_accepts hfront, hbad, rfl, ?_⟩
    exact Nat.le_of_eq (by rw [List.length_map, sentencesPerChild, Nat.one_mul])
  | dict =>
    have hsome : (entriesOf? (front.map Piece.value ++ value :: back)).isSome := by
      rw [← Option.isSome_map, ← nodeOf?, hnode]
      rfl
    obtain ⟨pieces, entries, badEntry, haccepts, hrejects, hjoin, hlength⟩ :=
      exists_rejected_entry hfront hbad hsome
    exact ⟨_, _, _, pieces, entries, badEntry, readBy_dict _, haccepts, hrejects, hjoin, hlength⟩

/-- **A container is rejected with its child**, if the children in front are read and the child
stands for one that is. -/
theorem Frame.rejects {depth : Nat} {kind : Container} {front back : List (Piece Tree)}
    {piece : Piece Tree} {tag : UInt8} {stop : Bytes} {tree : Tree}
    (h : Frame depth kind ((front ++ piece :: back).map Piece.bytes)
      (tag :: (join (front ++ piece :: back) ++ stop)))
    (hfront : ∀ piece ∈ front, Sentence (depth + 1) piece.bytes piece.value)
    (hnode : nodeOf? kind ((front ++ piece :: back).map Piece.value) = some tree)
    (hbad : (readValue (levelsAt (depth + 1))).Rejects bad e) :
    (readValue (levelsAt depth)).Rejects (tag :: (join front ++ bad)) e := by
  rw [List.map_append, List.map_cons] at hnode
  obtain ⟨α, p, build, pieces, as, badPiece, hread, haccepts, hrejects, hjoin, hlength⟩ :=
    exists_rejecting_loop (fun piece hpiece => (hfront piece hpiece).accepts) hbad hnode
  rw [← hjoin, levelsAt_eq_succ h.depth_le]
  generalize hwhole : tag :: (join (front ++ piece :: back) ++ stop) = whole at h
  cases h with
  | @counted count hdepth hcount hparts =>
    have htag : tag = (Tag.counted kind count).toByte := by
      rw [(List.cons.inj hwhole).1]
      cases kind <;> rfl
    have hlt : as.length < count := by
      rw [List.length_map, List.length_append, List.length_cons] at hparts
      refine Nat.lt_of_mul_lt_mul_left (a := sentencesPerChild kind) ?_
      omega
    rw [htag]
    exact counted_rejects hread haccepts hrejects hcount hlt
  | opened hdepth =>
    have htag : tag = (Tag.opened kind).toByte := by
      rw [(List.cons.inj hwhole).1]
      cases kind <;> rfl
    rw [htag]
    exact opened_rejects hread haccepts hrejects

end Rejections

end PlistCodec.Opack
