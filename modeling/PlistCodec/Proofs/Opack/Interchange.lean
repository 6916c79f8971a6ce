import PlistCodec.Proofs.Opack.Failures
import PlistCodec.Proofs.Opack.Frames

/-!
# Counted and open containers

A container of up to 14 children can be written with its count in the tag or with an end mark behind
its children.  Wherever it stands in a stream (`ContainerAt`), one form can take the place of the
other without a change of what is decoded, but for one case: an empty container at the greatest
depth can be read as a counted one only, since the end mark of an open one is read at the depth of
its children (`decode_interchanged`).
-/

namespace PlistCodec.Opack

/-! ## Places -/

/-- A sentence at the depth `place` stands in another one, behind `before` and in front of
`behind`. -/
inductive StandsIn (place : Nat) (part : Bytes) :
    (depth : Nat) → (whole before behind : Bytes) → Prop where
  /-- A sentence stands in itself. -/
  | self : StandsIn place part place part [] []
  /-- What stands in a child stands in the container, behind the tag and the children in front. -/
  | child {depth : Nat} {tag : UInt8} {front back : List Bytes} {child stop before behind : Bytes}
      (hparts : Children depth (tag :: ((front ++ child :: back).flatten ++ stop))
        (front ++ child :: back))
      (h : StandsIn place part (depth + 1) child before behind) :
      StandsIn place part depth (tag :: ((front ++ child :: back).flatten ++ stop))
        (tag :: (front.flatten ++ before)) (behind ++ (back.flatten ++ stop))

/-- A sentence stands in a stream, in one of the pieces. -/
def StandsAt (depth : Nat) (stream before part behind : Bytes) : Prop :=
  ∃ (front : List (Piece (Option Tree))) (piece : Piece Tree) (back : List (Piece (Option Tree)))
    (inner outer : Bytes), Splits stream (front ++ piece.present :: back) ∧
      StandsIn depth part 0 piece.bytes inner outer ∧
      before = join front ++ inner ∧ behind = outer ++ join back

/-- A container stands in a stream, with its children. -/
def ContainerAt (depth : Nat) (stream before whole : Bytes) (parts : List Bytes) (behind : Bytes) :
    Prop :=
  StandsAt depth stream before whole behind ∧ Children depth whole parts

section Places

variable {place depth : Nat} {part whole before behind stream bad : Bytes} {tree : Tree} {e : Error}

/-- The frame around one of the children. -/
theorem Sentence.exists_around {front back : List Bytes} {child : Bytes}
    (h : Sentence depth whole tree) (hparts : Children depth whole (front ++ child :: back)) :
    ∃ (kind : Container) (left : List (Piece Tree)) (value : Tree) (right : List (Piece Tree)),
      left.map Piece.bytes = front ∧ right.map Piece.bytes = back ∧
      Frame depth kind (front ++ child :: back) whole ∧
      (∀ piece ∈ left ++ ⟨child, value⟩ :: right,
        Sentence (depth + 1) piece.bytes piece.value) ∧
      nodeOf? kind ((left ++ ⟨child, value⟩ :: right).map Piece.value) = some tree := by
  obtain ⟨kind, pieces, hbytes, hframe, hpieces, hnode⟩ := h.exists_frame hparts
  obtain ⟨left, behindLeft, rfl, rfl, hbehind⟩ := List.map_eq_append_iff.mp hbytes
  obtain ⟨⟨_, value⟩, right, rfl, rfl, rfl⟩ := List.map_eq_cons_iff.mp hbehind
  exact ⟨kind, left, value, right, rfl, rfl, hframe, hpieces, hnode⟩

/-- What stands in a sentence denotes something, and whatever denotes the same can stand there. -/
theorem StandsIn.exists_value (h : StandsIn place part depth whole before behind)
    (htree : Sentence depth whole tree) :
    ∃ value, Sentence place part value ∧
      ∀ other, Sentence place other value → Sentence depth (before ++ other ++ behind) tree := by
  induction h generalizing tree with
  | self =>
    refine ⟨tree, htree, fun other hother => ?_⟩
    rwa [List.nil_append, List.append_nil]
  | @child depth tag front back child stop before behind hparts _ ih =>
    obtain ⟨kind, left, childValue, right, rfl, rfl, hframe, hpieces, hnode⟩ :=
      htree.exists_around hparts
    obtain ⟨hleft, hright⟩ := List.forall_mem_append.mp hpieces
    obtain ⟨hchild, hright⟩ := List.forall_mem_cons.mp hright
    obtain ⟨value, hvalue, hother⟩ := ih hchild
    refine ⟨value, hvalue, fun other h => ?_⟩
    have hreplaced : ∀ piece ∈ left ++ ⟨before ++ other ++ behind, childValue⟩ :: right,
        Sentence (depth + 1) piece.bytes piece.value :=
      List.forall_mem_append.mpr ⟨hleft, List.forall_mem_cons.mpr ⟨hother other h, hright⟩⟩
    have hlength : ((left ++ ⟨before ++ other ++ behind, childValue⟩ :: right).map
        Piece.bytes).length = (left.map Piece.bytes ++ child :: right.map Piece.bytes).length := by
      simp
    have hsentence := (hframe.replace hlength).sentence hreplaced (by simpa using hnode)
    simpa [List.append_assoc] using hsentence

/-- A sentence is rejected with what stands in it. -/
theorem StandsIn.rejects (h : StandsIn place part depth whole before behind)
    (htree : Sentence depth whole tree) (hbad : (readValue (levelsAt place)).Rejects bad e) :
    (readValue (levelsAt depth)).Rejects (before ++ bad) e := by
  induction h generalizing tree with
  | self => exact hbad
  | @child depth tag front back child stop before behind hparts _ ih =>
    obtain ⟨kind, left, value, right, rfl, rfl, hframe, hpieces, hnode⟩ :=
      htree.exists_around hparts
    obtain ⟨hleft, hright⟩ := List.forall_mem_append.mp hpieces
    have hchild := ih (hright _ List.mem_cons_self)
    have hrejects := @Frame.rejects (before ++ bad) e depth kind left right ⟨child, value⟩ tag stop
      tree (by simpa [join] using hframe) hleft hnode hchild
    simpa [join, List.append_assoc] using hrejects

theorem StandsIn.whole_eq (h : StandsIn place part depth whole before behind) :
    whole = before ++ part ++ behind := by
  induction h with
  | self => simp
  | child _ _ ih =>
    rw [ih]
    simp

/-- What stands in a stream is read there, at its depth. -/
theorem StandsAt.read (h : StandsAt depth stream before part behind) :
    stream = before ++ part ++ behind ∧
      ∃ value, (readValue (levelsAt depth)).run ⟨before.length, part ++ behind⟩
        = .ok (some value, ⟨before.length + part.length, behind⟩) := by
  obtain ⟨front, piece, back, inner, outer, hsplits, hstands, rfl, rfl⟩ := h
  have hpiece := sentence_of_isPiece (hsplits.isPiece piece.present (by simp))
  obtain ⟨value, hvalue, -⟩ := hstands.exists_value hpiece
  refine ⟨?_, value, hvalue.accepts _ _⟩
  rw [← hsplits.join_eq]
  simp [join, Piece.present, hstands.whole_eq]

theorem StandsAt.exists_value (h : StandsAt depth stream before part behind) :
    ∃ value, Sentence depth part value ∧
      ∀ other, Sentence depth other value → decode (before ++ other ++ behind) = decode stream := by
  obtain ⟨front, piece, back, inner, outer, hsplits, hstands, rfl, rfl⟩ := h
  have hpieces := List.forall_mem_append.mp hsplits.isPiece
  obtain ⟨hpiece, hback⟩ := List.forall_mem_cons.mp hpieces.2
  obtain ⟨value, hvalue, hother⟩ := hstands.exists_value (sentence_of_isPiece hpiece)
  refine ⟨value, hvalue, fun other h => ?_⟩
  have hsplits' : Splits (join front ++ inner ++ other ++ (outer ++ join back))
      (front ++ ⟨inner ++ other ++ outer, some piece.value⟩ :: back) := by
    refine ⟨by simp [join], List.forall_mem_append.mpr ⟨hpieces.1, ?_⟩⟩
    exact List.forall_mem_cons.mpr ⟨.sentence (hother other h), hback⟩
  have hdenoted : denoted (front ++ ⟨inner ++ other ++ outer, some piece.value⟩ :: back)
      = denoted (front ++ piece.present :: back) := by
    simp [denoted, Piece.present]
  rw [decode, decode, hsplits'.readValues_eq, hsplits.readValues_eq, hdenoted]

theorem StandsAt.decode_eq_error (h : StandsAt depth stream before part behind) (hne : bad ≠ [])
    (hbad : (readValue (levelsAt depth)).Rejects bad e) :
    decode (before ++ bad ++ behind) = .error e := by
  obtain ⟨front, piece, back, inner, outer, hsplits, hstands, rfl, rfl⟩ := h
  have hpieces := List.forall_mem_append.mp hsplits.isPiece
  have hfront : ∀ piece ∈ front, topLevel.Accepts piece.bytes piece.value :=
    fun piece hpiece => (hpieces.1 piece hpiece).accepts
  have hpiece := sentence_of_isPiece (hpieces.2 _ List.mem_cons_self)
  have hrejects : topLevel.Rejects (inner ++ bad) e := hstands.rejects hpiece hbad
  have hrun := hrejects (0 + (join front).length) (outer ++ join back)
  have hrest : inner ++ bad ++ (outer ++ join back) ≠ [] := by
    simp [hne]
  have hstream : join front ++ inner ++ bad ++ (outer ++ join back)
      = join front ++ (inner ++ bad ++ (outer ++ join back)) := by
    simp only [List.append_assoc]
  rw [hstream, decode_eq_error_iff]
  refine .inl ?_
  rw [readValues, readAll_join_append hfront, readAll_of_error hrest hrun]
  rfl

end Places

/-! ## Both forms -/

section Forms

variable {depth count : Nat} {kind : Container} {parts : List Bytes}

theorem containerTag_injective {kind kind' : Container} {n n' : Nat} (hn : n ≤ 0x0F)
    (hn' : n' ≤ 0x0F)
    (h : UInt8.ofNat (containerTag kind + n) = UInt8.ofNat (containerTag kind' + n')) :
    kind = kind' ∧ n = n' := by
  have htags := congrArg UInt8.toNat h
  rw [UInt8.toNat_ofNat', UInt8.toNat_ofNat'] at htags
  cases kind <;> cases kind' <;> simp only [containerTag] at htags <;> simp <;> omega

/-- A frame with a count in its tag is a counted one. -/
theorem Frame.length_of_countedBytes {kind' : Container} (hcount : count ≤ 14)
    (h : Frame depth kind' parts (countedBytes kind count parts)) :
    kind = kind' ∧ parts.length = sentencesPerChild kind * count := by
  generalize hwhole : countedBytes kind count parts = whole at h
  cases h with
  | counted _ hcount' hlength =>
    obtain ⟨rfl, rfl⟩ := containerTag_injective (by omega) (by omega) (List.cons.inj hwhole).1
    exact ⟨rfl, hlength⟩
  | opened =>
    obtain ⟨-, rfl⟩ := containerTag_injective (by omega) (by omega) (List.cons.inj hwhole).1
    omega

theorem Frame.kind_of_openedBytes {kind' : Container}
    (h : Frame depth kind' parts (openedBytes kind parts)) : kind = kind' := by
  generalize hwhole : openedBytes kind parts = whole at h
  cases h with
  | counted _ hcount =>
    obtain ⟨-, rfl⟩ := containerTag_injective (by omega) (by omega) (List.cons.inj hwhole).1
    omega
  | opened => exact (containerTag_injective (by omega) (by omega) (List.cons.inj hwhole).1).1

/-- At the greatest depth there are no levels left to read an end mark with. -/
theorem openedBytes_rejects (kind : Container) (parts : List Bytes) :
    (readValue (levelsAt maxDepth)).Rejects (openedBytes kind parts)
      (.recursionLimit maxDepth) := by
  have hlevels : levelsAt maxDepth = 0 + 1 := by
    rw [levelsAt_eq_succ (Nat.le_refl _), levelsAt, Nat.sub_self]
  have hchild : (readValue 0).Rejects [] (.recursionLimit maxDepth) := fun _ _ => rfl
  have htag : (readValue (0 + 1)).Rejects ((Tag.opened kind).toByte :: ([].flatten ++ []))
      (.recursionLimit maxDepth) := by
    cases kind with
    | array => exact opened_rejects (readBy_array 0) .nil hchild
    | dict => exact opened_rejects (readBy_dict 0) .nil (entryParser_rejects_key hchild)
  have hwhole := htag.append (parts.flatten ++ [0x03])
  rw [hlevels]
  cases kind <;> exact hwhole

end Forms

/-! ## Containers in arrays of one item -/

/-- A tree inside arrays of one item each. -/
def wrapped (value : Tree) : (count : Nat) → Tree
  | 0 => value
  | count + 1 => .array [wrapped value count]

/-- A sentence stands behind the tags of the arrays around it. -/
theorem standsIn_wrapped {depth count : Nat} {part : Bytes} {value : Tree}
    (h : Sentence (depth + count) part value) :
    Sentence depth (List.replicate count 0xD1 ++ part) (wrapped value count) ∧
      StandsIn (depth + count) part depth (List.replicate count 0xD1 ++ part)
        (List.replicate count 0xD1) [] := by
  induction count generalizing depth with
  | zero => exact ⟨h, .self⟩
  | succ count ih =>
    have hdepth : depth + (count + 1) = depth + 1 + count := by omega
    rw [hdepth] at h ⊢
    obtain ⟨hinner, hstands⟩ := ih h
    have hitems : ∀ item ∈ [Piece.mk (List.replicate count 0xD1 ++ part) (wrapped value count)],
        Sentence (depth + 1) item.bytes item.value := List.forall_mem_singleton.mpr hinner
    have harray := Sentence.countedArray (Nat.le_of_succ_le hinner.depth_le) (by simp) hitems
    have hchildren := children_countedArray (by simp) hitems
    have hchild := @StandsIn.child (depth + 1 + count) part depth 0xD1 [] []
      (List.replicate count 0xD1 ++ part) [] _ _ (by simpa [join] using hchildren) hstands
    constructor
    · simpa [join, wrapped, List.replicate_succ] using harray
    · simpa [List.replicate_succ] using hchild

/-- A container in such arrays, as a stream. -/
theorem containerAt_wrapped {count : Nat} {whole : Bytes} {parts : List Bytes} {value : Tree}
    (h : Sentence count whole value) (hchildren : Children count whole parts) :
    decode (List.replicate count 0xD1 ++ whole) = .ok (wrapped value count) ∧
      ContainerAt count (List.replicate count 0xD1 ++ whole) (List.replicate count 0xD1) whole
        parts [] := by
  have hdepth : Sentence (0 + count) whole value := by rwa [Nat.zero_add]
  obtain ⟨hsentence, hstands⟩ := standsIn_wrapped hdepth
  rw [Nat.zero_add] at hstands
  refine ⟨decode_of_sentence hsentence, ⟨[], ⟨_, wrapped value count⟩, [], _, _, ⟨?_, ?_⟩, hstands,
    rfl, rfl⟩, hchildren⟩
  · simp [join, Piece.present]
  · exact List.forall_mem_singleton.mpr (.sentence hsentence)

/-! ## Interchange -/

/-- **Counted and open containers are interchangeable.**  An open container in place of a counted
one, and a counted one in place of an open one, leave what is decoded as it is, with one exception:
an empty counted container at the greatest depth.  An open one is too deep there. -/
theorem decode_interchanged {depth count : Nat} {kind : Container} {parts : List Bytes}
    {stream before behind : Bytes} {v : Tree} (hv : decode stream = .ok v) (hcount : count ≤ 14) :
    (ContainerAt depth stream before (countedBytes kind count parts) parts behind →
      (depth < maxDepth ∧ decode (before ++ openedBytes kind parts ++ behind) = .ok v) ∨
      (depth = maxDepth ∧ count = 0 ∧
        decode (before ++ openedBytes kind parts ++ behind)
          = .error (.recursionLimit maxDepth))) ∧
    (ContainerAt depth stream before (openedBytes kind parts) parts behind →
      parts.length = sentencesPerChild kind * count →
      decode (before ++ countedBytes kind count parts ++ behind) = .ok v) := by
  refine ⟨fun ⟨hstands, hchildren⟩ => ?_, fun ⟨hstands, hchildren⟩ hlength => ?_⟩
  · obtain ⟨value, hvalue, hother⟩ := hstands.exists_value
    obtain ⟨_, pieces, rfl, hframe, hpieces, hnode⟩ := hvalue.exists_frame hchildren
    obtain ⟨rfl, hlength⟩ := hframe.length_of_countedBytes hcount
    rcases Nat.lt_or_eq_of_le hframe.depth_le with hlt | rfl
    · have hopened := (Frame.opened hlt).sentence hpieces hnode
      exact .inl ⟨hlt, (hother _ hopened).trans hv⟩
    · -- nothing can stand deeper, so there are no children
      have hnone : pieces = [] := by
        refine List.eq_nil_iff_forall_not_mem.mpr fun piece hpiece => ?_
        exact absurd (hpieces piece hpiece).depth_le (Nat.not_succ_le_self maxDepth)
      have hzero : count = 0 := by
        rw [hnone] at hlength
        cases kind <;> simp [sentencesPerChild] at hlength <;> omega
      have hrejects := openedBytes_rejects kind (pieces.map Piece.bytes)
      exact .inr ⟨rfl, hzero, hstands.decode_eq_error (List.cons_ne_nil _ _) hrejects⟩
  · obtain ⟨value, hvalue, hother⟩ := hstands.exists_value
    obtain ⟨_, pieces, rfl, hframe, hpieces, hnode⟩ := hvalue.exists_frame hchildren
    obtain rfl := hframe.kind_of_openedBytes
    have hcounted := (Frame.counted hframe.depth_le hcount hlength).sentence hpieces hnode
    exact (hother _ hcounted).trans hv

/-- The two forms of a dictionary in an array. -/
theorem decode_interchanged_innerDict :
    decode ([0xD1] ++ countedBytes .dict 1 [[0x41, 0x6B], [0x01]] ++ [])
        = .ok (.array [.dict [("k", .bool true)]]) ∧
      decode ([0xD1] ++ openedBytes .dict [[0x41, 0x6B], [0x01]] ++ [])
        = .ok (.array [.dict [("k", .bool true)]]) := by
  have hkey : Sentence 2 [0x41, 0x6B] (.string "k") :=
    .leaf (by decide) (@Leaf.short .text _ _ (by decide) (.text "k"))
  have hyes : Sentence 2 [0x01] (.bool true) := .leaf (by decide) .yes
  have hparts : ∀ part ∈ [Piece.mk [0x41, 0x6B] (.string "k"), Piece.mk [0x01] (.bool true)],
      Sentence 2 part.bytes part.value :=
    List.forall_mem_cons.mpr ⟨hkey, List.forall_mem_singleton.mpr hyes⟩
  have hcounted : Frame 1 .dict [[0x41, 0x6B], [0x01]]
      (countedBytes .dict 1 [[0x41, 0x6B], [0x01]]) := .counted (by decide) (by decide) rfl
  have hopened : Frame 1 .dict [[0x41, 0x6B], [0x01]]
      (openedBytes .dict [[0x41, 0x6B], [0x01]]) := .opened (by decide)
  have hcountedAt := containerAt_wrapped (hcounted.sentence hparts rfl)
    (@Children.counted 1 .dict 1 _ (by decide) rfl hparts)
  have hopenedAt := containerAt_wrapped (hopened.sentence hparts rfl)
    (@Children.opened 1 .dict _ (by decide) hparts)
  have hcount : 1 ≤ 14 := by decide
  have hback := (decode_interchanged hopenedAt.1 hcount).2 hopenedAt.2 rfl
  rcases (decode_interchanged hcountedAt.1 hcount).1 hcountedAt.2 with ⟨-, hforth⟩ | ⟨h, -⟩
  · exact ⟨hback, hforth⟩
  · cases h

/-- Inside of 100 arrays, an empty array can be read as a counted one and not as an open one. -/
theorem decode_openedBytes_deepest :
    decode (List.replicate 100 0xD1 ++ countedBytes .array 0 [] ++ [])
        = .ok (wrapped (.array []) 100) ∧
      ContainerAt 100 (List.replicate 100 0xD1 ++ countedBytes .array 0 [])
        (List.replicate 100 0xD1) (countedBytes .array 0 []) [] [] ∧
      decode (List.replicate 100 0xD1 ++ openedBytes .array [] ++ [])
        = .error (.recursionLimit 100) := by
  have hframe : Frame 100 .array [] (countedBytes .array 0 []) :=
    .counted (by decide) (by decide) rfl
  have hempty : Sentence 100 (countedBytes .array 0 []) (.array []) :=
    @Frame.sentence 100 .array _ _ [] hframe (List.forall_mem_nil _) rfl
  obtain ⟨hdecode, hplace⟩ := containerAt_wrapped hempty
    (@Children.counted 100 .array 0 [] (by decide) rfl (List.forall_mem_nil _))
  rw [List.append_nil]
  exact ⟨hdecode, hplace,
    hplace.1.decode_eq_error (List.cons_ne_nil _ _) (openedBytes_rejects .array [])⟩

end PlistCodec.Opack
