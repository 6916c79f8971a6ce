import PlistCodec.Proofs.Opack.Grammar

/-!
# The parts of a stream

A sentence is made of its tag, its children and, if it is an open container, the end mark.  Its
parts are the sentence itself, its children and their parts.  They are determined by the bytes
(`Children.unique`), so that one can speak of what occurs in a stream (`OccursIn`) and go through it
part by part (`part_iff_of_children`, `part_iff_of_leaf`).
-/

namespace PlistCodec.Opack

/-! ## Children -/

/-- The tag of the empty container.  The tags of longer ones follow it, and then that of an open
one. -/
def containerTag : Container → Nat
  | .array => 0xD0
  | .dict => 0xE0

/-- How many sentences there are for each child that is counted: an entry has a key and a value. -/
def sentencesPerChild : Container → Nat
  | .array => 1
  | .dict => 2

/-- The children of a container at a depth, keys and values each for itself. -/
inductive Children (depth : Nat) : Bytes → List Bytes → Prop where
  /-- The children of a counted container. -/
  | counted {kind : Container} {count : Nat} {parts : List (Piece Tree)} (hcount : count ≤ 14)
      (hlength : parts.length = sentencesPerChild kind * count)
      (hparts : ∀ part ∈ parts, Sentence (depth + 1) part.bytes part.value) :
      Children depth (UInt8.ofNat (containerTag kind + count) :: join parts)
        (parts.map Piece.bytes)
  /-- The children of an open container. -/
  | opened {kind : Container} {parts : List (Piece Tree)} (hdepth : depth + 1 ≤ maxDepth)
      (hparts : ∀ part ∈ parts, Sentence (depth + 1) part.bytes part.value) :
      Children depth (UInt8.ofNat (containerTag kind + 0x0F) :: (join parts ++ [0x03]))
        (parts.map Piece.bytes)

/-- A piece with something in it. -/
def Piece.present (piece : Piece Tree) : Piece (Option Tree) := ⟨piece.bytes, some piece.value⟩

theorem join_map_present (parts : List (Piece Tree)) :
    join (parts.map Piece.present) = join parts := by
  rw [join, join, List.map_map]
  rfl

theorem forall_isPiece_present {depth : Nat} {parts : List (Piece Tree)}
    (h : ∀ part ∈ parts, Sentence depth part.bytes part.value) :
    ∀ piece ∈ parts.map Piece.present, IsPiece depth piece.bytes piece.value := by
  rw [List.forall_mem_map]
  exact fun part hpart => .sentence (h part hpart)

/-- The children of a container are the pieces behind its tag, the end mark left out. -/
theorem Children.exists_pieces {depth : Nat} {whole : Bytes} {parts : List Bytes}
    (h : Children depth whole parts) :
    ∃ tag pieces, whole = tag :: join pieces ∧
      (∀ piece ∈ pieces, IsPiece (depth + 1) piece.bytes piece.value) ∧
      parts = (pieces.filter fun piece => piece.value.isSome).map Piece.bytes := by
  have hfilter : ∀ parts : List (Piece Tree),
      (parts.map Piece.present).filter (fun piece => piece.value.isSome)
        = parts.map Piece.present := by
    intro parts
    rw [List.filter_eq_self, List.forall_mem_map]
    exact fun _ _ => rfl
  cases h with
  | @counted kind count parts hcount hlength hparts =>
    refine ⟨UInt8.ofNat (containerTag kind + count), parts.map Piece.present, ?_,
      forall_isPiece_present hparts, ?_⟩
    · rw [join_map_present]
    · rw [hfilter, List.map_map]
      rfl
  | @opened kind parts hdepth hparts =>
    refine ⟨UInt8.ofNat (containerTag kind + 0x0F), parts.map Piece.present ++ [⟨[0x03], none⟩],
      ?_, ?_, ?_⟩
    · rw [← join_map_present]
      simp [join]
    · rw [List.forall_mem_append, List.forall_mem_singleton]
      exact ⟨forall_isPiece_present hparts, .mark hdepth⟩
    · rw [List.filter_append, hfilter]
      simp [Piece.present]

/-- Bytes have children in at most one way. -/
theorem Children.unique {depth : Nat} {whole : Bytes} {parts others : List Bytes}
    (h : Children depth whole parts) (h' : Children depth whole others) : parts = others := by
  obtain ⟨tag, pieces, hwhole, hpieces, rfl⟩ := h.exists_pieces
  obtain ⟨tag', pieces', hwhole', hpieces', rfl⟩ := h'.exists_pieces
  have hjoin : join pieces = join pieces' := (List.cons.inj (hwhole.symm.trans hwhole')).2
  rw [join_injective (fun piece h => (hpieces piece h).accepts)
    (fun piece h => (hpieces' piece h).accepts) hjoin]

/-- The sentences of the entries of a dictionary. -/
def entryParts (entries : List (Piece String × Piece Tree)) : List (Piece Tree) :=
  entries.flatMap fun e => [⟨e.1.bytes, .string e.1.value⟩, e.2]

theorem join_entryParts (entries : List (Piece String × Piece Tree)) :
    join (entryParts entries) = (entries.map fun e => e.1.bytes ++ e.2.bytes).flatten := by
  induction entries with
  | nil => rfl
  | cons e es ih =>
    rw [List.map_cons, List.flatten_cons, ← ih]
    simp [entryParts, join]

theorem length_entryParts (entries : List (Piece String × Piece Tree)) :
    (entryParts entries).length = 2 * entries.length := by
  simp [entryParts, Nat.mul_comm]

theorem key_mem_entryParts {entries : List (Piece String × Piece Tree)}
    {e : Piece String × Piece Tree} (he : e ∈ entries) :
    e.1.bytes ∈ (entryParts entries).map Piece.bytes :=
  List.mem_map.mpr ⟨_, List.mem_flatMap.mpr ⟨e, he, List.mem_cons_self⟩, rfl⟩

theorem value_mem_entryParts {entries : List (Piece String × Piece Tree)}
    {e : Piece String × Piece Tree} (he : e ∈ entries) :
    e.2.bytes ∈ (entryParts entries).map Piece.bytes :=
  List.mem_map_of_mem (List.mem_flatMap.mpr ⟨e, he, List.mem_pair.mpr (.inr rfl)⟩)

/-- What is true of the sentences of all keys and of all values. -/
theorem forall_entryParts {entries : List (Piece String × Piece Tree)} {p : Piece Tree → Prop}
    (hkeys : ∀ e ∈ entries, p ⟨e.1.bytes, .string e.1.value⟩) (hvalues : ∀ e ∈ entries, p e.2) :
    ∀ part ∈ entryParts entries, p part := by
  intro part hpart
  obtain ⟨e, he, hpart⟩ := List.mem_flatMap.mp hpart
  rcases List.mem_pair.mp hpart with rfl | rfl
  · exact hkeys e he
  · exact hvalues e he

section Containers

variable {depth : Nat} {items : List (Piece Tree)} {entries : List (Piece String × Piece Tree)}

theorem children_countedArray (hcount : items.length ≤ 14)
    (hitems : ∀ item ∈ items, Sentence (depth + 1) item.bytes item.value) :
    Children depth (UInt8.ofNat (0xD0 + items.length) :: join items) (items.map Piece.bytes) :=
  @Children.counted depth .array _ items hcount (Nat.one_mul _).symm hitems

theorem children_openArray (hdepth : depth + 1 ≤ maxDepth)
    (hitems : ∀ item ∈ items, Sentence (depth + 1) item.bytes item.value) :
    Children depth (0xDF :: (join items ++ [0x03])) (items.map Piece.bytes) :=
  @Children.opened depth .array items hdepth hitems

theorem children_countedDict (hcount : entries.length ≤ 14)
    (hkeys : ∀ e ∈ entries, Sentence (depth + 1) e.1.bytes (.string e.1.value))
    (hvalues : ∀ e ∈ entries, Sentence (depth + 1) e.2.bytes e.2.value) :
    Children depth (UInt8.ofNat (0xE0 + entries.length) ::
        (entries.map fun e => e.1.bytes ++ e.2.bytes).flatten)
      ((entryParts entries).map Piece.bytes) := by
  rw [← join_entryParts]
  exact @Children.counted depth .dict _ _ hcount (length_entryParts entries)
    (forall_entryParts hkeys hvalues)

theorem children_openDict (hdepth : depth + 1 ≤ maxDepth)
    (hkeys : ∀ e ∈ entries, Sentence (depth + 1) e.1.bytes (.string e.1.value))
    (hvalues : ∀ e ∈ entries, Sentence (depth + 1) e.2.bytes e.2.value) :
    Children depth (0xEF :: ((entries.map fun e => e.1.bytes ++ e.2.bytes).flatten ++ [0x03]))
      ((entryParts entries).map Piece.bytes) := by
  rw [← join_entryParts]
  exact @Children.opened depth .dict _ hdepth (forall_entryParts hkeys hvalues)

end Containers

/-! ## Parts -/

/-- A part of a sentence at a depth. -/
inductive Part : (depth : Nat) → (part whole : Bytes) → Prop where
  /-- The sentence itself. -/
  | self {depth : Nat} {whole : Bytes} : Part depth whole whole
  /-- A part of a child. -/
  | child {depth : Nat} {part child whole : Bytes} {parts : List Bytes}
      (hparts : Children depth whole parts) (hchild : child ∈ parts)
      (h : Part (depth + 1) part child) : Part depth part whole

/-- A sentence occurs in a stream, at whatever depth. -/
def OccursIn (part stream : Bytes) : Prop :=
  ∃ pieces, Splits stream pieces ∧ ∃ piece ∈ pieces, Part 0 part piece.bytes

section Parts

variable {depth : Nat} {part whole stream : Bytes} {parts : List Bytes}

theorem part_iff_of_children (h : Children depth whole parts) :
    Part depth part whole ↔ part = whole ∨ ∃ child ∈ parts, Part (depth + 1) part child := by
  constructor
  · intro hpart
    cases hpart with
    | self => exact .inl rfl
    | child hparts hchild hpart =>
      rw [hparts.unique h] at hchild
      exact .inr ⟨_, hchild, hpart⟩
  · rintro (rfl | ⟨child, hchild, hpart⟩)
    · exact .self
    · exact .child h hchild hpart

/-- What is true of all parts of a container is true of all parts of its children. -/
theorem Children.forall_part {p : Bytes → Prop} (hparts : Children depth whole parts)
    (h : ∀ part, Part depth part whole → p part) :
    ∀ child ∈ parts, ∀ part, Part (depth + 1) part child → p part :=
  fun _ hchild part hpart => h part (.child hparts hchild hpart)

/-- The tags of sentences without children come before those of containers. -/
theorem Leaf.exists_tag {tree : Tree} (h : Leaf whole tree) :
    ∃ tag rest, whole = tag :: rest ∧ tag.toNat < 0xD0 := by
  cases h with
  | @small n h =>
    refine ⟨_, [], rfl, ?_⟩
    rw [UInt8.toNat_ofNat']
    omega
  | @short kind payload _ hshort h =>
    refine ⟨_, payload, rfl, ?_⟩
    rw [UInt8.toNat_ofNat']
    cases kind <;> simp only [shortTag] <;> omega
  | @sized kind tag width field payload _ htag hwidth hlength h =>
    obtain ⟨w, rfl, rfl⟩ := exists_width_of_mem_sizedTags htag
    refine ⟨_, _, rfl, ?_⟩
    cases kind <;> cases w <;> decide
  | _ => exact ⟨_, _, rfl, by decide⟩

theorem Children.exists_tag (h : Children depth whole parts) :
    ∃ tag rest, whole = tag :: rest ∧ 0xD0 ≤ tag.toNat := by
  have htag : ∀ (kind : Container) (count : Nat), count ≤ 0x0F →
      0xD0 ≤ (UInt8.ofNat (containerTag kind + count)).toNat := by
    intro kind count hcount
    rw [UInt8.toNat_ofNat']
    cases kind <;> simp only [containerTag] <;> omega
  cases h with
  | counted hcount => exact ⟨_, _, rfl, htag _ _ (Nat.le_succ_of_le hcount)⟩
  | opened => exact ⟨_, _, rfl, htag _ _ (Nat.le_refl _)⟩

theorem Leaf.not_children {tree : Tree} (h : Leaf whole tree) : ¬Children depth whole parts := by
  intro hparts
  obtain ⟨tag, rest, hwhole, hlt⟩ := h.exists_tag
  obtain ⟨tag', rest', hwhole', hle⟩ := hparts.exists_tag
  obtain ⟨rfl, rfl⟩ := List.cons.inj (hwhole.symm.trans hwhole')
  exact absurd hlt (Nat.not_lt.mpr hle)

theorem part_iff_of_leaf {tree : Tree} (h : Leaf whole tree) :
    Part depth part whole ↔ part = whole := by
  constructor
  · intro hpart
    cases hpart with
    | self => rfl
    | child hparts => exact absurd hparts h.not_children
  · rintro rfl
    exact .self

theorem occursIn_iff {pieces : List (Piece (Option Tree))} (h : Splits stream pieces) :
    OccursIn part stream ↔ ∃ piece ∈ pieces, Part 0 part piece.bytes := by
  constructor
  · rintro ⟨others, hothers, hpart⟩
    rwa [h.unique hothers]
  · exact fun hpart => ⟨pieces, h, hpart⟩

end Parts

end PlistCodec.Opack
