import PlistCodec.Proofs.Archive.Growth
import PlistCodec.Proofs.Archive.Unfolding
import PlistCodec.Proofs.Tree.Renaming

/-!
# Copying a graph

A walk that copies a node of a source archive appends objects to the target and gives the node as it
has to read there.  Two things are proved of it at once, by induction on the levels that it has left
(`mergeNode_walked`).

* **Growth.**  However the walk ends, the target has grown, and the new objects refer to each other
  at most.  A slot whose copy is not finished still holds its placeholder, which refers to nothing.
* **Copies.**  A walk that comes to its end has made a copy (`Copied`): with the new objects in
  their slots, the node unfolds to what the original unfolds to, whatever else the table holds.  The
  slots are numbered in the order of the walk, and each of them is referred to once.

That a copy does not depend on the rest of the table is what carries the induction: objects that are
appended later, or a placeholder that is overwritten in front of it, leave it a copy.
-/

namespace PlistCodec.Archive

/-! ## Appended objects, found in their slots -/

/-- `find` gives the objects of a list, one after the other, from the slot `first` on. -/
def Finds (find : Nat → Option Tree) (first : Nat) (objects : List Tree) : Prop :=
  ∀ i, i < objects.length → find (first + i) = objects[i]?

section Finds

variable {find : Nat → Option Tree} {first : Nat} {object : Tree} {objects more : List Tree}

theorem Finds.left (h : Finds find first (objects ++ more)) : Finds find first objects := by
  intro i hi
  rw [h i (by rw [List.length_append]; omega), List.getElem?_append_left hi]

theorem Finds.right (h : Finds find first (objects ++ more)) :
    Finds find (first + objects.length) more := by
  intro i hi
  rw [Nat.add_assoc, h (objects.length + i) (by rw [List.length_append]; omega),
    List.getElem?_append_right (Nat.le_add_right _ _), Nat.add_sub_cancel_left]

theorem Finds.head (h : Finds find first (object :: objects)) : find first = some object :=
  h 0 (Nat.succ_pos _)

theorem Finds.tail (h : Finds find first (object :: objects)) : Finds find (first + 1) objects :=
  @Finds.right find first [object] objects h

end Finds

theorem HasTable.find?_eq {a : Archive} (h : HasTable a) (slot : Nat) :
    a.find? slot = a.table[slot]? := by
  rw [find?, h.object_eq]
  cases a.table[slot]? <;> rfl

theorem HasTable.finds_grown {a : Archive} (h : HasTable a) (new : List Tree) :
    Finds (a.grown new).find? (a.lastUid + 1) new := by
  intro i _
  rw [(h.grown new).find?_eq, table_grown, ← h.length_table,
    List.getElem?_append_right (Nat.le_add_right _ _), Nat.add_sub_cancel_left]

/-! ## Finished copies -/

/-- In the slots from `first` on, each of the objects refers to slots behind its own only. -/
def Forward (first : Nat) (objects : List Tree) : Prop :=
  ∀ i object, objects[i]? = some object → ∀ slot ∈ object.references, first + i < slot

theorem Forward.nil {first : Nat} : Forward first [] := fun _ _ h => by cases h

theorem Forward.append {first : Nat} {objects more : List Tree} (h : Forward first objects)
    (hmore : Forward (first + objects.length) more) : Forward first (objects ++ more) := by
  intro i object hi slot hslot
  by_cases hlt : i < objects.length
  · rw [List.getElem?_append_left hlt] at hi
    exact h i object hi slot hslot
  · rw [List.getElem?_append_right (Nat.le_of_not_lt hlt)] at hi
    have := hmore _ object hi slot hslot
    omega

theorem Forward.cons {first high : Nat} {object : Tree} {objects : List Tree}
    (hobject : object.RefersWithin (first + 1) high) (h : Forward (first + 1) objects) :
    Forward first (object :: objects) := by
  intro i other hi slot hslot
  cases i with
  | zero =>
    cases hi
    exact (hobject slot hslot).1
  | succ i =>
    have := h i other hi slot hslot
    omega

/-- `slot'` holds a copy of what `slot` holds, where `find` and `find'` give the objects in the
slots of the two tables: the copy is the object, but for its references, which lead to copies
again.  Slot 0 stands for no object in both. -/
inductive Mirrors (find find' : Nat → Option Tree) : Nat → Nat → Prop where
  /-- No object. -/
  | null : Mirrors find find' 0 0
  /-- An object and its copy. -/
  | copy {slot slot' : Nat} {t t' : Tree} (hslot : slot ≠ 0) (hslot' : slot' ≠ 0)
    (h : find slot = some t) (h' : find' slot' = some t')
    (ht : t.Renamed (Mirrors find find') t') : Mirrors find find' slot slot'

/-- `t'` is a copy of the node `t` of the source: with the objects `new` from the slot `first` on it
has the unfolding of `t`, a walk reaches the slots of these objects one after the other, and each of
them is referred to once. -/
structure Copied (source : Archive) (levels first : Nat) (t t' : Tree) (new : List Tree) :
    Prop where
  /-- Copy and original unfold to the same tree. -/
  unfolds : ∃ u, walkWithin unfolding source.find? levels t = some u ∧
    ∀ find, Finds find first new → walkWithin unfolding find levels t' = some u
  /-- The references of the copy lead to copies. -/
  mirrors : ∀ find, Finds find first new → t.Renamed (Mirrors source.find? find) t'
  /-- The slots are numbered in the order of the walk. -/
  visits : ∀ find, Finds find first new →
    walkWithin visit find levels t' = some (List.range' first new.length)
  /-- The copy and the new objects together refer to every new slot once and to no other one. -/
  references_perm :
    (t'.references ++ new.flatMap Tree.references).Perm (List.range' first new.length)
  /-- New objects refer forward. -/
  forward : Forward first new

/-- The same for lists of nodes that are copied one after the other. -/
structure CopiedAll (source : Archive) (levels first : Nat) (ts ts' new : List Tree) : Prop where
  /-- Each node has its copy. -/
  length_eq : ts'.length = ts.length
  /-- Copies and originals unfold to the same trees. -/
  unfolds : ∃ us,
    List.Forall₂ (fun t u => walkWithin unfolding source.find? levels t = some u) ts us ∧
    ∀ find, Finds find first new →
      List.Forall₂ (fun t u => walkWithin unfolding find levels t = some u) ts' us
  /-- The references of the copies lead to copies. -/
  mirrors : ∀ find, Finds find first new →
    List.Forall₂ (Tree.Renamed (Mirrors source.find? find)) ts ts'
  /-- The slots are numbered in the order of the walk. -/
  visits : ∀ find, Finds find first new → ∃ slots,
    List.Forall₂ (fun t x => walkWithin visit find levels t = some x) ts' slots ∧
      slots.flatten = List.range' first new.length
  /-- The copies and the new objects together refer to every new slot once and to no other one. -/
  references_perm :
    (ts'.flatMap Tree.references ++ new.flatMap Tree.references).Perm
      (List.range' first new.length)
  /-- New objects refer forward. -/
  forward : Forward first new

section Copies

variable {source : Archive} {levels first : Nat} {t t' : Tree} {ts ts' new more : List Tree}

theorem CopiedAll.nil : CopiedAll source levels first [] [] [] where
  length_eq := rfl
  unfolds := ⟨[], .nil, fun _ _ => .nil⟩
  mirrors _ _ := .nil
  visits _ _ := ⟨[], .nil, rfl⟩
  references_perm := .refl _
  forward := .nil

/-- The objects of the first node stand in front of those of the others. -/
theorem CopiedAll.cons (h : Copied source levels first t t' new)
    (hs : CopiedAll source levels (first + new.length) ts ts' more) :
    CopiedAll source levels first (t :: ts) (t' :: ts') (new ++ more) where
  length_eq := congrArg Nat.succ hs.length_eq
  unfolds := by
    obtain ⟨u, hu, hu'⟩ := h.unfolds
    obtain ⟨us, hus, hus'⟩ := hs.unfolds
    exact ⟨u :: us, .cons hu hus, fun find hfind =>
      .cons (hu' find hfind.left) (hus' find hfind.right)⟩
  mirrors find hfind := .cons (h.mirrors find hfind.left) (hs.mirrors find hfind.right)
  visits := by
    intro find hfind
    obtain ⟨slots, hslots, hflatten⟩ := hs.visits find hfind.right
    refine ⟨_ :: slots, .cons (h.visits find hfind.left) hslots, ?_⟩
    rw [List.flatten_cons, hflatten, List.length_append, List.range'_append_1]
  references_perm := by
    have hsplit := h.references_perm.append hs.references_perm
    rw [List.range'_append_1, ← List.length_append] at hsplit
    refine List.Perm.trans ?_ hsplit
    rw [List.flatMap_cons, List.flatMap_append, List.append_assoc, List.append_assoc]
    refine List.Perm.append_left _ ?_
    rw [← List.append_assoc, ← List.append_assoc]
    exact List.Perm.append_right _ List.perm_append_comm
  forward := h.forward.append hs.forward

/-- A container is copied when its children are. -/
theorem Copied.container (huid : t.uid? = none)
    (hs : CopiedAll source levels first t.children ts' new) :
    Copied source (levels + 1) first t (t.withChildren ts') new where
  unfolds := by
    have huid' : (t.withChildren ts').uid? = none := by rw [Tree.uid?_withChildren, huid]
    obtain ⟨us, hus, hus'⟩ := hs.unfolds
    refine ⟨t.withChildren us, (walkWithin_eq_some_iff huid).mpr ⟨us, hus, rfl⟩, ?_⟩
    intro find hfind
    refine (walkWithin_eq_some_iff huid').mpr ⟨us, ?_, ?_⟩
    · rw [Tree.children_withChildren hs.length_eq]
      exact hus' find hfind
    · exact Tree.withChildren_withChildren hs.length_eq
  mirrors find hfind := .node huid (hs.mirrors find hfind)
  visits := by
    have huid' : (t.withChildren ts').uid? = none := by rw [Tree.uid?_withChildren, huid]
    intro find hfind
    obtain ⟨slots, hslots, hflatten⟩ := hs.visits find hfind
    refine (walkWithin_eq_some_iff huid').mpr ⟨slots, ?_, hflatten⟩
    rw [Tree.children_withChildren hs.length_eq]
    exact hslots
  references_perm := by
    have huid' : (t.withChildren ts').uid? = none := by rw [Tree.uid?_withChildren, huid]
    rw [Tree.references_eq huid', Tree.children_withChildren hs.length_eq]
    exact hs.references_perm
  forward := hs.forward

theorem Copied.null : Copied source (levels + 1) first (.uid 0) (.uid 0) [] where
  unfolds := ⟨.uid 0, rfl, fun _ _ => rfl⟩
  mirrors _ _ := .uid .null
  visits _ _ := rfl
  references_perm := .refl _
  forward := .nil

/-- A copy refers to the new objects at most. -/
theorem Copied.refersWithin (h : Copied source levels first t t' new) :
    t'.RefersWithin first (first + new.length) := by
  intro slot hslot
  have hmem := h.references_perm.subset (List.mem_append_left _ hslot)
  exact List.mem_range'_1.mp hmem

/-- A reference is copied when the object in its slot is: the copy of the object takes the first new
slot, and the reference leads there. -/
theorem Copied.reference {slot : Nat} (hslot : slot ≠ 0) (hfirst : first ≠ 0)
    (hobject : source.find? slot = some t) (h : Copied source levels (first + 1) t t' new) :
    Copied source (levels + 1) first (.uid slot) (.uid first) (t' :: new) where
  unfolds := by
    obtain ⟨u, hu, hu'⟩ := h.unfolds
    refine ⟨u, (walkWithin_uid_eq_some_iff hslot).mpr ⟨t, u, hobject, hu, rfl⟩, ?_⟩
    intro find hfind
    exact (walkWithin_uid_eq_some_iff hfirst).mpr
      ⟨t', u, hfind.head, hu' find hfind.tail, rfl⟩
  mirrors find hfind :=
    .uid (.copy hslot hfirst hobject hfind.head (h.mirrors find hfind.tail))
  visits := by
    intro find hfind
    exact (walkWithin_uid_eq_some_iff hfirst).mpr
      ⟨t', _, hfind.head, h.visits find hfind.tail, rfl⟩
  references_perm := by
    rw [Tree.references_uid hfirst, List.flatMap_cons]
    exact h.references_perm.cons first
  forward := .cons h.refersWithin h.forward

end Copies

/-! ## Walks that copy -/

theorem zipWith_map_snd (entries : List (String × Tree)) :
    entries.zipWith (fun e t => (e.1, t)) (entries.map Prod.snd) = entries := by
  induction entries with
  | nil => rfl
  | cons e es ih => rw [List.map_cons, List.zipWith_cons_cons, ih]

/-- The values of a dictionary are walked like the items of an array. -/
theorem mergeEntries_eq (walk : Tree → Archive → Merged Tree) (entries : List (String × Tree))
    (a : Archive) :
    mergeEntries walk entries a =
      ⟨entries.zipWith (fun e t => (e.1, t)) (mergeItems walk (entries.map Prod.snd) a).node,
        (mergeItems walk (entries.map Prod.snd) a).fault,
        (mergeItems walk (entries.map Prod.snd) a).archive⟩ := by
  induction entries generalizing a with
  | nil => rfl
  | cons e es ih =>
    obtain ⟨key, t⟩ := e
    rw [mergeEntries, List.map_cons, mergeItems]
    obtain ⟨node, _ | fault, b⟩ := walk t a
    · simp only [ih, List.zipWith_cons_cons]
    · simp only [List.zipWith_cons_cons, zipWith_map_snd]

/-- A node that is no reference is walked by walking its children. -/
theorem mergeNode_container (source : Archive) (levels : Nat) {t : Tree} (h : t.uid? = none)
    (a : Archive) :
    mergeNode source (levels + 1) t a =
      ⟨t.withChildren (mergeItems (mergeNode source levels) t.children a).node,
        (mergeItems (mergeNode source levels) t.children a).fault,
        (mergeItems (mergeNode source levels) t.children a).archive⟩ := by
  cases t with
  | uid slot => cases h
  | dict entries => simp only [mergeNode, mergeEntries_eq, Tree.children, Tree.withChildren]
  | _ => rfl

/-- What a walk leaves behind, however it ends: the target has grown by the objects `new`, which
refer to each other at most, and a walk that came to its end has copied what it walked. -/
structure Walked {β : Type} (a : Archive) (m : Merged β) (copied : β → List Tree → Prop)
    (new : List Tree) : Prop where
  /-- Nothing of the target has changed but for the new objects. -/
  archive_eq : m.archive = a.grown new
  /-- The new objects refer to each other at most. -/
  refersWithin : ∀ object ∈ new,
    object.RefersWithin (a.lastUid + 1) (a.lastUid + 1 + new.length)
  /-- A walk without a fault is a copy. -/
  copied_of_done : m.fault = none → copied m.node new

/-- A walk that appends nothing. -/
theorem Walked.unchanged {β : Type} {a : Archive} {m : Merged β} {copied : β → List Tree → Prop}
    (ha : HasTable a) (hm : m.archive = a) (hcopied : m.fault = none → copied m.node []) :
    Walked a m copied [] where
  archive_eq := hm.trans ha.grown_nil.symm
  refersWithin := List.forall_mem_nil _
  copied_of_done := hcopied

theorem mergeItems_walked {source : Archive} {levels : Nat}
    (ih : ∀ (t : Tree) {a : Archive}, HasTable a → ∃ new, Walked a (mergeNode source levels t a)
      (Copied source levels (a.lastUid + 1) t) new)
    (ts : List Tree) {a : Archive} (ha : HasTable a) :
    ∃ new, Walked a (mergeItems (mergeNode source levels) ts a)
      (CopiedAll source levels (a.lastUid + 1) ts) new := by
  induction ts generalizing a with
  | nil => exact ⟨[], .unchanged ha rfl fun _ => .nil⟩
  | cons t ts ihs =>
    obtain ⟨new, hwalk⟩ := ih t ha
    rw [mergeItems]
    generalize mergeNode source levels t a = m at hwalk ⊢
    obtain ⟨node, fault, b⟩ := m
    obtain ⟨rfl : b = a.grown new, hrefers, hcopied⟩ := hwalk
    cases fault with
    | some e => exact ⟨new, rfl, hrefers, fun h => by cases h⟩
    | none =>
      obtain ⟨more, hwalks⟩ := ihs (ha.grown new)
      simp only
      generalize mergeItems (mergeNode source levels) ts (a.grown new) = m at hwalks ⊢
      obtain ⟨nodes, fault, b⟩ := m
      obtain ⟨rfl : b = (a.grown new).grown more, hrefers', hcopied'⟩ := hwalks
      have hfirst : (a.grown new).lastUid + 1 = a.lastUid + 1 + new.length := by
        rw [lastUid_grown]
        omega
      refine ⟨new ++ more, grown_grown a new more, ?_, ?_⟩
      · intro object hobject
        rw [hfirst] at hrefers'
        rw [List.length_append, ← Nat.add_assoc]
        rcases List.mem_append.mp hobject with h | h
        · exact (hrefers object h).mono (Nat.le_refl _) (Nat.le_add_right _ _)
        · exact (hrefers' object h).mono (Nat.le_add_right _ _) (Nat.le_refl _)
      · intro hdone
        rw [hfirst] at hcopied'
        exact .cons (hcopied rfl) (hcopied' hdone)

theorem find?_eq_some_of_object {a : Archive} {slot : Nat} {object : Tree}
    (h : a.object slot = .ok object) : a.find? slot = some object := by
  rw [find?, h]
  rfl

/-- A slot of the source is copied into the first new slot.  The object is walked in the archive
that holds the placeholder already; if the walk of it comes to its end, the copy takes the place of
the placeholder, in front of what the walk has appended. -/
theorem HasTable.mergeSlot_eq {source a : Archive} {walk : Tree → Archive → Merged Tree}
    {slot : Nat} {object : Tree} {new : List Tree} (ha : HasTable a)
    (hobject : source.object slot = .ok object)
    (hb : (walk object (a.grown [placeholder])).archive = (a.grown [placeholder]).grown new) :
    mergeSlot source walk slot a =
      ⟨.uid (a.lastUid + 1), (walk object (a.grown [placeholder])).fault,
        a.grown ((if (walk object (a.grown [placeholder])).fault = none
          then (walk object (a.grown [placeholder])).node else placeholder) :: new)⟩ := by
  rw [mergeSlot, hobject, ha.run_appendObject]
  simp only
  generalize walk object (a.grown [placeholder]) = m at hb ⊢
  obtain ⟨node, fault, b⟩ := m
  obtain rfl : b = (a.grown [placeholder]).grown new := hb
  rw [grown_grown]
  cases fault with
  | some e => rfl
  | none =>
    have hput : (putObject (a.lastUid + 1) node).run (a.grown ([placeholder] ++ new))
        = .ok () (a.grown (node :: new)) :=
      @HasTable.run_putObject_grown a ha (placeholder :: new) 0 node (Nat.succ_pos _)
    simp only [hput, if_true]

theorem mergeSlot_walked {source : Archive} {levels : Nat}
    (ih : ∀ (t : Tree) {a : Archive}, HasTable a → ∃ new, Walked a (mergeNode source levels t a)
      (Copied source levels (a.lastUid + 1) t) new)
    {slot : Nat} (hslot : slot ≠ 0) {a : Archive} (ha : HasTable a) :
    ∃ new, Walked a (mergeSlot source (mergeNode source levels) slot a)
      (Copied source (levels + 1) (a.lastUid + 1) (.uid slot)) new := by
  cases hobject : source.object slot with
  | error e =>
    rw [mergeSlot, hobject]
    exact ⟨[], .unchanged ha rfl fun h => by cases h⟩
  | ok object =>
    obtain ⟨new, hb, hrefers, hcopied⟩ := ih object (ha.grown [placeholder])
    rw [ha.mergeSlot_eq hobject hb]
    generalize mergeNode source levels object (a.grown [placeholder]) = m at hcopied ⊢
    obtain ⟨node, fault, b⟩ := m
    have hrefers' : ∀ object ∈ new, object.RefersWithin (a.lastUid + 1)
        (a.lastUid + 1 + (new.length + 1)) := by
      intro object hobject
      refine (hrefers object hobject).mono ?_ ?_
      · simp
      · simp
        omega
    cases fault with
    | some e =>
      refine ⟨placeholder :: new, rfl, ?_, fun h => by cases h⟩
      exact List.forall_mem_cons.mpr ⟨List.forall_mem_nil _, hrefers'⟩
    | none =>
      have hcopy : Copied source levels (a.lastUid + 1 + 1) object node new := hcopied rfl
      refine ⟨node :: new, rfl, List.forall_mem_cons.mpr ⟨?_, hrefers'⟩, fun _ =>
        hcopy.reference hslot (Nat.succ_ne_zero _) (find?_eq_some_of_object hobject)⟩
      refine hcopy.refersWithin.mono (Nat.le_succ _) ?_
      rw [List.length_cons]
      omega

/-- **One walk.**  However it ends, the target has grown by objects that refer to each other at
most; if it ends without a fault, the node has been copied.  The induction is on the levels, which
each reference and each container takes one of. -/
theorem mergeNode_walked (source : Archive) (levels : Nat) (t : Tree) {a : Archive}
    (ha : HasTable a) :
    ∃ new, Walked a (mergeNode source levels t a)
      (Copied source levels (a.lastUid + 1) t) new := by
  induction levels generalizing t a with
  | zero => exact ⟨[], .unchanged ha rfl fun h => by cases h⟩
  | succ levels ih =>
    cases huid : t.uid? with
    | none =>
      obtain ⟨new, hitems⟩ := mergeItems_walked ih t.children ha
      rw [mergeNode_container source levels huid]
      exact ⟨new, hitems.archive_eq, hitems.refersWithin,
        fun hdone => .container huid (hitems.copied_of_done hdone)⟩
    | some slot =>
      obtain rfl := Tree.uid?_eq_some_iff.mp huid
      rw [mergeNode]
      by_cases hslot : slot = 0
      · subst hslot
        exact ⟨[], .unchanged ha rfl fun _ => .null⟩
      · rw [if_neg hslot]
        exact mergeSlot_walked ih hslot ha

end PlistCodec.Archive
