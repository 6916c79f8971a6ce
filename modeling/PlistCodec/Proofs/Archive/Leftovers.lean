import PlistCodec.Proofs.Archive.Copying

/-!
# What a walk leaves in the table

A walk that copies takes a slot for each object that it comes to.  There is a placeholder in the
slot while the walk goes on from the object, and the copy of it afterwards.  So what is in the new
slots when the walk ends are finished copies and, if it failed on its way, the placeholders of those
that it did not get back to (`mergeNode_appended`).
-/

namespace PlistCodec.Archive

/-- Objects as a walk through the source appends them, from the slot `first` on. -/
inductive Appended (source : Archive) : (first : Nat) → List Tree → Prop where
  /-- No objects. -/
  | nil {first : Nat} : Appended source first []
  /-- Objects behind others. -/
  | append {first : Nat} {new more : List Tree} (hnew : Appended source first new)
      (hmore : Appended source (first + new.length) more) : Appended source first (new ++ more)
  /-- A slot that has been taken for a copy. -/
  | taken {first : Nat} : Appended source first [placeholder]
  /-- The copy of an object, in front of what has been copied for it. -/
  | copy {levels slot first : Nat} {object node : Tree} {new : List Tree} (hslot : slot ≠ 0)
      (hobject : source.find? slot = some object)
      (hcopied : Copied source levels (first + 1) object node new)
      (hnew : Appended source (first + 1) new) : Appended source first (node :: new)

/-- The archive `b` is the archive `a` with what a walk has appended to it. -/
def AppendedTo (source a b : Archive) : Prop :=
  ∃ new, b = a.grown new ∧ Appended source (a.lastUid + 1) new

section Appending

variable {source a b c : Archive}

theorem AppendedTo.refl (ha : HasTable a) : AppendedTo source a a := ⟨[], ha.grown_nil.symm, .nil⟩

theorem AppendedTo.trans (hab : AppendedTo source a b) (hbc : AppendedTo source b c) :
    AppendedTo source a c := by
  obtain ⟨new, rfl, hnew⟩ := hab
  obtain ⟨more, rfl, hmore⟩ := hbc
  refine ⟨new ++ more, grown_grown a new more, hnew.append ?_⟩
  rw [Nat.add_right_comm]
  exact hmore

theorem AppendedTo.hasTable (hab : AppendedTo source a b) (ha : HasTable a) : HasTable b := by
  obtain ⟨new, rfl, -⟩ := hab
  exact ha.grown new

theorem mergeItems_appended {walk : Tree → Archive → Merged Tree}
    (hwalk : ∀ t a, HasTable a → AppendedTo source a (walk t a).archive) (ts : List Tree)
    (ha : HasTable a) : AppendedTo source a (mergeItems walk ts a).archive := by
  induction ts generalizing a with
  | nil => exact .refl ha
  | cons t ts ih =>
    have hfirst := hwalk t a ha
    rw [mergeItems]
    generalize walk t a = m at hfirst ⊢
    obtain ⟨node, fault, b⟩ := m
    cases fault with
    | some e => exact hfirst
    | none => exact hfirst.trans (ih (hfirst.hasTable ha))

/-- The placeholder stays in front of what was appended behind it, unless the copy takes its
place. -/
theorem mergeSlot_appended {levels slot : Nat} (hslot : slot ≠ 0)
    (hwalk : ∀ t a, HasTable a → AppendedTo source a (mergeNode source levels t a).archive)
    (ha : HasTable a) :
    AppendedTo source a (mergeSlot source (mergeNode source levels) slot a).archive := by
  cases hobject : source.object slot with
  | error e =>
    rw [mergeSlot, hobject]
    exact .refl ha
  | ok object =>
    have hb := ha.grown [placeholder]
    obtain ⟨new, hnew, happended⟩ := hwalk object _ hb
    obtain ⟨_, hwalked⟩ := mergeNode_walked source levels object hb
    obtain rfl := grown_inj (hnew.symm.trans hwalked.archive_eq)
    refine ⟨_, congrArg Merged.archive (ha.mergeSlot_eq hobject hnew), ?_⟩
    split
    · next hdone =>
      exact .copy hslot (find?_eq_some_of_object hobject) (hwalked.copied_of_done hdone) happended
    · exact .append .taken happended

/-- **What is left.**  However a walk ends, it has changed nothing but for the objects that it has
appended. -/
theorem mergeNode_appended (source : Archive) (levels : Nat) (t : Tree) (ha : HasTable a) :
    AppendedTo source a (mergeNode source levels t a).archive := by
  induction levels generalizing t a with
  | zero => exact .refl ha
  | succ levels ih =>
    cases huid : t.uid? with
    | none =>
      rw [mergeNode_container source levels huid]
      exact mergeItems_appended (fun t _ ha => ih t ha) t.children ha
    | some slot =>
      obtain rfl := Tree.uid?_eq_some_iff.mp huid
      rw [mergeNode]
      by_cases hslot : slot = 0
      · rw [if_pos hslot]
        exact .refl ha
      · rw [if_neg hslot]
        exact mergeSlot_appended hslot (fun t _ ha => ih t ha) ha

end Appending

/-! ## What is in the new slots -/

section Slots

variable {source : Archive} {first : Nat} {new : List Tree}

/-- No object refers to its own slot, nor to one in front of it. -/
theorem Appended.forward (h : Appended source first new) : Forward first new := by
  induction h with
  | nil => exact .nil
  | append _ _ ih ihmore => exact ih.append ihmore
  | @taken first =>
    have hrefers : placeholder.RefersWithin (first + 1) 0 := Tree.refersWithin_of_scalar rfl rfl
    exact .cons hrefers .nil
  | copy _ _ hcopied _ ih => exact .cons hcopied.refersWithin ih

/-- An object is a copy of an object of the source, where `find` gives the objects of the target. -/
def FinishedCopy (source : Archive) (find : Nat → Option Tree) (object : Tree) : Prop :=
  ∃ slot t, slot ≠ 0 ∧ source.find? slot = some t ∧ t.Renamed (Mirrors source.find? find) object

/-- Every new object is the placeholder or a finished copy. -/
theorem Appended.placeholder_or_copy (h : Appended source first new) {find : Nat → Option Tree}
    (hfind : Finds find first new) :
    ∀ object ∈ new, object = placeholder ∨ FinishedCopy source find object := by
  induction h with
  | nil => exact List.forall_mem_nil _
  | append _ _ ih ihmore =>
    exact List.forall_mem_append.mpr ⟨ih hfind.left, ihmore hfind.right⟩
  | taken => exact List.forall_mem_singleton.mpr (.inl rfl)
  | @copy _ slot _ t _ _ hslot hobject hcopied _ ih =>
    have hcopy := hcopied.mirrors find hfind.tail
    exact List.forall_mem_cons.mpr ⟨.inr ⟨slot, t, hslot, hobject, hcopy⟩, ih hfind.tail⟩

end Slots

end PlistCodec.Archive
