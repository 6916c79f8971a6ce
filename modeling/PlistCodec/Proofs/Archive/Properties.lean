import PlistCodec.Proofs.Archive.Framing
import PlistCodec.Proofs.Archive.Items
import PlistCodec.Proofs.Archive.Levels

/-!
# Reading and writing properties

A property is read from the entries of its instance, and an integer or a text that has a slot of its
own from that slot.  The readings are stated as look-ups (`natProperty_eq_ok_iff` and its like), so
what a call does to them follows from what it does to the entries and to the slots.

A call changes entries that it may write, and no object that is not an instance.  So whatever was
read of any other property is read still (`keeps_after`), wherever it is stored: the slot that a
property leads to never holds the instance that is written, for an instance is neither an integer
nor a text.  And what has just been written is read back (`property_after_setProperty`).
-/

namespace PlistCodec

namespace Dict

variable {α : Type} {written : String → Prop} {d d' : Dict α}

/-- A value under a name that is not written is as it was. -/
theorem ChangedOnly.get?_eq (h : ChangedOnly written d d') {key : String} (hkey : ¬ written key) :
    d'.get? key = d.get? key := by
  induction h with
  | @added d' h =>
    cases hget : d'.get? key with
    | none => rfl
    | some value => exact absurd (h _ (mem_of_get? hget)) hkey
  | kept _ ih => rw [get?, get?, ih]
  | @replaced name _ _ _ _ hname _ ih =>
    have hne : name ≠ key := by
      rintro rfl
      exact hkey hname
    rw [get?, get?, if_neg hne, if_neg hne, ih]

end Dict

namespace Archive

/-! ## Readings as look-ups -/

section Readings

variable {a : Archive} {slot n : Nat} {name text : String}

theorem property?_eq_some_iff {node : Tree} : a.property? slot name = some node ↔
    ∃ entries : Dict Tree, a.find? slot = some (.dict entries) ∧
      entries.get? name = some node := by
  simp only [property?_eq_bind, Option.bind_eq_some_iff, Tree.dict?_eq_some_iff, exists_eq_right]

theorem property_eq_ok_iff {node : Tree} :
    a.property slot name = .ok node ↔ a.property? slot name = some node :=
  orFail_eq_ok_iff

/-- The node is the integer, or leads to it. -/
def LeadsToNat (a : Archive) (n : Nat) (node : Tree) : Prop :=
  node = .int n ∨ ∃ target, node = .uid target ∧ a.find? target = some (.int n)

/-- The node leads to the text. -/
def LeadsToText (a : Archive) (text : String) (node : Tree) : Prop :=
  ∃ target, node = .uid target ∧ a.find? target = some (.string text)

theorem natProperty_eq_ok_iff : a.natProperty slot name = .ok n ↔
    ∃ node, a.property? slot name = some node ∧ a.LeadsToNat n node := by
  constructor
  · intro h
    obtain ⟨node, hnode, h⟩ := exists_of_bind_eq_ok h
    refine ⟨node, property_eq_ok_iff.mp hnode, ?_⟩
    cases huid : node.uid? with
    | none =>
      rw [huid] at h
      exact .inl (Tree.unsigned?_eq_some_iff.mp (orFail_eq_ok_iff.mp h))
    | some target =>
      rw [huid] at h
      obtain ⟨value, hvalue, h⟩ := exists_of_bind_eq_ok h
      rw [orFail_eq_ok_iff, Tree.unsigned?_eq_some_iff] at h
      subst h
      exact .inr ⟨target, Tree.uid?_eq_some_iff.mp huid, object_eq_ok_iff_find?.mp hvalue⟩
  · rintro ⟨node, hnode, hleads⟩
    have hvalue : orFail (.unexpectedValue name "integer") (Tree.int n).unsigned? = .ok n :=
      orFail_eq_ok_iff.mpr (Tree.unsigned?_eq_some_iff.mpr rfl)
    rw [natProperty, property_eq_ok_iff.mpr hnode]
    rcases hleads with rfl | ⟨target, rfl, htarget⟩
    · exact hvalue
    · simp only [bind, Except.bind, Tree.uid?, object_eq_ok_iff_find?.mpr htarget, hvalue]

theorem int32Property_eq_ok_iff : a.int32Property slot name = .ok n ↔
    a.natProperty slot name = .ok n ∧ n < Bytes.signLimit 4 := by
  rw [int32Property]
  constructor
  · intro h
    obtain ⟨value, hvalue, h⟩ := exists_of_bind_eq_ok h
    by_cases hlt : value < Bytes.signLimit 4
    · rw [if_pos hlt] at h
      cases h
      exact ⟨hvalue, hlt⟩
    · rw [if_neg hlt] at h
      cases h
  · rintro ⟨hvalue, hlt⟩
    rw [hvalue]
    exact if_pos hlt

theorem stringProperty_eq_ok_iff : a.stringProperty slot name = .ok text ↔
    ∃ node, a.property? slot name = some node ∧ a.LeadsToText text node := by
  constructor
  · intro h
    obtain ⟨node, hnode, h⟩ := exists_of_bind_eq_ok h
    obtain ⟨target, htarget, h⟩ := exists_of_bind_eq_ok h
    obtain ⟨object, hobject, h⟩ := exists_of_bind_eq_ok h
    rw [orFail_eq_ok_iff, Tree.string?_eq_some_iff] at h
    subst h
    exact ⟨node, property_eq_ok_iff.mp hnode, target,
      Tree.uid?_eq_some_iff.mp (orFail_eq_ok_iff.mp htarget), object_eq_ok_iff_find?.mp hobject⟩
  · rintro ⟨_, hnode, target, rfl, htarget⟩
    have hobject := object_eq_ok_iff_find?.mpr htarget
    rw [stringProperty, property_eq_ok_iff.mpr hnode]
    simp only [bind, Except.bind, Tree.uid?, orFail, hobject, Tree.string?]

end Readings

/-! ## What is not written -/

/-- What is read of a property of `a` is read of it in `b`. -/
structure KeepsProperty (a b : Archive) (slot : Nat) (name : String) : Prop where
  /-- As it is stored. -/
  stored : ∀ node, a.property? slot name = some node → b.property? slot name = some node
  /-- As an integer. -/
  nat : ∀ n, a.natProperty slot name = .ok n → b.natProperty slot name = .ok n
  /-- As an integer of 32 bits. -/
  int32 : ∀ n, a.int32Property slot name = .ok n → b.int32Property slot name = .ok n
  /-- As a text. -/
  string : ∀ text, a.stringProperty slot name = .ok text → b.stringProperty slot name = .ok text

section Keeping

variable {call : Call} {a b : Archive} {slot : Nat} {name : String}

/-- An object that is no instance is as it was. -/
theorem RewritesOnly.find?_of_dict?_eq_none (h : RewritesOnly call a b) {object : Tree}
    (hslot : a.find? slot = some object) (hobject : object.dict? = none) :
    b.find? slot = some object := by
  obtain ⟨object', hslot', hrewritten⟩ := h slot object hslot
  cases hrewritten with
  | same => exact hslot'
  | entries => cases hobject

theorem RewritesOnly.property?_eq (h : RewritesOnly call a b) (hname : ¬ call.Writes slot name)
    {node : Tree} (hnode : a.property? slot name = some node) :
    b.property? slot name = some node := by
  obtain ⟨entries, hslot, hentry⟩ := property?_eq_some_iff.mp hnode
  obtain ⟨object, hslot', hrewritten⟩ := h slot _ hslot
  cases hrewritten with
  | same => exact property?_eq_some_iff.mpr ⟨entries, hslot', hentry⟩
  | @entries _ entries' hchanged =>
    exact property?_eq_some_iff.mpr ⟨entries', hslot', by rw [hchanged.get?_eq hname, hentry]⟩

theorem RewritesOnly.keepsProperty (h : RewritesOnly call a b) (hname : ¬ call.Writes slot name) :
    KeepsProperty a b slot name := by
  have hnat : ∀ n, a.natProperty slot name = .ok n → b.natProperty slot name = .ok n := by
    intro n hn
    obtain ⟨node, hnode, hleads⟩ := natProperty_eq_ok_iff.mp hn
    refine natProperty_eq_ok_iff.mpr ⟨node, h.property?_eq hname hnode, ?_⟩
    rcases hleads with hint | ⟨target, huid, htarget⟩
    · exact .inl hint
    · exact .inr ⟨target, huid, h.find?_of_dict?_eq_none htarget rfl⟩
  refine ⟨fun _ hnode => h.property?_eq hname hnode, hnat, fun n hn => ?_, fun text htext => ?_⟩
  · rw [int32Property_eq_ok_iff] at hn ⊢
    exact ⟨hnat n hn.1, hn.2⟩
  · obtain ⟨node, hnode, target, huid, htarget⟩ := stringProperty_eq_ok_iff.mp htext
    exact stringProperty_eq_ok_iff.mpr ⟨node, h.property?_eq hname hnode, target, huid,
      h.find?_of_dict?_eq_none htarget rfl⟩

/-- **Properties that are not written.**  What is read of a property that a call may not write is
read of it after the call, whether that succeeds or not. -/
theorem keepsProperty_after (ha : Reachable a) (call : Call) (hname : ¬ call.Writes slot name) :
    KeepsProperty a (a.after call) slot name :=
  (framed_after ha call).rewritten.keepsProperty hname

end Keeping

/-! ## What is written -/

section Writing

variable {a b : Archive} {slot : Nat} {name : String} {v : ArchiveValue}

theorem after_setProperty (h : (setProperty slot name v).run a = .ok () b) :
    a.after (.setProperty slot name v) = b := by
  rw [after, perform, run_bind_of_ok h]
  rfl

/-- What is true of the node that is stored, whatever else the archive holds, is true of the
property. -/
theorem exists_property?_of_setProperty {P : Archive → Tree → Prop} (ha : HasTable a)
    (hnull : a.find? 0 = some (.string nullText))
    (hv : Provides (Holds P) (encodeValue maxDepth v) a)
    (h : (setProperty slot name v).run a = .ok () b) :
    ∃ node, b.property? slot name = some node ∧ P b node := by
  obtain ⟨entries, _, hread, h⟩ := exists_of_run_bind_eq_ok h
  obtain ⟨hentries, rfl⟩ := eq_ok_of_run_fromArchive hread
  rw [instanceAt_eq_ok_iff_find?] at hentries
  obtain ⟨node, _, hencode, h⟩ := exists_of_run_bind_eq_ok h
  obtain ⟨new, rfl, hnode⟩ := of_ends_of_run_ok hv hencode
  have hgrown := ha.grown new
  have hslot := ha.find?_grown new hentries
  rw [hgrown.run_modifyInstance hslot] at h
  cases h
  have hself := hgrown.find?_withEntries_self (hgrown.lt_length_of_find? hslot)
    (entries.insert name node)
  exact ⟨node, property?_eq_some_iff.mpr ⟨_, hself, Dict.get?_insert_self _ _ _⟩,
    ha.of_holds_withEntries hnull hentries hnode⟩

/-- An integer is stored in its place, or in a slot of its own. -/
theorem encodeValue_leadsToNat {n levels : Nat} (hv : v = .integer n ∨ v = .integerObject n)
    (ha : HasTable a) :
    Provides (Holds fun d => d.LeadsToNat n) (encodeValue (levels + 1) v) a := by
  rcases hv with rfl | rfl
  · exact provides_pure ha fun _ _ _ => .inl rfl
  · exact provides_appendObject ha fun hslot => .inr ⟨_, rfl, hslot⟩

theorem encodeValue_leadsToText {levels : Nat} (text : String) (ha : HasTable a) :
    Provides (Holds fun d => d.LeadsToText text) (encodeValue (levels + 1) (.string text)) a :=
  provides_encodeString ha fun hslot => ⟨_, rfl, hslot⟩

/-- **Writing and reading a property.**  After calls on the new archive, whatever they were: an
integer that is stored as a property, in its place or in a slot of its own, is read back, and as one
of 32 bits exactly if it fits; a text is read back, that of slot 0 too; and what is read of any
other property is what was read of it before, whatever value has been stored. -/
theorem property_after_setProperty {a : Archive} (ha : Reached (· = new) (fun _ _ => True) a)
    (slot : Nat) (name : String) :
    (∀ n v b, v = .integer n ∨ v = .integerObject n → (setProperty slot name v).run a = .ok () b →
      b.natProperty slot name = .ok n ∧ (b.int32Property slot name = .ok n ↔ n < 2 ^ 31)) ∧
    (∀ text b, (setProperty slot name (.string text)).run a = .ok () b →
      b.stringProperty slot name = .ok text) ∧
    ∀ v b, (setProperty slot name v).run a = .ok () b →
      ∀ slot' name', (slot', name') ≠ (slot, name) → KeepsProperty a b slot' name' := by
  obtain ⟨htable, hnull⟩ := null_of_reached ha
  refine ⟨fun n v b hv h => ?_, fun text b h => ?_, fun v b h slot' name' hne => ?_⟩
  · have hn : b.natProperty slot name = .ok n := natProperty_eq_ok_iff.mpr
      (exists_property?_of_setProperty htable hnull (encodeValue_leadsToNat hv htable) h)
    refine ⟨hn, ?_⟩
    rw [int32Property_eq_ok_iff]
    exact and_iff_right hn
  · exact stringProperty_eq_ok_iff.mpr
      (exists_property?_of_setProperty htable hnull (encodeValue_leadsToText text htable) h)
  · rw [← after_setProperty h]
    refine keepsProperty_after ha.reachable _ ?_
    rintro ⟨rfl, rfl⟩
    exact hne rfl

/-- An instance with an integer in a slot of its own, and with the integer 7 in place. -/
def counted : Archive :=
  ((new.after (.addTopClass "Counter" ["NSObject"])).after
    (.setProperty 1 "count" (.integerObject 5))).after (.setProperty 1 "step" (.integer 7))

theorem property_after_setProperty_counted : Reached (· = new) (fun _ _ => True) counted ∧
    (∃ b, (setProperty 1 "step" (.integerObject (2 ^ 31))).run counted = .ok () b ∧
      b.natProperty 1 "step" = .ok (2 ^ 31) ∧ b.int32Property 1 "step" ≠ .ok (2 ^ 31)) ∧
    (∃ b, (setProperty 1 "step" (.string nullText)).run counted = .ok () b ∧
      b.stringProperty 1 "step" = .ok nullText) ∧
    ∃ b, (setProperty 1 "step" (.nsString .fixed "text")).run counted = .ok () b ∧
      (1, "count") ≠ (1, "step") ∧ counted.natProperty 1 "count" = .ok 5 ∧
      b.natProperty 1 "count" = .ok 5 := by
  have hreached : Reached (· = new) (fun _ _ => True) counted :=
    .step (.step (.step (.initial rfl) trivial) trivial) trivial
  have hint : ∃ b, (setProperty 1 "step" (.integerObject (2 ^ 31))).run counted = .ok () b :=
    ⟨_, rfl⟩
  have htext : ∃ b, (setProperty 1 "step" (.string nullText)).run counted = .ok () b := ⟨_, rfl⟩
  have hinstance : ∃ b, (setProperty 1 "step" (.nsString .fixed "text")).run counted = .ok () b :=
    ⟨_, rfl⟩
  have hcount : counted.natProperty 1 "count" = .ok 5 := rfl
  have hne : ((1, "count") : Nat × String) ≠ (1, "step") := by decide
  obtain ⟨hnats, htexts, hothers⟩ := property_after_setProperty hreached 1 "step"
  obtain ⟨b, hb⟩ := hint
  obtain ⟨hnat, hfits⟩ := hnats _ _ b (.inr rfl) hb
  obtain ⟨c, hc⟩ := htext
  obtain ⟨d, hd⟩ := hinstance
  exact ⟨hreached, ⟨b, hb, hnat, mt hfits.mp (Nat.lt_irrefl _)⟩, ⟨c, hc, htexts _ c hc⟩,
    d, hd, hne, hcount, (hothers _ d hd 1 "count" hne).nat 5 hcount⟩

end Writing

end Archive

end PlistCodec
