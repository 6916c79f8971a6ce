import PlistCodec.Proofs.Archive.DefaultRoot

/-!
# Why storing fails

Storing a value appends instances, and puts the values of their properties into them when these have
been stored.  The instances are there still by then, so this does not fail.  What does fail is the
storing of some part, and `FailsBy P` says of a computation that the reasons to fail satisfy `P`.
The statements here put such computations together as values are put together.

A root object is named when it has been stored, and this does not fail either
(`encodeValue_eq_error_of_appendRoot`).
-/

namespace PlistCodec.Archive

/-! ## Instances that stay -/

/-- The slot holds an instance. -/
def HasInstance (a : Archive) (slot : Nat) : Prop :=
  ∃ entries : Dict Tree, a.find? slot = some (.dict entries)

/-- There is a table still, and instances where there were instances. -/
structure KeepsInstances (a b : Archive) : Prop where
  /-- There is a table still. -/
  hasTable : HasTable b
  /-- What was an instance is one. -/
  hasInstance : ∀ {slot : Nat}, a.HasInstance slot → b.HasInstance slot

section Instances

variable {a b c : Archive} {slot : Nat}

theorem KeepsInstances.refl (ha : HasTable a) : KeepsInstances a a := ⟨ha, fun h => h⟩

theorem KeepsInstances.trans (hab : KeepsInstances a b) (hbc : KeepsInstances b c) :
    KeepsInstances a c :=
  ⟨hbc.hasTable, fun h => hbc.hasInstance (hab.hasInstance h)⟩

theorem keepsInstances_grown (ha : HasTable a) (new : List Tree) :
    KeepsInstances a (a.grown new) := by
  refine ⟨ha.grown new, ?_⟩
  rintro slot ⟨entries, hslot⟩
  exact ⟨entries, ha.find?_grown new hslot⟩

theorem keepsInstances_withEntries (ha : HasTable a) (hslot : slot < a.table.length)
    (entries : Dict Tree) : KeepsInstances a (a.withEntries slot entries) := by
  refine ⟨ha.withEntries slot entries, ?_⟩
  rintro other ⟨entries', hother⟩
  by_cases heq : other = slot
  · subst heq
    exact ⟨entries, ha.find?_withEntries_self hslot entries⟩
  · exact ⟨entries', by rw [ha.find?_withEntries_of_ne heq, hother]⟩

end Instances

/-! ## Reasons to fail -/

/-- If the computation fails, the reason satisfies `P`; if it succeeds, instances are instances
still. -/
def FailsBy {α : Type} (P : Error → Prop) (m : Builder α) (a : Archive) : Prop :=
  match m.run a with
  | .ok _ b => KeepsInstances a b
  | .error e _ => P e

section Reasons

variable {α β : Type} {P Q : Error → Prop} {m : Builder α} {f : α → Builder β} {a b : Archive}
variable {slot : Nat}

theorem of_failsBy_of_run_error {e : Error} (h : FailsBy P m a) (hrun : m.run a = .error e b) :
    P e := by
  rw [FailsBy, hrun] at h
  exact h

theorem failsBy_of_run_ok {x : α} (hrun : m.run a = .ok x b) (h : KeepsInstances a b) :
    FailsBy P m a := by
  rw [FailsBy, hrun]
  exact h

theorem failsBy_pure {x : α} (ha : HasTable a) : FailsBy P (pure x) a := .refl ha

theorem failsBy_throw {e : Error} (h : P e) : FailsBy P (throw e : Builder α) a := h

theorem FailsBy.mono (h : FailsBy P m a) (hPQ : ∀ e, P e → Q e) : FailsBy Q m a := by
  unfold FailsBy at h ⊢
  cases hrun : m.run a with
  | ok x b => rw [hrun] at h; exact h
  | error e b => rw [hrun] at h; exact hPQ e h

/-- A computation behind one that succeeds. -/
theorem failsBy_bind_of_run_ok {x : α} (hrun : m.run a = .ok x b) (hab : KeepsInstances a b)
    (hf : FailsBy P (f x) b) : FailsBy P (m >>= f) a := by
  unfold FailsBy at hf ⊢
  rw [run_bind_of_ok hrun]
  cases hrest : (f x).run b with
  | ok y c => rw [hrest] at hf; exact hab.trans hf
  | error e c => rw [hrest] at hf; exact hf

theorem FailsBy.bind (hm : FailsBy P m a)
    (hf : ∀ x b, KeepsInstances a b → FailsBy P (f x) b) : FailsBy P (m >>= f) a := by
  unfold FailsBy at hm
  cases hrun : m.run a with
  | error e b =>
    rw [hrun] at hm
    rw [FailsBy, run_bind_of_error hrun]
    exact hm
  | ok x b =>
    rw [hrun] at hm
    exact failsBy_bind_of_run_ok hrun hm (hf x b hm)

theorem failsBy_mapM {xs : List α} (hf : ∀ x ∈ xs, ∀ b, HasTable b → FailsBy P (f x) b)
    (ha : HasTable a) : FailsBy P (xs.mapM f) a := by
  induction xs generalizing a with
  | nil => exact failsBy_pure ha
  | cons x xs ih =>
    rw [List.mapM_cons]
    refine (hf x List.mem_cons_self a ha).bind fun y b hab => ?_
    have hrest := ih (fun x hx => hf x (List.mem_cons_of_mem _ hx)) hab.hasTable
    exact hrest.bind fun ys c hbc => failsBy_pure hbc.hasTable

/-- An object gets a slot. -/
theorem failsBy_reference (ha : HasTable a) (object : Tree) :
    FailsBy P (do return Tree.uid (← appendObject object)) a :=
  failsBy_of_run_ok (run_bind_of_ok (ha.run_appendObject object)) (keepsInstances_grown ha [object])

theorem failsBy_encodeString (ha : HasTable a) (text : String) :
    FailsBy P (encodeString text) a := by
  rw [encodeString]
  split
  · exact failsBy_pure ha
  · exact failsBy_reference ha _

/-- The properties of an instance can be changed. -/
theorem failsBy_modifyInstance (ha : HasTable a) (hslot : a.HasInstance slot)
    (change : Dict Tree → Dict Tree) : FailsBy P (modifyInstance slot change) a := by
  obtain ⟨entries, hentries⟩ := hslot
  exact failsBy_of_run_ok (ha.run_modifyInstance hentries change)
    (keepsInstances_withEntries ha (ha.lt_length_of_find? hentries) _)

/-- That the slot holds an instance is seen before the value is stored, and is so afterwards. -/
theorem failsBy_storeProperty {name : String} {encode : Builder Tree} (ha : HasTable a)
    (hslot : a.HasInstance slot) (hencode : FailsBy P encode a) :
    FailsBy P (storeProperty slot name encode) a := by
  have hread : ∃ entries, a.instanceAt slot = .ok entries := by
    simp only [instanceAt_eq_ok_iff_find?]
    exact hslot
  obtain ⟨entries, hentries⟩ := hread
  refine failsBy_bind_of_run_ok (run_fromArchive_of_ok hentries) (.refl ha) ?_
  exact hencode.bind fun node b hab => failsBy_modifyInstance hab.hasTable (hab.hasInstance hslot) _

/-- An instance, as far as the rest of the computation stores its properties. -/
theorem failsBy_instance {c : ObjectClass} {form : Mutability} {rest : Nat → Builder β}
    (ha : HasTable a)
    (hrest : ∀ b slot, HasTable b → b.HasInstance slot → FailsBy P (rest slot) b) :
    FailsBy P (appendInstance c form >>= rest) a := by
  have hgrown : KeepsInstances a (a.withInstance c form [] []) := keepsInstances_grown ha _
  have hinstance : (a.withInstance c form [] []).HasInstance (a.lastUid + 1) :=
    ⟨_, instanceAt_eq_ok_iff_find?.mp (ha.instanceAt_grown _ _)⟩
  exact failsBy_bind_of_run_ok (ha.run_appendInstance c form) hgrown
    (hrest _ _ hgrown.hasTable hinstance)

/-- An instance with one property. -/
theorem failsBy_property {c : ObjectClass} {form : Mutability} {name : String}
    {encode : Builder Tree} (hencode : ∀ b, HasTable b → FailsBy P encode b) (ha : HasTable a) :
    FailsBy P (do
      let slot ← appendInstance c form
      storeProperty slot name encode
      return Tree.uid slot) a :=
  failsBy_instance ha fun b _ hb hslot =>
    (failsBy_storeProperty hb hslot (hencode b hb)).bind fun _ _ hbd => failsBy_pure hbd.hasTable

/-- An instance with properties that are made of what is stored one after the other. -/
theorem failsBy_list {c : ObjectClass} {form : Mutability} {γ : Type} {xs : List γ}
    {encode : γ → Builder β} {change : List β → Dict Tree → Dict Tree}
    (hencode : ∀ x ∈ xs, ∀ b, HasTable b → FailsBy P (encode x) b) (ha : HasTable a) :
    FailsBy P (do
      let slot ← appendInstance c form
      let nodes ← xs.mapM encode
      modifyInstance slot (change nodes)
      return Tree.uid slot) a := by
  refine failsBy_instance ha fun b slot hb hslot => ?_
  refine (failsBy_mapM hencode hb).bind fun nodes d hbd => ?_
  have hmodify : FailsBy P (modifyInstance slot (change nodes)) d :=
    failsBy_modifyInstance hbd.hasTable (hbd.hasInstance hslot) _
  exact hmodify.bind fun _ _ hde => failsBy_pure hde.hasTable

end Reasons

/-! ## Root objects -/

/-- The object that a value has become is there to be named. -/
theorem ArchivedAt.lt_length {a b : Archive} {slot : Nat} (h : ArchivedAt a slot b)
    (hb : HasTable b) : slot < b.table.length := by
  rw [hb.length_table]
  rcases h with ⟨rfl, hlt⟩ | ⟨rfl, -⟩
  · exact Nat.succ_lt_succ hlt
  · exact Nat.succ_pos _

/-- Storing a root object that is not stored in place fails only if storing the value does. -/
theorem encodeValue_eq_error_of_appendRoot {a b : Archive} {v : ArchiveValue} {e : Error}
    (ha : HasTable a) (hv : v.isInline = false) (h : (appendRoot v).run a = .error e b) :
    ∃ c, (encodeValue (maxDepth + 1) v).run a = .error e c := by
  unfold appendRoot at h
  rw [hv] at h
  cases hencode : (encodeValue (maxDepth + 1) v).run a with
  | error e' c =>
    cases (run_bind_of_error hencode).symm.trans h
    exact ⟨_, rfl⟩
  | ok node c =>
    have hc := (of_ends_of_run_ok (encodeValue_grows (brings_anything v) ha) hencode).1.hasTable ha
    obtain ⟨slot, rfl, hplace⟩ := of_ends_of_run_ok (encodeValue_archivedAt hv ha) hencode
    have h := (run_bind_of_ok hencode).symm.trans h
    rw [run_bind_of_ok run_get] at h
    cases htop : c.topUid? none with
    | some root =>
      rw [htop] at h
      cases h
    | none =>
      rw [htop] at h
      cases (run_addTop hc (hplace.lt_length hc)).symm.trans h

end PlistCodec.Archive
