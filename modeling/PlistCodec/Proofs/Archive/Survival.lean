import PlistCodec.Proofs.Archive.Framing
import PlistCodec.Proofs.Archive.Simulation

/-!
# What failures leave alone

Nothing is undone when a call fails, so a failure may leave empty lists in an instance, objects that
nothing refers to, and half of a copy.  None of this is in the way of what could be flattened
before: every object is still there, and an instance has at most got entries that it did not have
(`Shows`).  A call that does not write properties leaves as much alone when it succeeds.
-/

namespace PlistCodec.Archive

/-! ## Archives that show as much as others -/

/-- An archive that shows all that another one does: its objects are there, and instances may have
got further entries. -/
structure Shows (a b : Archive) : Prop where
  /-- There is a table still. -/
  hasTable : HasTable b
  /-- An object that is no dictionary stays what it is. -/
  find?_eq : ∀ {slot : Nat} {object : Tree}, a.find? slot = some object → object.dict? = none →
    b.find? slot = some object
  /-- An instance keeps its entries. -/
  entries : ∀ {slot : Nat} {entries : Dict Tree}, a.find? slot = some (.dict entries) →
    ∃ entries' : Dict Tree, b.find? slot = some (.dict entries') ∧
      ∀ name node, entries.get? name = some node → entries'.get? name = some node

section Showing

variable {slot : Nat} {a b c : Archive}

theorem Shows.refl (ha : HasTable a) : Shows a a where
  hasTable := ha
  find?_eq h _ := h
  entries h := ⟨_, h, fun _ _ hnode => hnode⟩

theorem Shows.trans (h : Shows a b) (h' : Shows b c) : Shows a c where
  hasTable := h'.hasTable
  find?_eq hslot hobject := h'.find?_eq (h.find?_eq hslot hobject) hobject
  entries hslot := by
    obtain ⟨entries', hslot', hall⟩ := h.entries hslot
    obtain ⟨entries'', hslot'', hall'⟩ := h'.entries hslot'
    exact ⟨entries'', hslot'', fun name node hnode => hall' name node (hall name node hnode)⟩

/-- It is enough that every object is found in its slot still. -/
theorem shows_of_find? (hb : HasTable b)
    (h : ∀ slot object, a.find? slot = some object → b.find? slot = some object) : Shows a b where
  hasTable := hb
  find?_eq hslot _ := h _ _ hslot
  entries hslot := ⟨_, h _ _ hslot, fun _ _ hnode => hnode⟩

theorem GrewBy.shows {I : Invariant} (h : GrewBy I a b) (ha : HasTable a) : Shows a b := by
  obtain ⟨new, rfl, -⟩ := h
  exact shows_of_find? (ha.grown new) fun _ _ => ha.find?_grown new

/-- An instance may get a property that it did not have. -/
theorem shows_withEntries (ha : HasTable a) {entries : Dict Tree}
    (hslot : a.find? slot = some (.dict entries)) {name : String} (hname : entries.get? name = none)
    (value : Tree) : Shows a (a.withEntries slot (entries.insert name value)) where
  hasTable := ha.withEntries slot _
  find?_eq := by
    intro other object hother hobject
    rw [ha.find?_withEntries_of_ne, hother]
    rintro rfl
    rw [hslot] at hother
    cases hother
    cases hobject
  entries := by
    intro other entries' hother
    by_cases heq : other = slot
    · subst heq
      obtain rfl : entries = entries' := Tree.dict.inj (Option.some.inj (hslot.symm.trans hother))
      refine ⟨_, ha.find?_withEntries_self (ha.lt_length_of_find? hslot) _, fun key node hkey => ?_⟩
      rw [Dict.get?_insert_of_ne, hkey]
      rintro rfl
      rw [hname] at hkey
      cases hkey
    · exact ⟨entries', by rw [ha.find?_withEntries_of_ne heq, hother], fun _ _ hnode => hnode⟩

/-- What could be flattened is flattened to the same. -/
theorem Shows.simulates (h : Shows a b) (depth : Nat) : Simulates depth Eq a b where
  ne_zero hslot hne := hslot ▸ hne
  primitive := by
    rintro slot _ object rfl hobject hprimitive
    refine h.find?_eq hobject ?_
    cases object with
    | dict entries => cases hprimitive
    | _ => rfl
  entries := by
    rintro slot _ entries rfl hslot
    obtain ⟨entries', hslot', hall⟩ := h.entries hslot
    exact ⟨entries', hslot', fun name node hnode _ => ⟨node, hall name node hnode, by simp⟩⟩

theorem Shows.flattenObject_eq (h : Shows a b) {v : Tree} (hv : a.flattenObject slot = .ok v) :
    b.flattenObject slot = .ok v :=
  (h.simulates _).flattenWithin_eq (Nat.le_refl _) (Nat.le_refl _) hv

end Showing

/-! ## Computations -/

section Computations

variable {slot : Nat} {a : Archive}

/-- An instance has a list under a name. -/
def HasList (a : Archive) (slot : Nat) (name : String) : Prop :=
  ∃ (entries : Dict Tree) (items : List Tree), a.find? slot = some (.dict entries) ∧
    entries.get? name = some (.array items)

theorem Shows.hasList {b : Archive} (h : Shows a b) {name : String} (hlist : HasList a slot name) :
    HasList b slot name := by
  obtain ⟨entries, items, hslot, hitems⟩ := hlist
  obtain ⟨entries', hslot', hall⟩ := h.entries hslot
  exact ⟨entries', items, hslot', hall _ _ hitems⟩

theorem ensureArray_shows (ha : HasTable a) (slot : Nat) (name : String) :
    Ends (ensureArray slot name) a (fun _ b => Shows a b ∧ HasList b slot name) (Shows a) := by
  refine (ensureArray_ends ha).mono ?_ ?_
  · rintro _ b ⟨entries, hslot, ⟨⟨items, hitems⟩, rfl⟩ | ⟨hnone, rfl⟩⟩
    · exact ⟨.refl ha, entries, items, hslot, hitems⟩
    · refine ⟨shows_withEntries ha hslot hnone _, _, [],
        ha.find?_withEntries_self (ha.lt_length_of_find? hslot) _, ?_⟩
      exact Dict.get?_insert_self _ _ _
  · rintro b rfl
    exact .refl ha

/-- Storing a value, seen from the archive that an earlier computation began with. -/
theorem encodeValue_shows {b : Archive} (hab : Shows a b) (levels : Nat) (v : ArchiveValue) :
    Ends (encodeValue levels v) b (fun _ c => Shows a c ∧ Shows b c) (Shows a) := by
  refine (encodeValue_grows (brings_anything v) hab.hasTable).mono ?_ ?_
  · exact fun _ c h => ⟨hab.trans (h.1.shows hab.hasTable), h.1.shows hab.hasTable⟩
  · exact fun c h => hab.trans (h.shows hab.hasTable)

/-- A list that is there takes another item, and the other lists of the instance stay. -/
theorem pushItem_ends (ha : HasTable a) {name : String} (hlist : HasList a slot name) (item : Tree)
    {err : Archive → Prop} :
    Ends (pushItem slot name item) a (fun _ b => HasTable b ∧
      ∀ other, other ≠ name → HasList a slot other → HasList b slot other) err := by
  obtain ⟨entries, items, hslot, hitems⟩ := hlist
  refine ends_of_run_ok (ha.run_pushItem hslot hitems item) ⟨ha.withEntries slot _, ?_⟩
  rintro other hne ⟨entries', items', hslot', hitems'⟩
  obtain rfl : entries = entries' := Tree.dict.inj (Option.some.inj (hslot.symm.trans hslot'))
  refine ⟨_, items', ha.find?_withEntries_self (ha.lt_length_of_find? hslot) _, ?_⟩
  rw [Dict.get?_insert_of_ne _ _ hne.symm, hitems']

end Computations

/-! ## Calls -/

/-- A call that writes a property of an instance. -/
def Call.WritesProperty : Call → Prop
  | .setProperty _ _ _ => True
  | .appendItem _ _ => True
  | .addEntry _ _ _ => True
  | _ => False

section Calls

variable {a : Archive}

/-- A call that writes no property leaves everything to be seen, as it leaves all objects alone. -/
theorem Steps.shows {I : Invariant} {b : Archive} {call : Call} (h : Steps I call a b)
    (ha : HasTable a) (hcall : ¬ call.WritesProperty) : Shows a b := by
  have hnone : ∀ slot name, ¬ call.Writes slot name := by
    intro slot name hwrites
    cases call with
    | setProperty => exact hcall trivial
    | appendItem => exact hcall trivial
    | addEntry => exact hcall trivial
    | _ => cases hwrites
  exact shows_of_find? (h.hasTable ha) fun slot _ => (h.rewritesOnly ha).find?_eq (hnone slot)

/-- The instance is found again behind what has been appended, so nothing fails after that. -/
theorem setProperty_shows (ha : HasTable a) (slot : Nat) (name : String) (v : ArchiveValue) :
    Ends (setProperty slot name v) a (fun _ _ => True) (Shows a) := by
  refine (ends_fromArchive (fun _ _ => rfl) (.refl ha) : Ends _ a (fun _ b => b = a) _).bind ?_
  rintro _ _ rfl
  refine (encodeValue_shows (.refl ha) _ v).bind fun node b hab => ?_
  refine (ends_fromArchive (fun _ h => ⟨h, rfl⟩) hab.1 : Ends _ b
    (fun entries c => b.instanceAt slot = .ok entries ∧ c = b) _).bind ?_
  rintro entries _ ⟨hentries, rfl⟩
  have hslot := instanceAt_eq_ok_iff_find?.mp hentries
  have hlt := hab.1.hasTable.lt_length_of_find? hslot
  exact ends_of_run_ok (hab.1.hasTable.run_putObject _ hlt) trivial

theorem appendItem_shows (ha : HasTable a) (slot : Nat) (v : ArchiveValue) :
    Ends (appendItem slot v) a (fun _ _ => True) (Shows a) := by
  refine (ensureArray_shows ha slot itemsKey).bind fun _ b hab => ?_
  refine (encodeValue_shows hab.1 _ v).bind fun item c hac => ?_
  have hlist := hac.2.hasList hab.2
  exact (pushItem_ends hac.1.hasTable hlist item).mono (fun _ _ _ => trivial) fun _ h => h

/-- Both lists are there before the first of them takes a node, so it does not happen that only one
of them does. -/
theorem addEntry_shows (ha : HasTable a) (slot : Nat) (key : String) (v : ArchiveValue) :
    Ends (addEntry slot key v) a (fun _ _ => True) (Shows a) := by
  refine (ensureArray_shows ha slot keysKey).bind fun _ b hab => ?_
  have hensure := (ensureArray_shows hab.1.hasTable slot itemsKey).mono
    (fun _ c h => (⟨hab.1.trans h.1, h.1.hasList hab.2, h.2⟩ :
      Shows a c ∧ HasList c slot keysKey ∧ HasList c slot itemsKey)) fun c h => hab.1.trans h
  refine hensure.bind fun _ c hac => ?_
  refine (encodeValue_shows hac.1 _ (.string key)).bind fun keyNode d had => ?_
  refine (encodeValue_shows had.1 _ v).bind fun valueNode e hae => ?_
  have hkeys := hae.2.hasList (had.2.hasList hac.2.1)
  have hitems := hae.2.hasList (had.2.hasList hac.2.2)
  refine (pushItem_ends hae.1.hasTable hkeys keyNode).bind fun _ f hf => ?_
  have hitems' := hf.2 itemsKey (by decide) hitems
  exact (pushItem_ends hf.1 hitems' valueNode).mono (fun _ _ _ => trivial) fun _ h => h

/-- A success is no matter to a call that writes properties. -/
theorem ends_of_writesProperty {call : Call} {m : Builder Unit} {reply : Reply}
    (hcall : call.WritesProperty) (h : Ends m a (fun _ _ => True) (Shows a)) :
    Ends (do m; return reply) a (fun _ b => ¬ call.WritesProperty → Shows a b) (Shows a) :=
  h.bind fun _ _ _ => ends_pure fun hnot => absurd hcall hnot

/-- **One call.**  A failure leaves everything to be seen, and so does a success of a call that
writes no property. -/
theorem perform_shows (ha : HasTable a) (call : Call) :
    Ends (perform call) a (fun _ b => ¬ call.WritesProperty → Shows a b) (Shows a) := by
  by_cases hcall : call.WritesProperty
  · cases call with
    | setProperty slot name value =>
      exact ends_of_writesProperty hcall (setProperty_shows ha slot name value)
    | appendItem slot value => exact ends_of_writesProperty hcall (appendItem_shows ha slot value)
    | addEntry slot key value =>
      exact ends_of_writesProperty hcall (addEntry_shows ha slot key value)
    | _ => cases hcall
  · have hmoves := perform_moves call.brings_anything ha
    exact hmoves.mono (fun _ _ h hnot => h.shows ha hnot) fun _ h => h.shows ha hcall

/-- **What failures leave alone.**  What the object in a slot of an archive that calls can make
stands for, it stands for still after a call that fails, whichever it is and wherever it fails, and
after a call that writes no property, whether it fails or not. -/
theorem flattenObject_after (ha : Reachable a) {call : Call}
    (hcall : (∃ e b, (perform call).run a = .error e b) ∨ ¬ call.WritesProperty) {slot : Nat}
    {v : Tree} (hv : a.flattenObject slot = .ok v) : (a.after call).flattenObject slot = .ok v := by
  have hshows := perform_shows ha.hasTable call
  rw [after]
  cases hrun : (perform call).run a with
  | error e b =>
    rw [Ends, hrun] at hshows
    exact hshows.flattenObject_eq hv
  | ok reply b =>
    rcases hcall with ⟨e, c, hfails⟩ | hwrites
    · cases hrun.symm.trans hfails
    · exact (of_ends_of_run_ok hshows hrun hwrites).flattenObject_eq hv

/-- A dictionary object with one entry. -/
def oneEntry : Archive :=
  (new.after (.addTopClass "NSDictionary" ["NSObject"])).after (.addEntry 1 "key" (.integer 5))

/-- An entry whose value has an item that cannot be archived: the key, an array object and the
description of its class are appended before the call fails. -/
def unfinished : Call := .addEntry 1 "other" (.nsArray .mutable [.fromPlist (.int 1)])

theorem flattenObject_after_unfinished : Reachable oneEntry ∧
    (∃ e b, (perform unfinished).run oneEntry = .error e b) ∧
    oneEntry.flattenObject 1 = .ok (.dict [("key", .int 5)]) ∧
    (oneEntry.after unfinished).lastUid = oneEntry.lastUid + 3 ∧
    (oneEntry.after unfinished).flattenObject 1 = .ok (.dict [("key", .int 5)]) := by
  have hreachable : Reachable oneEntry := .step (.step (.initial (.inl rfl)) trivial) trivial
  have hfails : ∃ e b, (perform unfinished).run oneEntry = .error e b := ⟨_, _, rfl⟩
  have hv : oneEntry.flattenObject 1 = .ok (.dict [("key", .int 5)]) := rfl
  have hlast : (oneEntry.after unfinished).lastUid = oneEntry.lastUid + 3 := rfl
  exact ⟨hreachable, hfails, hv, hlast, flattenObject_after hreachable (.inl hfails) hv⟩

end Calls

end PlistCodec.Archive
