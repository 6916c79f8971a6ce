import PlistCodec.Proofs.Archive.History

/-!
# What calls leave alone

An archive only grows.  A call, whether it succeeds or not, changes no object that is there, but for
the entries that it may write of one instance, and these keep their places among the other entries.
Outside of the table it may change `$top`, if it names root objects, and nothing else
(`framed_after`).
-/

namespace PlistCodec

namespace Dict

variable {α : Type} {written : String → Prop} {d d' : Dict α}

/-- Only entries under written names have changed.  All entries that were there still are, in the
same order, and further ones stand behind them. -/
inductive ChangedOnly (written : String → Prop) : Dict α → Dict α → Prop where
  /-- Further entries. -/
  | added {d' : Dict α} (h : ∀ e ∈ d', written e.1) : ChangedOnly written [] d'
  /-- An entry that is as it was. -/
  | kept {key : String} {value : α} {d d' : Dict α} (h : ChangedOnly written d d') :
      ChangedOnly written ((key, value) :: d) ((key, value) :: d')
  /-- An entry that may have got another value. -/
  | replaced {key : String} {old value : α} {d d' : Dict α} (hkey : written key)
      (h : ChangedOnly written d d') : ChangedOnly written ((key, old) :: d) ((key, value) :: d')

theorem ChangedOnly.refl (d : Dict α) : ChangedOnly written d d := by
  induction d with
  | nil => exact .added (List.forall_mem_nil _)
  | cons e d ih => exact .kept ih

theorem ChangedOnly.insert (h : ChangedOnly written d d') {name : String} (hname : written name)
    (value : α) : ChangedOnly written d (d'.insert name value) := by
  induction h with
  | added h =>
    refine .added fun e he => ?_
    rcases mem_insert he with rfl | he
    · exact hname
    · exact h e he
  | @kept key _ _ _ h ih =>
    by_cases hkey : key = name
    · subst hkey
      rw [Dict.insert, if_pos rfl]
      exact .replaced hname h
    · rw [Dict.insert, if_neg hkey]
      exact .kept ih
  | @replaced key _ _ _ _ hwritten h ih =>
    by_cases hkey : key = name
    · subst hkey
      rw [Dict.insert, if_pos rfl]
      exact .replaced hname h
    · rw [Dict.insert, if_neg hkey]
      exact .replaced hwritten ih

/-- Nothing has changed if no name is written. -/
theorem ChangedOnly.eq (h : ChangedOnly written d d') (hnone : ∀ name, ¬ written name) :
    d' = d := by
  induction h with
  | @added d' h =>
    refine List.eq_nil_iff_forall_not_mem.mpr fun e he => ?_
    exact hnone _ (h e he)
  | kept _ ih => rw [ih]
  | replaced hkey => exact absurd hkey (hnone _)

end Dict

namespace Archive

/-! ## Objects -/

/-- What may become of an object: it stays as it is, or it is an instance of which only entries
under written names change. -/
inductive Rewritten (written : String → Prop) : Tree → Tree → Prop where
  /-- The same object. -/
  | same {object : Tree} : Rewritten written object object
  /-- An instance with other entries. -/
  | entries {d d' : Dict Tree} (h : Dict.ChangedOnly written d d') :
      Rewritten written (.dict d) (.dict d')

section Objects

variable {written : String → Prop} {object object' : Tree}

theorem Rewritten.insert {d : Dict Tree} (h : Rewritten written object (.dict d)) {name : String}
    (hname : written name) (value : Tree) :
    Rewritten written object (.dict (d.insert name value)) := by
  cases h with
  | same => exact .entries ((Dict.ChangedOnly.refl d).insert hname value)
  | entries h => exact .entries (h.insert hname value)

theorem Rewritten.eq (h : Rewritten written object object') (hnone : ∀ name, ¬ written name) :
    object' = object := by
  cases h with
  | same => rfl
  | entries h => rw [h.eq hnone]

end Objects

/-! ## Archives -/

/-- Every object of `a` is in its slot still, and only entries that the call may write have
changed. -/
def RewritesOnly (call : Call) (a b : Archive) : Prop :=
  ∀ slot object, a.find? slot = some object →
    ∃ object', b.find? slot = some object' ∧ Rewritten (call.Writes slot) object object'

/-- What a call leaves alone. -/
structure Framed (call : Call) (a b : Archive) : Prop where
  /-- Of the objects only entries that the call may write have changed. -/
  rewritten : RewritesOnly call a b
  /-- A slot whose entries the call may not write holds what it held. -/
  unwritten : ∀ {slot : Nat} {object : Tree}, (∀ name, ¬ call.Writes slot name) →
    a.find? slot = some object → b.find? slot = some object
  /-- The version is the same. -/
  version : Dict.get? b.root versionKey = Dict.get? a.root versionKey
  /-- The archiver is the same. -/
  archiver : Dict.get? b.root archiverKey = Dict.get? a.root archiverKey
  /-- The root objects are the same, unless the call may name them. -/
  top : ¬ call.Names → Dict.get? b.root topKey = Dict.get? a.root topKey

section Archives

variable {I : Invariant} {call : Call} {a b c : Archive}

theorem RewritesOnly.refl (call : Call) (a : Archive) : RewritesOnly call a a :=
  fun _ object hslot => ⟨object, hslot, .same⟩

/-- One step changes no more than the call may. -/
theorem RewritesOnly.step (h : RewritesOnly call a b) (hb : HasTable b)
    (hstep : Step I call b c) : RewritesOnly call a c := by
  intro slot object hslot
  obtain ⟨object', hslot', hobject⟩ := h slot object hslot
  cases hstep with
  | grow => exact ⟨object', hb.find?_grown _ hslot', hobject⟩
  | add => exact ⟨object', by simpa using hslot', hobject⟩
  | rename => exact ⟨object', by simpa using hslot', hobject⟩
  | @write target entries name value htarget hwrites =>
    by_cases heq : slot = target
    · subst heq
      obtain rfl := Option.some.inj (hslot'.symm.trans htarget)
      exact ⟨_, hb.find?_withEntries_self (hb.lt_length_of_find? htarget) _,
        hobject.insert hwrites value⟩
    · exact ⟨object', by rw [hb.find?_withEntries_of_ne heq, hslot'], hobject⟩

theorem Steps.rewritesOnly (h : Steps I call a b) (ha : HasTable a) : RewritesOnly call a b :=
  (h.keep ha (.refl call a) fun _ _ hc hac hstep => hac.step hc hstep).2

/-- What is not written is as it was. -/
theorem RewritesOnly.find?_eq (h : RewritesOnly call a b) {slot : Nat} {object : Tree}
    (hnone : ∀ name, ¬ call.Writes slot name) (hslot : a.find? slot = some object) :
    b.find? slot = some object := by
  obtain ⟨object', hslot', hobject⟩ := h slot object hslot
  rw [hslot', hobject.eq hnone]

/-- **What calls leave alone.**  A call on an archive that calls can make, whether it succeeds or
not, leaves all objects as they are, save that it may write its entries of its instance; and it
leaves alone what stands beside the table, save that it may name root objects. -/
theorem framed_after (ha : Reachable a) (call : Call) : Framed call a (a.after call) := by
  have htable := ha.hasTable
  have hrewritten := (steps_after call.brings_anything htable).rewritesOnly htable
  refine ⟨hrewritten, hrewritten.find?_eq, ?_, ?_, fun hnames => ?_⟩
  · exact get?_root_after htable (by decide) fun _ => by decide
  · exact get?_root_after htable (by decide) fun _ => by decide
  · exact get?_root_after htable (by decide) fun h => absurd h hnames

end Archives

/-- A dictionary object without entries, and a string behind it. -/
def emptyDictionary : Archive :=
  (new.after (.addTopClass "NSDictionary" ["NSObject"])).after (.appendObject (.string "text"))

/-- An entry whose value cannot be archived as a whole: the lists of the instance are there when the
call fails, and so are the key and a part of the value. -/
def brokenEntry : Call :=
  .addEntry 1 "key" (.nsArray .mutable [.nsKeyedArchive emptyDictionary, .fromPlist (.int 1)])

theorem framed_after_brokenEntry : Reachable emptyDictionary ∧
    (∃ e b, (perform brokenEntry).run emptyDictionary = .error e b) ∧
    emptyDictionary.object 1 = .ok (.dict [(classKey, .uid 2)]) ∧
    (emptyDictionary.after brokenEntry).object 1
      = .ok (.dict [(classKey, .uid 2), (keysKey, .array []), (itemsKey, .array [])]) ∧
    (emptyDictionary.after brokenEntry).lastUid = emptyDictionary.lastUid + 5 ∧
    Framed brokenEntry emptyDictionary (emptyDictionary.after brokenEntry) := by
  have hreachable : Reachable emptyDictionary :=
    .step (.step (.initial (.inl rfl)) trivial) trivial
  have hfails : ∃ e b, (perform brokenEntry).run emptyDictionary = .error e b := ⟨_, _, rfl⟩
  exact ⟨hreachable, hfails, rfl, rfl, rfl, framed_after hreachable brokenEntry⟩

end Archive

end PlistCodec
