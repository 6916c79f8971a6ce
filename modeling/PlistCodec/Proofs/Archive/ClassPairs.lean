import PlistCodec.Proofs.Archive.FlattensTo
import PlistCodec.Proofs.Archive.History

/-!
# Instances and their classes

An instance is appended with the description of its class right behind it, and the entry that refers
to the description is the first one of the instance.  That this is so of every instance in a table
(`Paired`) lasts through all that a call may do, as long as nobody writes the entries concerned: an
entry of another name does not get in front of the first one, and a copy has its objects in the
order of the walk, in which the description is what comes next after the instance.  A copy that is
not finished is no instance yet, and one that is has its description behind it.

So `classPair_of_built` finds the pair for every instance of an archive that is made from scratch,
and of archives made so, by calls that leave those entries to the library.
-/

namespace PlistCodec.Archive

/-! ## Descriptions of classes -/

/-- Entries that describe a class by its name, which is not empty. -/
structure Describes (description : Dict Tree) (name : String) : Prop where
  /-- The class has a name. -/
  name_ne : name ≠ ""
  /-- The name. -/
  classname : description.get? classnameKey = some (.string name)
  /-- The name, in front of those of the ancestors. -/
  classes : ∃ ancestors, description.get? classesKey = some (.array (.string name :: ancestors))

/-- What the class entry of an instance in a slot promises: that it is the first entry, and that
what stands in the next slot is a description of a class. -/
structure ClassPair (slot : Nat) (entries : Dict Tree) (next : Option Tree) : Prop where
  /-- The first entry refers to the next slot. -/
  first : ∃ properties, entries = instanceEntries slot properties
  /-- The class is described in the next slot. -/
  described : ∃ description name, next = some (.dict description) ∧ Describes description name

/-- Each of the objects in the slots from `first` on that has a class entry makes a pair with the
object behind it. -/
def Paired (first : Nat) (objects : List Tree) : Prop :=
  ∀ i entries, objects[i]? = some (.dict entries) → classKey ∈ Dict.keys entries →
    ClassPair (first + i) entries objects[i + 1]?

section Pairs

variable {first slot : Nat} {name : String} {entries description : Dict Tree}

theorem describes_classDescription (hname : name ≠ "") (ancestors : List String) :
    ∃ description, classDescription name ancestors = .dict description ∧
      Describes description name :=
  ⟨_, rfl, hname, rfl, _, rfl⟩

theorem Describes.insert (h : Describes description name) {other : String}
    (hclassname : other ≠ classnameKey) (hclasses : other ≠ classesKey) (value : Tree) :
    Describes (description.insert other value) name where
  name_ne := h.name_ne
  classname := by rw [Dict.get?_insert_of_ne _ _ hclassname, h.classname]
  classes := by
    obtain ⟨ancestors, hancestors⟩ := h.classes
    exact ⟨ancestors, by rw [Dict.get?_insert_of_ne _ _ hclasses, hancestors]⟩

/-- The names are no references, so that a copy has the same ones. -/
theorem Describes.renamed {S : Nat → Nat → Prop} (h : Describes description name)
    {description' : Dict Tree} (hrelated : Dict.Related (Tree.Renamed S) description description') :
    Describes description' name where
  name_ne := h.name_ne
  classname := by
    obtain ⟨node, hnode, hrenamed⟩ := hrelated.get? h.classname
    rw [hnode, (Tree.renamed_scalar_iff rfl rfl).mp hrenamed]
  classes := by
    obtain ⟨ancestors, hancestors⟩ := h.classes
    obtain ⟨node, hnode, hrenamed⟩ := hrelated.get? hancestors
    obtain ⟨names, hnames, rfl⟩ := Tree.renamed_array_iff.mp hrenamed
    obtain ⟨node, ancestors', hnode', -, rfl⟩ := List.forall₂_cons_left_iff.mp hnames
    exact ⟨ancestors', by rw [hnode, (Tree.renamed_scalar_iff rfl rfl).mp hnode']⟩

theorem ClassPair.mono {next next' : Option Tree} (h : ClassPair slot entries next)
    (hnext : ∀ object, next = some object → next' = some object) :
    ClassPair slot entries next' := by
  obtain ⟨description, name, hdescription, hdescribes⟩ := h.described
  exact ⟨h.first, description, name, hnext _ hdescription, hdescribes⟩

theorem ClassPair.insert {next : Option Tree} (h : ClassPair slot entries next)
    (hname : name ≠ classKey) (value : Tree) :
    ClassPair slot (entries.insert name value) next := by
  obtain ⟨properties, rfl⟩ := h.first
  exact ⟨⟨_, insert_instanceEntries hname slot properties value⟩, h.described⟩

end Pairs

/-! ## Tables of pairs -/

/-- Names of properties other than those that make a pair. -/
structure NotOfClass (name : String) : Prop where
  /-- Not the entry of an instance for its class. -/
  ne_class : name ≠ classKey
  /-- Not the name in a description of a class. -/
  ne_classname : name ≠ classnameKey
  /-- Not the list of names in it. -/
  ne_classes : name ≠ classesKey

section Tables

variable {first : Nat} {objects : List Tree}

/-- The pairs are an invariant, which says nothing of nodes. -/
def pairs : Invariant where
  Objects := Paired
  Node _ _ := True
  below _ := trivial
  mono _ _ := trivial
  array _ := trivial
  nil _ := fun _ _ hi => by cases hi
  append := by
    intro first new more hnew hmore i entries hi hclass
    by_cases hlt : i < new.length
    · rw [List.getElem?_append_left hlt] at hi
      refine (hnew i entries hi hclass).mono fun object hobject => ?_
      rw [List.getElem?_append_left (List.getElem?_eq_some_iff.mp hobject).1, hobject]
    · obtain ⟨j, rfl⟩ := Nat.exists_eq_add_of_le (Nat.le_of_not_lt hlt)
      have hbehind : ∀ k, (new ++ more)[new.length + k]? = more[k]? := fun k => by
        rw [List.getElem?_append_right (Nat.le_add_right _ _), Nat.add_sub_cancel_left]
      rw [hbehind] at hi
      rw [Nat.add_assoc, hbehind, ← Nat.add_assoc]
      exact hmore j entries hi hclass
  object := by
    intro first object hobject _ i entries hi _
    cases i with
    | zero => cases hi; cases hobject
    | succ i => cases hi
  classPair := by
    intro first name ancestors properties more hname _ hmore i entries hi hclass
    match i with
    | 0 =>
      cases hi
      obtain ⟨description, hdescription, hdescribes⟩ := describes_classDescription hname ancestors
      exact ⟨⟨properties, rfl⟩, description, name, congrArg some hdescription, hdescribes⟩
    | 1 =>
      cases hi
      exact absurd hclass (show classKey ∉ [classesKey, classnameKey] by decide)
    | i + 2 =>
      have hplace : first + (i + 2) = first + 2 + i := by omega
      rw [hplace]
      exact hmore i entries hi hclass

/-- A property of another name may be written, of an instance as of a description. -/
theorem Paired.set (h : Paired first objects) {place : Nat} {entries : Dict Tree}
    (hplace : objects[place]? = some (.dict entries)) {name : String} (hname : NotOfClass name)
    (value : Tree) : Paired first (objects.set place (.dict (entries.insert name value))) := by
  have hlt : place < objects.length := (List.getElem?_eq_some_iff.mp hplace).1
  -- the object behind an instance describes a class still, if it is the one that is written
  have hnext : ∀ {i : Nat} {entries' : Dict Tree}, ClassPair (first + i) entries' objects[i + 1]? →
      ClassPair (first + i) entries'
        (objects.set place (.dict (entries.insert name value)))[i + 1]? := by
    intro i entries' hpair
    by_cases hi : place = i + 1
    · obtain ⟨description, text, hdescription, hdescribes⟩ := hpair.described
      rw [← hi, hplace] at hdescription
      obtain rfl := Tree.dict.inj (Option.some.inj hdescription)
      refine ⟨hpair.first, _, text, ?_, hdescribes.insert hname.ne_classname hname.ne_classes value⟩
      rw [← hi, List.getElem?_set_self hlt]
    · rw [List.getElem?_set_ne hi]
      exact hpair
  intro i entries' hi hclass
  by_cases heq : place = i
  · subst heq
    rw [List.getElem?_set_self hlt] at hi
    cases hi
    rw [Dict.mem_keys_iff, Dict.get?_insert_of_ne _ _ hname.ne_class, ← Dict.mem_keys_iff] at hclass
    exact hnext ((h place entries hplace hclass).insert hname.ne_class value)
  · rw [List.getElem?_set_ne heq] at hi
    exact hnext (h i entries' hi hclass)

end Tables

/-! ## Copies of pairs -/

section Copies

variable {source : Archive} {levels slot first : Nat} {object node : Tree} {new : List Tree}

/-- A walk from a dictionary reaches the slot that the first entry refers to before all others. -/
theorem eq_first_of_visit {find : Nat → Option Tree} {count : Nat} {key : String}
    {rest : Dict Tree} (hslot : slot ≠ 0)
    (h : walkWithin visit find levels (.dict ((key, .uid slot) :: rest))
      = some (List.range' first count)) : slot = first := by
  cases levels with
  | zero => cases h
  | succ levels =>
    obtain ⟨visits, hvisits, hflatten⟩ := (walkWithin_eq_some_iff rfl).mp h
    obtain ⟨reached, others, hreached, -, rfl⟩ := List.forall₂_cons_left_iff.mp hvisits
    cases levels with
    | zero => cases hreached
    | succ levels =>
      obtain ⟨_, behind, -, -, rfl⟩ := (walkWithin_uid_eq_some_iff hslot).mp hreached
      cases count with
      | zero => cases hflatten
      | succ count =>
        rw [List.range'_succ] at hflatten
        exact (List.cons.inj hflatten).1

/-- A copy of a description describes the same class. -/
theorem Describes.mirrors {find find' : Nat → Option Tree} {description : Dict Tree}
    {name : String} (h : Describes description name) {place : Nat} (hslot : slot ≠ 0)
    (hdescription : find slot = some (.dict description))
    (hmirrors : Mirrors find find' slot place) :
    place ≠ 0 ∧ ∃ description', find' place = some (.dict description') ∧
      Describes description' name := by
  cases hmirrors with
  | null => exact absurd rfl hslot
  | copy _ hplace hfound hfound' hrenamed =>
    obtain rfl := Option.some.inj (hdescription.symm.trans hfound)
    obtain ⟨description', hrelated, rfl⟩ := Tree.renamed_dict_iff.mp hrenamed
    exact ⟨hplace, description', hfound', h.renamed hrelated⟩

/-- The finished copy of an instance has the copy of the description behind it. -/
theorem ClassPair.copied {entries' : Dict Tree} (hsource : HasTable source)
    (hpaired : Paired 0 source.table) (hobject : source.find? slot = some object)
    (hcopied : Copied source levels (first + 1) object (.dict entries') new)
    (hclass : classKey ∈ Dict.keys entries') : ClassPair first entries' new[0]? := by
  have hfinds : Finds (fun slot => new[slot - (first + 1)]?) (first + 1) new := fun i _ => by
    simp only [Nat.add_sub_cancel_left]
  -- the original is an instance too, and a pair with what stands behind it
  obtain ⟨entries, rfl, hrelated⟩ := (hcopied.mirrors _ hfinds).exists_dict
  rw [hrelated.keys_eq] at hclass
  rw [hsource.find?_eq] at hobject
  have hpair := hpaired slot entries hobject hclass
  rw [Nat.zero_add] at hpair
  obtain ⟨properties, rfl⟩ := hpair.first
  obtain ⟨description, name, hdescription, hdescribes⟩ := hpair.described
  rw [← hsource.find?_eq] at hdescription
  -- so the first entry of the copy refers to a copy of the description
  obtain ⟨⟨key, reference⟩, rest, ⟨rfl, hreference⟩, -, rfl⟩ :=
    List.forall₂_cons_left_iff.mp hrelated
  obtain ⟨place, hmirrors, rfl⟩ := Tree.renamed_uid_iff.mp hreference
  obtain ⟨hplace, description', hfound, hdescribes'⟩ :=
    hdescribes.mirrors (Nat.succ_ne_zero slot) hdescription hmirrors
  -- and that copy comes next, since the walk reaches it first
  obtain rfl := eq_first_of_visit hplace (hcopied.visits _ hfinds)
  simp only [Nat.sub_self] at hfound
  exact ⟨⟨rest, rfl⟩, description', name, hfound, hdescribes'⟩

theorem Paired.copied (hsource : HasTable source) (hpaired : Paired 0 source.table)
    (hobject : source.find? slot = some object)
    (hcopied : Copied source levels (first + 1) object node new) (hnew : Paired (first + 1) new) :
    Paired first (node :: new) := by
  intro i entries' hi hclass
  cases i with
  | zero =>
    cases hi
    exact ClassPair.copied hsource hpaired hobject hcopied hclass
  | succ i =>
    have hplace : first + (i + 1) = first + 1 + i := by omega
    rw [hplace]
    exact hnew i entries' hi hclass

theorem copiesAs_pairs (hsource : HasTable source) (hpaired : Paired 0 source.table) :
    CopiesAs pairs source :=
  copiesAs_of_copied fun hobject hcopied hnew => hpaired.copied hsource hobject hcopied hnew

end Copies

/-! ## Calls -/

/-- A call that leaves the classes of instances, and their descriptions, to the library. -/
def Call.LeavesClasses : Call → Prop
  | .appendObject object => object.dict? = none
  | .setProperty _ name _ => NotOfClass name
  | _ => True

/-- The archives that such calls make of the new archive, where they copy from such archives
only. -/
inductive Built : Archive → Prop where
  /-- No call has been made yet. -/
  | new : Built new
  /-- A further call. -/
  | step {a : Archive} {call : Call} (h : Built a) (hcall : call.LeavesClasses)
      (hsources : ∀ source ∈ call.sources, Built source) : Built (a.after call)

section Calls

variable {a b : Archive} {call : Call}

theorem Call.LeavesClasses.notOfClass (h : call.LeavesClasses) {slot : Nat} {name : String}
    (hwrites : call.Writes slot name) : NotOfClass name := by
  have hkeys : NotOfClass keysKey := ⟨by decide, by decide, by decide⟩
  have hitems : NotOfClass itemsKey := ⟨by decide, by decide, by decide⟩
  cases call with
  | setProperty target property value =>
    obtain ⟨-, rfl⟩ := hwrites
    exact h
  | appendItem target value =>
    obtain ⟨-, rfl⟩ := hwrites
    exact hitems
  | addEntry target key value =>
    obtain ⟨-, rfl | rfl⟩ := hwrites
    · exact hkeys
    · exact hitems
  | _ => cases hwrites

/-- One step keeps the pairs. -/
theorem Paired.step (h : Paired 0 a.table) (hcall : call.LeavesClasses) (ha : HasTable a)
    (hstep : Step pairs call a b) : Paired 0 b.table := by
  cases hstep with
  | grow hnew =>
    rw [table_grown]
    refine pairs.append h ?_
    rw [Nat.zero_add, ha.length_table]
    exact hnew
  | write hslot hwrites =>
    rw [ha.find?_eq] at hslot
    rw [withEntries, table_withObjects]
    exact h.set hslot (hcall.notOfClass hwrites) _
  | add => rw [table_withTop]; exact h
  | rename => rw [table_withTop]; exact h

theorem Built.paired (h : Built a) : HasTable a ∧ Paired 0 a.table := by
  induction h with
  | new => exact ⟨hasTable_new, pairs.object rfl trivial⟩
  | @step a call _ hcall _ ih ihsources =>
    have hbrings : call.Brings pairs := by
      refine ⟨?_, fun _ _ _ => trivial, fun source hsource => ?_⟩
      · rintro object rfl first
        exact pairs.object hcall trivial
      · exact copiesAs_pairs (ihsources source hsource).1 (ihsources source hsource).2
    exact (steps_after hbrings ih.1).keep (p := fun c => Paired 0 c.table) ih.1 ih.2
      fun _ _ hc h hstep => h.step hcall hc hstep

/-- **Instances and their classes.**  In an archive that is made from scratch by calls that leave
classes to the library, and that copy from archives made so, whether they succeed or not, the class
entry of an instance is the first one and refers to the next slot, where the class is described;
and so the instance has a class name. -/
theorem classPair_of_built (h : Built a) {slot : Nat} {entries : Dict Tree}
    (hslot : a.object slot = .ok (.dict entries)) (hclass : classKey ∈ entries.keys) :
    ∃ rest description name, entries = (classKey, .uid (slot + 1)) :: rest ∧
      a.object (slot + 1) = .ok (.dict description) ∧ Describes description name ∧
      a.classname? slot = some name := by
  obtain ⟨ha, hpaired⟩ := h.paired
  have hfound := find?_eq_some_of_object hslot
  rw [ha.find?_eq] at hfound
  have hpair := hpaired slot entries hfound hclass
  rw [Nat.zero_add] at hpair
  obtain ⟨rest, rfl⟩ := hpair.first
  obtain ⟨description, name, hdescription, hdescribes⟩ := hpair.described
  rw [← ha.find?_eq] at hfound hdescription
  have hname : a.classname? slot = some name := (classname?_eq_some_iff hfound).mpr
    ⟨slot + 1, description, rfl, Nat.succ_ne_zero slot, hdescription, hdescribes.classname⟩
  exact ⟨rest, description, name, rfl, object_of_find? hdescription, hdescribes, hname⟩

end Calls

/-- An array object that holds a text. -/
def listOfText : Archive :=
  (new.after (.addTopClass "NSArray" ["NSObject"])).after (.appendItem 1 (.nsString .fixed "text"))

/-- An array object whose item is a reference that leads nowhere. -/
def dangling : Archive :=
  (new.after (.addTopClass "NSArray" ["NSObject"])).after (.appendItem 1 (.inlineTree (.uid 9)))

/-- Two archives are to be copied into a dictionary object, and the second of them cannot be: its
class has been copied when the call fails, and its instance has not. -/
def halfCopied : Archive :=
  (new.after (.addTopClass "NSDictionary" ["NSObject"])).after
    (.addEntry 1 "key" (.nsArray .fixed [.nsKeyedArchive listOfText, .nsKeyedArchive dangling]))

theorem classPair_of_built_halfCopied : Built halfCopied ∧
    halfCopied.object 6 = .ok (.dict [(classKey, .uid 7), (itemsKey, .array [.uid 8])]) ∧
    classKey ∈ Dict.keys [(classKey, Tree.uid 7), (itemsKey, .array [.uid 8])] ∧
    halfCopied.object 11 = .ok placeholder ∧
    ∃ rest description name,
      [(classKey, Tree.uid 7), (itemsKey, .array [.uid 8])] = (classKey, .uid (6 + 1)) :: rest ∧
      halfCopied.object (6 + 1) = .ok (.dict description) ∧ Describes description name ∧
      halfCopied.classname? 6 = some name := by
  have hlist : Built listOfText :=
    .step (.step .new trivial (List.forall_mem_nil _)) trivial (List.forall_mem_nil _)
  have hdangling : Built dangling :=
    .step (.step .new trivial (List.forall_mem_nil _)) trivial (List.forall_mem_nil _)
  have hsources : ∀ source ∈ [listOfText, dangling], Built source :=
    List.forall_mem_cons.mpr ⟨hlist, List.forall_mem_singleton.mpr hdangling⟩
  have hbuilt : Built halfCopied :=
    .step (.step .new trivial (List.forall_mem_nil _)) trivial hsources
  have hslot : halfCopied.object 6
      = .ok (.dict [(classKey, .uid 7), (itemsKey, .array [.uid 8])]) := rfl
  have hclass : classKey ∈ Dict.keys [(classKey, Tree.uid 7), (itemsKey, .array [.uid 8])] :=
    List.mem_cons_self
  exact ⟨hbuilt, hslot, hclass, rfl, classPair_of_built hbuilt hslot hclass⟩

end PlistCodec.Archive
