import PlistCodec.Proofs.Archive.Instances
import PlistCodec.Proofs.Archive.Meaning
import PlistCodec.Proofs.Archive.Simulation

/-!
# Items and entries behind those that are there

An item that is stored behind the items of an array object is an item of what the object stands for,
and an entry of a dictionary object is inserted into what that stands for.

The object that takes the item stands in the middle of the graph, and what it refers to must not
lead back to it, for that would be changed as well.  It does not: the object can be flattened, so it
has a least number of levels for which it can, and what it refers to can be flattened with fewer
(`exists_flattensTo_least`).  Everything that can be flattened with fewer is left as it was
(`simulates_withEntries`).

Flattening takes a level for the object itself, so the value has to nest one level less deep than
what may be stored at all.
-/

namespace PlistCodec

/-! ## How deep a value nests -/

/-- Computations that agree on the members of a list agree on the list.  What is known of the
members may come with another list. -/
theorem mapM_congr_of_forall₂ {m : Type → Type} [Monad m] [LawfulMonad m] {α β γ : Type}
    {R : α → γ → Prop} {f g : α → m β} {xs : List α} {ys : List γ} (hxs : List.Forall₂ R xs ys)
    (h : ∀ x ∈ xs, ∀ y, R x y → f x = g x) : xs.mapM f = xs.mapM g := by
  induction hxs with
  | nil => rfl
  | @cons x y xs ys hx _ ih =>
    have hhead : f x = g x := h x List.mem_cons_self y hx
    have htail : xs.mapM f = xs.mapM g := ih fun x hx => h x (List.mem_cons_of_mem _ hx)
    rw [List.mapM_cons, List.mapM_cons, hhead, htail]

namespace ArchiveValue

mutual

/-- How many levels there are below a value, where the text, the bytes or the seconds of an object
of a class are a level as well.  For the kinds of values that mean something. -/
def nesting : ArchiveValue → Nat
  | .nsString _ _ => 1
  | .nsDate _ => 1
  | .nsData _ _ => 1
  | .nsArray _ items => itemsNesting items
  | .nsDictionary _ entries => entriesNesting entries
  | _ => 0
termination_by structural v => v

/-- How many levels the items of an array object are, together with those below them. -/
def itemsNesting : List ArchiveValue → Nat
  | [] => 0
  | v :: vs => max (v.nesting + 1) (itemsNesting vs)
termination_by structural vs => vs

/-- How many levels the entries of a dictionary object are, together with those below them. -/
def entriesNesting : List (String × ArchiveValue) → Nat
  | [] => 0
  | (_, v) :: es => max (v.nesting + 1) (entriesNesting es)
termination_by structural es => es

end

theorem nesting_lt_itemsNesting {items : List ArchiveValue} {v : ArchiveValue} (h : v ∈ items) :
    v.nesting < itemsNesting items := by
  induction items with
  | nil => cases h
  | cons first rest ih =>
    rw [itemsNesting]
    rcases List.mem_cons.mp h with rfl | h
    · exact Nat.lt_of_succ_le (Nat.le_max_left _ _)
    · exact Nat.lt_of_lt_of_le (ih h) (Nat.le_max_right _ _)

theorem nesting_lt_entriesNesting {entries : List (String × ArchiveValue)}
    {e : String × ArchiveValue} (h : e ∈ entries) : e.2.nesting < entriesNesting entries := by
  induction entries with
  | nil => cases h
  | cons first rest ih =>
    rw [entriesNesting]
    rcases List.mem_cons.mp h with rfl | h
    · exact Nat.lt_of_succ_le (Nat.le_max_left _ _)
    · exact Nat.lt_of_lt_of_le (ih h) (Nat.le_max_right _ _)

end ArchiveValue

namespace Archive

/-- Levels that a value does not need make no difference to how it is stored. -/
theorem encodeValue_eq_of_nesting_lt {levels more : Nat} {v : ArchiveValue} {w : Tree}
    (hv : v.meaning? = some w) (hlt : v.nesting < levels) (hle : levels ≤ more) :
    encodeValue more v = encodeValue levels v := by
  induction levels generalizing more v w with
  | zero => cases hlt
  | succ levels ih =>
    obtain ⟨more, rfl⟩ : ∃ m, more = m + 1 := ⟨more - 1, by omega⟩
    have hle' : levels ≤ more := Nat.le_of_succ_le_succ hle
    cases v with
    | nsString form text =>
      have htext : encodeValue more (.string text) = encodeValue levels (.string text) :=
        ih rfl (Nat.lt_of_succ_lt_succ hlt) hle'
      rw [encodeValue, encodeValue, htext]
    | nsData form bytes =>
      have hbytes : encodeValue more (.data bytes) = encodeValue levels (.data bytes) :=
        ih rfl (Nat.lt_of_succ_lt_succ hlt) hle'
      rw [encodeValue, encodeValue, hbytes]
    | nsDate seconds =>
      have hseconds : encodeValue more (.real seconds) = encodeValue levels (.real seconds) :=
        ih rfl (Nat.lt_of_succ_lt_succ hlt) hle'
      rw [encodeValue, encodeValue, hseconds]
    | nsArray form items =>
      obtain ⟨values, hvalues, -⟩ := Option.map_eq_some_iff.mp hv
      have hitems : items.mapM (encodeValue more) = items.mapM (encodeValue levels) := by
        refine mapM_congr_of_forall₂ (ArchiveValue.forall₂_of_itemMeanings? hvalues) ?_
        intro item hitem value hvalue
        have hbelow := ArchiveValue.nesting_lt_itemsNesting hitem
        exact ih hvalue (Nat.lt_of_lt_of_le hbelow (Nat.le_of_lt_succ hlt)) hle'
      rw [encodeValue, encodeValue, hitems]
    | nsDictionary form entries =>
      obtain ⟨values, hvalues, -⟩ := Option.map_eq_some_iff.mp hv
      rw [encodeValue, encodeValue]
      congr 1
      funext slot
      congr 1
      refine mapM_congr_of_forall₂ (ArchiveValue.forall₂_of_entryMeanings? hvalues) ?_
      rintro ⟨key, value⟩ hentry ⟨_, w⟩ ⟨_, hvalue⟩
      have hbelow := Nat.lt_of_lt_of_le (ArchiveValue.nesting_lt_entriesNesting hentry)
        (Nat.le_of_lt_succ hlt)
      have hkey : encodeValue more (.string key) = encodeValue levels (.string key) :=
        ih rfl (Nat.lt_of_le_of_lt (Nat.zero_le _) hbelow) hle'
      have hvalue' : encodeValue more value = encodeValue levels value := ih hvalue hbelow hle'
      simp only [hkey, hvalue']
    | nsUrl base relative => cases hv
    | nsKeyedArchive source => cases hv
    | fromPlist tree => cases hv
    | _ => rfl

/-- What does not nest as deep as may be stored stands for its meaning with one level less. -/
theorem encodeValue_storesAs_of_nesting_lt {levels : Nat} {a : Archive} {v : ArchiveValue}
    {w : Tree} (hv : v.meaning? = some w) (hlt : v.nesting < levels) (ha : HasTable a) :
    StoresAs levels w (encodeValue (levels + 1) v) a := by
  rw [encodeValue_eq_of_nesting_lt hv hlt (Nat.le_succ levels)]
  exact encodeValue_storesAs hv ha

/-! ## An instance with other lists -/

section Changed

variable {a : Archive} {slot depth : Nat} {entries entries' : Dict Tree}

/-- The entries lead to the same class, or name the same one. -/
def SameClass (entries entries' : Dict Tree) : Prop :=
  entries'.get? classKey = entries.get? classKey ∧
    entries'.get? classnameKey = entries.get? classnameKey

theorem sameClass_insert (entries : Dict Tree) {name : String} (value : Tree)
    (hclass : name ≠ classKey) (hname : name ≠ classnameKey) :
    SameClass entries (entries.insert name value) :=
  ⟨Dict.get?_insert_of_ne _ _ hclass, Dict.get?_insert_of_ne _ _ hname⟩

theorem SameClass.trans {entries'' : Dict Tree} (h : SameClass entries entries')
    (h' : SameClass entries' entries'') : SameClass entries entries'' :=
  ⟨h'.1.trans h.1, h'.2.trans h.2⟩

/-- What can be flattened without the instance is left as it was. -/
theorem simulates_withEntries (ha : HasTable a) (hslot : a.find? slot = some (.dict entries))
    (hclass : SameClass entries entries') (hnot : ¬ a.FlattensWithin depth slot)
    (objects : List Tree) :
    Simulates depth Eq a ((a.grown objects).withEntries slot entries') where
  ne_zero hsame hne := hsame ▸ hne
  primitive := by
    rintro other _ object rfl hobject hprimitive
    have hother : other ≠ slot := by
      rintro rfl
      rw [hslot] at hobject
      cases hobject
      cases hprimitive
    rw [(ha.grown objects).find?_withEntries_of_ne hother, ha.find?_grown objects hobject]
  entries := by
    rintro other _ found rfl hfound
    by_cases hother : other = slot
    · subst hother
      obtain rfl : entries = found := Tree.dict.inj (Option.some.inj (hslot.symm.trans hfound))
      have hlt := (ha.grown objects).lt_length_of_find? (ha.find?_grown objects hslot)
      refine ⟨entries', (ha.grown objects).find?_withEntries_self hlt entries', ?_⟩
      rintro name node hnode (rfl | rfl | hflat)
      · exact ⟨node, by rw [hclass.1, hnode], by simp⟩
      · exact ⟨node, by rw [hclass.2, hnode], by simp⟩
      · exact absurd hflat hnot
    · refine ⟨found, ?_, fun name node hnode _ => ⟨node, hnode, by simp⟩⟩
      rw [(ha.grown objects).find?_withEntries_of_ne hother, ha.find?_grown objects hfound]

/-- What is true of a node, whatever else the archive holds, is true when an instance in front of
the new objects has got other entries. -/
theorem HasTable.of_holds_withEntries (ha : HasTable a)
    (hnull : a.find? 0 = some (.string nullText)) (hslot : a.find? slot = some (.dict entries))
    {P : Archive → Tree → Prop} {objects : List Tree} {node : Tree}
    (h : Holds P (a.lastUid + 1) objects node) :
    P ((a.grown objects).withEntries slot entries') node := by
  have hgrown := ha.grown objects
  refine h _ ?_ fun i hi => ?_
  · have hzero : 0 ≠ slot := by
      rintro rfl
      rw [hslot] at hnull
      cases hnull
    rw [hgrown.find?_withEntries_of_ne hzero, ha.find?_grown objects hnull]
  · have hlt := ha.lt_length_of_find? hslot
    rw [ha.length_table] at hlt
    rw [hgrown.find?_withEntries_of_ne (by omega)]
    exact ha.finds_grown objects i hi

/-- What a change of the instance in a slot leaves, where `objects` are new: the instance with its
class, what could be flattened within `depth` levels, and what the new objects stand for. -/
structure Changed (a : Archive) (slot depth levels : Nat) (c : ObjectClass) (entries' : Dict Tree)
    (objects : List Tree) (b : Archive) : Prop where
  /-- The instance is one of the same class. -/
  isInstance : b.IsInstance slot c entries'
  /-- Nodes of the instance stand for what they stood for. -/
  old : ∀ {node value : Tree}, a.Resolves depth node value → b.Resolves levels node value
  /-- Nodes of the new objects stand for what they were stored for. -/
  new : ∀ {node value : Tree}, StandsFor levels (a.lastUid + 1) objects node value →
    b.Resolves levels node value

theorem changed_withEntries (ha : HasTable a) (hnull : a.find? 0 = some (.string nullText))
    {c : ObjectClass} (hinstance : a.IsInstance slot c entries)
    (hclass : SameClass entries entries') (hnot : ¬ a.FlattensWithin depth slot) {levels : Nat}
    (hle : depth ≤ levels) (objects : List Tree) :
    Changed a slot depth levels c entries' objects
      ((a.grown objects).withEntries slot entries') := by
  obtain ⟨hslot, form, hname⟩ := hinstance
  have hgrown := ha.grown objects
  have hsim := simulates_withEntries ha hslot hclass hnot objects
  have hslot' := hgrown.find?_withEntries_self
    (hgrown.lt_length_of_find? (ha.find?_grown objects hslot)) entries'
  refine ⟨⟨hslot', form, hsim.classname? hslot hslot' hname fun node hnode => ?_⟩,
    hsim.resolves_eq (Nat.le_refl _) hle, ha.of_holds_withEntries hnull hslot⟩
  exact ⟨node, by rw [hclass.1, hnode], by simp⟩

end Changed

/-! ## Storing an item or an entry -/

section Storing

variable {a b : Archive} {slot : Nat} {v : ArchiveValue} {entries : Dict Tree}
variable {good goodKey : Nat → List Tree → Tree → Prop}

/-- How an item is stored in an instance that has a list of items. -/
theorem appendItem_eq_ok (ha : HasTable a) (hslot : a.find? slot = some (.dict entries))
    {nodes : List Tree} (hnodes : entries.get? itemsKey = some (.array nodes))
    (hv : ∀ b, HasTable b → Provides good (encodeValue (maxDepth + 1) v) b)
    (h : (appendItem slot v).run a = .ok () b) :
    ∃ objects node, good (a.lastUid + 1) objects node ∧
      b = (a.grown objects).withEntries slot
        (entries.insert itemsKey (.array (nodes ++ [node]))) := by
  obtain ⟨_, _, hensure, h⟩ := exists_of_run_bind_eq_ok h
  rw [run_ensureArray_of_array hslot hnodes] at hensure
  cases hensure
  obtain ⟨node, _, hencode, h⟩ := exists_of_run_bind_eq_ok h
  obtain ⟨objects, rfl, hnode⟩ := of_ends_of_run_ok (hv a ha) hencode
  rw [(ha.grown objects).run_pushItem (ha.find?_grown objects hslot) hnodes] at h
  cases h
  exact ⟨objects, node, hnode, rfl⟩

/-- The same for an entry, whose key and value are stored one after the other. -/
theorem addEntry_eq_ok (ha : HasTable a) (hslot : a.find? slot = some (.dict entries))
    {keyNodes nodes : List Tree} (hkeys : entries.get? keysKey = some (.array keyNodes))
    (hnodes : entries.get? itemsKey = some (.array nodes)) {key : String}
    (hstableKey : Stable goodKey) (hstable : Stable good)
    (hkey : ∀ b, HasTable b → Provides goodKey (encodeValue (maxDepth + 1) (.string key)) b)
    (hv : ∀ b, HasTable b → Provides good (encodeValue (maxDepth + 1) v) b)
    (h : (addEntry slot key v).run a = .ok () b) :
    ∃ objects keyNode node, goodKey (a.lastUid + 1) objects keyNode ∧
      good (a.lastUid + 1) objects node ∧
      b = (a.grown objects).withEntries slot
        ((entries.insert keysKey (.array (keyNodes ++ [keyNode]))).insert itemsKey
          (.array (nodes ++ [node]))) := by
  obtain ⟨_, _, hensure, h⟩ := exists_of_run_bind_eq_ok h
  rw [run_ensureArray_of_array hslot hkeys] at hensure
  cases hensure
  obtain ⟨_, _, hensure, h⟩ := exists_of_run_bind_eq_ok h
  rw [run_ensureArray_of_array hslot hnodes] at hensure
  cases hensure
  obtain ⟨keyNode, _, hencode, h⟩ := exists_of_run_bind_eq_ok h
  obtain ⟨first, rfl, hkeyNode⟩ := of_ends_of_run_ok (hkey a ha) hencode
  obtain ⟨node, _, hencode, h⟩ := exists_of_run_bind_eq_ok h
  obtain ⟨second, rfl, hnode⟩ := of_ends_of_run_ok (hv _ (ha.grown first)) hencode
  rw [grown_grown] at h
  have hgrown := ha.grown (first ++ second)
  have hslot' := ha.find?_grown (first ++ second) hslot
  obtain ⟨_, _, hpush, h⟩ := exists_of_run_bind_eq_ok h
  rw [hgrown.run_pushItem hslot' hkeys] at hpush
  cases hpush
  have hself := hgrown.find?_withEntries_self (hgrown.lt_length_of_find? hslot')
    (entries.insert keysKey (.array (keyNodes ++ [keyNode])))
  have hnodes' : Dict.get? (entries.insert keysKey (.array (keyNodes ++ [keyNode]))) itemsKey
      = some (.array nodes) := by
    rw [Dict.get?_insert_of_ne _ _ (by decide), hnodes]
  rw [(hgrown.withEntries slot _).run_pushItem hself hnodes', withEntries_withEntries] at h
  cases h
  refine ⟨first ++ second, keyNode, node, hstableKey.left hkeyNode, ?_, rfl⟩
  rw [lastUid_grown, Nat.add_right_comm] at hnode
  exact hstable.right hnode

end Storing

/-! ## Flattening what has been stored -/

section Flattening

variable {a b : Archive} {slot : Nat} {v : ArchiveValue} {w : Tree}

theorem flattenObject_appendItem (ha : HasTable a) (hnull : a.find? 0 = some (.string nullText))
    (hv : ∀ b, HasTable b → StoresAs maxDepth w (encodeValue (maxDepth + 1) v) b) {xs : List Tree}
    (hxs : a.flattenObject slot = .ok (.array xs)) (h : (appendItem slot v).run a = .ok () b) :
    b.flattenObject slot = .ok (.array (xs ++ [w])) := by
  obtain ⟨least, hle, hflat, hnot⟩ := exists_flattensTo_least hxs
  cases hflat with
  | primitive _ hprimitive => cases hprimitive
  | @array entries nodes _ hinstance hnodes hvalues =>
    obtain ⟨objects, node, hnode, rfl⟩ := appendItem_eq_ok ha hinstance.find?_eq hnodes hv h
    have hclass : SameClass entries (entries.insert itemsKey (.array (nodes ++ [node]))) :=
      sameClass_insert entries _ (by decide) (by decide)
    have hchanged := changed_withEntries ha hnull hinstance hclass hnot hle objects
    have hold := hvalues.imp fun _ _ hvalue => hchanged.old hvalue
    exact hchanged.isInstance.flatten_array (Dict.get?_insert_self _ _ _)
      (List.rel_append hold (.cons (hchanged.new hnode) .nil))

theorem flattenObject_addEntry (ha : HasTable a) (hnull : a.find? 0 = some (.string nullText))
    {key : String} (hkey : ∀ b, HasTable b → StoresAs maxDepth (.string key)
      (encodeValue (maxDepth + 1) (.string key)) b)
    (hv : ∀ b, HasTable b → StoresAs maxDepth w (encodeValue (maxDepth + 1) v) b) {d : Dict Tree}
    (hd : a.flattenObject slot = .ok (.dict d)) (h : (addEntry slot key v).run a = .ok () b) :
    b.flattenObject slot = .ok (.dict (Dict.insert d key w)) := by
  obtain ⟨least, hle, hflat, hnot⟩ := exists_flattensTo_least hd
  cases hflat with
  | primitive _ hprimitive => cases hprimitive
  | @dictionary entries nodes values hinstance hkeys hitems hvalues =>
    obtain ⟨objects, keyNode, node, hkeyNode, hnode, rfl⟩ :=
      addEntry_eq_ok ha hinstance.find?_eq hkeys hitems stable_holds stable_holds hkey hv h
    have hclass : SameClass entries
        ((entries.insert keysKey (.array (nodes.map Prod.fst ++ [keyNode]))).insert itemsKey
          (.array (nodes.map Prod.snd ++ [node]))) :=
      (sameClass_insert entries _ (by decide) (by decide)).trans
        (sameClass_insert _ _ (by decide) (by decide))
    have hchanged := changed_withEntries ha hnull hinstance hclass hnot hle objects
    have hold := hvalues.imp fun n e hvalue =>
      And.intro (hchanged.old hvalue.1) (hchanged.old hvalue.2)
    have hpairs := List.rel_append hold
      (.cons ⟨hchanged.new hkeyNode, hchanged.new hnode⟩ .nil :
        List.Forall₂ _ [(keyNode, node)] [(key, w)])
    have hinsert : Dict.insert (Dict.ofList values) key w = Dict.ofList (values ++ [(key, w)]) := by
      rw [Dict.ofList, Dict.ofList, Dict.insertAll, Dict.insertAll, List.foldl_append]
      rfl
    rw [hinsert]
    refine hchanged.isInstance.flatten_dictionary ?_ ?_ hpairs
    · rw [Dict.get?_insert_of_ne _ _ (by decide), Dict.get?_insert_self, List.map_append]
      rfl
    · rw [Dict.get?_insert_self, List.map_append]
      rfl

end Flattening

/-- **Items and entries behind those that are there.**  In an archive that calls have made of the
new one, let the value mean something and nest at least one level less deep than what may be stored.
When it is stored as an item of an object that stands for a list, the object stands for the list
with the meaning at its end; when it is stored under a key of an object that stands for a
dictionary, the object stands for the dictionary with the meaning inserted. -/
theorem flattenObject_appendItem_addEntry {a : Archive} {slot : Nat} {v : ArchiveValue} {w : Tree}
    (ha : Reached (· = new) (fun _ _ => True) a) (hv : v.meaning? = some w)
    (hnesting : v.nesting < maxDepth) :
    (∀ xs b, a.flattenObject slot = .ok (.array xs) → (appendItem slot v).run a = .ok () b →
      b.flattenObject slot = .ok (.array (xs ++ [w]))) ∧
    ∀ key d b, a.flattenObject slot = .ok (.dict d) → (addEntry slot key v).run a = .ok () b →
      b.flattenObject slot = .ok (.dict (Dict.insert d key w)) := by
  obtain ⟨htable, hnull⟩ := null_of_reached ha
  have hstores : ∀ b, HasTable b → StoresAs maxDepth w (encodeValue (maxDepth + 1) v) b :=
    fun b hb => encodeValue_storesAs_of_nesting_lt hv hnesting hb
  have hkey : ∀ key b, HasTable b → StoresAs maxDepth (.string key)
      (encodeValue (maxDepth + 1) (.string key)) b :=
    fun key b hb => encodeValue_storesAs_of_nesting_lt rfl (Nat.succ_pos _) hb
  constructor
  · intro xs b hxs h
    exact flattenObject_appendItem htable hnull hstores hxs h
  · intro key d b hd h
    exact flattenObject_addEntry htable hnull (hkey key) hstores hd h

/-- An array object with one item and a dictionary object with one entry. -/
def arrayAndDictionary : Archive :=
  (((new.after (.addTopClass "NSArray" ["NSObject"])).after (.appendItem 1 (.string "first"))).after
    (.addTopClass "NSMutableDictionary" ["NSDictionary", "NSObject"])).after
      (.addEntry 4 "key" (.boolean true))

/-- A value with objects inside it, and a reference stored in place. -/
def nestedItem : ArchiveValue :=
  .nsArray .fixed [.nsString .fixed "second", .inlineTree (.array [.uid 1])]

theorem flattenObject_nestedItem :
    Reached (· = new) (fun _ _ => True) arrayAndDictionary ∧
    nestedItem.meaning? = some (.array [.string "second", .array [.uid 1]]) ∧
    nestedItem.nesting < maxDepth ∧
    arrayAndDictionary.flattenObject 1 = .ok (.array [.string "first"]) ∧
    arrayAndDictionary.flattenObject 4 = .ok (.dict [("key", .bool true)]) ∧
    (∃ b, (appendItem 1 nestedItem).run arrayAndDictionary = .ok () b ∧
      b.flattenObject 1
        = .ok (.array [.string "first", .array [.string "second", .array [.uid 1]]])) ∧
    ∃ b, (addEntry 4 "key" nestedItem).run arrayAndDictionary = .ok () b ∧
      b.flattenObject 4 = .ok (.dict [("key", .array [.string "second", .array [.uid 1]])]) := by
  have hreached : Reached (· = new) (fun _ _ => True) arrayAndDictionary :=
    .step (.step (.step (.step (.initial rfl) trivial) trivial) trivial) trivial
  have hmeaning : nestedItem.meaning? = some (.array [.string "second", .array [.uid 1]]) := rfl
  have hnesting : nestedItem.nesting < maxDepth := by decide
  have harray : arrayAndDictionary.flattenObject 1 = .ok (.array [.string "first"]) := rfl
  have hdict : arrayAndDictionary.flattenObject 4 = .ok (.dict [("key", .bool true)]) := rfl
  have hitem : ∃ b, (appendItem 1 nestedItem).run arrayAndDictionary = .ok () b := ⟨_, rfl⟩
  have hentry : ∃ b, (addEntry 4 "key" nestedItem).run arrayAndDictionary = .ok () b := ⟨_, rfl⟩
  obtain ⟨b, hb⟩ := hitem
  obtain ⟨d, hd⟩ := hentry
  have hfirst := (flattenObject_appendItem_addEntry hreached hmeaning hnesting).1 _ b harray hb
  have hsecond := (flattenObject_appendItem_addEntry hreached hmeaning hnesting).2 _ _ d hdict hd
  exact ⟨hreached, hmeaning, hnesting, harray, hdict, ⟨b, hb, hfirst⟩, d, hd, hsecond⟩

end Archive

end PlistCodec
