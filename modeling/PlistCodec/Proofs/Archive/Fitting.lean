import PlistCodec.Proofs.Archive.Embedding
import PlistCodec.Proofs.Archive.Levels

/-!
# Values that fit within a number of levels

A value *fits* within a number of levels if flattening can follow what it becomes with as many.  The
rules are those of storing a value, one for each kind, but for three kinds of values: the parts of
an address are not followed; a property list takes no level of its own; and what is copied from
another archive fits by what it was there.  The node that stands for a stored value settles within
the levels that the value fits within (`encodeValue_settlesAs`).

A value is not stored unless its own objects fit within the levels that are left
(`fitsWithin_of_encodeValue`).  That does not go for what is copied into the middle of it: copying
counts levels from the start.
-/

namespace PlistCodec

namespace ArchiveValue

open Archive (Mutability)

/-! ## Fitting -/

/-- What the value becomes can be followed with `levels` levels. -/
inductive FitsWithin : (levels : Nat) → ArchiveValue → Prop where
  /-- An integer stored in place. -/
  | integer {levels value : Nat} : FitsWithin levels (.integer value)
  /-- A text stored in place. -/
  | inlineString {levels : Nat} {text : String} : FitsWithin levels (.inlineString text)
  /-- A property list stored in place. -/
  | inlineTree {levels : Nat} {tree : Tree} : FitsWithin levels (.inlineTree tree)
  /-- Bytes stored in place. -/
  | data {levels : Nat} {bytes : Bytes} : FitsWithin levels (.data bytes)
  /-- An integer in a slot. -/
  | integerObject {levels value : Nat} : FitsWithin (levels + 1) (.integerObject value)
  /-- A truth value in a slot. -/
  | boolean {levels : Nat} {value : Bool} : FitsWithin (levels + 1) (.boolean value)
  /-- A real in a slot. -/
  | real {levels : Nat} {value : Binary64} : FitsWithin (levels + 1) (.real value)
  /-- A text in a slot. -/
  | string {levels : Nat} {text : String} : FitsWithin (levels + 1) (.string text)
  /-- A string object, by its text. -/
  | nsString {levels : Nat} {form : Mutability} {text : String}
    (h : FitsWithin levels (.string text)) : FitsWithin (levels + 1) (.nsString form text)
  /-- A date object, by its seconds. -/
  | nsDate {levels : Nat} {seconds : Binary64} (h : FitsWithin levels (.real seconds)) :
    FitsWithin (levels + 1) (.nsDate seconds)
  /-- A data object, by its bytes. -/
  | nsData {levels : Nat} {form : Mutability} {bytes : Bytes}
    (h : FitsWithin levels (.data bytes)) : FitsWithin (levels + 1) (.nsData form bytes)
  /-- An array object, by its items. -/
  | nsArray {levels : Nat} {form : Mutability} {items : List ArchiveValue}
    (h : ∀ v ∈ items, FitsWithin levels v) : FitsWithin (levels + 1) (.nsArray form items)
  /-- A dictionary object, by its keys and values. -/
  | nsDictionary {levels : Nat} {form : Mutability} {entries : List (String × ArchiveValue)}
    (hkeys : ∀ e ∈ entries, FitsWithin levels (.string e.1))
    (hvalues : ∀ e ∈ entries, FitsWithin levels e.2) :
    FitsWithin (levels + 1) (.nsDictionary form entries)
  /-- An address, whose parts are not followed. -/
  | nsUrl {levels : Nat} {base relative : Option ArchiveValue} :
    FitsWithin (levels + 1) (.nsUrl base relative)
  /-- An archive, by its default root object. -/
  | nsKeyedArchive {levels : Nat} {source : Archive}
    (h : ∀ slot, source.topUid? none = some slot → source.Settles (levels + 1) (.uid slot)) :
    FitsWithin (levels + 1) (.nsKeyedArchive source)
  /-- A property list, by what it becomes. -/
  | fromPlist {levels : Nat} {tree : Tree} {value : ArchiveValue} (hvalue : ofTree tree = .ok value)
    (h : FitsWithin levels value) : FitsWithin levels (.fromPlist tree)

section Fitting

variable {levels : Nat} {form : Mutability}

theorem FitsWithin.succ {v : ArchiveValue} (h : v.FitsWithin levels) :
    v.FitsWithin (levels + 1) := by
  induction h with
  | integer => exact .integer
  | inlineString => exact .inlineString
  | inlineTree => exact .inlineTree
  | data => exact .data
  | integerObject => exact .integerObject
  | boolean => exact .boolean
  | real => exact .real
  | string => exact .string
  | nsString _ ih => exact .nsString ih
  | nsDate _ ih => exact .nsDate ih
  | nsData _ ih => exact .nsData ih
  | nsArray _ ih => exact .nsArray ih
  | nsDictionary _ _ ihKeys ihValues => exact .nsDictionary ihKeys ihValues
  | nsUrl => exact .nsUrl
  | nsKeyedArchive h => exact .nsKeyedArchive fun slot hslot => (h slot hslot).succ
  | fromPlist hvalue _ ih => exact .fromPlist hvalue ih

theorem fitsWithin_nsString_iff {text : String} :
    FitsWithin (levels + 1) (.nsString form text) ↔ FitsWithin levels (.string text) :=
  ⟨fun h => by cases h; assumption, .nsString⟩

theorem fitsWithin_nsDate_iff {seconds : Binary64} :
    FitsWithin (levels + 1) (.nsDate seconds) ↔ FitsWithin levels (.real seconds) :=
  ⟨fun h => by cases h; assumption, .nsDate⟩

theorem fitsWithin_nsData_iff {bytes : Bytes} :
    FitsWithin (levels + 1) (.nsData form bytes) ↔ FitsWithin levels (.data bytes) :=
  ⟨fun h => by cases h; assumption, .nsData⟩

theorem fitsWithin_nsArray_iff {items : List ArchiveValue} :
    FitsWithin (levels + 1) (.nsArray form items) ↔ ∀ v ∈ items, FitsWithin levels v :=
  ⟨fun h => by cases h; assumption, .nsArray⟩

theorem fitsWithin_nsDictionary_iff {entries : List (String × ArchiveValue)} :
    FitsWithin (levels + 1) (.nsDictionary form entries) ↔
      (∀ e ∈ entries, FitsWithin levels (.string e.1)) ∧ ∀ e ∈ entries, FitsWithin levels e.2 := by
  constructor
  · intro h
    cases h with
    | nsDictionary hkeys hvalues => exact ⟨hkeys, hvalues⟩
  · rintro ⟨hkeys, hvalues⟩
    exact .nsDictionary hkeys hvalues

theorem fitsWithin_nsKeyedArchive_iff {source : Archive} :
    FitsWithin (levels + 1) (.nsKeyedArchive source) ↔
      ∀ slot, source.topUid? none = some slot → source.Settles (levels + 1) (.uid slot) :=
  ⟨fun h => by cases h; assumption, .nsKeyedArchive⟩

theorem fitsWithin_fromPlist_iff {tree : Tree} {value : ArchiveValue}
    (hvalue : ofTree tree = .ok value) :
    FitsWithin levels (.fromPlist tree) ↔ FitsWithin levels value := by
  constructor
  · intro h
    cases h with
    | fromPlist hother h =>
      rw [hvalue] at hother
      cases hother
      exact h
  · exact .fromPlist hvalue

end Fitting

end ArchiveValue

namespace Archive

open ArchiveValue (FitsWithin)

/-! ## Nodes of stored values -/

/-- In an archive with the string of slot 0, the node settles within the levels that the value fits
within. -/
def SettlesAs (v : ArchiveValue) (d : Archive) (node : Tree) : Prop :=
  d.find? 0 = some (.string nullText) →
    ∀ levels, d.Settles levels node ↔ v.FitsWithin levels

section Nodes

variable {v : ArchiveValue} {d : Archive} {slot : Nat}

theorem settlesAs_inline {node : Tree} (huid : node.uid? = none)
    (hfits : ∀ levels, v.FitsWithin levels) : SettlesAs v d node :=
  fun _ levels => iff_of_true (.inline huid) (hfits levels)

/-- A reference takes a level, and so does the value. -/
theorem settlesAs_uid (hzero : ¬ v.FitsWithin 0)
    (hsucc : d.find? 0 = some (.string nullText) → ∀ levels,
      d.Settles (levels + 1) (.uid slot) ↔ v.FitsWithin (levels + 1)) :
    SettlesAs v d (.uid slot) := by
  intro hnull levels
  cases levels with
  | zero => exact iff_of_false not_settles_zero hzero
  | succ levels => exact hsucc hnull levels

theorem settlesAs_primitive {object : Tree} (hobject : d.find? slot = some object)
    (hprimitive : Primitive object) (hzero : ¬ v.FitsWithin 0)
    (hfits : ∀ levels, v.FitsWithin (levels + 1)) : SettlesAs v d (.uid slot) := by
  refine settlesAs_uid hzero fun _ levels => iff_of_true (.reference ?_) (hfits levels)
  rw [followed_of_primitive hobject hprimitive]
  exact List.forall_mem_nil _

/-- A reference to an instance settles if the nodes that are followed from the instance do. -/
theorem IsInstance.settles_iff {c : ObjectClass} {entries : Dict Tree}
    (h : d.IsInstance slot c entries) (hnull : d.find? 0 = some (.string nullText)) {levels : Nat} :
    d.Settles (levels + 1) (.uid slot) ↔ ∀ node ∈ d.nodesOf slot c, d.Settles levels node := by
  have hne : slot ≠ 0 := by
    rintro rfl
    have hslot := h.find?_eq
    rw [hnull] at hslot
    cases hslot
  rw [settles_uid_iff, h.followed_eq, or_iff_right hne]

/-- An instance with one property that is followed. -/
theorem IsInstance.settlesAs_property {c : ObjectClass} {entries : Dict Tree} {name : String}
    {node : Tree} {part : ArchiveValue} (h : d.IsInstance slot c entries)
    (hnodes : d.nodesOf slot c = (d.property? slot name).toList)
    (hnode : entries.get? name = some node) (hpart : SettlesAs part d node)
    (hzero : ¬ v.FitsWithin 0)
    (hfits : ∀ levels, v.FitsWithin (levels + 1) ↔ part.FitsWithin levels) :
    SettlesAs v d (.uid slot) := by
  refine settlesAs_uid hzero fun hnull levels => ?_
  rw [h.settles_iff hnull, hnodes, h.property?_eq, hnode, hfits, ← hpart hnull]
  exact List.forall_mem_singleton

theorem IsInstance.settlesAs_items {entries : Dict Tree} {nodes : List Tree}
    {items : List ArchiveValue} {form : Mutability} (h : d.IsInstance slot .array entries)
    (hitems : entries.get? itemsKey = some (.array nodes))
    (hnodes : List.Forall₂ (fun node v => SettlesAs v d node) nodes items) :
    SettlesAs (.nsArray form items) d (.uid slot) := by
  refine settlesAs_uid (by rintro ⟨⟩) fun hnull levels => ?_
  rw [h.settles_iff hnull, nodesOf, h.listedNodes_eq hitems, ArchiveValue.fitsWithin_nsArray_iff]
  exact forall_mem_iff_of_forall₂ hnodes fun _ _ hnode => hnode hnull levels

theorem IsInstance.settlesAs_entries {entries : Dict Tree} {nodes : List (Tree × Tree)}
    {values : List (String × ArchiveValue)} {form : Mutability}
    (h : d.IsInstance slot .dictionary entries)
    (hkeys : entries.get? keysKey = some (.array (nodes.map Prod.fst)))
    (hitems : entries.get? itemsKey = some (.array (nodes.map Prod.snd)))
    (hnodes : List.Forall₂ (fun n e => SettlesAs (.string e.1) d n.1 ∧ SettlesAs e.2 d n.2)
      nodes values) : SettlesAs (.nsDictionary form values) d (.uid slot) := by
  refine settlesAs_uid (by rintro ⟨⟩) fun hnull levels => ?_
  rw [h.settles_iff hnull, nodesOf, h.listedNodes_eq hkeys, h.listedNodes_eq hitems,
    List.forall_mem_append, List.forall_mem_map, List.forall_mem_map,
    ArchiveValue.fitsWithin_nsDictionary_iff]
  exact and_congr (forall_mem_iff_of_forall₂ hnodes fun _ _ hnode => hnode.1 hnull levels)
    (forall_mem_iff_of_forall₂ hnodes fun _ _ hnode => hnode.2 hnull levels)

theorem IsInstance.settlesAs_parts {entries : Dict Tree} {base relative : Option ArchiveValue}
    (h : d.IsInstance slot .url entries) : SettlesAs (.nsUrl base relative) d (.uid slot) := by
  refine settlesAs_uid (by rintro ⟨⟩) fun hnull levels => ?_
  rw [h.settles_iff hnull]
  exact iff_of_true (List.forall_mem_nil _) .nsUrl

end Nodes

/-! ## Storing a value -/

section Storing

variable {levels : Nat} {a : Archive}

/-- What has been copied settles as it did in the source. -/
theorem mergeArchive_settlesAs (source : Archive) (ha : HasTable a) :
    Provides (Holds (SettlesAs (.nsKeyedArchive source))) (mergeArchive source) a := by
  cases htop : source.topUid? none with
  | none =>
    have hrun : (mergeArchive source).run a = .ok (.uid 0) a := by
      simp only [EStateM.run, mergeArchive, htop]
    refine ends_of_run_ok hrun ⟨[], ha.grown_nil.symm, fun d _ _ => settlesAs_uid (by rintro ⟨⟩) ?_⟩
    refine fun _ levels => iff_of_true .null (.nsKeyedArchive fun slot hslot => ?_)
    rw [htop] at hslot
    cases hslot
  | some slot =>
    cases hrun : (mergeArchive source).run a with
    | error e b => exact ends_of_run_error hrun trivial
    | ok node b =>
      obtain ⟨hdone, rfl, rfl⟩ := mergeArchive_eq_ok htop hrun
      obtain ⟨new, hwalk⟩ := mergeNode_walked source (maxDepth + 1) (.uid slot) ha
      refine ends_of_run_ok hrun ⟨new, hwalk.archive_eq, fun d _ hfinds hnull => ?_⟩
      have hmirrors := (hwalk.copied_of_done hdone).mirrors d.find? hfinds
      obtain ⟨slot', hslot', hnode⟩ := Tree.renamed_uid_iff.mp hmirrors
      rw [mergeObject, hnode]
      refine settlesAs_uid (by rintro ⟨⟩) (fun _ levels => ?_) hnull
      rw [ArchiveValue.fitsWithin_nsKeyedArchive_iff, htop,
        ← settles_iff_of_mirrors (.uid hslot')]
      exact ⟨fun h _ hsome => Option.some.inj hsome ▸ h, fun h => h slot rfl⟩

/-- **Storing a value.**  If it succeeds, the node that is yielded settles within the levels that
the value fits within, unless references are stored in place. -/
theorem encodeValue_settlesAs {v : ArchiveValue} (hv : ∀ t ∈ v.rawTrees, t.uid? = none)
    (ha : HasTable a) : Provides (Holds (SettlesAs v)) (encodeValue levels v) a := by
  induction levels generalizing v a with
  | zero => exact provides_throw
  | succ levels ih =>
    have hplain : ∀ w : ArchiveValue, w.rawTrees = [] → ∀ b, HasTable b →
        Provides (Holds (SettlesAs w)) (encodeValue levels w) b := by
      intro w hw b hb
      refine ih ?_ hb
      rw [hw]
      exact List.forall_mem_nil _
    cases v with
    | integer value => exact provides_pure ha fun _ _ _ => settlesAs_inline rfl fun _ => .integer
    | inlineString text =>
      exact provides_pure ha fun _ _ _ => settlesAs_inline rfl fun _ => .inlineString
    | inlineTree tree =>
      have huid := hv tree (List.mem_singleton.mpr rfl)
      exact provides_pure ha fun _ _ _ => settlesAs_inline huid fun _ => .inlineTree
    | data bytes => exact provides_pure ha fun _ _ _ => settlesAs_inline rfl fun _ => .data
    | integerObject value =>
      exact provides_appendObject ha fun hobject =>
        settlesAs_primitive hobject trivial (by rintro ⟨⟩) fun _ => .integerObject
    | boolean value =>
      exact provides_appendObject ha fun hobject =>
        settlesAs_primitive hobject trivial (by rintro ⟨⟩) fun _ => .boolean
    | real value =>
      exact provides_appendObject ha fun hobject =>
        settlesAs_primitive hobject trivial (by rintro ⟨⟩) fun _ => .real
    | string text =>
      exact provides_encodeString ha fun hobject =>
        settlesAs_primitive hobject trivial (by rintro ⟨⟩) fun _ => .string
    | nsString form text =>
      exact provides_property (by decide) (hplain (.string text) rfl) (fun h hnode hpart =>
        h.settlesAs_property rfl hnode hpart (by rintro ⟨⟩)
          fun _ => ArchiveValue.fitsWithin_nsString_iff) ha
    | nsDate seconds =>
      exact provides_property (by decide) (hplain (.real seconds) rfl) (fun h hnode hpart =>
        h.settlesAs_property rfl hnode hpart (by rintro ⟨⟩)
          fun _ => ArchiveValue.fitsWithin_nsDate_iff) ha
    | nsData form bytes =>
      exact provides_property (by decide) (hplain (.data bytes) rfl) (fun h hnode hpart =>
        h.settlesAs_property rfl hnode hpart (by rintro ⟨⟩)
          fun _ => ArchiveValue.fitsWithin_nsData_iff) ha
    | nsArray form items =>
      rw [ArchiveValue.rawTrees_nsArray] at hv
      have hitems : List.Forall₂ (fun v w => ∀ b, HasTable b →
          Provides (Holds (SettlesAs w)) (encodeValue levels v) b) items items := by
        refine List.forall₂_same.mpr fun item hitem b hb => ih (fun t ht => ?_) hb
        exact hv t (List.mem_flatMap.mpr ⟨item, hitem, ht⟩)
      exact provides_items hitems (fun h hnodes hsettles => h.settlesAs_items hnodes hsettles) ha
    | nsDictionary form entries =>
      rw [ArchiveValue.rawTrees_nsDictionary] at hv
      have hentries : List.Forall₂ (fun e w =>
          (∀ b, HasTable b → Provides (Holds (SettlesAs (.string w.1)))
            (encodeValue levels (.string e.1)) b) ∧
          ∀ b, HasTable b → Provides (Holds (SettlesAs w.2)) (encodeValue levels e.2) b)
          entries entries := by
        refine List.forall₂_same.mpr fun e he => ⟨hplain _ rfl, fun b hb => ih (fun t ht => ?_) hb⟩
        exact hv t (List.mem_flatMap.mpr ⟨e, he, ht⟩)
      exact provides_entries hentries
        (fun h hkeys hitems hsettles => h.settlesAs_entries hkeys hitems hsettles) ha
    | nsUrl base relative =>
      have hpart : ∀ part : Option ArchiveValue, (∀ t ∈ ArchiveValue.rawTreesOfOption part,
          t.uid? = none) → ∀ w ∈ part, ∀ b, HasTable b →
          Provides (fun _ _ _ => True) (encodeValue levels w) b := by
        rintro _ hpart w rfl b hb
        exact (ih hpart hb).mono fun _ _ _ _ => trivial
      have hbase := hpart base fun t ht => hv t (List.mem_append_left _ ht)
      have hrelative := hpart relative fun t ht => hv t (List.mem_append_right _ ht)
      exact provides_parts hbase hrelative (fun h => h.settlesAs_parts) ha
    | nsKeyedArchive source => exact mergeArchive_settlesAs source ha
    | fromPlist tree =>
      rw [encodeValue]
      cases htree : ArchiveValue.ofTree tree with
      | error e => exact provides_throw
      | ok value =>
        refine Provides.mono (hplain value (ArchiveValue.rawTrees_ofTree htree) a ha) ?_
        intro first new node hnode d hnull hfinds _ levels
        rw [ArchiveValue.fitsWithin_fromPlist_iff htree]
        exact hnode d hnull hfinds hnull levels

end Storing

/-! ## Values that are stored -/

section Stored

variable {levels : Nat} {v : ArchiveValue} {a b : Archive}

/-- Each of the members has been stored at some time. -/
theorem exists_of_run_mapM_eq_ok {α β : Type} {f : α → Builder β} {xs : List α} {ys : List β}
    (h : (xs.mapM f).run a = .ok ys b) : ∀ x ∈ xs, ∃ c y d, (f x).run c = .ok y d := by
  induction xs generalizing a b ys with
  | nil => exact List.forall_mem_nil _
  | cons x xs ih =>
    rw [List.mapM_cons] at h
    obtain ⟨y, c, hx, h⟩ := exists_of_run_bind_eq_ok h
    obtain ⟨_, _, hxs, -⟩ := exists_of_run_bind_eq_ok h
    exact List.forall_mem_cons.mpr ⟨⟨a, y, c, hx⟩, ih hxs⟩

theorem exists_of_run_property_eq_ok {c : ObjectClass} {form : Mutability} {name : String}
    {encode : Builder Tree} {node : Tree}
    (h : (do
      let slot ← appendInstance c form
      storeProperty slot name encode
      return .uid slot : Builder Tree).run a = .ok node b) :
    ∃ d part e, encode.run d = .ok part e := by
  obtain ⟨slot, _, -, h⟩ := exists_of_run_bind_eq_ok h
  obtain ⟨_, _, hstore, -⟩ := exists_of_run_bind_eq_ok h
  obtain ⟨_, d, -, hstore⟩ := exists_of_run_bind_eq_ok hstore
  obtain ⟨part, e, hencode, -⟩ := exists_of_run_bind_eq_ok hstore
  exact ⟨d, part, e, hencode⟩

/-- **What is stored fits**, as long as nothing is copied into it. -/
theorem fitsWithin_of_encodeValue {node : Tree} (hv : v.sources = [])
    (h : (encodeValue levels v).run a = .ok node b) : v.FitsWithin levels := by
  induction levels generalizing v a b node with
  | zero => cases h
  | succ levels ih =>
    cases v with
    | integer value => exact .integer
    | inlineString text => exact .inlineString
    | inlineTree tree => exact .inlineTree
    | data bytes => exact .data
    | integerObject value => exact .integerObject
    | boolean value => exact .boolean
    | real value => exact .real
    | string text => exact .string
    | nsString form text =>
      obtain ⟨_, _, _, htext⟩ := exists_of_run_property_eq_ok h
      exact .nsString (ih rfl htext)
    | nsDate seconds =>
      obtain ⟨_, _, _, hseconds⟩ := exists_of_run_property_eq_ok h
      exact .nsDate (ih rfl hseconds)
    | nsData form bytes =>
      obtain ⟨_, _, _, hbytes⟩ := exists_of_run_property_eq_ok h
      exact .nsData (ih rfl hbytes)
    | nsArray form items =>
      rw [ArchiveValue.sources_nsArray, List.flatMap_eq_nil_iff] at hv
      obtain ⟨_, _, -, h⟩ := exists_of_run_bind_eq_ok h
      obtain ⟨_, _, hitems, -⟩ := exists_of_run_bind_eq_ok h
      refine .nsArray fun item hitem => ?_
      obtain ⟨_, _, _, hstored⟩ := exists_of_run_mapM_eq_ok hitems item hitem
      exact ih (hv item hitem) hstored
    | nsDictionary form entries =>
      rw [ArchiveValue.sources_nsDictionary, List.flatMap_eq_nil_iff] at hv
      obtain ⟨_, _, -, h⟩ := exists_of_run_bind_eq_ok h
      obtain ⟨_, _, hentries, -⟩ := exists_of_run_bind_eq_ok h
      have hpairs := exists_of_run_mapM_eq_ok hentries
      refine .nsDictionary (fun e he => ?_) fun e he => ?_
      · obtain ⟨_, _, _, hpair⟩ := hpairs e he
        obtain ⟨_, _, hkey, -⟩ := exists_of_run_bind_eq_ok hpair
        exact ih rfl hkey
      · obtain ⟨_, _, _, hpair⟩ := hpairs e he
        obtain ⟨_, _, -, hpair⟩ := exists_of_run_bind_eq_ok hpair
        obtain ⟨_, _, hvalue, -⟩ := exists_of_run_bind_eq_ok hpair
        exact ih (hv e he) hvalue
    | nsUrl base relative => exact .nsUrl
    | nsKeyedArchive source => cases hv
    | fromPlist tree =>
      rw [encodeValue] at h
      cases htree : ArchiveValue.ofTree tree with
      | error e => rw [htree] at h; cases h
      | ok value =>
        rw [htree] at h
        have hvalue := ih (ArchiveValue.sources_ofTree htree) h
        exact .fromPlist htree hvalue.succ

/-- An archive that can be flattened fits, for flattening begins with all levels. -/
theorem fitsWithin_of_flatten {source : Archive} {w : Tree} (h : source.flatten = .ok w) :
    (ArchiveValue.nsKeyedArchive source).FitsWithin (maxDepth + 1) := by
  obtain ⟨slot, hslot, h⟩ := exists_of_bind_eq_ok h
  rw [orFail_eq_ok_iff] at hslot
  refine .nsKeyedArchive fun other hother => ?_
  obtain rfl := Option.some.inj (hslot.symm.trans hother)
  exact settles_of_resolves h

end Stored

end Archive

end PlistCodec
