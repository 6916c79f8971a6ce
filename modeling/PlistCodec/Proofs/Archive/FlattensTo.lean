import PlistCodec.Proofs.Archive.Flattening

/-!
# Flattening as a relation

`FlattensTo a levels slot v` says, one rule for each kind of object, when the object in a slot
stands for the property list `v`, where the nodes in the object may lead `levels` deep.  The rules
are all that flattening does (`flattenWithin_succ_eq_ok_iff`): what it succeeds on is an object that
stands for itself, or an instance of a class whose properties stand for what the class asks for.
A proof that takes a flattening apart takes these cases, and not the failures in between.
-/

namespace PlistCodec.Archive

/-! ## The name of a class -/

theorem ObjectClass.ofName?_eq_some {name : String} {c : ObjectClass} (h : ofName? name = some c) :
    ∃ form, name = c.formName form := by
  have hname := List.find?_some h
  simp only [Bool.or_eq_true, decide_eq_true_eq] at hname
  rcases hname with rfl | hname
  · exact ⟨.fixed, rfl⟩
  · exact ⟨.mutable, by rw [formName, ← hname]; rfl⟩

section Names

variable {a : Archive} {slot : Nat}

/-- The name of an instance is the one in the description of its class. -/
theorem classname?_eq_some_iff {entries : Dict Tree} (hslot : a.find? slot = some (.dict entries))
    {name : String} :
    a.classname? slot = some name ↔ ∃ (place : Nat) (description : Dict Tree),
      entries.get? classKey = some (.uid place) ∧ place ≠ 0 ∧
      a.find? place = some (.dict description) ∧
      description.get? classnameKey = some (.string name) := by
  rw [classname?, instanceAt_eq_ok_iff_find?.mpr hslot]
  constructor
  · intro h
    obtain ⟨_, ⟨⟩, h⟩ := Option.bind_eq_some_iff.mp h
    obtain ⟨node, hnode, h⟩ := Option.bind_eq_some_iff.mp h
    obtain ⟨place, hplace, h⟩ := Option.bind_eq_some_iff.mp h
    rw [Tree.uid?_eq_some_iff.mp hplace] at hnode
    by_cases hzero : place = 0
    · rw [if_pos hzero] at h
      cases h
    · rw [if_neg hzero] at h
      obtain ⟨description, hdescription, h⟩ := Option.bind_eq_some_iff.mp h
      obtain ⟨text, htext, h⟩ := Option.bind_eq_some_iff.mp h
      have hok : a.instanceAt place = .ok description := by
        cases hinstance : a.instanceAt place with
        | error e => rw [hinstance] at hdescription; cases hdescription
        | ok found => rw [hinstance] at hdescription; cases hdescription; rfl
      refine ⟨place, description, hnode, hzero, instanceAt_eq_ok_iff_find?.mp hok, ?_⟩
      rw [htext, Tree.string?_eq_some_iff.mp h]
  · rintro ⟨place, description, hnode, hzero, hdescription, hname⟩
    rw [← instanceAt_eq_ok_iff_find?] at hdescription
    simp only [bind, Except.toOption, Option.bind, hnode, Tree.uid?, if_neg hzero, hdescription,
      hname, Tree.string?]

end Names

/-! ## Properties -/

section Properties

variable {a : Archive} {slot : Nat} {c : ObjectClass} {entries : Dict Tree}

theorem IsInstance.property_eq_ok_iff (h : a.IsInstance slot c entries) {name : String}
    {value : Tree} : a.property slot name = .ok value ↔ entries.get? name = some value := by
  rw [property, orFail_eq_ok_iff, property?, instanceAt_eq_ok_iff_find?.mpr h.find?_eq]
  rfl

theorem IsInstance.listProperty_eq_ok_iff (h : a.IsInstance slot c entries) {name : String}
    {nodes : List Tree} :
    a.listProperty slot name = .ok nodes ↔ entries.get? name = some (.array nodes) := by
  refine ⟨fun hnodes => ?_, h.listProperty_eq⟩
  obtain ⟨value, hvalue, hnodes⟩ := exists_of_bind_eq_ok hnodes
  rw [h.property_eq_ok_iff.mp hvalue, Tree.array?_eq_some_iff.mp (orFail_eq_ok_iff.mp hnodes)]

/-- Where keys and values are put together, each of them has been resolved. -/
theorem exists_of_resolveEntries_eq_ok {levels : Nat} {nodes : List (Tree × Tree)} {d : Dict Tree}
    (h : resolveEntries (a.flattenWithin levels) nodes = .ok d) :
    ∃ values, d = Dict.ofList values ∧ List.Forall₂ (fun n e =>
      a.Resolves levels n.1 (.string e.1) ∧ a.Resolves levels n.2 e.2) nodes values := by
  refine exists_of_foldlM_eq_ok ?_ h
  rintro d ⟨keyNode, valueNode⟩ next hnext
  obtain ⟨resolved, hkey, hnext⟩ := exists_of_bind_eq_ok hnext
  obtain ⟨key, hstring, hnext⟩ := exists_of_bind_eq_ok hnext
  obtain ⟨value, hvalue, hnext⟩ := exists_of_bind_eq_ok hnext
  rw [Tree.string?_eq_some_iff.mp (orFail_eq_ok_iff.mp hstring)] at hkey
  cases hnext
  exact ⟨(key, value), rfl, hkey, hvalue⟩

end Properties

/-! ## The rules -/

/-- The object in the slot stands for a property list, if the nodes in it may lead `levels` deep. -/
inductive FlattensTo (a : Archive) (levels slot : Nat) : Tree → Prop where
  /-- A scalar stands for itself. -/
  | primitive {object : Tree} (hobject : a.find? slot = some object) (h : Primitive object) :
    FlattensTo a levels slot object
  /-- A string object stands for its text. -/
  | string {entries : Dict Tree} {node : Tree} {text : String}
    (h : a.IsInstance slot .string entries) (hnode : entries.get? stringKey = some node)
    (htext : a.Resolves levels node (.string text)) : FlattensTo a levels slot (.string text)
  /-- A data object stands for its bytes. -/
  | data {entries : Dict Tree} {node : Tree} {bytes : Bytes}
    (h : a.IsInstance slot .data entries) (hnode : entries.get? dataKey = some node)
    (hbytes : a.Resolves levels node (.data bytes)) : FlattensTo a levels slot (.data bytes)
  /-- A date object stands for the date that its seconds lead to. -/
  | date {entries : Dict Tree} {node : Tree} {seconds : Binary64} {date : Date}
    (h : a.IsInstance slot .date entries) (hnode : entries.get? timeKey = some node)
    (hseconds : a.Resolves levels node (.real seconds))
    (hdate : Date.ofReferenceSeconds? seconds = some date) : FlattensTo a levels slot (.date date)
  /-- An array object stands for what its items stand for. -/
  | array {entries : Dict Tree} {nodes values : List Tree}
    (h : a.IsInstance slot .array entries) (hnodes : entries.get? itemsKey = some (.array nodes))
    (hvalues : List.Forall₂ (a.Resolves levels) nodes values) :
    FlattensTo a levels slot (.array values)
  /-- A dictionary object stands for what its keys and values stand for, inserted in order. -/
  | dictionary {entries : Dict Tree} {nodes : List (Tree × Tree)} {values : List (String × Tree)}
    (h : a.IsInstance slot .dictionary entries)
    (hkeys : entries.get? keysKey = some (.array (nodes.map Prod.fst)))
    (hitems : entries.get? itemsKey = some (.array (nodes.map Prod.snd)))
    (hvalues : List.Forall₂ (fun n e => a.Resolves levels n.1 (.string e.1) ∧
      a.Resolves levels n.2 e.2) nodes values) :
    FlattensTo a levels slot (.dict (Dict.ofList values))

section Rules

variable {a : Archive} {levels slot : Nat} {v : Tree}

/-- What an instance of a class stands for, by the rule for its class. -/
theorem IsInstance.flattensTo {c : ObjectClass} {entries : Dict Tree}
    (h : a.IsInstance slot c entries)
    (hv : a.flattenInstance (a.flattenWithin levels) slot c = .ok v) :
    FlattensTo a levels slot v := by
  cases c with
  | string =>
    obtain ⟨node, hnode, hv⟩ := exists_of_bind_eq_ok hv
    obtain ⟨value, hvalue, hv⟩ := exists_of_bind_eq_ok hv
    cases value with
    | string text => cases hv; exact .string h (h.property_eq_ok_iff.mp hnode) hvalue
    | _ => cases hv
  | data =>
    obtain ⟨node, hnode, hv⟩ := exists_of_bind_eq_ok hv
    obtain ⟨value, hvalue, hv⟩ := exists_of_bind_eq_ok hv
    cases value with
    | data bytes => cases hv; exact .data h (h.property_eq_ok_iff.mp hnode) hvalue
    | _ => cases hv
  | date =>
    obtain ⟨node, hnode, hv⟩ := exists_of_bind_eq_ok hv
    obtain ⟨value, hvalue, hv⟩ := exists_of_bind_eq_ok hv
    cases value with
    | real seconds =>
      simp only at hv
      cases hdate : Date.ofReferenceSeconds? seconds with
      | none => rw [hdate] at hv; cases hv
      | some date =>
        rw [hdate] at hv
        cases hv
        exact .date h (h.property_eq_ok_iff.mp hnode) hvalue hdate
    | _ => cases hv
  | array =>
    obtain ⟨nodes, hnodes, hv⟩ := exists_of_bind_eq_ok hv
    obtain ⟨values, hvalues, hv⟩ := exists_of_bind_eq_ok hv
    cases hv
    exact .array h (h.listProperty_eq_ok_iff.mp hnodes) (forall₂_of_mapM_eq_ok hvalues)
  | dictionary =>
    obtain ⟨keys, hkeys, hv⟩ := exists_of_bind_eq_ok hv
    obtain ⟨items, hitems, hv⟩ := exists_of_bind_eq_ok hv
    by_cases hlength : keys.length = items.length
    · rw [if_pos hlength] at hv
      obtain ⟨d, hd, hv⟩ := exists_of_bind_eq_ok hv
      cases hv
      obtain ⟨values, rfl, hvalues⟩ := exists_of_resolveEntries_eq_ok hd
      rw [h.listProperty_eq_ok_iff] at hkeys hitems
      refine .dictionary h ?_ ?_ hvalues
      · rw [hkeys, List.map_fst_zip (Nat.le_of_eq hlength)]
      · rw [hitems, List.map_snd_zip (Nat.le_of_eq hlength.symm)]
    · rw [if_neg hlength] at hv
      cases hv
  | url => cases hv

/-- **The rules are all that flattening does.** -/
theorem flattenWithin_succ_eq_ok_iff :
    a.flattenWithin (levels + 1) slot = .ok v ↔ FlattensTo a levels slot v := by
  constructor
  · intro h
    obtain ⟨object, hobject, hv⟩ := exists_of_bind_eq_ok (by rwa [flattenWithin] at h)
    have hfind := find?_eq_some_of_object hobject
    cases object with
    | dict entries =>
      obtain ⟨name, hname, hv⟩ := exists_of_bind_eq_ok hv
      obtain ⟨c, hc, hv⟩ := exists_of_bind_eq_ok hv
      obtain ⟨form, hform⟩ := ObjectClass.ofName?_eq_some (orFail_eq_ok_iff.mp hc)
      rw [orFail_eq_ok_iff, hform] at hname
      exact IsInstance.flattensTo ⟨hfind, form, hname⟩ hv
    | date value => cases hv
    | uid slot => cases hv
    | array items => cases hv
    | _ => cases hv; exact .primitive hfind trivial
  · intro h
    cases h with
    | primitive hobject h => exact flattenWithin_of_primitive hobject h
    | string h hnode htext => exact h.flatten_string hnode htext
    | data h hnode hbytes => exact h.flatten_data hnode hbytes
    | date h hnode hseconds hdate => exact h.flatten_date hnode hseconds hdate
    | array h hnodes hvalues => exact h.flatten_array hnodes hvalues
    | dictionary h hkeys hitems hvalues => exact h.flatten_dictionary hkeys hitems hvalues

end Rules

end PlistCodec.Archive
