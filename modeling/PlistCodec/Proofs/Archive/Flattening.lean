import PlistCodec.Archive.Flatten
import PlistCodec.Proofs.Archive.Copying

/-!
# Flattening an instance

What the object in a slot stands for depends on the object, on the name of its class and on what its
properties lead to, and on nothing else in the archive.  For each class that can be flattened there
is one statement here: given the properties of an instance and what these stand for, it says what
the instance stands for.
-/

namespace PlistCodec.Archive

/-! ## Objects in their slots -/

section Slots

variable {a : Archive} {levels slot : Nat}

theorem object_of_find? {object : Tree} (h : a.find? slot = some object) :
    a.object slot = .ok object := by
  cases hobject : a.object slot with
  | error e =>
    rw [find?, hobject] at h
    cases h
  | ok other =>
    rw [find?_eq_some_of_object hobject] at h
    cases h
    rfl

theorem object_eq_ok_iff_find? {object : Tree} :
    a.object slot = .ok object ↔ a.find? slot = some object :=
  ⟨find?_eq_some_of_object, object_of_find?⟩

theorem instanceAt_eq_ok_iff_find? {entries : Dict Tree} :
    a.instanceAt slot = .ok entries ↔ a.find? slot = some (.dict entries) := by
  constructor
  · intro h
    obtain ⟨object, hobject, h⟩ := exists_of_bind_eq_ok h
    rw [← Tree.dict?_eq_some_iff.mp (orFail_eq_ok_iff.mp h)]
    exact find?_eq_some_of_object hobject
  · intro h
    rw [instanceAt, object_of_find? h]
    rfl

/-- The kinds of objects that stand for themselves. -/
def Primitive : Tree → Prop
  | .bool _ => True
  | .int _ => True
  | .real _ => True
  | .string _ => True
  | .data _ => True
  | _ => False

theorem flattenWithin_of_primitive {object : Tree} (h : a.find? slot = some object)
    (hobject : Primitive object) : a.flattenWithin (levels + 1) slot = .ok object := by
  rw [flattenWithin, object_of_find? h]
  cases object with
  | date value => cases hobject
  | uid slot => cases hobject
  | array items => cases hobject
  | dict entries => cases hobject
  | _ => rfl

end Slots

/-! ## Instances of a class -/

section Instances

variable {a : Archive} {levels slot : Nat} {c : ObjectClass} {entries : Dict Tree}

theorem ofName?_formName (c : ObjectClass) (form : Mutability) :
    ObjectClass.ofName? (c.formName form) = some c := by
  cases c <;> cases form <;> rfl

/-- The object in the slot is an instance of the class, with the entries given. -/
structure IsInstance (a : Archive) (slot : Nat) (c : ObjectClass) (entries : Dict Tree) :
    Prop where
  /-- The slot holds these entries. -/
  find?_eq : a.find? slot = some (.dict entries)
  /-- They lead to a name of the class. -/
  classname?_eq : ∃ form, a.classname? slot = some (c.formName form)

/-- An instance refers to the description of its class, in any slot but the first. -/
theorem isInstance_of_find? {description : Nat} {form : Mutability}
    (hslot : a.find? slot = some (.dict entries))
    (hclass : entries.get? classKey = some (.uid description)) (hne : description ≠ 0)
    (hdescription : a.find? description
      = some (classDescription (c.formName form) (c.ancestors form))) :
    a.IsInstance slot c entries := by
  refine ⟨hslot, form, ?_⟩
  rw [classname?, instanceAt, object_of_find? hslot]
  simp only [instanceAt, object_of_find? hdescription, bind, Except.bind, orFail, Tree.dict?,
    Except.toOption, Option.bind, hclass, Tree.uid?, classDescription]
  rw [if_neg hne]
  rfl

theorem IsInstance.flattenWithin_succ (h : a.IsInstance slot c entries) :
    a.flattenWithin (levels + 1) slot = a.flattenInstance (a.flattenWithin levels) slot c := by
  obtain ⟨hslot, form, hname⟩ := h
  rw [flattenWithin, object_of_find? hslot]
  simp only [bind, Except.bind, hname, orFail, ofName?_formName]

theorem IsInstance.property_eq (h : a.IsInstance slot c entries) {name : String} {value : Tree}
    (hvalue : entries.get? name = some value) : a.property slot name = .ok value := by
  rw [property, property?, instanceAt, object_of_find? h.find?_eq]
  simp only [bind, Except.bind, orFail, Tree.dict?, Except.toOption, Option.bind, hvalue]

theorem IsInstance.listProperty_eq (h : a.IsInstance slot c entries) {name : String}
    {nodes : List Tree} (hnodes : entries.get? name = some (.array nodes)) :
    a.listProperty slot name = .ok nodes := by
  rw [listProperty, h.property_eq hnodes]
  rfl

/-- The node stands for the tree, if references may lead `levels` deep. -/
def Resolves (a : Archive) (levels : Nat) (node value : Tree) : Prop :=
  resolve (a.flattenWithin levels) node = .ok value

/-- A node that is no reference stands for itself. -/
theorem resolves_inline {node : Tree} (h : node.uid? = none) : a.Resolves levels node node := by
  cases node with
  | uid slot => cases h
  | _ => rfl

/-- A string object has a property that stands for its text. -/
theorem IsInstance.flatten_string (h : a.IsInstance slot .string entries) {node : Tree}
    {text : String} (hnode : entries.get? stringKey = some node)
    (htext : a.Resolves levels node (.string text)) :
    a.flattenWithin (levels + 1) slot = .ok (.string text) := by
  rw [h.flattenWithin_succ, flattenInstance, h.property_eq hnode]
  rw [Resolves] at htext
  simp only [bind, Except.bind, htext]
  rfl

theorem IsInstance.flatten_data (h : a.IsInstance slot .data entries) {node : Tree} {bytes : Bytes}
    (hnode : entries.get? dataKey = some node) (hbytes : a.Resolves levels node (.data bytes)) :
    a.flattenWithin (levels + 1) slot = .ok (.data bytes) := by
  rw [h.flattenWithin_succ, flattenInstance, h.property_eq hnode]
  rw [Resolves] at hbytes
  simp only [bind, Except.bind, hbytes]
  rfl

theorem IsInstance.flatten_date (h : a.IsInstance slot .date entries) {node : Tree}
    {seconds : Binary64} {date : Date} (hnode : entries.get? timeKey = some node)
    (hseconds : a.Resolves levels node (.real seconds))
    (hdate : Date.ofReferenceSeconds? seconds = some date) :
    a.flattenWithin (levels + 1) slot = .ok (.date date) := by
  rw [h.flattenWithin_succ, flattenInstance, h.property_eq hnode]
  rw [Resolves] at hseconds
  simp only [bind, Except.bind, hseconds, hdate]
  rfl

/-- An array object stands for what its items stand for. -/
theorem IsInstance.flatten_array (h : a.IsInstance slot .array entries) {nodes values : List Tree}
    (hnodes : entries.get? itemsKey = some (.array nodes))
    (hvalues : List.Forall₂ (a.Resolves levels) nodes values) :
    a.flattenWithin (levels + 1) slot = .ok (.array values) := by
  rw [h.flattenWithin_succ, flattenInstance, h.listProperty_eq hnodes]
  simp only [bind, Except.bind, mapM_eq_ok_of_forall₂ hvalues]
  rfl

/-- Keys and values are inserted one after the other. -/
theorem resolveEntries_eq_ok {nodes : List (Tree × Tree)} {values : List (String × Tree)}
    (h : List.Forall₂ (fun n e => a.Resolves levels n.1 (.string e.1) ∧ a.Resolves levels n.2 e.2)
      nodes values) :
    resolveEntries (a.flattenWithin levels) nodes = .ok (Dict.ofList values) := by
  refine foldlM_eq_ok_of_forall₂ (h.imp ?_) []
  rintro ⟨keyNode, valueNode⟩ e ⟨hkey, hvalue⟩ d
  rw [Resolves] at hkey hvalue
  simp only [bind, Except.bind, hkey, hvalue]
  rfl

theorem IsInstance.flatten_dictionary (h : a.IsInstance slot .dictionary entries)
    {nodes : List (Tree × Tree)} {values : List (String × Tree)}
    (hkeys : entries.get? keysKey = some (.array (nodes.map Prod.fst)))
    (hitems : entries.get? itemsKey = some (.array (nodes.map Prod.snd)))
    (hvalues : List.Forall₂ (fun n e => a.Resolves levels n.1 (.string e.1) ∧
      a.Resolves levels n.2 e.2) nodes values) :
    a.flattenWithin (levels + 1) slot = .ok (.dict (Dict.ofList values)) := by
  have hlength : (nodes.map Prod.fst).length = (nodes.map Prod.snd).length := by
    rw [List.length_map, List.length_map]
  have hzip : (nodes.map Prod.fst).zip (nodes.map Prod.snd) = nodes :=
    (List.zip_of_prod rfl rfl).symm
  rw [h.flattenWithin_succ, flattenInstance, h.listProperty_eq hkeys, h.listProperty_eq hitems]
  simp only [bind, Except.bind, hlength, if_true, hzip, resolveEntries_eq_ok hvalues]
  rfl

end Instances

end PlistCodec.Archive
