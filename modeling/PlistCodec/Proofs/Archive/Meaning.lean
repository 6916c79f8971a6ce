import PlistCodec.Proofs.Archive.DefaultRoot
import PlistCodec.Proofs.Archive.Providing

/-!
# What an archived value means

`ArchiveValue.meaning?` is the property list that a value is meant to be, for the kinds of values
that flattening knows.  A value that has been stored as the root object of an archive is flattened
to its meaning (`flatten_appendRoot`).

Storing and flattening count levels of nesting each on its own, the one as it appends objects and
the other as it follows references, and storing never counts fewer.  So the statement that carries
the induction is about as many levels on both sides: a node that is stored within some levels
*stands for* the meaning of the value within as many (`encodeValue_storesAs`).  It does so in every
table that has the new objects in their slots; objects that are appended later, or properties that
an instance in front of them gets, do not matter.
-/

namespace PlistCodec

namespace ArchiveValue

mutual

/-- The property list that a value means, if the value is of a kind that can be flattened.  Scalars
mean themselves, wherever they are stored, and so do property lists stored in place unless they are
references.  The texts, bytes, dates and lists of objects of a class mean those; of a dictionary
object, the entries are inserted in order. -/
def meaning? : ArchiveValue → Option Tree
  | .integer value => some (.int value)
  | .integerObject value => some (.int value)
  | .boolean value => some (.bool value)
  | .real value => some (.real value)
  | .inlineString text => some (.string text)
  | .string text => some (.string text)
  | .nsString _ text => some (.string text)
  | .data bytes => some (.data bytes)
  | .nsData _ bytes => some (.data bytes)
  | .inlineTree tree => if tree.uid?.isSome then none else some tree
  | .nsDate seconds => (Date.ofReferenceSeconds? seconds).map .date
  | .nsArray _ items => (itemMeanings? items).map .array
  | .nsDictionary _ entries => (entryMeanings? entries).map fun es => .dict (Dict.ofList es)
  | _ => none
termination_by structural v => v

/-- The meanings of the values of a list. -/
def itemMeanings? : List ArchiveValue → Option (List Tree)
  | [] => some []
  | v :: vs => do return (← v.meaning?) :: (← itemMeanings? vs)
termination_by structural vs => vs

/-- The meanings of the values of entries, under their keys. -/
def entryMeanings? : List (String × ArchiveValue) → Option (List (String × Tree))
  | [] => some []
  | (key, v) :: es => do return (key, ← v.meaning?) :: (← entryMeanings? es)
termination_by structural es => es

end

theorem forall₂_of_itemMeanings? {items : List ArchiveValue} {ws : List Tree}
    (h : itemMeanings? items = some ws) :
    List.Forall₂ (fun v w => v.meaning? = some w) items ws := by
  induction items generalizing ws with
  | nil => cases h; exact .nil
  | cons v vs ih =>
    obtain ⟨w, hw, h⟩ := Option.bind_eq_some_iff.mp h
    obtain ⟨rest, hrest, h⟩ := Option.bind_eq_some_iff.mp h
    cases h
    exact .cons hw (ih hrest)

theorem forall₂_of_entryMeanings? {entries : List (String × ArchiveValue)}
    {ws : List (String × Tree)} (h : entryMeanings? entries = some ws) :
    List.Forall₂ (fun e w => e.1 = w.1 ∧ e.2.meaning? = some w.2) entries ws := by
  induction entries generalizing ws with
  | nil => cases h; exact .nil
  | cons e es ih =>
    obtain ⟨key, v⟩ := e
    obtain ⟨w, hw, h⟩ := Option.bind_eq_some_iff.mp h
    obtain ⟨rest, hrest, h⟩ := Option.bind_eq_some_iff.mp h
    cases h
    exact .cons ⟨rfl, hw⟩ (ih hrest)

end ArchiveValue

namespace Archive

/-! ## Nodes that stand for property lists -/

/-- With the string of slot 0 there, and the objects `new` in the slots from `first` on, the node
stands for the value, whatever else the archive holds. -/
def StandsFor (levels first : Nat) (new : List Tree) (node value : Tree) : Prop :=
  Holds (fun c node => c.Resolves levels node value) first new node

/-- If the computation succeeds, the node that it yields stands for the value. -/
def StoresAs (levels : Nat) (value : Tree) (m : Builder Tree) (a : Archive) : Prop :=
  Provides (fun first new node => StandsFor levels first new node value) m a

section Storing

variable {levels : Nat} {a : Archive}

/-- A node that is no reference stands for itself. -/
theorem storesAs_inline {node : Tree} (ha : HasTable a) (h : node.uid? = none) :
    StoresAs levels node (pure node) a :=
  provides_pure ha fun _ _ _ => resolves_inline h

theorem storesAs_appendObject {object : Tree} (ha : HasTable a) (h : Primitive object) :
    StoresAs (levels + 1) object (do return .uid (← appendObject object)) a :=
  provides_appendObject ha fun hobject => flattenWithin_of_primitive hobject h

end Storing

/-! ## Storing a value -/

/-- **Storing a value.**  If it succeeds, the node that is yielded stands for what the value
means. -/
theorem encodeValue_storesAs {levels : Nat} {a : Archive} {v : ArchiveValue} {w : Tree}
    (hv : v.meaning? = some w) (ha : HasTable a) : StoresAs levels w (encodeValue levels v) a := by
  induction levels generalizing a v w with
  | zero => exact provides_throw
  | succ levels ih =>
    cases v with
    | integer value => cases hv; exact storesAs_inline ha rfl
    | inlineString text => cases hv; exact storesAs_inline ha rfl
    | data bytes => cases hv; exact storesAs_inline ha rfl
    | inlineTree tree =>
      rw [ArchiveValue.meaning?] at hv
      split at hv
      · cases hv
      case isFalse huid =>
        cases hv
        exact storesAs_inline ha (Option.not_isSome_iff_eq_none.mp huid)
    | integerObject value => cases hv; exact storesAs_appendObject ha trivial
    | boolean value => cases hv; exact storesAs_appendObject ha trivial
    | real value => cases hv; exact storesAs_appendObject ha trivial
    | string text =>
      cases hv
      exact provides_encodeString ha fun htext => flattenWithin_of_primitive htext trivial
    | nsString form text =>
      cases hv
      exact provides_property (by decide) (fun b hb => ih rfl hb)
        (fun hinstance => hinstance.flatten_string) ha
    | nsData form bytes =>
      cases hv
      exact provides_property (by decide) (fun b hb => ih rfl hb)
        (fun hinstance => hinstance.flatten_data) ha
    | nsDate seconds =>
      obtain ⟨date, hdate, rfl⟩ := Option.map_eq_some_iff.mp hv
      exact provides_property (by decide) (fun b hb => ih rfl hb)
        (fun hinstance hnode hseconds => hinstance.flatten_date hnode hseconds hdate) ha
    | nsArray form items =>
      obtain ⟨values, hvalues, rfl⟩ := Option.map_eq_some_iff.mp hv
      have hitems := ArchiveValue.forall₂_of_itemMeanings? hvalues
      exact provides_items (hitems.imp fun _ _ hv b hb => ih hv hb)
        (fun hinstance hnodes hvalues => hinstance.flatten_array hnodes hvalues) ha
    | nsDictionary form entries =>
      obtain ⟨values, hvalues, rfl⟩ := Option.map_eq_some_iff.mp hv
      have hentries := ArchiveValue.forall₂_of_entryMeanings? hvalues
      have hpairs : List.Forall₂ (fun e w =>
          (∀ b, HasTable b → StoresAs levels (.string w.1) (encodeValue levels (.string e.1)) b) ∧
          ∀ b, HasTable b → StoresAs levels w.2 (encodeValue levels e.2) b) entries values := by
        refine hentries.imp fun e w h => ⟨fun b hb => ?_, fun b hb => ih h.2 hb⟩
        rw [h.1]
        exact ih rfl hb
      exact provides_entries hpairs
        (fun hinstance hkeys hitems hvalues => hinstance.flatten_dictionary hkeys hitems hvalues) ha
    | nsUrl base relative => cases hv
    | nsKeyedArchive source => cases hv
    | fromPlist tree => cases hv

/-! ## Building and flattening -/

/-- Naming root objects moves no objects. -/
theorem StandsFor.resolves_withTop {levels first : Nat} {new : List Tree} {node value : Tree}
    {a : Archive} (h : StandsFor levels first new node value)
    (hnull : a.find? 0 = some (.string nullText)) (hfinds : Finds a.find? first new)
    (top : Dict Tree) : (a.withTop top).Resolves levels node value :=
  h (a.withTop top) (by rw [find?_withTop, hnull]) fun i hi => by rw [find?_withTop, hfinds i hi]

/-- **Building and flattening.**  If a value that means something is stored as the first root object
of an archive that calls have made of the new one, the archive is flattened to what it means. -/
theorem flatten_appendRoot {a b : Archive} {v : ArchiveValue} {w : Tree}
    (ha : Reached (· = new) (fun _ _ => True) a) (htop : Dict.get? a.root topKey = none)
    (hv : v.meaning? = some w) (h : (appendRoot v).run a = .ok () b) : b.flatten = .ok w := by
  have hstart : ∀ a, a = new → HasTable a ∧ a.table[0]? = some (.string nullText) := by
    rintro _ rfl
    exact ⟨hasTable_new, rfl⟩
  have htable : HasTable a := hasTable_of_reached (fun a h => (hstart a h).1) ha
  have hnull : a.table[0]? = some (.string nullText) := getElem?_table_of_reached rfl hstart ha
  obtain ⟨-, slot, c, hencode, hroot⟩ := appendRoot_eq_ok h
  obtain ⟨objects, rfl, hnode⟩ := of_ends_of_run_ok (encodeValue_storesAs hv htable) hencode
  have hroots : (a.grown objects).roots = [] := by rw [roots_grown, roots, top?, htop]; rfl
  have hdefault : (a.grown objects).topUid? none = none := by rw [topUid?_none_eq, hroots]; rfl
  rcases hroot with ⟨hsome, -⟩ | ⟨-, hadd⟩
  · exact absurd hdefault hsome
  · obtain rfl := eq_withTop_of_run_addTop (htable.grown objects) hadd
    have hnull' : (a.grown objects).find? 0 = some (.string nullText) := by
      rw [(htable.grown objects).find?_eq, table_grown,
        List.getElem?_append_left (List.getElem?_eq_some_iff.mp hnull).1, hnull]
    have hresolves := hnode.resolves_withTop hnull' (htable.finds_grown objects)
      [(defaultTopKey, .uid slot)]
    rw [hroots, flatten, topUid?_withTop]
    exact hresolves

/-- A value that is in need of most of this: a text that is the one of slot 0, a key that occurs
twice, objects inside of objects, and nodes stored in place. -/
def nested : ArchiveValue :=
  .nsDictionary .mutable
    [("name", .nsString .fixed nullText), ("items", .nsArray .fixed [.boolean true, .data [1, 2]]),
     ("name", .string nullText), ("date", .nsDate ⟨0x3FE0000000000000⟩),
     ("tree", .inlineTree (.array [.uid 9, .int 1]))]

theorem flatten_appendRoot_nested :
    Reached (· = new) (fun _ _ => True) (new.after (.appendObject (.int 5))) ∧
    Dict.get? (new.after (.appendObject (.int 5))).root topKey = none ∧
    ∃ w, nested.meaning? = some w ∧
      ∃ b, (appendRoot nested).run (new.after (.appendObject (.int 5))) = .ok () b ∧
        b.flatten = .ok w := by
  have hreached : Reached (· = new) (fun _ _ => True) (new.after (.appendObject (.int 5))) :=
    .step (.initial rfl) trivial
  have hmeaning : ∃ w, nested.meaning? = some w :=
    Option.isSome_iff_exists.mp (by decide +kernel)
  have hrun : ∃ b, (appendRoot nested).run (new.after (.appendObject (.int 5))) = .ok () b :=
    ⟨_, rfl⟩
  obtain ⟨w, hw⟩ := hmeaning
  obtain ⟨b, hb⟩ := hrun
  exact ⟨hreached, rfl, w, hw, b, hb, flatten_appendRoot hreached rfl hw hb⟩

end Archive

end PlistCodec
