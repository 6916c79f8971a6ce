import PlistCodec.Proofs.Archive.Flattening

/-!
# What is stored, wherever it is stored

What a stored node is good for depends on the objects that were appended for it and on slot 0, and
on nothing else in the archive: objects that are appended later, or properties that an instance in
front of them gets, do not matter.  `Provides good m a` says of a computation that what it yields is
`good` in this sense, if it yields anything.  The statements here put such computations together as
archived values are put together: scalars, instances with one property, lists of items, and
entries.  What is to be shown of a kind of instance is left to the caller, who gets the instance
with its properties and says what these make it good for.
-/

namespace PlistCodec.Archive

/-! ## Properties of stored nodes -/

/-- With the string of slot 0 there, and the objects `new` in the slots from `first` on, `P` is true
of the node, whatever else the archive holds. -/
def Holds (P : Archive → Tree → Prop) (first : Nat) (new : List Tree) (node : Tree) : Prop :=
  ∀ c : Archive, c.find? 0 = some (.string nullText) → Finds c.find? first new → P c node

/-- What is good with some objects is good with more objects around them. -/
structure Stable {β : Type} (good : Nat → List Tree → β → Prop) : Prop where
  /-- Objects behind those that matter. -/
  left : ∀ {first new more y}, good first new y → good first (new ++ more) y
  /-- Objects in front of those that matter. -/
  right : ∀ {first : Nat} {new more : List Tree} {y : β}, good (first + new.length) more y →
    good first (new ++ more) y

theorem stable_holds {P : Archive → Tree → Prop} : Stable (Holds P) where
  left h c hnull hfinds := h c hnull hfinds.left
  right h c hnull hfinds := h c hnull hfinds.right

/-- A key and a value, in two nodes. -/
def PairHolds (P Q : Archive → Tree → Prop) (first : Nat) (new : List Tree) (nodes : Tree × Tree) :
    Prop :=
  Holds P first new nodes.1 ∧ Holds Q first new nodes.2

theorem stable_pairHolds {P Q : Archive → Tree → Prop} : Stable (PairHolds P Q) where
  left h := ⟨stable_holds.left h.1, stable_holds.left h.2⟩
  right h := ⟨stable_holds.right h.1, stable_holds.right h.2⟩

/-- If the computation succeeds, it has appended objects to the archive and yields something that
is `good` with these objects in their slots. -/
def Provides {β : Type} (good : Nat → List Tree → β → Prop) (m : Builder β) (a : Archive) : Prop :=
  Ends m a (fun y b => ∃ new, b = a.grown new ∧ good (a.lastUid + 1) new y) fun _ => True

section Providing

variable {β : Type} {good : Nat → List Tree → β → Prop} {P : Archive → Tree → Prop} {a : Archive}

theorem Provides.mono {m : Builder β} {good' : Nat → List Tree → β → Prop} (h : Provides good m a)
    (hgood : ∀ first new y, good first new y → good' first new y) : Provides good' m a := by
  refine Ends.mono h ?_ fun _ htrue => htrue
  rintro y _ ⟨new, rfl, hy⟩
  exact ⟨new, rfl, hgood _ _ _ hy⟩

/-- Two things that are known of one computation: it has appended the same objects for both. -/
theorem Provides.and {m : Builder β} {good' : Nat → List Tree → β → Prop} (h : Provides good m a)
    (h' : Provides good' m a) :
    Provides (fun first new y => good first new y ∧ good' first new y) m a := by
  cases hrun : m.run a with
  | error e b => exact ends_of_run_error hrun trivial
  | ok y b =>
    obtain ⟨new, rfl, hy⟩ := of_ends_of_run_ok h hrun
    obtain ⟨new', hsame, hy'⟩ := of_ends_of_run_ok h' hrun
    obtain rfl := grown_inj hsame
    exact ends_of_run_ok hrun ⟨new, rfl, hy, hy'⟩

theorem provides_pure {y : β} (ha : HasTable a) (h : good (a.lastUid + 1) [] y) :
    Provides good (pure y) a :=
  ends_pure ⟨[], ha.grown_nil.symm, h⟩

theorem provides_throw {e : Error} : Provides good (throw e) a := ends_throw trivial

/-- An object in a slot of its own, and a reference to it. -/
theorem provides_appendObject {object : Tree} (ha : HasTable a)
    (h : ∀ {d : Archive} {slot : Nat}, d.find? slot = some object → P d (.uid slot)) :
    Provides (Holds P) (do return .uid (← appendObject object)) a :=
  ends_of_run_ok (run_bind_of_ok (ha.run_appendObject object))
    ⟨[object], rfl, fun _ _ hfinds => h hfinds.head⟩

/-- A text, which may be the one of slot 0. -/
theorem provides_encodeString {text : String} (ha : HasTable a)
    (h : ∀ {d : Archive} {slot : Nat}, d.find? slot = some (.string text) → P d (.uid slot)) :
    Provides (Holds P) (encodeString text) a := by
  rw [encodeString]
  by_cases htext : text = nullText
  · rw [if_pos htext]
    refine provides_pure ha fun d hnull _ => h ?_
    rw [hnull, htext]
  · rw [if_neg htext]
    exact provides_appendObject ha h

/-- Things that are stored one after the other. -/
theorem provides_mapM {α β γ : Type} {f : α → Builder β} {good : γ → Nat → List Tree → β → Prop}
    (hgood : ∀ w, Stable (good w)) {xs : List α} {ws : List γ}
    (h : List.Forall₂ (fun x w => ∀ b, HasTable b → Provides (good w) (f x) b) xs ws)
    (ha : HasTable a) :
    Provides (fun first new ys => List.Forall₂ (fun y w => good w first new y) ys ws)
      (xs.mapM f) a := by
  induction h generalizing a with
  | nil => exact ends_pure ⟨[], ha.grown_nil.symm, .nil⟩
  | @cons x w xs ws hx _ ih =>
    rw [List.mapM_cons]
    refine (hx a ha).bind ?_
    rintro y _ ⟨new, rfl, hy⟩
    refine (ih (ha.grown new)).bind ?_
    rintro ys _ ⟨more, rfl, hys⟩
    have hfirst : (a.grown new).lastUid + 1 = a.lastUid + 1 + new.length := by
      rw [lastUid_grown, Nat.add_right_comm]
    rw [hfirst] at hys
    refine ends_pure ⟨new ++ more, grown_grown a new more, ?_⟩
    exact .cons ((hgood w).left hy) (hys.imp fun y w hy => (hgood w).right hy)

end Providing

/-! ## Instances -/

/-- The entries of an instance whose class is described in the next slot. -/
def instanceEntries (slot : Nat) (properties : Dict Tree) : Dict Tree :=
  (classKey, .uid (slot + 1)) :: properties

theorem insert_instanceEntries {name : String} (hname : name ≠ classKey) (slot : Nat)
    (properties : Dict Tree) (value : Tree) :
    Dict.insert (instanceEntries slot properties) name value
      = instanceEntries slot (properties.insert name value) := by
  rw [instanceEntries, Dict.insert, if_neg hname.symm, instanceEntries]

theorem get?_instanceEntries {name : String} (hname : name ≠ classKey) (slot : Nat)
    (properties : Dict Tree) :
    Dict.get? (instanceEntries slot properties) name = properties.get? name := by
  rw [instanceEntries, Dict.get?, if_neg hname.symm]

/-- `P` is true of an instance with these properties, whatever else the archive holds beside the
string of slot 0 and the objects `more`, which come behind the description of the class. -/
def InstanceHolds (P : Archive → Tree → Prop) (slot : Nat) (c : ObjectClass)
    (properties : Dict Tree) (more : List Tree) : Prop :=
  ∀ d : Archive, d.find? 0 = some (.string nullText) →
    d.IsInstance slot c (instanceEntries slot properties) → Finds d.find? (slot + 2) more →
    P d (.uid slot)

theorem holds_instance {P : Archive → Tree → Prop} {first : Nat} {more : List Tree}
    {c : ObjectClass} {form : Mutability} {properties : Dict Tree}
    (h : InstanceHolds P first c properties more) :
    Holds P first (.dict (instanceEntries first properties) ::
      classDescription (c.formName form) (c.ancestors form) :: more) (.uid first) := by
  intro d hnull hfinds
  have hclass : Dict.get? (instanceEntries first properties) classKey = some (.uid (first + 1)) :=
    rfl
  have hinstance : d.IsInstance first c (instanceEntries first properties) :=
    isInstance_of_find? hfinds.head hclass (Nat.succ_ne_zero _) hfinds.tail.head
  exact h d hnull hinstance hfinds.tail.tail

/-- The archive with an instance behind its table, the description of the class behind it, and more
objects behind that. -/
def withInstance (a : Archive) (c : ObjectClass) (form : Mutability) (properties : Dict Tree)
    (more : List Tree) : Archive :=
  a.grown (.dict (instanceEntries (a.lastUid + 1) properties) ::
    classDescription (c.formName form) (c.ancestors form) :: more)

section Instances

variable {P : Archive → Tree → Prop} {a : Archive} {c : ObjectClass} {form : Mutability}

theorem withInstance_grown (properties : Dict Tree) (more new : List Tree) :
    (a.withInstance c form properties more).grown new
      = a.withInstance c form properties (more ++ new) :=
  grown_grown a _ _

theorem lastUid_withInstance (properties : Dict Tree) (more : List Tree) :
    (a.withInstance c form properties more).lastUid = a.lastUid + 2 + more.length := by
  rw [withInstance, lastUid_grown, List.length_cons, List.length_cons]
  omega

theorem formName_ne (c : ObjectClass) (form : Mutability) : c.formName form ≠ "" := by
  cases c <;> cases form <;> decide

theorem HasTable.run_appendInstance (ha : HasTable a) (c : ObjectClass) (form : Mutability) :
    (appendInstance c form).run a = .ok (a.lastUid + 1) (a.withInstance c form [] []) :=
  ha.run_appendClass _ (by simp [formName_ne])

theorem HasTable.withInstance (ha : HasTable a) (properties : Dict Tree) (more : List Tree) :
    HasTable (a.withInstance c form properties more) :=
  ha.grown _

theorem HasTable.modify_withInstance_ends (ha : HasTable a) {change : Dict Tree → Dict Tree}
    {old : Dict Tree} (properties : Dict Tree) (more : List Tree) {err : Archive → Prop}
    (hchange : change (instanceEntries (a.lastUid + 1) old)
      = instanceEntries (a.lastUid + 1) properties) :
    Ends (modifyInstance (a.lastUid + 1) change) (a.withInstance c form old more)
      (fun _ b => b = a.withInstance c form properties more) err := by
  refine ends_of_run_ok (ha.run_modifyInstance_grown _ _ _) ?_
  rw [hchange]
  rfl

/-- The instance gets a property, and the objects for it come behind those that are there. -/
theorem HasTable.storeProperty_withInstance_ends (ha : HasTable a) {old : Dict Tree}
    {more : List Tree} {name : String} (hname : name ≠ classKey) {encode : Builder Tree}
    {good : Nat → List Tree → Tree → Prop} (hencode : ∀ b, HasTable b → Provides good encode b) :
    Ends (storeProperty (a.lastUid + 1) name encode) (a.withInstance c form old more)
      (fun _ b => ∃ node new, b = a.withInstance c form (old.insert name node) (more ++ new) ∧
        good (a.lastUid + 3 + more.length) new node) fun _ => True := by
  have hcheck : Ends (fromArchive fun b => b.instanceAt (a.lastUid + 1))
      (a.withInstance c form old more) (fun _ b => b = a.withInstance c form old more)
      fun _ => True :=
    ends_of_run_ok (run_fromArchive_of_ok (ha.instanceAt_grown _ _)) rfl
  refine hcheck.bind ?_
  rintro _ _ rfl
  refine (hencode _ (ha.withInstance old more)).bind ?_
  rintro node _ ⟨new, rfl, hnode⟩
  have hfirst : (a.withInstance c form old more).lastUid + 1 = a.lastUid + 3 + more.length := by
    rw [lastUid_withInstance]
    omega
  rw [hfirst] at hnode
  rw [withInstance_grown]
  refine Ends.mono (ha.modify_withInstance_ends _ _ (insert_instanceEntries hname _ old node))
    (fun _ _ heq => ⟨node, new, heq, hnode⟩) fun _ h => h

/-- The rest of the computation stores the properties of an instance, and together with the objects
behind the description of the class these have to be such that `P` is true of the instance. -/
theorem provides_instance {rest : Nat → Builder Tree} (ha : HasTable a)
    (hrest : Ends (rest (a.lastUid + 1)) (a.withInstance c form [] [])
      (fun node b => node = .uid (a.lastUid + 1) ∧ ∃ (properties : Dict Tree) (more : List Tree),
        b = a.withInstance c form properties more ∧
        InstanceHolds P (a.lastUid + 1) c properties more) fun _ => True) :
    Provides (Holds P) (appendInstance c form >>= rest) a := by
  have happend : Ends (appendInstance c form) a (fun slot b => slot = a.lastUid + 1 ∧
      b = a.withInstance c form [] []) fun _ => True :=
    ends_of_run_ok (ha.run_appendInstance c form) ⟨rfl, rfl⟩
  refine happend.bind ?_
  rintro _ _ ⟨rfl, rfl⟩
  refine hrest.mono ?_ fun _ h => h
  rintro _ b ⟨rfl, properties, more, rfl, hholds⟩
  exact ⟨_, rfl, holds_instance hholds⟩

/-- An instance with one property. -/
theorem provides_property {Q : Archive → Tree → Prop} {name : String} {encode : Builder Tree}
    (hname : name ≠ classKey) (hencode : ∀ b, HasTable b → Provides (Holds Q) encode b)
    (hstep : ∀ {d : Archive} {slot : Nat} {entries : Dict Tree} {node : Tree},
      d.IsInstance slot c entries → entries.get? name = some node → Q d node → P d (.uid slot))
    (ha : HasTable a) :
    Provides (Holds P) (do
      let slot ← appendInstance c form
      storeProperty slot name encode
      return .uid slot) a := by
  refine provides_instance ha ((ha.storeProperty_withInstance_ends hname hencode).bind ?_)
  rintro _ _ ⟨node, more, rfl, hnode⟩
  refine ends_pure ⟨rfl, _, more, rfl, fun d hnull hinstance hfinds => ?_⟩
  refine hstep hinstance ?_ (hnode d hnull hfinds)
  rw [get?_instanceEntries hname, Dict.get?_insert_self]

/-- The nodes of the items are put into the instance when all of them are there. -/
theorem provides_items {α : Type} {Q : α → Archive → Tree → Prop} {items : List ArchiveValue}
    {values : List α} {encode : ArchiveValue → Builder Tree}
    (hitems : List.Forall₂ (fun v w => ∀ b, HasTable b → Provides (Holds (Q w)) (encode v) b)
      items values)
    (hstep : ∀ {d : Archive} {slot : Nat} {entries : Dict Tree} {nodes : List Tree},
      d.IsInstance slot .array entries → entries.get? itemsKey = some (.array nodes) →
      List.Forall₂ (fun node w => Q w d node) nodes values → P d (.uid slot)) (ha : HasTable a) :
    Provides (Holds P) (do
      let slot ← appendInstance .array form
      let nodes ← items.mapM encode
      modifyInstance slot fun entries => entries.insert itemsKey (.array nodes)
      return .uid slot) a := by
  refine provides_instance ha ?_
  refine (provides_mapM (fun _ => stable_holds) hitems (ha.withInstance [] [])).bind ?_
  rintro nodes _ ⟨more, rfl, hnodes⟩
  rw [withInstance_grown]
  refine (ha.modify_withInstance_ends [(itemsKey, .array nodes)] more rfl).bind ?_
  rintro _ _ rfl
  refine ends_pure ⟨rfl, _, more, rfl, fun d hnull hinstance h => ?_⟩
  exact hstep hinstance rfl (hnodes.imp fun node w hnode => hnode d hnull h)

/-- The same for keys and values, in pairs. -/
theorem provides_entries {α : Type} {Q R : α → Archive → Tree → Prop}
    {entries : List (String × ArchiveValue)} {values : List α}
    {encode : ArchiveValue → Builder Tree}
    (hentries : List.Forall₂ (fun e w =>
      (∀ b, HasTable b → Provides (Holds (Q w)) (encode (.string e.1)) b) ∧
      ∀ b, HasTable b → Provides (Holds (R w)) (encode e.2) b) entries values)
    (hstep : ∀ {d : Archive} {slot : Nat} {entries : Dict Tree} {nodes : List (Tree × Tree)},
      d.IsInstance slot .dictionary entries →
      entries.get? keysKey = some (.array (nodes.map Prod.fst)) →
      entries.get? itemsKey = some (.array (nodes.map Prod.snd)) →
      List.Forall₂ (fun n w => Q w d n.1 ∧ R w d n.2) nodes values → P d (.uid slot))
    (ha : HasTable a) :
    Provides (Holds P) (do
      let slot ← appendInstance .dictionary form
      let nodes ← entries.mapM fun (key, value) => do
        let keyNode ← encode (.string key)
        let valueNode ← encode value
        return (keyNode, valueNode)
      modifyInstance slot fun entries =>
        (entries.insert keysKey (.array (nodes.map Prod.fst))).insert itemsKey
          (.array (nodes.map Prod.snd))
      return .uid slot) a := by
  refine provides_instance ha ?_
  have hpairs : List.Forall₂ (fun e w => ∀ b, HasTable b →
      Provides (PairHolds (Q w) (R w)) (do
        let keyNode ← encode (.string e.1)
        let valueNode ← encode e.2
        return (keyNode, valueNode)) b) entries values := by
    refine hentries.imp ?_
    rintro ⟨key, v⟩ w ⟨hkey, hv⟩ b hb
    refine (hkey b hb).bind ?_
    rintro keyNode _ ⟨new, rfl, hkey⟩
    refine (hv _ (hb.grown new)).bind ?_
    rintro valueNode _ ⟨more, rfl, hvalue⟩
    refine ends_pure ⟨new ++ more, grown_grown b new more, stable_holds.left hkey, ?_⟩
    rw [lastUid_grown, Nat.add_right_comm] at hvalue
    exact stable_holds.right hvalue
  refine (provides_mapM (fun _ => stable_pairHolds) hpairs (ha.withInstance [] [])).bind ?_
  rintro nodes _ ⟨more, rfl, hnodes⟩
  rw [withInstance_grown]
  refine (ha.modify_withInstance_ends [(keysKey, .array (nodes.map Prod.fst)),
    (itemsKey, .array (nodes.map Prod.snd))] more rfl).bind ?_
  rintro _ _ rfl
  refine ends_pure ⟨rfl, _, more, rfl, fun d hnull hinstance h => ?_⟩
  exact hstep hinstance rfl rfl
    (hnodes.imp fun node w hnode => ⟨hnode.1 d hnull h, hnode.2 d hnull h⟩)

/-- An address is an instance, whichever of its parts are stored. -/
theorem provides_parts {base relative : Option ArchiveValue} {encode : ArchiveValue → Builder Tree}
    {good : Nat → List Tree → Tree → Prop}
    (hbase : ∀ v ∈ base, ∀ b, HasTable b → Provides good (encode v) b)
    (hrelative : ∀ v ∈ relative, ∀ b, HasTable b → Provides good (encode v) b)
    (hstep : ∀ {d : Archive} {slot : Nat} {entries : Dict Tree}, d.IsInstance slot c entries →
      P d (.uid slot)) (ha : HasTable a) :
    Provides (Holds P) (do
      let slot ← appendInstance c form
      if let some base := base then
        storeProperty slot baseKey (encode base)
        if let some relative := relative then
          storeProperty slot relativeKey (encode relative)
      return .uid slot) a := by
  have hdone : ∀ (properties : Dict Tree) (more : List Tree),
      Ends (pure (Tree.uid (a.lastUid + 1))) (a.withInstance c form properties more)
        (fun node b => node = .uid (a.lastUid + 1) ∧ ∃ (properties : Dict Tree) (more : List Tree),
          b = a.withInstance c form properties more ∧
          InstanceHolds P (a.lastUid + 1) c properties more) fun _ => True :=
    fun properties more => ends_pure ⟨rfl, properties, more, rfl, fun _ _ h _ => hstep h⟩
  refine provides_instance ha ?_
  cases base with
  | none => exact hdone _ _
  | some base =>
    refine (ha.storeProperty_withInstance_ends (by decide) (hbase base rfl)).bind ?_
    rintro _ _ ⟨node, new, rfl, -⟩
    cases relative with
    | none => exact hdone _ _
    | some relative =>
      refine (ha.storeProperty_withInstance_ends (by decide) (hrelative relative rfl)).bind ?_
      rintro _ _ ⟨node, new, rfl, -⟩
      exact hdone _ _

end Instances

end PlistCodec.Archive
