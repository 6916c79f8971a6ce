import PlistCodec.Proofs.Archive.Leftovers
import PlistCodec.Proofs.Archive.Parts
import PlistCodec.Proofs.Archive.Providing

/-!
# Storing a value

Storing a value appends objects and changes none that was there, whether it succeeds or fails.  What
the appended objects have in common is an `Invariant`: it is true of objects that are put together
as storing a value does, one behind the other, and as instances in front of the description of their
class.  It says something of nodes as well, which may be put into objects once they are there.

Whatever is stored, and however that ends, the appended objects satisfy the invariant, and so does
the node that is yielded (`encodeValue_grows`), as long as what the value brings from outside does:
property lists that are stored as they are, and copies from other archives.  A copy does so if its
objects may each stand in front of what has been copied for them (`copiesAs_of_copied`).
-/

namespace PlistCodec.Archive

/-! ## Invariants -/

/-- What is true of all objects that are appended, and of the nodes that may be put into them. -/
structure Invariant where
  /-- What is true of objects in the slots from a given one on. -/
  Objects : (first : Nat) → List Tree → Prop
  /-- What is true of a node in a table with a given number of slots. -/
  Node : (slots : Nat) → Tree → Prop
  /-- A node that refers to slots that are there. -/
  below : ∀ {slots : Nat} {t : Tree}, t.RefersWithin 0 slots → Node slots t
  /-- A node in a longer table. -/
  mono : ∀ {slots slots' : Nat} {t : Tree}, Node slots t → slots ≤ slots' → Node slots' t
  /-- A list of nodes. -/
  array : ∀ {slots : Nat} {ts : List Tree}, (∀ t ∈ ts, Node slots t) → Node slots (.array ts)
  /-- No objects. -/
  nil : ∀ first, Objects first []
  /-- Objects behind others. -/
  append : ∀ {first : Nat} {new more : List Tree}, Objects first new →
    Objects (first + new.length) more → Objects first (new ++ more)
  /-- An object that is no dictionary. -/
  object : ∀ {first : Nat} {object : Tree}, object.dict? = none → Node (first + 1) object →
    Objects first [object]
  /-- An instance with its class, in front of what has been stored for its properties. -/
  classPair : ∀ {first : Nat} {name : String} {ancestors : List String} {properties : Dict Tree}
    {more : List Tree}, name ≠ "" → (∀ e ∈ properties, Node (first + 2 + more.length) e.2) →
    Objects (first + 2) more →
    Objects first
      (.dict (instanceEntries first properties) :: classDescription name ancestors :: more)

/-- What is true of all objects and nodes. -/
def anything : Invariant where
  Objects _ _ := True
  Node _ _ := True
  below _ := trivial
  mono _ _ := trivial
  array _ := trivial
  nil _ := trivial
  append _ _ := trivial
  object _ _ := trivial
  classPair _ _ _ := trivial

/-- The archive has grown by objects that satisfy the invariant. -/
def GrewBy (I : Invariant) (a b : Archive) : Prop :=
  ∃ new, b = a.grown new ∧ I.Objects (a.lastUid + 1) new

/-- The archive has grown by an instance, and by what has been stored for its properties. -/
def GrewInstance (I : Invariant) (a b : Archive) : Prop :=
  ∃ (c : ObjectClass) (form : Mutability) (properties : Dict Tree) (more : List Tree),
    b = a.withInstance c form properties more ∧ (∀ e ∈ properties, I.Node (b.lastUid + 1) e.2) ∧
      I.Objects (a.lastUid + 3) more

section Growing

variable {I : Invariant} {a b d : Archive}

theorem GrewBy.refl (ha : HasTable a) : GrewBy I a a := ⟨[], ha.grown_nil.symm, I.nil _⟩

theorem GrewBy.hasTable (hab : GrewBy I a b) (ha : HasTable a) : HasTable b := by
  obtain ⟨new, rfl, -⟩ := hab
  exact ha.grown new

theorem GrewBy.lastUid_le (hab : GrewBy I a b) : a.lastUid ≤ b.lastUid := by
  obtain ⟨new, rfl, -⟩ := hab
  exact Nat.le_add_right _ _

theorem GrewBy.trans (hab : GrewBy I a b) (hbd : GrewBy I b d) : GrewBy I a d := by
  obtain ⟨new, rfl, hnew⟩ := hab
  obtain ⟨more, rfl, hmore⟩ := hbd
  refine ⟨new ++ more, grown_grown a new more, I.append hnew ?_⟩
  rw [Nat.add_right_comm]
  exact hmore

/-- A node stays what it is while the archive grows. -/
theorem GrewBy.node (hab : GrewBy I a b) {t : Tree} (ht : I.Node (a.lastUid + 1) t) :
    I.Node (b.lastUid + 1) t :=
  I.mono ht (Nat.succ_le_succ hab.lastUid_le)

theorem GrewInstance.lastUid_lt (hab : GrewInstance I a b) : a.lastUid < b.lastUid := by
  obtain ⟨c, form, properties, more, rfl, -, -⟩ := hab
  rw [lastUid_withInstance]
  omega

theorem GrewInstance.grewBy (hab : GrewInstance I a b) : GrewBy I a b := by
  obtain ⟨c, form, properties, more, rfl, hproperties, hmore⟩ := hab
  refine ⟨_, rfl, I.classPair (formName_ne c form) ?_ hmore⟩
  have hslots : (a.withInstance c form properties more).lastUid + 1
      = a.lastUid + 1 + 2 + more.length := by
    rw [lastUid_withInstance]
    omega
  rw [← hslots]
  exact hproperties

/-- What is stored behind an instance is stored for its properties. -/
theorem GrewInstance.trans (hab : GrewInstance I a b) (hbd : GrewBy I b d) :
    GrewInstance I a d := by
  have hnode := fun t => @GrewBy.node I b d hbd t
  obtain ⟨c, form, properties, more, rfl, hproperties, hmore⟩ := hab
  obtain ⟨new, rfl, hnew⟩ := hbd
  have hfirst : (a.withInstance c form properties more).lastUid + 1
      = a.lastUid + 3 + more.length := by
    rw [lastUid_withInstance]
    omega
  rw [hfirst] at hnew
  refine ⟨c, form, properties, more ++ new, withInstance_grown properties more new, ?_,
    I.append hmore hnew⟩
  exact fun e he => hnode e.2 (hproperties e he)

end Growing

/-! ## Walks that copy -/

/-- What a walk through the source appends satisfies the invariant, however the walk ends. -/
def CopiesAs (I : Invariant) (source : Archive) : Prop :=
  ∀ (levels : Nat) (t : Tree) (a : Archive), HasTable a →
    GrewBy I a (mergeNode source levels t a).archive

section Copies

variable {I : Invariant} {source a : Archive}

/-- **Copying objects.**  However it ends, the archive has grown by objects that satisfy the
invariant, as long as a finished copy of an object may stand in front of what has been copied for
it. -/
theorem copiesAs_of_copied
    (hcopied : ∀ {levels slot first : Nat} {object node : Tree} {new : List Tree},
      source.find? slot = some object → Copied source levels (first + 1) object node new →
      I.Objects (first + 1) new → I.Objects first (node :: new)) : CopiesAs I source := by
  intro levels t a ha
  obtain ⟨new, hb, happended⟩ := mergeNode_appended source levels t ha
  refine ⟨new, hb, ?_⟩
  clear hb
  generalize a.lastUid + 1 = first at happended ⊢
  induction happended with
  | nil => exact I.nil _
  | append _ _ ih ihmore => exact I.append ih ihmore
  | taken => exact I.object rfl (I.below (Tree.refersWithin_of_scalar rfl rfl))
  | copy _ hobject hcopy _ ih => exact hcopied hobject hcopy ih

theorem copiesAs_anything (source : Archive) : CopiesAs anything source :=
  copiesAs_of_copied fun _ _ _ => trivial

/-- The node that stands for a copy refers to the new objects. -/
theorem mergeNode_refersWithin {levels : Nat} {t : Tree} (ha : HasTable a)
    (hdone : (mergeNode source levels t a).fault = none) :
    (mergeNode source levels t a).node.RefersWithin 0
      ((mergeNode source levels t a).archive.lastUid + 1) := by
  obtain ⟨new, hwalk⟩ := mergeNode_walked source levels t ha
  rw [hwalk.archive_eq, lastUid_grown, Nat.add_right_comm]
  exact (hwalk.copied_of_done hdone).refersWithin.mono (Nat.zero_le _) (Nat.le_refl _)

end Copies

/-! ## Computations -/

/-- However the computation ends, the archive has grown by objects that satisfy the invariant; and
what a success yields is `ok` with the number of slots. -/
def Grows {α : Type} (I : Invariant) (ok : Nat → α → Prop) (m : Builder α) (a : Archive) : Prop :=
  Ends m a (fun x b => GrewBy I a b ∧ ok (b.lastUid + 1) x) (GrewBy I a)

section Computations

variable {α β : Type} {I : Invariant} {p : Nat → α → Prop} {q : Nat → β → Prop} {a b : Archive}

theorem grows_pure {x : α} (ha : HasTable a) (hx : p (a.lastUid + 1) x) : Grows I p (pure x) a :=
  ends_pure ⟨.refl ha, hx⟩

theorem grows_throw {e : Error} (ha : HasTable a) : Grows I p (throw e) a := ends_throw (.refl ha)

theorem Grows.bind {m : Builder α} {f : α → Builder β} (hm : Grows I p m a)
    (hf : ∀ x b, GrewBy I a b → p (b.lastUid + 1) x → Grows I q (f x) b) :
    Grows I q (m >>= f) a :=
  Ends.bind hm fun x b h => (hf x b h.1 h.2).mono (fun _ _ h' => ⟨h.1.trans h'.1, h'.2⟩)
    fun _ h' => h.1.trans h'

/-- The slot of an object is one of the slots. -/
theorem grows_appendObject {object : Tree} (ha : HasTable a)
    (hobject : I.Objects (a.lastUid + 1) [object]) :
    Grows I (fun slots slot => slot < slots) (appendObject object) a :=
  ends_of_run_ok (ha.run_appendObject object) ⟨⟨[object], rfl, hobject⟩, Nat.lt_succ_self _⟩

/-- A scalar gets a slot, and a reference to it is yielded. -/
theorem grows_reference {object : Tree} (ha : HasTable a) (hdict : object.dict? = none)
    (huid : object.uid? = none) (hchildren : object.children = []) :
    Grows I I.Node (do return .uid (← appendObject object)) a := by
  have hobject : I.Objects (a.lastUid + 1) [object] :=
    I.object hdict (I.below (Tree.refersWithin_of_scalar huid hchildren))
  refine (grows_appendObject ha hobject).bind fun slot b hab hslot => ?_
  exact grows_pure (hab.hasTable ha) (I.below (Tree.refersWithin_uid (Nat.zero_le _) hslot))

/-- Slot 0 is there in any table. -/
theorem Invariant.null (I : Invariant) (a : Archive) : I.Node (a.lastUid + 1) (.uid 0) :=
  I.below (Tree.refersWithin_uid (Nat.le_refl _) (Nat.succ_pos _))

theorem grows_encodeString (text : String) (ha : HasTable a) :
    Grows I I.Node (encodeString text) a := by
  unfold encodeString
  by_cases htext : text = nullText
  · rw [if_pos htext]
    exact grows_pure ha (I.null a)
  · rw [if_neg htext]
    exact grows_reference ha rfl rfl rfl

theorem grows_appendClass (name : String) (ancestors : List String) (ha : HasTable a) :
    Grows I (fun slots slot => slot < slots) (appendClass name ancestors) a := by
  cases hname : name.isEmpty with
  | true =>
    simp only [appendClass, hname, if_true]
    exact grows_throw ha
  | false =>
    have hne : name ≠ "" := by
      rintro rfl
      cases hname
    have hpair : I.Objects (a.lastUid + 1)
        [bareInstance (a.lastUid + 2), classDescription name ancestors] :=
      @Invariant.classPair I _ _ ancestors [] [] hne (List.forall_mem_nil _) (I.nil _)
    refine ends_of_run_ok (ha.run_appendClass ancestors hname) ⟨⟨_, rfl, hpair⟩, ?_⟩
    rw [lastUid_grown]
    exact Nat.lt_succ_of_le (Nat.add_le_add_left (Nat.le_succ 1) _)

/-- Storing one thing after the other.  What has been yielded stays `ok` while the archive grows. -/
theorem grows_mapM {f : α → Builder β} {xs : List α}
    (hf : ∀ x ∈ xs, ∀ b, HasTable b → Grows I q (f x) b)
    (hmono : ∀ {slots slots' y}, q slots y → slots ≤ slots' → q slots' y) (ha : HasTable a) :
    Grows I (fun slots ys => ∀ y ∈ ys, q slots y) (xs.mapM f) a := by
  induction xs generalizing a with
  | nil => exact grows_pure ha (List.forall_mem_nil _)
  | cons x xs ih =>
    rw [List.mapM_cons]
    refine (hf x List.mem_cons_self a ha).bind fun y b hab hy => ?_
    have hb := hab.hasTable ha
    have hrest := ih (fun x hx => hf x (List.mem_cons_of_mem _ hx)) hb
    refine hrest.bind fun ys d hbd hys => grows_pure (hbd.hasTable hb) ?_
    exact List.forall_mem_cons.mpr ⟨hmono hy (Nat.succ_le_succ hbd.lastUid_le), hys⟩

/-- Copying the default root object of a source. -/
theorem grows_mergeArchive {source : Archive} (hsource : CopiesAs I source) (ha : HasTable a) :
    Grows I I.Node (mergeArchive source) a := by
  unfold Grows Ends EStateM.run mergeArchive
  cases source.topUid? none with
  | none => exact ⟨.refl ha, I.null a⟩
  | some slot =>
    have hgrew := hsource (maxDepth + 1) (.uid slot) a ha
    have hnode := @mergeNode_refersWithin source a (maxDepth + 1) (.uid slot) ha
    simp only [mergeObject]
    generalize mergeNode source (maxDepth + 1) (.uid slot) a = m at hgrew hnode ⊢
    obtain ⟨node, fault, b⟩ := m
    cases fault with
    | some e => exact hgrew
    | none => exact ⟨hgrew, I.below (hnode rfl)⟩

end Computations

/-! ## Instances -/

/-- A computation that stores an instance: the instance is the first new object, and the node that
is yielded refers to it. -/
def GrowsInstance (I : Invariant) (m : Builder Tree) (a : Archive) : Prop :=
  Ends m a (fun node b => GrewInstance I a b ∧ node = .uid (a.lastUid + 1)) (GrewBy I a)

section Instances

variable {α β : Type} {I : Invariant} {p : Nat → α → Prop} {c : ObjectClass} {form : Mutability}
variable {a b : Archive}

theorem GrowsInstance.grows {m : Builder Tree} (h : GrowsInstance I m a) : Grows I I.Node m a := by
  refine h.mono ?_ fun _ h => h
  rintro _ b ⟨hab, rfl⟩
  exact ⟨hab.grewBy,
    I.below (Tree.refersWithin_uid (Nat.zero_le _) (Nat.succ_lt_succ hab.lastUid_lt))⟩

/-- What is appended behind an instance, seen from the archive before the instance. -/
theorem GrewInstance.bind {m : Builder α} {f : α → Builder β} {ok : β → Archive → Prop}
    (hab : GrewInstance I a b) (hm : Grows I p m b)
    (hf : ∀ x d, GrewInstance I a d → p (d.lastUid + 1) x → Ends (f x) d ok (GrewBy I a)) :
    Ends (m >>= f) b ok (GrewBy I a) := by
  have hsince : Ends m b (fun x d => GrewBy I b d ∧ p (d.lastUid + 1) x) (GrewBy I a) :=
    hm.mono (fun _ _ h => h) fun _ hbd => hab.grewBy.trans hbd
  exact hsince.bind fun x d h => hf x d (hab.trans h.1) h.2

/-- An instance gets entries behind the one of its class. -/
theorem GrewInstance.modify_ends {change : Dict Tree → Dict Tree} (hab : GrewInstance I a b)
    (ha : HasTable a)
    (hchange : ∀ slot properties, (∀ e ∈ properties, I.Node (b.lastUid + 1) e.2) →
      ∃ properties', change (instanceEntries slot properties) = instanceEntries slot properties' ∧
        ∀ e ∈ properties', I.Node (b.lastUid + 1) e.2) :
    Ends (modifyInstance (a.lastUid + 1) change) b (fun _ d => GrewInstance I a d)
      (GrewBy I a) := by
  obtain ⟨c, form, properties, more, rfl, hproperties, hmore⟩ := hab
  obtain ⟨properties', heq, hproperties'⟩ := hchange (a.lastUid + 1) properties hproperties
  refine (ha.modify_withInstance_ends properties' more heq).mono ?_ fun _ hd => hd
  rintro _ _ rfl
  exact ⟨c, form, properties', more, rfl, hproperties', hmore⟩

/-- Storing a property of the instance. -/
theorem GrewInstance.storeProperty_ends {name : String} {encode : Builder Tree}
    (hab : GrewInstance I a b) (ha : HasTable a) (hname : name ≠ classKey)
    (hencode : Grows I I.Node encode b) :
    Ends (storeProperty (a.lastUid + 1) name encode) b (fun _ d => GrewInstance I a d)
      (GrewBy I a) := by
  have hcheck : Ends (fromArchive fun b => b.instanceAt (a.lastUid + 1)) b
      (fun _ d => d = b) (GrewBy I a) := ends_fromArchive (fun _ _ => rfl) hab.grewBy
  refine hcheck.bind ?_
  rintro _ _ rfl
  refine hab.bind hencode fun node d had hnode => had.modify_ends ha ?_
  exact fun slot properties hproperties =>
    ⟨_, insert_instanceEntries hname slot properties node, Dict.forall_insert hnode hproperties⟩

/-- An instance whose properties the rest of the computation stores. -/
theorem growsInstance_bind {rest : Nat → Builder Tree} (ha : HasTable a)
    (hrest : ∀ b, GrewInstance I a b → HasTable b → Ends (rest (a.lastUid + 1)) b
      (fun node d => GrewInstance I a d ∧ node = .uid (a.lastUid + 1)) (GrewBy I a)) :
    GrowsInstance I (appendInstance c form >>= rest) a := by
  have happend : Ends (appendInstance c form) a
      (fun slot b => slot = a.lastUid + 1 ∧ GrewInstance I a b) (GrewBy I a) :=
    ends_of_run_ok (ha.run_appendInstance c form)
      ⟨rfl, c, form, [], [], rfl, List.forall_mem_nil _, I.nil _⟩
  refine happend.bind ?_
  rintro _ b ⟨rfl, hab⟩
  exact hrest b hab (hab.grewBy.hasTable ha)

/-- An instance with one property. -/
theorem growsInstance_property {name : String} {encode : Builder Tree} (hname : name ≠ classKey)
    (hencode : ∀ b, HasTable b → Grows I I.Node encode b) (ha : HasTable a) :
    GrowsInstance I (do
      let slot ← appendInstance c form
      storeProperty slot name encode
      return .uid slot) a := by
  refine growsInstance_bind ha fun b hab hb => ?_
  exact (hab.storeProperty_ends ha hname (hencode b hb)).bind fun _ d had => ends_pure ⟨had, rfl⟩

/-- The nodes of the items are put into the instance when all of them are there. -/
theorem growsInstance_items {encode : ArchiveValue → Builder Tree} {items : List ArchiveValue}
    (hitems : ∀ v ∈ items, ∀ b, HasTable b → Grows I I.Node (encode v) b) (ha : HasTable a) :
    GrowsInstance I (do
      let slot ← appendInstance c form
      let nodes ← items.mapM encode
      modifyInstance slot fun entries => entries.insert itemsKey (.array nodes)
      return .uid slot) a := by
  refine growsInstance_bind ha fun b hab hb => ?_
  refine hab.bind (grows_mapM hitems I.mono hb) fun nodes d had hnodes => ?_
  refine (had.modify_ends ha ?_).bind fun _ e hae => ends_pure ⟨hae, rfl⟩
  exact fun slot properties hproperties => ⟨_, insert_instanceEntries (by decide) slot properties _,
    Dict.forall_insert (I.array hnodes) hproperties⟩

/-- The same for keys and values, in pairs. -/
theorem growsInstance_entries {encode : ArchiveValue → Builder Tree}
    {entries : List (String × ArchiveValue)}
    (hkeys : ∀ e ∈ entries, ∀ b, HasTable b → Grows I I.Node (encode (.string e.1)) b)
    (hvalues : ∀ e ∈ entries, ∀ b, HasTable b → Grows I I.Node (encode e.2) b)
    (ha : HasTable a) :
    GrowsInstance I (do
      let slot ← appendInstance c form
      let nodes ← entries.mapM fun (key, value) => do
        let keyNode ← encode (.string key)
        let valueNode ← encode value
        return (keyNode, valueNode)
      modifyInstance slot fun entries =>
        (entries.insert keysKey (.array (nodes.map Prod.fst))).insert itemsKey
          (.array (nodes.map Prod.snd))
      return .uid slot) a := by
  refine growsInstance_bind ha fun b hab hb => ?_
  have hpair : ∀ e ∈ entries, ∀ b, HasTable b →
      Grows I (fun slots (pair : Tree × Tree) => I.Node slots pair.1 ∧ I.Node slots pair.2) (do
        let keyNode ← encode (.string e.1)
        let valueNode ← encode e.2
        return (keyNode, valueNode)) b := by
    intro e he b hb
    refine (hkeys e he b hb).bind fun keyNode d hbd hkey => ?_
    refine (hvalues e he d (hbd.hasTable hb)).bind fun valueNode f hdf hvalue => ?_
    exact grows_pure (hdf.hasTable (hbd.hasTable hb)) ⟨hdf.node hkey, hvalue⟩
  have hnodes := grows_mapM hpair (fun h hle => ⟨I.mono h.1 hle, I.mono h.2 hle⟩) hb
  refine hab.bind hnodes fun nodes d had hnodes => ?_
  have hfirst : I.Node (d.lastUid + 1) (.array (nodes.map Prod.fst)) :=
    I.array (List.forall_mem_map.mpr fun pair hpair => (hnodes pair hpair).1)
  have hsecond : I.Node (d.lastUid + 1) (.array (nodes.map Prod.snd)) :=
    I.array (List.forall_mem_map.mpr fun pair hpair => (hnodes pair hpair).2)
  refine (had.modify_ends ha ?_).bind fun _ e hae => ends_pure ⟨hae, rfl⟩
  intro slot properties hproperties
  rw [insert_instanceEntries (by decide), insert_instanceEntries (by decide)]
  exact ⟨_, rfl, Dict.forall_insert hsecond (Dict.forall_insert hfirst hproperties)⟩

/-- The relative part of an address is stored behind its base, and left out without one. -/
theorem growsInstance_parts {encode : ArchiveValue → Builder Tree}
    {base relative : Option ArchiveValue}
    (hbase : ∀ v ∈ base, ∀ b, HasTable b → Grows I I.Node (encode v) b)
    (hrelative : ∀ v ∈ relative, ∀ b, HasTable b → Grows I I.Node (encode v) b)
    (ha : HasTable a) :
    GrowsInstance I (do
      let slot ← appendInstance c form
      if let some base := base then
        storeProperty slot baseKey (encode base)
        if let some relative := relative then
          storeProperty slot relativeKey (encode relative)
      return .uid slot) a := by
  refine growsInstance_bind ha fun b hab hb => ?_
  cases base with
  | none => exact ends_pure ⟨hab, rfl⟩
  | some base =>
    have hbase := hbase base rfl b hb
    refine (hab.storeProperty_ends ha (by decide) hbase).bind fun _ d had => ?_
    cases relative with
    | none => exact ends_pure ⟨had, rfl⟩
    | some relative =>
      have hrelative := hrelative relative rfl d (had.grewBy.hasTable ha)
      refine (had.storeProperty_ends ha (by decide) hrelative).bind fun _ e hae => ?_
      exact ends_pure ⟨hae, rfl⟩

end Instances

/-! ## Values -/

/-- What a value brings from outside satisfies the invariant. -/
structure Brings (I : Invariant) (v : ArchiveValue) : Prop where
  /-- Property lists that are stored as they are. -/
  raw : ∀ t ∈ v.rawTrees, ∀ slots, I.Node slots t
  /-- What is copied from other archives. -/
  source : ∀ source ∈ v.sources, CopiesAs I source

section Values

variable {I : Invariant} {levels : Nat} {v : ArchiveValue} {a : Archive}

theorem brings_anything (v : ArchiveValue) : Brings anything v :=
  ⟨fun _ _ _ => trivial, fun source _ => copiesAs_anything source⟩

/-- A part of a value brings no more than the value does. -/
theorem Brings.part (hv : Brings I v) {w : ArchiveValue} (hraw : ∀ t ∈ w.rawTrees, t ∈ v.rawTrees)
    (hsources : ∀ source ∈ w.sources, source ∈ v.sources) : Brings I w :=
  ⟨fun t ht => hv.raw t (hraw t ht), fun source h => hv.source source (hsources source h)⟩

theorem brings_nothing (hraw : v.rawTrees = []) (hsources : v.sources = []) : Brings I v := by
  constructor
  · rw [hraw]
    exact List.forall_mem_nil _
  · rw [hsources]
    exact List.forall_mem_nil _

theorem brings_ofTree {t : Tree} (h : ArchiveValue.ofTree t = .ok v) : Brings I v :=
  brings_nothing (ArchiveValue.rawTrees_ofTree h) (ArchiveValue.sources_ofTree h)

/-- A value of one of the classes is stored as an instance, if its parts can be stored. -/
theorem encodeValue_succ_growsInstance (hclass : v.objectClass?.isSome)
    (hparts : ∀ {w : ArchiveValue} {b : Archive}, Brings I w → HasTable b →
      Grows I I.Node (encodeValue levels w) b) (hv : Brings I v) (ha : HasTable a) :
    GrowsInstance I (encodeValue (levels + 1) v) a := by
  have hscalar : ∀ w : ArchiveValue, w.rawTrees = [] → w.sources = [] → ∀ b, HasTable b →
      Grows I I.Node (encodeValue levels w) b :=
    fun w hraw hsources b hb => hparts (brings_nothing hraw hsources) hb
  cases v with
  | nsString form text =>
    exact growsInstance_property (by decide) (hscalar (.string text) rfl rfl) ha
  | nsDate seconds => exact growsInstance_property (by decide) (hscalar (.real seconds) rfl rfl) ha
  | nsData form bytes => exact growsInstance_property (by decide) (hscalar (.data bytes) rfl rfl) ha
  | nsArray form items =>
    refine growsInstance_items (fun w hitem b hb => hparts (hv.part ?_ ?_) hb) ha
    · rw [ArchiveValue.rawTrees_nsArray]
      exact fun t ht => List.mem_flatMap.mpr ⟨w, hitem, ht⟩
    · rw [ArchiveValue.sources_nsArray]
      exact fun source h => List.mem_flatMap.mpr ⟨w, hitem, h⟩
  | nsDictionary form entries =>
    refine growsInstance_entries (fun e _ => hscalar (.string e.1) rfl rfl)
      (fun e hentry b hb => hparts (hv.part ?_ ?_) hb) ha
    · rw [ArchiveValue.rawTrees_nsDictionary]
      exact fun t ht => List.mem_flatMap.mpr ⟨e, hentry, ht⟩
    · rw [ArchiveValue.sources_nsDictionary]
      exact fun source h => List.mem_flatMap.mpr ⟨e, hentry, h⟩
  | nsUrl base relative =>
    refine growsInstance_parts ?_ ?_ ha
    · rintro w rfl b hb
      exact hparts (hv.part (fun _ => List.mem_append_left _) fun _ => List.mem_append_left _) hb
    · rintro w rfl b hb
      exact hparts (hv.part (fun _ => List.mem_append_right _) fun _ => List.mem_append_right _) hb
  | _ => cases hclass

/-- **Storing a value.**  However it ends, the archive has grown by objects that satisfy the
invariant, and so does the node that stands for the value. -/
theorem encodeValue_grows (hv : Brings I v) (ha : HasTable a) :
    Grows I I.Node (encodeValue levels v) a := by
  -- not on the value: a property list becomes values that are no parts of it
  induction levels generalizing v a with
  | zero => exact grows_throw ha
  | succ levels ih =>
    cases v with
    | integer value => exact grows_pure ha (I.below (Tree.refersWithin_of_scalar rfl rfl))
    | inlineString text => exact grows_pure ha (I.below (Tree.refersWithin_of_scalar rfl rfl))
    | data bytes => exact grows_pure ha (I.below (Tree.refersWithin_of_scalar rfl rfl))
    | inlineTree tree => exact grows_pure ha (hv.raw tree (List.mem_singleton.mpr rfl) _)
    | integerObject value => exact grows_reference ha rfl rfl rfl
    | boolean value => exact grows_reference ha rfl rfl rfl
    | real value => exact grows_reference ha rfl rfl rfl
    | string text => exact grows_encodeString text ha
    | nsKeyedArchive source =>
      exact grows_mergeArchive (hv.source source (List.mem_singleton.mpr rfl)) ha
    | fromPlist tree =>
      rw [encodeValue]
      cases htree : ArchiveValue.ofTree tree with
      | error e => exact grows_throw ha
      | ok value => exact ih (brings_ofTree htree) ha
    | _ => exact (encodeValue_succ_growsInstance rfl ih hv ha).grows

/-- A value of one of the classes becomes the first new object. -/
theorem encodeValue_growsInstance (hclass : v.objectClass?.isSome) (hv : Brings I v)
    (ha : HasTable a) : GrowsInstance I (encodeValue (levels + 1) v) a :=
  encodeValue_succ_growsInstance hclass encodeValue_grows hv ha

end Values

end PlistCodec.Archive
