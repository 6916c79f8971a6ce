import Mathlib.Logic.Relation
import PlistCodec.Proofs.Archive.Instances
import PlistCodec.Proofs.Archive.Storing

/-!
# The steps of a call

Whatever a call is to do, and wherever it fails, it changes the archive in steps of four kinds:
objects go behind the table, an instance gets a value for an entry that the call may write, a root
object is named, or the first root object gets another name (`Step`).  An archive that a call leaves
is therefore reached from the one that it found by such steps (`steps_after`), and a property of
archives that each step keeps is kept by each call.
-/

namespace PlistCodec.Archive

/-! ## What a call may do -/

/-- The property lists that a call stores as they are. -/
def Call.rawTrees : Call → List Tree
  | .appendObject object => [object]
  | .setProperty _ _ value => value.rawTrees
  | .appendRoot value => value.rawTrees
  | .appendItem _ value => value.rawTrees
  | .addEntry _ _ value => value.rawTrees
  | _ => []

/-- The archives that a call copies from. -/
def Call.sources : Call → List Archive
  | .setProperty _ _ value => value.sources
  | .appendRoot value => value.sources
  | .appendItem _ value => value.sources
  | .addEntry _ _ value => value.sources
  | .merge source _ => [source]
  | _ => []

/-- A call that may change the names of the root objects. -/
def Call.Names : Call → Prop
  | .addTopClass _ _ => True
  | .addTop _ => True
  | .renameTop _ => True
  | .appendRoot _ => True
  | _ => False

/-- A call that may write an entry, by its name, of the instance in a slot. -/
def Call.Writes : Call → (slot : Nat) → (name : String) → Prop
  | .setProperty target property _, slot, name => slot = target ∧ name = property
  | .appendItem target _, slot, name => slot = target ∧ name = itemsKey
  | .addEntry target _ _, slot, name => slot = target ∧ (name = keysKey ∨ name = itemsKey)
  | _, _, _ => False

/-- What a call brings into the archive from outside satisfies an invariant. -/
structure Call.Brings (I : Invariant) (call : Call) : Prop where
  /-- The object that is appended as it is. -/
  object : ∀ {object : Tree}, call = .appendObject object → ∀ first, I.Objects first [object]
  /-- Property lists that are stored as they are. -/
  raw : ∀ t ∈ call.rawTrees, ∀ slots, I.Node slots t
  /-- What is copied from other archives. -/
  source : ∀ source ∈ call.sources, CopiesAs I source

theorem Call.brings_anything (call : Call) : call.Brings anything :=
  ⟨fun _ _ => trivial, fun _ _ _ => trivial, fun source _ => copiesAs_anything source⟩

/-- What an entry of an instance may get: a node, or the list that it holds with one node more. -/
inductive NewValue (node : Tree → Prop) (entries : Dict Tree) (name : String) : Tree → Prop where
  /-- A node. -/
  | node {value : Tree} (h : node value) : NewValue node entries name value
  /-- A list with a further item. -/
  | item {items : List Tree} {item : Tree} (hitems : entries.get? name = some (.array items))
      (h : node item) : NewValue node entries name (.array (items ++ [item]))

/-- One step of a call, where what is appended and written satisfies an invariant. -/
inductive Step (I : Invariant) (call : Call) (a : Archive) : Archive → Prop where
  /-- Objects go behind the table. -/
  | grow {new : List Tree} (h : I.Objects (a.lastUid + 1) new) : Step I call a (a.grown new)
  /-- An entry of an instance gets a value. -/
  | write {slot : Nat} {entries : Dict Tree} {name : String} {value : Tree}
      (hslot : a.find? slot = some (.dict entries)) (hwrites : call.Writes slot name)
      (hvalue : NewValue (I.Node (a.lastUid + 1)) entries name value) :
      Step I call a (a.withEntries slot (entries.insert name value))
  /-- An object that is there is named as a root object. -/
  | add {slot : Nat} (hnames : call.Names) (hslot : slot < a.table.length) :
      Step I call a (a.withTop (Dict.insert a.roots (numberedTopKey a.roots.length) (.uid slot)))
  /-- The first root object gets another name. -/
  | rename {name : String} {top : Dict Tree} (hcall : call = .renameTop name)
      (htop : a.top? = some top) : Step I call a (a.withTop (renameFirst name top))

/-- The steps of a call, one after the other. -/
abbrev Steps (I : Invariant) (call : Call) : Archive → Archive → Prop :=
  Relation.ReflTransGen (Step I call)

section Steps

variable {I : Invariant} {call : Call} {a b : Archive}

theorem Step.hasTable (h : Step I call a b) (ha : HasTable a) : HasTable b := by
  cases h with
  | grow => exact ha.grown _
  | write => exact ha.withEntries _ _
  | add => exact ha.withTop _
  | rename => exact ha.withTop _

theorem Step.lastUid_le (h : Step I call a b) : a.lastUid ≤ b.lastUid := by
  cases h with
  | grow => exact Nat.le_add_right _ _
  | _ => exact Nat.le_refl _

/-- What each step keeps, any number of steps keeps. -/
theorem Steps.keep {p : Archive → Prop} (h : Steps I call a b) (ha : HasTable a) (hp : p a)
    (hstep : ∀ c d, HasTable c → p c → Step I call c d → p d) : HasTable b ∧ p b := by
  induction h with
  | refl => exact ⟨ha, hp⟩
  | tail _ hcd ih => exact ⟨hcd.hasTable ih.1, hstep _ _ ih.1 ih.2 hcd⟩

theorem Steps.hasTable (h : Steps I call a b) (ha : HasTable a) : HasTable b :=
  (h.keep (p := fun _ => True) ha trivial fun _ _ _ _ _ => trivial).1

/-- A node stays what it is. -/
theorem Steps.node (h : Steps I call a b) {t : Tree} (ht : I.Node (a.lastUid + 1) t) :
    I.Node (b.lastUid + 1) t := by
  induction h with
  | refl => exact ht
  | tail _ hcd ih => exact I.mono ih (Nat.succ_le_succ hcd.lastUid_le)

theorem GrewBy.roots_eq (h : GrewBy I a b) : b.roots = a.roots := by
  obtain ⟨new, rfl, -⟩ := h
  exact roots_grown a new

theorem GrewBy.steps (h : GrewBy I a b) : Steps I call a b := by
  obtain ⟨new, rfl, hnew⟩ := h
  exact .single (.grow hnew)

end Steps

/-! ## Computations that take steps -/

/-- However the computation ends, it has taken steps of the call. -/
def Moves {α : Type} (I : Invariant) (call : Call) (m : Builder α) (a : Archive) : Prop :=
  Ends m a (fun _ b => Steps I call a b) (Steps I call a)

section Moving

variable {α β : Type} {I : Invariant} {call : Call} {a : Archive}

theorem moves_pure {x : α} : Moves I call (pure x) a := ends_pure .refl

theorem moves_throw {e : Error} : Moves I call (throw e : Builder α) a := ends_throw .refl

theorem Moves.bind {m : Builder α} {f : α → Builder β} (hm : Moves I call m a)
    (hf : ∀ x b, Steps I call a b → Moves I call (f x) b) : Moves I call (m >>= f) a :=
  Ends.bind hm fun x b hab => (hf x b hab).mono (fun _ _ hbc => hab.trans hbc)
    fun _ hbc => hab.trans hbc

theorem Grows.moves {p : Nat → α → Prop} {m : Builder α} (hm : Grows I p m a) :
    Moves I call m a :=
  Ends.mono hm (fun _ _ h => h.1.steps) fun _ h => h.steps

theorem Grows.moves_bind {p : Nat → α → Prop} {m : Builder α} {f : α → Builder β}
    (hm : Grows I p m a)
    (hf : ∀ x b, Steps I call a b → p (b.lastUid + 1) x → Moves I call (f x) b) :
    Moves I call (m >>= f) a := by
  have hsteps : Ends m a (fun x b => GrewBy I a b ∧ p (b.lastUid + 1) x) (Steps I call a) :=
    hm.mono (fun _ _ h => h) fun _ h => h.steps
  refine hsteps.bind fun x b h => ?_
  have hab : Steps I call a b := h.1.steps
  exact (hf x b hab h.2).mono (fun _ _ hbc => hab.trans hbc) fun _ hbc => hab.trans hbc

/-- A reading leaves the archive as it is. -/
theorem moves_fromArchive_bind {read : Archive → Except Error α} {f : α → Builder β}
    (hf : ∀ x, read a = .ok x → Moves I call (f x) a) :
    Moves I call (fromArchive read >>= f) a := by
  have hread : Ends (fromArchive read) a (fun x b => read a = .ok x ∧ b = a) (Steps I call a) :=
    ends_fromArchive (fun _ hx => ⟨hx, rfl⟩) .refl
  refine hread.bind ?_
  rintro x _ ⟨hx, rfl⟩
  exact hf x hx

end Moving

section Writing

variable {I : Invariant} {call : Call} {slot : Nat} {name : String} {a : Archive}

theorem moves_modifyInstance {value : Tree} (hwrites : call.Writes slot name)
    (hvalue : ∀ entries, a.find? slot = some (.dict entries) →
      NewValue (I.Node (a.lastUid + 1)) entries name value) (ha : HasTable a) :
    Moves I call (modifyInstance slot fun entries => entries.insert name value) a := by
  refine moves_fromArchive_bind fun entries hentries => ?_
  have hslot := instanceAt_eq_ok_iff_find?.mp hentries
  exact ends_of_run_ok (ha.run_putObject _ (ha.lt_length_of_find? hslot))
    (.single (.write hslot hwrites (hvalue entries hslot)))

theorem moves_storeProperty (hwrites : call.Writes slot name) {encode : Builder Tree}
    (hencode : Grows I I.Node encode a) (ha : HasTable a) :
    Moves I call (storeProperty slot name encode) a := by
  refine moves_fromArchive_bind fun _ _ => hencode.moves_bind fun node b hab hnode => ?_
  exact moves_modifyInstance hwrites (fun _ _ => .node hnode) (hab.hasTable ha)

theorem moves_ensureArray (hwrites : call.Writes slot name) (ha : HasTable a) :
    Moves I call (ensureArray slot name) a := by
  refine moves_fromArchive_bind fun entries _ => ?_
  split
  · exact moves_pure
  · exact moves_throw
  · exact moves_modifyInstance hwrites (fun _ _ => .node (I.array (List.forall_mem_nil _))) ha

theorem moves_pushItem {item : Tree} (hwrites : call.Writes slot name)
    (hitem : I.Node (a.lastUid + 1) item) (ha : HasTable a) :
    Moves I call (pushItem slot name item) a := by
  refine moves_fromArchive_bind fun entries hentries => ?_
  split
  case h_2 => exact moves_throw
  case h_1 items hitems =>
    obtain ⟨value, hvalue, harray⟩ := Option.bind_eq_some_iff.mp hitems
    obtain rfl := Tree.array?_eq_some_iff.mp harray
    refine moves_modifyInstance hwrites (fun entries' hslot => ?_) ha
    obtain rfl := Except.ok.inj (hentries.symm.trans (instanceAt_eq_ok_iff_find?.mpr hslot))
    exact .item hvalue hitem

end Writing

section Naming

variable {I : Invariant} {call : Call} {a : Archive}

theorem moves_addTop (hnames : call.Names) (slot : Nat) (ha : HasTable a) :
    Moves I call (addTop slot) a := by
  by_cases hslot : slot < a.table.length
  · exact ends_of_run_ok (run_addTop ha hslot) (.single (.add hnames hslot))
  · exact ends_of_run_error (run_addTop_of_le ha (Nat.le_of_not_lt hslot)) .refl

theorem moves_renameTop (name : String) : Moves I (.renameTop name) (renameTop name) a := by
  refine ends_get_bind ?_
  split
  case h_1 => exact moves_pure
  case h_2 top htop =>
    split
    · exact moves_throw
    · exact ends_of_run_ok rfl (.single (.rename rfl htop))

theorem moves_appendRoot (hnames : call.Names) {v : ArchiveValue} (hv : Brings I v)
    (ha : HasTable a) : Moves I call (appendRoot v) a := by
  unfold appendRoot
  split
  · exact moves_throw
  · refine (encodeValue_grows hv ha).moves_bind fun node b hab _ => ?_
    split
    · refine ends_get_bind ?_
      split
      · exact moves_addTop hnames _ (hab.hasTable ha)
      · exact moves_pure
    · exact moves_throw

end Naming

/-! ## Calls -/

section Calls

variable {I : Invariant} {call : Call} {a : Archive}

/-- **One call.**  However it ends, it has taken steps. -/
theorem perform_moves (hcall : call.Brings I) (ha : HasTable a) :
    Moves I call (perform call) a := by
  cases call with
  | appendObject object => exact Ends.bind_pure (grows_appendObject ha (hcall.object rfl _)).moves
  | appendClass name ancestors => exact Ends.bind_pure (grows_appendClass name ancestors ha).moves
  | addTopClass name ancestors =>
    have hnames : (Call.addTopClass name ancestors).Names := trivial
    refine Ends.bind_pure ((grows_appendClass name ancestors ha).moves_bind fun slot b hab _ => ?_)
    exact (moves_addTop hnames slot (hab.hasTable ha)).bind fun _ _ _ => moves_pure
  | addTop slot =>
    have hnames : (Call.addTop slot).Names := trivial
    exact Ends.bind_pure (moves_addTop hnames slot ha)
  | renameTop name => exact Ends.bind_pure (moves_renameTop name)
  | setProperty slot name value =>
    have hwrites : (Call.setProperty slot name value).Writes slot name := ⟨rfl, rfl⟩
    have hvalue : Brings I value := ⟨hcall.raw, hcall.source⟩
    exact Ends.bind_pure (moves_storeProperty hwrites (encodeValue_grows hvalue ha) ha)
  | appendRoot value =>
    have hnames : (Call.appendRoot value).Names := trivial
    exact Ends.bind_pure (moves_appendRoot hnames ⟨hcall.raw, hcall.source⟩ ha)
  | appendItem slot value =>
    have hitems : (Call.appendItem slot value).Writes slot itemsKey := ⟨rfl, rfl⟩
    have hvalue : Brings I value := ⟨hcall.raw, hcall.source⟩
    refine Ends.bind_pure ((moves_ensureArray hitems ha).bind fun _ b hab => ?_)
    have hb := hab.hasTable ha
    refine (encodeValue_grows hvalue hb).moves_bind fun item c hbc hitem => ?_
    exact moves_pushItem hitems hitem (hbc.hasTable hb)
  | addEntry slot key value =>
    have hkeys : (Call.addEntry slot key value).Writes slot keysKey := ⟨rfl, .inl rfl⟩
    have hitems : (Call.addEntry slot key value).Writes slot itemsKey := ⟨rfl, .inr rfl⟩
    have hkey : Brings I (.string key) := brings_nothing rfl rfl
    have hvalue : Brings I value := ⟨hcall.raw, hcall.source⟩
    refine Ends.bind_pure ((moves_ensureArray hkeys ha).bind fun _ b hab => ?_)
    have hb := hab.hasTable ha
    refine (moves_ensureArray hitems hb).bind fun _ c hbc => ?_
    have hc := hbc.hasTable hb
    refine (encodeValue_grows hkey hc).moves_bind fun keyNode d hcd hkeyNode => ?_
    have hd := hcd.hasTable hc
    refine (encodeValue_grows hvalue hd).moves_bind fun valueNode e hde hvalueNode => ?_
    have he := hde.hasTable hd
    refine (moves_pushItem hkeys (hde.node hkeyNode) he).bind fun _ f hef => ?_
    exact moves_pushItem hitems (hef.node hvalueNode) (hef.hasTable he)
  | merge source node =>
    have hgrew : GrewBy I a (mergeObject source node a).archive :=
      hcall.source source (List.mem_singleton.mpr rfl) (maxDepth + 1) node a ha
    exact hgrew.steps

/-- What holds however a call ends holds of the archive that it leaves. -/
theorem after_of_ends {p : Archive → Prop} (h : Ends (perform call) a (fun _ b => p b) p) :
    p (a.after call) := by
  unfold Ends at h
  unfold after
  cases hrun : (perform call).run a with
  | ok reply b => rw [hrun] at h; exact h
  | error e b => rw [hrun] at h; exact h

theorem steps_after (hcall : call.Brings I) (ha : HasTable a) : Steps I call a (a.after call) :=
  after_of_ends (perform_moves hcall ha)

theorem HasTable.after (ha : HasTable a) (call : Call) : HasTable (a.after call) :=
  (steps_after call.brings_anything ha).hasTable ha

end Calls

end PlistCodec.Archive
