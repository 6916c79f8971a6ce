import PlistCodec.Proofs.Archive.FlattensTo
import PlistCodec.Proofs.Tree.Renaming

/-!
# Archives that flatten alike

Two archives may hold the same objects under different numbers, or one of them may hold more than
the other; flattening cannot tell.  A relation `S` between the slots of two archives *simulates* the
one archive in the other if related slots hold the same scalars, or instances with the same
properties but for the slots in their references, which are related again.  What a slot of the first
archive flattens to, the related slot of the second flattens to as well, up to the references in
what is stored in place (`Simulates.flattenWithin`).

Not every slot needs to be kept as it is.  Of an instance that cannot be flattened within `depth`
levels only those entries matter that lead from other instances to the names of their classes.
-/

namespace PlistCodec

/-- Lists that are related on two sides of a square are related on the other two. -/
theorem exists_forall₂_of_forall₂ {α α' β β' : Type} {P : α → β → Prop} {R : α → α' → Prop}
    {P' : α' → β' → Prop} {R' : β → β' → Prop} {xs : List α} {xs' : List α'} {ys : List β}
    (hstep : ∀ x x' y, R x x' → P x y → ∃ y', P' x' y' ∧ R' y y')
    (hR : List.Forall₂ R xs xs') (hP : List.Forall₂ P xs ys) :
    ∃ ys', List.Forall₂ P' xs' ys' ∧ List.Forall₂ R' ys ys' := by
  induction hR generalizing ys with
  | nil => cases hP; exact ⟨[], .nil, .nil⟩
  | cons hx _ ih =>
    cases hP with
    | cons hy hys =>
      obtain ⟨y', hy', hrelated⟩ := hstep _ _ _ hx hy
      obtain ⟨ys', hys', hrest⟩ := ih hys
      exact ⟨y' :: ys', .cons hy' hys', .cons hrelated hrest⟩

/-- Two lists that go with the halves of a list of pairs are the halves of one themselves. -/
theorem exists_pairs_of_forall₂ {α β : Type} {R : α → β → Prop} {pairs : List (α × α)}
    {firsts seconds : List β} (hfirsts : List.Forall₂ R (pairs.map Prod.fst) firsts)
    (hseconds : List.Forall₂ R (pairs.map Prod.snd) seconds) :
    ∃ pairs' : List (β × β), firsts = pairs'.map Prod.fst ∧ seconds = pairs'.map Prod.snd ∧
      List.Forall₂ (fun p p' => R p.1 p'.1 ∧ R p.2 p'.2) pairs pairs' := by
  induction pairs generalizing firsts seconds with
  | nil => cases hfirsts; cases hseconds; exact ⟨[], rfl, rfl, .nil⟩
  | cons p ps ih =>
    rcases hfirsts with _ | ⟨hfirst, hfirsts⟩
    rcases hseconds with _ | ⟨hsecond, hseconds⟩
    obtain ⟨pairs', rfl, rfl, hpairs⟩ := ih hfirsts hseconds
    exact ⟨(_, _) :: pairs', rfl, rfl, .cons ⟨hfirst, hsecond⟩ hpairs⟩

namespace Archive

/-- A scalar has no references to be exchanged. -/
theorem Primitive.renamed_iff {S : Nat → Nat → Prop} {object t' : Tree} (h : Primitive object) :
    object.Renamed S t' ↔ t' = object := by
  cases object with
  | date value => cases h
  | uid slot => cases h
  | array items => cases h
  | dict entries => cases h
  | _ => exact Tree.renamed_scalar_iff rfl rfl

/-- The object in the slot can be flattened, with some number of levels up to `depth`. -/
def FlattensWithin (a : Archive) (depth slot : Nat) : Prop :=
  ∃ levels v, levels ≤ depth ∧ a.flattenWithin levels slot = .ok v

/-- Related slots hold the same, as far as it matters to what can be flattened within `depth`
levels. -/
structure Simulates (depth : Nat) (S : Nat → Nat → Prop) (a b : Archive) : Prop where
  /-- What stands for no object does so for slot 0 alone. -/
  ne_zero : ∀ {slot slot' : Nat}, S slot slot' → slot ≠ 0 → slot' ≠ 0
  /-- Scalars are the same. -/
  primitive : ∀ {slot slot' : Nat} {object : Tree}, S slot slot' → a.find? slot = some object →
    Primitive object → b.find? slot' = some object
  /-- Entries are the same, but for the slots in them. -/
  entries : ∀ {slot slot' : Nat} {entries : Dict Tree}, S slot slot' →
    a.find? slot = some (.dict entries) → ∃ entries' : Dict Tree,
      b.find? slot' = some (.dict entries') ∧ ∀ name node, entries.get? name = some node →
        name = classKey ∨ name = classnameKey ∨ a.FlattensWithin depth slot →
        ∃ node', entries'.get? name = some node' ∧ node.Renamed S node'

/-- What slots of `a` flatten to within `levels`, the related slots of `b` flatten to within
`more`. -/
def FlattensLike (S : Nat → Nat → Prop) (a : Archive) (levels : Nat) (b : Archive) (more : Nat) :
    Prop :=
  ∀ slot slot' v, S slot slot' → a.flattenWithin levels slot = .ok v →
    ∃ v', b.flattenWithin more slot' = .ok v' ∧ v.Renamed S v'

/-! ## Nodes -/

section Nodes

variable {S : Nat → Nat → Prop} {a b : Archive} {levels more : Nat}

theorem FlattensLike.resolves (h : FlattensLike S a levels b more) {node node' v : Tree}
    (hnode : node.Renamed S node') (hv : a.Resolves levels node v) :
    ∃ v', b.Resolves more node' v' ∧ v.Renamed S v' := by
  cases hnode with
  | uid hslot => exact h _ _ _ hslot hv
  | @node _ ts' huid hs =>
    have hsame : v = node := Except.ok.inj (hv.symm.trans (resolves_inline huid))
    rw [hsame]
    have huid' : (node.withChildren ts').uid? = none := by rw [Tree.uid?_withChildren, huid]
    exact ⟨node.withChildren ts', resolves_inline huid', .node huid hs⟩

/-- A node that stands for a scalar is carried to one that stands for the same. -/
theorem FlattensLike.resolves_scalar (h : FlattensLike S a levels b more) {node node' v : Tree}
    (hnode : node.Renamed S node') (hv : a.Resolves levels node v) (huid : v.uid? = none)
    (hchildren : v.children = []) : b.Resolves more node' v := by
  obtain ⟨v', hv', hrenamed⟩ := h.resolves hnode hv
  rw [(Tree.renamed_scalar_iff huid hchildren).mp hrenamed] at hv'
  exact hv'

theorem FlattensLike.resolves_items (h : FlattensLike S a levels b more)
    {nodes nodes' values : List Tree} (hnodes : List.Forall₂ (Tree.Renamed S) nodes nodes')
    (hvalues : List.Forall₂ (a.Resolves levels) nodes values) :
    ∃ values', List.Forall₂ (b.Resolves more) nodes' values' ∧
      List.Forall₂ (Tree.Renamed S) values values' := by
  refine exists_forall₂_of_forall₂ ?_ hnodes hvalues
  intro node node' v hnode hv
  exact h.resolves hnode hv

theorem FlattensLike.resolves_entries (h : FlattensLike S a levels b more)
    {nodes nodes' : List (Tree × Tree)} {values : List (String × Tree)}
    (hnodes : List.Forall₂ (fun n n' => n.1.Renamed S n'.1 ∧ n.2.Renamed S n'.2) nodes nodes')
    (hvalues : List.Forall₂ (fun n e => a.Resolves levels n.1 (.string e.1) ∧
      a.Resolves levels n.2 e.2) nodes values) :
    ∃ values' : List (String × Tree), List.Forall₂ (fun n e =>
      b.Resolves more n.1 (.string e.1) ∧ b.Resolves more n.2 e.2) nodes' values' ∧
      Dict.Related (Tree.Renamed S) values values' := by
  refine exists_forall₂_of_forall₂ ?_ hnodes hvalues
  rintro n n' ⟨key, v⟩ ⟨hkeyNode, hvalueNode⟩ ⟨hkey, hv⟩
  obtain ⟨v', hv', hrenamed⟩ := h.resolves hvalueNode hv
  exact ⟨(key, v'), ⟨h.resolves_scalar hkeyNode hkey rfl rfl, hv'⟩, rfl, hrenamed⟩

end Nodes

/-! ## Objects -/

section Objects

variable {depth : Nat} {S : Nat → Nat → Prop} {a b : Archive} {slot slot' levels more : Nat}

/-- An instance has the same name in both archives. -/
theorem Simulates.classname? (h : Simulates depth S a b) {entries entries' : Dict Tree}
    (hentries : a.find? slot = some (.dict entries))
    (hentries' : b.find? slot' = some (.dict entries')) {name : String}
    (hname : a.classname? slot = some name)
    (hclass : ∀ node, entries.get? classKey = some node →
      ∃ node', entries'.get? classKey = some node' ∧ node.Renamed S node') :
    b.classname? slot' = some name := by
  obtain ⟨place, description, hplace, hne, hdescription, htext⟩ :=
    (classname?_eq_some_iff hentries).mp hname
  obtain ⟨node', hnode', hrenamed⟩ := hclass _ hplace
  obtain ⟨place', hrelated, rfl⟩ := Tree.renamed_uid_iff.mp hrenamed
  obtain ⟨description', hdescription', hall⟩ := h.entries hrelated hdescription
  obtain ⟨text', htext', hrenamed⟩ := hall _ _ htext (.inr (.inl rfl))
  rw [(Tree.renamed_scalar_iff rfl rfl).mp hrenamed] at htext'
  exact (classname?_eq_some_iff hentries').mpr
    ⟨place', description', hnode', h.ne_zero hrelated hne, hdescription', htext'⟩

/-- An instance that can be flattened has its counterpart of the same class, with its properties. -/
theorem Simulates.exists_isInstance (h : Simulates depth S a b) (hslot : S slot slot')
    (hflat : a.FlattensWithin depth slot) {c : ObjectClass} {entries : Dict Tree}
    (hinstance : a.IsInstance slot c entries) :
    ∃ entries', b.IsInstance slot' c entries' ∧ ∀ name node, entries.get? name = some node →
      ∃ node', entries'.get? name = some node' ∧ node.Renamed S node' := by
  obtain ⟨hentries, form, hname⟩ := hinstance
  obtain ⟨entries', hentries', hall⟩ := h.entries hslot hentries
  have hname' : b.classname? slot' = some (c.formName form) :=
    h.classname? hentries hentries' hname fun node hnode => hall _ node hnode (.inl rfl)
  exact ⟨entries', ⟨hentries', form, hname'⟩,
    fun name node hnode => hall name node hnode (.inr (.inr hflat))⟩

/-- A property that stands for a scalar stands for the same in the counterpart. -/
theorem Simulates.exists_property (h : Simulates depth S a b) (hslot : S slot slot')
    (hflat : a.FlattensWithin depth slot) (hnodes : FlattensLike S a levels b more)
    {c : ObjectClass} {entries : Dict Tree} (hinstance : a.IsInstance slot c entries)
    {name : String} {node v : Tree} (hnode : entries.get? name = some node)
    (hv : a.Resolves levels node v) (huid : v.uid? = none) (hchildren : v.children = []) :
    ∃ entries' node', b.IsInstance slot' c entries' ∧ entries'.get? name = some node' ∧
      b.Resolves more node' v := by
  obtain ⟨entries', hinstance', hall⟩ := h.exists_isInstance hslot hflat hinstance
  obtain ⟨node', hnode', hrenamed⟩ := hall _ _ hnode
  have hv' : b.Resolves more node' v := hnodes.resolves_scalar hrenamed hv huid hchildren
  exact ⟨entries', node', hinstance', hnode', hv'⟩

/-- What an object stands for, its counterpart stands for, if that is so of the slots that the nodes
in it refer to. -/
theorem Simulates.flattensTo (h : Simulates depth S a b) (hslot : S slot slot')
    (hflat : a.FlattensWithin depth slot) (hnodes : FlattensLike S a levels b more) {v : Tree}
    (hv : FlattensTo a levels slot v) : ∃ v', FlattensTo b more slot' v' ∧ v.Renamed S v' := by
  have hself : ∀ {v : Tree}, v.uid? = none → v.children = [] → v.Renamed S v :=
    fun huid hchildren => (Tree.renamed_scalar_iff huid hchildren).mpr rfl
  cases hv with
  | primitive hobject hprimitive =>
    exact ⟨v, .primitive (h.primitive hslot hobject hprimitive) hprimitive,
      hprimitive.renamed_iff.mpr rfl⟩
  | @string entries node text hinstance hnode htext =>
    obtain ⟨entries', node', hinstance', hnode', htext'⟩ :=
      h.exists_property hslot hflat hnodes hinstance hnode htext rfl rfl
    exact ⟨.string text, .string hinstance' hnode' htext', hself rfl rfl⟩
  | @data entries node bytes hinstance hnode hbytes =>
    obtain ⟨entries', node', hinstance', hnode', hbytes'⟩ :=
      h.exists_property hslot hflat hnodes hinstance hnode hbytes rfl rfl
    exact ⟨.data bytes, .data hinstance' hnode' hbytes', hself rfl rfl⟩
  | @date entries node seconds date hinstance hnode hseconds hdate =>
    obtain ⟨entries', node', hinstance', hnode', hseconds'⟩ :=
      h.exists_property hslot hflat hnodes hinstance hnode hseconds rfl rfl
    exact ⟨.date date, .date hinstance' hnode' hseconds' hdate, hself rfl rfl⟩
  | @array entries nodes values hinstance hitems hvalues =>
    obtain ⟨entries', hinstance', hall⟩ := h.exists_isInstance hslot hflat hinstance
    obtain ⟨node', hnode', hrenamed⟩ := hall _ _ hitems
    obtain ⟨nodes', hrelated, rfl⟩ := Tree.renamed_array_iff.mp hrenamed
    obtain ⟨values', hvalues', hcarried⟩ := hnodes.resolves_items hrelated hvalues
    exact ⟨.array values', .array hinstance' hnode' hvalues',
      Tree.renamed_array_iff.mpr ⟨values', hcarried, rfl⟩⟩
  | @dictionary entries nodes values hinstance hkeys hitems hvalues =>
    obtain ⟨entries', hinstance', hall⟩ := h.exists_isInstance hslot hflat hinstance
    obtain ⟨keys', hkeys', hrenamedKeys⟩ := hall _ _ hkeys
    obtain ⟨items', hitems', hrenamedItems⟩ := hall _ _ hitems
    obtain ⟨firsts, hfirsts, rfl⟩ := Tree.renamed_array_iff.mp hrenamedKeys
    obtain ⟨seconds, hseconds, rfl⟩ := Tree.renamed_array_iff.mp hrenamedItems
    obtain ⟨nodes', rfl, rfl, hrelated⟩ := exists_pairs_of_forall₂ hfirsts hseconds
    obtain ⟨values', hvalues', hcarried⟩ := hnodes.resolves_entries hrelated hvalues
    exact ⟨.dict (Dict.ofList values'), .dictionary hinstance' hkeys' hitems' hvalues',
      Tree.renamed_dict_iff.mpr ⟨_, hcarried.ofList, rfl⟩⟩

/-- **Archives that flatten alike.**  What a slot flattens to, the related slot flattens to, up to
the references in what is stored in place.  The induction is on the levels, of which each reference
takes one. -/
theorem Simulates.flattensLike (h : Simulates depth S a b) (hdepth : levels ≤ depth)
    (hle : levels ≤ more) : FlattensLike S a levels b more := by
  induction levels generalizing more with
  | zero => intro slot slot' v _ hv; cases hv
  | succ levels ih =>
    obtain ⟨more, rfl⟩ : ∃ m, more = m + 1 := ⟨more - 1, by omega⟩
    have hnodes : FlattensLike S a levels b more :=
      ih (Nat.le_of_succ_le hdepth) (Nat.le_of_succ_le_succ hle)
    intro slot slot' v hslot hv
    have hflat : a.FlattensWithin depth slot := ⟨levels + 1, v, hdepth, hv⟩
    obtain ⟨v', hv', hrenamed⟩ :=
      h.flattensTo hslot hflat hnodes (flattenWithin_succ_eq_ok_iff.mp hv)
    exact ⟨v', flattenWithin_succ_eq_ok_iff.mpr hv', hrenamed⟩

end Objects

/-! ## Slots that stay where they are -/

section Same

variable {depth : Nat} {a b : Archive} {slot levels more : Nat} {v : Tree}

/-- Where every slot is related to itself, what is flattened is the same. -/
theorem Simulates.flattenWithin_eq (h : Simulates depth Eq a b) (hdepth : levels ≤ depth)
    (hle : levels ≤ more) (hv : a.flattenWithin levels slot = .ok v) :
    b.flattenWithin more slot = .ok v := by
  obtain ⟨v', hv', hrenamed⟩ := h.flattensLike hdepth hle slot slot v rfl hv
  rw [Tree.renamed_eq_iff.mp hrenamed] at hv'
  exact hv'

theorem Simulates.resolves_eq (h : Simulates depth Eq a b) (hdepth : levels ≤ depth)
    (hle : levels ≤ more) {node : Tree} (hv : a.Resolves levels node v) :
    b.Resolves more node v := by
  have hnode : node.Renamed Eq node := Tree.renamed_eq_iff.mpr rfl
  obtain ⟨v', hv', hrenamed⟩ := (h.flattensLike hdepth hle).resolves hnode hv
  rw [Tree.renamed_eq_iff.mp hrenamed] at hv'
  exact hv'

theorem Simulates.refl (a : Archive) : Simulates depth Eq a a where
  ne_zero h := h ▸ id
  primitive := by
    rintro slot _ object rfl hobject _
    exact hobject
  entries := by
    rintro slot _ entries rfl hentries
    exact ⟨entries, hentries, fun _ node hnode _ => ⟨node, hnode, by simp⟩⟩

/-- What is flattened does not depend on the number of levels. -/
theorem flattenWithin_mono (hle : levels ≤ more) (hv : a.flattenWithin levels slot = .ok v) :
    a.flattenWithin more slot = .ok v :=
  (Simulates.refl a).flattenWithin_eq (Nat.le_refl _) hle hv

theorem Resolves.mono {node : Tree} (h : a.Resolves levels node v) (hle : levels ≤ more) :
    a.Resolves more node v :=
  (Simulates.refl a).resolves_eq (Nat.le_refl _) hle h

/-- An object that can be flattened needs some number of levels for what it refers to, and cannot be
flattened within that number itself: nothing that it refers to leads back to it. -/
theorem exists_flattensTo_least (hv : a.flattenWithin (levels + 1) slot = .ok v) :
    ∃ least ≤ levels, FlattensTo a least slot v ∧ ¬ a.FlattensWithin least slot := by
  induction levels with
  | zero =>
    refine ⟨0, Nat.le_refl _, flattenWithin_succ_eq_ok_iff.mp hv, ?_⟩
    rintro ⟨fewer, v', hfewer, hv'⟩
    obtain rfl := Nat.le_zero.mp hfewer
    cases hv'
  | succ levels ih =>
    by_cases hflat : a.FlattensWithin (levels + 1) slot
    · obtain ⟨fewer, v', hfewer, hv'⟩ := hflat
      have hsame : v' = v := by
        have hmore := flattenWithin_mono (Nat.le_succ_of_le hfewer) hv'
        exact Except.ok.inj (hmore.symm.trans hv)
      rw [hsame] at hv'
      obtain ⟨least, hle, hleast⟩ := ih (flattenWithin_mono hfewer hv')
      exact ⟨least, Nat.le_succ_of_le hle, hleast⟩
    · exact ⟨levels + 1, Nat.le_refl _, flattenWithin_succ_eq_ok_iff.mp hv, hflat⟩

end Same

end Archive

end PlistCodec
