import PlistCodec.Proofs.Archive.FlattensTo
import PlistCodec.Proofs.Tree.Renaming

/-!
# Levels of flattening

Each reference that flattening follows takes a level, and flattening fails when it is out of levels.
A node *settles* within a number of levels if all references that flattening may follow from it come
to an end within as many.  If it settles, flattening does not run out of levels, whatever else it
may fail for (`Settles.resolve_ne`); and if flattening succeeds, the node settles
(`settles_of_resolves`).  Whether a node settles depends on the names of classes and on properties
alone, so it is the same for a copy (`settles_iff_of_mirrors`).

More levels than a success or another failure needs make no difference (`flattenWithin_eq_or`).
Both this and what is said of nodes that settle carries over from the steps of flattening to the
whole of it, so the steps are gone through once, for any relation that carries over (`Carries`).
-/

namespace PlistCodec

/-! ## Related lists and optional values -/

/-- What related members have, the members of a list have that is related to another one. -/
theorem forall_mem_of_forall₂ {α β : Type} {R : α → β → Prop} {p : α → Prop} {xs : List α}
    {ys : List β} (h : List.Forall₂ R xs ys) (hp : ∀ x y, R x y → p x) : ∀ x ∈ xs, p x := by
  have hand : List.Forall₂ (fun x y => p x ∧ R x y) xs ys := h.imp fun x y hxy => ⟨hp x y hxy, hxy⟩
  exact ((List.forall₂_and_left xs ys).mp hand).1

theorem forall_mem_iff_of_forall₂ {α β : Type} {R : α → β → Prop} {p : α → Prop} {q : β → Prop}
    {xs : List α} {ys : List β} (h : List.Forall₂ R xs ys) (hpq : ∀ x y, R x y → (p x ↔ q y)) :
    (∀ x ∈ xs, p x) ↔ ∀ y ∈ ys, q y := by
  induction h with
  | nil => exact iff_of_true (List.forall_mem_nil _) (List.forall_mem_nil _)
  | cons hx _ ih => rw [List.forall_mem_cons, List.forall_mem_cons, hpq _ _ hx, ih]

/-- Related values that are related still after one step more. -/
theorem rel_bind {α α' β β' : Type} {R : α → α' → Prop} {S : β → β' → Prop} {x? : Option α}
    {y? : Option α'} {f : α → Option β} {g : α' → Option β'} (h : Option.Rel R x? y?)
    (hf : ∀ x y, R x y → Option.Rel S (f x) (g y)) : Option.Rel S (x?.bind f) (y?.bind g) := by
  cases h with
  | some hR => exact hf _ _ hR
  | none => exact .none

theorem rel_eq_iff {α : Type} {x? y? : Option α} : Option.Rel Eq x? y? ↔ x? = y? := by
  constructor
  · rintro (rfl | _) <;> rfl
  · rintro rfl
    cases x? with
    | some x => exact .some rfl
    | none => exact .none

theorem forall₂_toList {α β : Type} {R : α → β → Prop} {x? : Option α} {y? : Option β}
    (h : Option.Rel R x? y?) : List.Forall₂ R x?.toList y?.toList := by
  cases h with
  | some hR => exact .cons hR .nil
  | none => exact .nil

theorem forall₂_getD {α β : Type} {R : α → β → Prop} {xs? : Option (List α)} {ys? : Option (List β)}
    (h : Option.Rel (List.Forall₂ R) xs? ys?) : List.Forall₂ R (xs?.getD []) (ys?.getD []) := by
  cases h with
  | some hR => exact hR
  | none => exact .nil

namespace Archive

/-! ## Outcomes -/

/-- The failure of a reading that is out of levels. -/
def outOfLevels : Error := .recursionLimit maxDepth

/-- A relation between the outcomes of two readings that carries over from the first steps of the
readings to the readings. -/
structure Carries (R : (α : Type) → Except Error α → Except Error α → Prop) : Prop where
  /-- Outcomes that are the same are related, unless levels are missing. -/
  same : ∀ {α : Type} {r : Except Error α}, r ≠ .error outOfLevels → R α r r
  /-- One step after the other. -/
  bind : ∀ {α β : Type} {r r' : Except Error α} {f f' : α → Except Error β}, R α r r' →
    (∀ x, r = .ok x → R β (f x) (f' x)) → R β (r >>= f) (r' >>= f')

/-- Levels are not missing on the left. -/
theorem carries_ne : Carries fun _ r _ => r ≠ .error outOfLevels where
  same h := h
  bind := by
    intro α β r r' f f' h hf
    cases r with
    | error e => exact fun herror => h (congrArg _ (Except.error.inj herror))
    | ok x => exact hf x rfl

/-- If levels are not missing on the left, the outcomes are the same. -/
theorem carries_eq_or : Carries fun _ r r' => r = .error outOfLevels ∨ r = r' where
  same _ := .inr rfl
  bind := by
    rintro α β r r' f f' (rfl | rfl) hf
    · exact .inl rfl
    · cases r with
      | error e => exact .inr rfl
      | ok x => exact hf x rfl

section Carrying

variable {R : (α : Type) → Except Error α → Except Error α → Prop} {α β σ : Type}

theorem Carries.ok (h : Carries R) (x : α) : R α (.ok x) (.ok x) := h.same (by rintro ⟨⟩)

theorem Carries.error (h : Carries R) {e : Error} (he : e ≠ outOfLevels) :
    R α (.error e) (.error e) :=
  h.same fun herror => he (Except.error.inj herror)

theorem Carries.orFail (h : Carries R) {e : Error} (he : e ≠ outOfLevels) (x? : Option α) :
    R α (Archive.orFail e x?) (Archive.orFail e x?) := by
  cases x? with
  | none => exact h.error he
  | some x => exact h.ok x

theorem Carries.mapM (h : Carries R) {f f' : α → Except Error β} {xs : List α}
    (hf : ∀ x ∈ xs, R β (f x) (f' x)) : R (List β) (xs.mapM f) (xs.mapM f') := by
  induction xs with
  | nil => exact h.ok []
  | cons x xs ih =>
    have htail := ih fun x hx => hf x (List.mem_cons_of_mem _ hx)
    rw [List.mapM_cons, List.mapM_cons]
    exact h.bind (hf x List.mem_cons_self) fun y _ => h.bind htail fun ys _ => h.ok (y :: ys)

theorem Carries.foldlM (h : Carries R) {step step' : σ → α → Except Error σ} {xs : List α}
    (hstep : ∀ x ∈ xs, ∀ s, R σ (step s x) (step' s x)) (s : σ) :
    R σ (xs.foldlM step s) (xs.foldlM step' s) := by
  induction xs generalizing s with
  | nil => exact h.ok s
  | cons x xs ih =>
    rw [List.foldlM_cons, List.foldlM_cons]
    refine h.bind (hstep x List.mem_cons_self s) fun t _ => ?_
    exact ih (fun x hx => hstep x (List.mem_cons_of_mem _ hx)) t

end Carrying

/-! ## The nodes that are followed -/

/-- The items of a property that is a list, and none if it is not. -/
def listedNodes (a : Archive) (slot : Nat) (name : String) : List Tree :=
  ((a.property? slot name).bind Tree.array?).getD []

/-- The nodes that flattening follows from an instance of a class. -/
def nodesOf (a : Archive) (slot : Nat) : ObjectClass → List Tree
  | .dictionary => a.listedNodes slot keysKey ++ a.listedNodes slot itemsKey
  | .array => a.listedNodes slot itemsKey
  | .string => (a.property? slot stringKey).toList
  | .data => (a.property? slot dataKey).toList
  | .date => (a.property? slot timeKey).toList
  | .url => []

/-- The nodes that flattening follows from the object in a slot. -/
def followed (a : Archive) (slot : Nat) : List Tree :=
  match (a.classname? slot).bind ObjectClass.ofName? with
  | some c => a.nodesOf slot c
  | none => []

section Followed

variable {a : Archive} {slot : Nat} {c : ObjectClass} {entries : Dict Tree} {name : String}

theorem mem_listedNodes {nodes : List Tree} {node : Tree} (h : a.listProperty slot name = .ok nodes)
    (hnode : node ∈ nodes) : node ∈ a.listedNodes slot name := by
  obtain ⟨value, hvalue, h⟩ := exists_of_bind_eq_ok h
  rw [property, orFail_eq_ok_iff] at hvalue
  rw [orFail_eq_ok_iff] at h
  rw [listedNodes, hvalue, Option.bind_some, h]
  exact hnode

theorem IsInstance.followed_eq (h : a.IsInstance slot c entries) :
    a.followed slot = a.nodesOf slot c := by
  obtain ⟨form, hname⟩ := h.classname?_eq
  rw [followed, hname, Option.bind_some, ofName?_formName]

/-- Nothing is followed from an object that stands for itself. -/
theorem followed_of_primitive {object : Tree} (hobject : a.find? slot = some object)
    (h : Primitive object) : a.followed slot = [] := by
  have hnone : a.instanceAt slot = .error (.unexpectedObject slot "dictionary") := by
    rw [instanceAt, object_of_find? hobject]
    cases object with
    | dict entries => cases h
    | _ => rfl
  rw [followed, classname?, hnone]
  rfl

theorem IsInstance.property?_eq (h : a.IsInstance slot c entries) (name : String) :
    a.property? slot name = entries.get? name := by
  rw [property?, instanceAt_eq_ok_iff_find?.mpr h.find?_eq]
  rfl

theorem IsInstance.listedNodes_eq (h : a.IsInstance slot c entries) {nodes : List Tree}
    (hnodes : entries.get? name = some (.array nodes)) : a.listedNodes slot name = nodes := by
  rw [listedNodes, h.property?_eq, hnodes]
  rfl

section Carrying

variable {R : (α : Type) → Except Error α → Except Error α → Prop}
variable {follow follow' : Nat → Except Error Tree}

theorem Carries.listProperty (h : Carries R) (name : String) :
    R (List Tree) (a.listProperty slot name) (a.listProperty slot name) :=
  h.bind (h.orFail (by rintro ⟨⟩) _) fun _ _ => h.orFail (by rintro ⟨⟩) _

/-- A property that is followed, and what is made of it. -/
theorem Carries.property (h : Carries R) {f : Tree → Except Error Tree}
    (hnodes : ∀ node ∈ (a.property? slot name).toList,
      R Tree (resolve follow node) (resolve follow' node))
    (hf : ∀ value, f value ≠ .error outOfLevels) :
    R Tree (a.property slot name >>= fun node => resolve follow node >>= f)
      (a.property slot name >>= fun node => resolve follow' node >>= f) := by
  refine h.bind (h.orFail (by rintro ⟨⟩) _) fun node hnode => ?_
  rw [Archive.property, orFail_eq_ok_iff] at hnode
  have hmem : node ∈ (a.property? slot name).toList := by
    rw [hnode]
    exact List.mem_singleton_self _
  exact h.bind (hnodes node hmem) fun value _ => h.same (hf value)

/-- What carries over from the nodes that flattening follows from an instance carries over to the
instance. -/
theorem Carries.flattenInstance (h : Carries R)
    (hnodes : ∀ node ∈ a.nodesOf slot c, R Tree (resolve follow node) (resolve follow' node)) :
    R Tree (a.flattenInstance follow slot c) (a.flattenInstance follow' slot c) := by
  cases c with
  | string => exact h.property hnodes fun value => by cases value <;> rintro ⟨⟩
  | data => exact h.property hnodes fun value => by cases value <;> rintro ⟨⟩
  | date =>
    refine h.property hnodes fun value => ?_
    cases value with
    | real seconds =>
      simp only
      cases Date.ofReferenceSeconds? seconds <;> rintro ⟨⟩
    | _ => rintro ⟨⟩
  | array =>
    refine h.bind (h.listProperty itemsKey) fun nodes hitems => ?_
    have hvalues := h.mapM fun node hnode => hnodes node (mem_listedNodes hitems hnode)
    exact h.bind hvalues fun values _ => h.ok _
  | dictionary =>
    refine h.bind (h.listProperty keysKey) fun keys hkeys => ?_
    refine h.bind (h.listProperty itemsKey) fun items hitems => ?_
    split
    · refine h.bind (h.foldlM ?_ []) fun d _ => h.ok _
      rintro ⟨keyNode, valueNode⟩ hpair d
      have hkey := mem_listedNodes hkeys (List.of_mem_zip hpair).1
      have hvalue := mem_listedNodes hitems (List.of_mem_zip hpair).2
      refine h.bind (hnodes _ (List.mem_append_left _ hkey)) fun resolved _ => ?_
      refine h.bind (h.orFail (by rintro ⟨⟩) _) fun key _ => ?_
      exact h.bind (hnodes _ (List.mem_append_right _ hvalue)) fun value _ => h.ok _
    · exact h.error (by rintro ⟨⟩)
  | url => exact h.error (by rintro ⟨⟩)

end Carrying

end Followed

/-! ## Nodes that settle -/

/-- All references that flattening may follow from the node come to an end within `levels` levels.
One to slot 0 leads nowhere. -/
inductive Settles (a : Archive) : (levels : Nat) → Tree → Prop where
  /-- A node that is no reference. -/
  | inline {levels : Nat} {t : Tree} (h : t.uid? = none) : Settles a levels t
  /-- No object. -/
  | null {levels : Nat} : Settles a (levels + 1) (.uid 0)
  /-- A reference, by the nodes that are followed from its object. -/
  | reference {levels slot : Nat} (h : ∀ node ∈ a.followed slot, Settles a levels node) :
    Settles a (levels + 1) (.uid slot)

section Settling

variable {a : Archive} {levels more slot : Nat}

theorem not_settles_zero : ¬ a.Settles 0 (.uid slot) := by
  intro h
  cases h with
  | inline h => cases h

theorem settles_uid_iff : a.Settles (levels + 1) (.uid slot) ↔
    slot = 0 ∨ ∀ node ∈ a.followed slot, a.Settles levels node := by
  constructor
  · intro h
    cases h with
    | inline h => cases h
    | null => exact .inl rfl
    | reference h => exact .inr h
  · rintro (rfl | h)
    · exact .null
    · exact .reference h

theorem Settles.succ {t : Tree} (h : a.Settles levels t) : a.Settles (levels + 1) t := by
  induction h with
  | inline h => exact .inline h
  | null => exact .null
  | reference _ ih => exact .reference ih

/-- What carries over from the nodes that are followed carries over to the object. -/
theorem Carries.flattenWithin {R : (α : Type) → Except Error α → Except Error α → Prop}
    (h : Carries R) (hnodes : ∀ node ∈ a.followed slot,
      R Tree (resolve (a.flattenWithin levels) node) (resolve (a.flattenWithin more) node)) :
    R Tree (a.flattenWithin (levels + 1) slot) (a.flattenWithin (more + 1) slot) := by
  have hobject : R Tree (a.object slot) (a.object slot) := by
    have hobjects : R (List Tree) a.objects a.objects :=
      h.bind (h.orFail (by rintro ⟨⟩) _) fun value _ => h.orFail (by rintro ⟨⟩) _
    exact h.bind hobjects fun objects _ => h.orFail (by rintro ⟨⟩) _
  rw [Archive.flattenWithin, Archive.flattenWithin]
  refine h.bind hobject fun object _ => ?_
  cases object with
  | dict entries =>
    refine h.bind (h.orFail (by rintro ⟨⟩) _) fun name hname => ?_
    refine h.bind (h.orFail (by rintro ⟨⟩) _) fun c hc => h.flattenInstance fun node hnode => ?_
    rw [orFail_eq_ok_iff] at hname hc
    refine hnodes node ?_
    rw [followed, hname, Option.bind_some, hc]
    exact hnode
  | date value => exact h.error (by rintro ⟨⟩)
  | uid slot => exact h.error (by rintro ⟨⟩)
  | array items => exact h.error (by rintro ⟨⟩)
  | _ => exact h.ok _

/-- **Flattening what settles.**  It does not run out of levels. -/
theorem Settles.resolve_ne (hnull : a.find? 0 = some (.string nullText)) {node : Tree}
    (h : a.Settles levels node) : resolve (a.flattenWithin levels) node ≠ .error outOfLevels := by
  induction h with
  | @inline levels t h =>
    rw [show resolve (a.flattenWithin levels) t = .ok t from resolves_inline h]
    rintro ⟨⟩
  | @null levels =>
    rw [resolve, flattenWithin_of_primitive hnull trivial]
    rintro ⟨⟩
  | @reference levels slot _ ih => exact @Carries.flattenWithin a levels levels slot _ carries_ne ih

/-- Where flattening succeeds, every node that it follows from the object is resolved, with a level
less. -/
theorem FlattensTo.exists_resolves {v : Tree} (h : FlattensTo a levels slot v) :
    ∀ node ∈ a.followed slot, ∃ w, a.Resolves levels node w := by
  cases h with
  | primitive hobject hprimitive =>
    rw [followed_of_primitive hobject hprimitive]
    exact List.forall_mem_nil _
  | string hinstance hnode htext =>
    rw [hinstance.followed_eq, nodesOf, hinstance.property?_eq, hnode]
    exact List.forall_mem_singleton.mpr ⟨_, htext⟩
  | data hinstance hnode hbytes =>
    rw [hinstance.followed_eq, nodesOf, hinstance.property?_eq, hnode]
    exact List.forall_mem_singleton.mpr ⟨_, hbytes⟩
  | date hinstance hnode hseconds _ =>
    rw [hinstance.followed_eq, nodesOf, hinstance.property?_eq, hnode]
    exact List.forall_mem_singleton.mpr ⟨_, hseconds⟩
  | array hinstance hitems hvalues =>
    rw [hinstance.followed_eq, nodesOf, hinstance.listedNodes_eq hitems]
    exact forall_mem_of_forall₂ hvalues fun _ w hvalue => ⟨w, hvalue⟩
  | dictionary hinstance hkeys hitems hvalues =>
    rw [hinstance.followed_eq, nodesOf, hinstance.listedNodes_eq hkeys,
      hinstance.listedNodes_eq hitems, List.forall_mem_append, List.forall_mem_map,
      List.forall_mem_map]
    exact ⟨forall_mem_of_forall₂ hvalues fun _ _ hvalue => ⟨_, hvalue.1⟩,
      forall_mem_of_forall₂ hvalues fun _ _ hvalue => ⟨_, hvalue.2⟩⟩

/-- **What can be flattened settles.** -/
theorem settles_of_resolves {node v : Tree} (h : a.Resolves levels node v) :
    a.Settles levels node := by
  induction levels generalizing node v with
  | zero =>
    cases node with
    | uid slot => cases h
    | _ => exact .inline rfl
  | succ levels ih =>
    cases node with
    | uid slot =>
      refine .reference fun next hnext => ?_
      obtain ⟨w, hw⟩ := (flattenWithin_succ_eq_ok_iff.mp h).exists_resolves next hnext
      exact ih hw
    | _ => exact .inline rfl

/-- **More levels.**  Unless levels were missing, the outcome stays the same. -/
theorem flattenWithin_eq_or (hle : levels ≤ more) :
    a.flattenWithin levels slot = .error outOfLevels ∨
      a.flattenWithin levels slot = a.flattenWithin more slot := by
  induction levels generalizing more slot with
  | zero => exact .inl rfl
  | succ levels ih =>
    obtain ⟨more, rfl⟩ : ∃ m, more = m + 1 := ⟨more - 1, by omega⟩
    refine carries_eq_or.flattenWithin fun node _ => ?_
    cases node with
    | uid slot => exact ih (Nat.le_of_succ_le_succ hle)
    | _ => exact .inr rfl

end Settling

/-! ## Copies -/

theorem property?_eq_bind (a : Archive) (slot : Nat) (name : String) :
    a.property? slot name
      = ((a.find? slot).bind Tree.dict?).bind fun entries => Dict.get? entries name := by
  rw [property?, instanceAt, find?]
  cases a.object slot with
  | error e => rfl
  | ok object => cases object <;> rfl

theorem classname?_eq_bind (a : Archive) (slot : Nat) :
    a.classname? slot = ((a.property? slot classKey).bind Tree.uid?).bind fun place =>
      if place = 0 then none else (a.property? place classnameKey).bind Tree.string? := by
  rw [classname?, property?]
  cases (a.instanceAt slot).toOption with
  | none => rfl
  | some entries =>
    simp only [property?, bind, Option.bind_some, Option.bind_assoc]

section Copies

variable {source b : Archive} {slot slot' : Nat}

theorem Mirrors.eq_zero_iff {find find' : Nat → Option Tree} (h : Mirrors find find' slot slot') :
    slot = 0 ↔ slot' = 0 := by
  cases h with
  | null => exact Iff.rfl
  | copy hslot hslot' _ _ _ => exact iff_of_false hslot hslot'

/-- The properties of a copy are copies of the properties. -/
theorem Mirrors.rel_property? (h : Mirrors source.find? b.find? slot slot') (hne : slot ≠ 0)
    (name : String) : Option.Rel (Tree.Renamed (Mirrors source.find? b.find?))
      (source.property? slot name) (b.property? slot' name) := by
  cases h with
  | null => exact absurd rfl hne
  | copy _ _ hobject hobject' hrenamed =>
    rw [property?_eq_bind, property?_eq_bind, hobject, hobject']
    exact rel_bind hrenamed.rel_dict? fun _ _ hentries => hentries.rel_get? name

theorem Mirrors.classname?_eq (h : Mirrors source.find? b.find? slot slot') (hne : slot ≠ 0) :
    source.classname? slot = b.classname? slot' := by
  have hrel : Option.Rel Eq (source.classname? slot) (b.classname? slot') := by
    rw [classname?_eq_bind, classname?_eq_bind]
    refine rel_bind (rel_bind (h.rel_property? hne classKey) fun _ _ hnode => hnode.rel_uid?) ?_
    intro place place' hplace
    by_cases hzero : place = 0
    · rw [if_pos hzero, if_pos (hplace.eq_zero_iff.mp hzero)]
      exact .none
    · rw [if_neg hzero, if_neg fun hzero' => hzero (hplace.eq_zero_iff.mpr hzero')]
      refine rel_bind (hplace.rel_property? hzero classnameKey) fun node node' hnode => ?_
      rw [hnode.string?_eq]
      exact rel_eq_iff.mpr rfl
  exact rel_eq_iff.mp hrel

theorem Mirrors.forall₂_listedNodes (h : Mirrors source.find? b.find? slot slot') (hne : slot ≠ 0)
    (name : String) : List.Forall₂ (Tree.Renamed (Mirrors source.find? b.find?))
      (source.listedNodes slot name) (b.listedNodes slot' name) :=
  forall₂_getD (rel_bind (h.rel_property? hne name) fun _ _ hnode => hnode.rel_array?)

/-- What is followed from a copy are copies of what is followed. -/
theorem Mirrors.forall₂_followed (h : Mirrors source.find? b.find? slot slot') (hne : slot ≠ 0) :
    List.Forall₂ (Tree.Renamed (Mirrors source.find? b.find?)) (source.followed slot)
      (b.followed slot') := by
  rw [followed, followed, h.classname?_eq hne]
  split
  · next c _ =>
    cases c with
    | dictionary =>
      exact List.rel_append (h.forall₂_listedNodes hne keysKey) (h.forall₂_listedNodes hne itemsKey)
    | array => exact h.forall₂_listedNodes hne itemsKey
    | url => exact .nil
    | _ => exact forall₂_toList (h.rel_property? hne _)
  · exact .nil

/-- **A copy settles as the original does.** -/
theorem settles_iff_of_mirrors {levels : Nat} {t t' : Tree}
    (h : t.Renamed (Mirrors source.find? b.find?) t') :
    source.Settles levels t ↔ b.Settles levels t' := by
  induction levels generalizing t t' with
  | zero =>
    cases h with
    | uid _ => exact iff_of_false not_settles_zero not_settles_zero
    | node huid _ =>
      exact iff_of_true (.inline huid) (.inline (by rw [Tree.uid?_withChildren, huid]))
  | succ levels ih =>
    cases h with
    | @uid slot slot' hslot =>
      rw [settles_uid_iff, settles_uid_iff, ← hslot.eq_zero_iff]
      by_cases hzero : slot = 0
      · exact iff_of_true (.inl hzero) (.inl hzero)
      · exact or_congr_right (forall_mem_iff_of_forall₂ (hslot.forall₂_followed hzero)
          fun _ _ hnode => ih hnode)
    | node huid _ =>
      exact iff_of_true (.inline huid) (.inline (by rw [Tree.uid?_withChildren, huid]))

end Copies

end Archive

end PlistCodec
