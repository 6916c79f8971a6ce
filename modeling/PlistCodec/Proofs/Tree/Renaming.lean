import Mathlib.Data.List.Forall2
import PlistCodec.Proofs.Tree.Nodes

/-!
# Trees with other references

What a reference is worth depends on the table that it leads into, so a tree that is carried from
one table to another comes with other slots in its references.  `Tree.Renamed S t t'` says that `t'`
is `t` with such slots, where the relation `S` says which slot may stand for which; everything else
of the tree, its keys included, is the same.
-/

namespace PlistCodec

namespace Dict

variable {α β : Type} {R : α → β → Prop} {d : Dict α} {d' : Dict β}

/-- The same keys in the same order, with related values. -/
def Related (R : α → β → Prop) (d : Dict α) (d' : Dict β) : Prop :=
  List.Forall₂ (fun e e' => e.1 = e'.1 ∧ R e.2 e'.2) d d'

/-- Both have a value under a key, and these are related, or none of them has. -/
theorem Related.rel_get? (h : Related R d d') (key : String) :
    Option.Rel R (d.get? key) (d'.get? key) := by
  induction h with
  | nil => exact .none
  | @cons e e' d d' he _ ih =>
    obtain ⟨name, old⟩ := e
    obtain ⟨name', old'⟩ := e'
    obtain ⟨rfl : name = name', hold⟩ := he
    by_cases hname : name = key
    · rw [Dict.get?, if_pos hname, Dict.get?, if_pos hname]
      exact .some hold
    · rw [Dict.get?, if_neg hname, Dict.get?, if_neg hname]
      exact ih

theorem Related.get? (h : Related R d d') {key : String} {value : α}
    (hvalue : d.get? key = some value) : ∃ value', d'.get? key = some value' ∧ R value value' := by
  have hrel := h.rel_get? key
  rw [hvalue] at hrel
  generalize Dict.get? d' key = value? at hrel
  cases hrel with
  | some hR => exact ⟨_, rfl, hR⟩

theorem Related.keys_eq (h : Related R d d') : d'.keys = d.keys := by
  induction h with
  | nil => rfl
  | cons he _ ih => rw [keys, List.map_cons, ← he.1, ← keys, ih]; rfl

theorem Related.insert (h : Related R d d') (key : String) {value : α} {value' : β}
    (hvalue : R value value') : Related R (d.insert key value) (d'.insert key value') := by
  induction h with
  | nil => exact .cons ⟨rfl, hvalue⟩ .nil
  | @cons e e' d d' he htail ih =>
    obtain ⟨name, old⟩ := e
    obtain ⟨name', old'⟩ := e'
    obtain ⟨rfl : name = name', hold⟩ := he
    by_cases hname : name = key
    · rw [Dict.insert, if_pos hname, Dict.insert, if_pos hname]
      exact .cons ⟨rfl, hvalue⟩ htail
    · rw [Dict.insert, if_neg hname, Dict.insert, if_neg hname]
      exact .cons ⟨rfl, hold⟩ ih

/-- Related entries build up related dictionaries. -/
theorem Related.ofList {entries : List (String × α)} {entries' : List (String × β)}
    (h : Related R entries entries') : Related R (ofList entries) (ofList entries') := by
  have hall : ∀ {d : Dict α} {d' : Dict β}, Related R d d' →
      Related R (d.insertAll entries) (d'.insertAll entries') := by
    induction h with
    | nil => exact fun hd => hd
    | @cons e e' es es' he _ ih =>
      intro d d' hd
      obtain ⟨key, value⟩ := e
      obtain ⟨key', value'⟩ := e'
      obtain ⟨rfl : key = key', hvalue⟩ := he
      exact ih (hd.insert key hvalue)
  exact hall .nil

end Dict

namespace Tree

/-- Every reference of the one tree leads to a slot that `S` relates to the slot of the other one's,
and beside that they are the same. -/
inductive Renamed (S : Nat → Nat → Prop) : Tree → Tree → Prop where
  /-- A reference. -/
  | uid {slot slot' : Nat} (h : S slot slot') : Renamed S (.uid slot) (.uid slot')
  /-- Any other node, by its children. -/
  | node {t : Tree} {ts' : List Tree} (h : t.uid? = none)
      (hs : List.Forall₂ (Renamed S) t.children ts') : Renamed S t (t.withChildren ts')

variable {S : Nat → Nat → Prop} {t t' : Tree}

theorem renamed_uid_iff {slot : Nat} :
    Renamed S (.uid slot) t' ↔ ∃ slot', S slot slot' ∧ t' = .uid slot' := by
  constructor
  · intro h
    cases h with
    | uid h => exact ⟨_, h, rfl⟩
    | node h _ => cases h
  · rintro ⟨slot', h, rfl⟩
    exact .uid h

theorem renamed_iff (huid : t.uid? = none) :
    Renamed S t t' ↔ ∃ ts', List.Forall₂ (Renamed S) t.children ts' ∧ t' = t.withChildren ts' := by
  constructor
  · intro h
    cases h with
    | uid h => cases huid
    | node _ hs => exact ⟨_, hs, rfl⟩
  · rintro ⟨ts', hs, rfl⟩
    exact .node huid hs

/-- A node that is no container and no reference stays as it is. -/
theorem renamed_scalar_iff (huid : t.uid? = none) (h : t.children = []) :
    Renamed S t t' ↔ t' = t := by
  have hself : t.withChildren [] = t := by
    cases t with
    | array items => rw [show items = [] from h]; rfl
    | dict entries => rw [List.map_eq_nil_iff.mp h]; rfl
    | _ => rfl
  rw [renamed_iff huid, h]
  constructor
  · rintro ⟨_, ⟨⟩, rfl⟩
    exact hself
  · rintro rfl
    exact ⟨[], .nil, hself.symm⟩

theorem renamed_array_iff {items : List Tree} :
    Renamed S (.array items) t' ↔
      ∃ items', List.Forall₂ (Renamed S) items items' ∧ t' = .array items' :=
  renamed_iff rfl

theorem renamed_dict_iff {entries : Dict Tree} :
    Renamed S (.dict entries) t' ↔
      ∃ entries', Dict.Related (Renamed S) entries entries' ∧ t' = .dict entries' := by
  rw [renamed_iff rfl]
  constructor
  · rintro ⟨ts', hs, rfl⟩
    refine ⟨entries.zipWith (fun e t => (e.1, t)) ts', ?_, rfl⟩
    simp only [children] at hs
    induction entries generalizing ts' with
    | nil => cases hs; exact .nil
    | cons e es ih =>
      cases hs with
      | cons ht hts => exact .cons ⟨rfl, ht⟩ (ih _ hts)
  · rintro ⟨entries', hs, rfl⟩
    have hchildren : List.Forall₂ (Renamed S) (entries.map Prod.snd) (entries'.map Prod.snd) :=
      List.forall₂_map_left_iff.mpr (List.forall₂_map_right_iff.mpr (hs.imp fun _ _ h => h.2))
    refine ⟨entries'.map Prod.snd, hchildren, ?_⟩
    have hentries : entries.zipWith (fun e t => (e.1, t)) (entries'.map Prod.snd) = entries' := by
      clear hchildren
      induction hs with
      | nil => rfl
      | cons he _ ih => rw [List.map_cons, List.zipWith_cons_cons, ih, he.1]
    rw [withChildren, hentries]

/-! ## Parts of a tree with other references -/

theorem Renamed.rel_uid? (h : Renamed S t t') : Option.Rel S t.uid? t'.uid? := by
  cases h with
  | uid h => exact .some h
  | node h _ =>
    rw [uid?_withChildren, h]
    exact .none

theorem Renamed.string?_eq (h : Renamed S t t') : t'.string? = t.string? := by
  cases h with
  | uid h => rfl
  | @node t ts' _ _ => cases t <;> rfl

theorem Renamed.rel_dict? (h : Renamed S t t') :
    Option.Rel (Dict.Related (Renamed S)) t.dict? t'.dict? := by
  cases t with
  | dict entries =>
    obtain ⟨entries', hentries, rfl⟩ := renamed_dict_iff.mp h
    exact .some hentries
  | _ => cases h <;> exact .none

/-- Only a dictionary becomes a dictionary. -/
theorem Renamed.exists_dict {entries' : Dict Tree} (h : Renamed S t (.dict entries')) :
    ∃ entries, t = .dict entries ∧ Dict.Related (Renamed S) entries entries' := by
  have hrel := h.rel_dict?
  cases hdict : t.dict? with
  | none => rw [hdict] at hrel; cases hrel
  | some entries =>
    rw [hdict] at hrel
    rcases hrel with ⟨hentries⟩
    exact ⟨entries, dict?_eq_some_iff.mp hdict, hentries⟩

theorem Renamed.rel_array? (h : Renamed S t t') :
    Option.Rel (List.Forall₂ (Renamed S)) t.array? t'.array? := by
  cases t with
  | array items =>
    obtain ⟨items', hitems, rfl⟩ := renamed_array_iff.mp h
    exact .some hitems
  | _ => cases h <;> exact .none

/-! ## Trees that stay the same -/

/-- Related lists are equal if each member is related to itself at most. -/
theorem eq_of_forall₂ {α : Type} {R : α → α → Prop} {xs ys : List α} (h : List.Forall₂ R xs ys)
    (heq : ∀ x ∈ xs, ∀ y, R x y → y = x) : ys = xs := by
  induction h with
  | nil => rfl
  | cons hx _ ih =>
    have htail := ih fun x hx => heq x (List.mem_cons_of_mem _ hx)
    rw [heq _ List.mem_cons_self _ hx, htail]

/-- If no reference can become another one, the tree stays as it is. -/
theorem Renamed.eq_of_nodes (h : Renamed S t t')
    (hslots : ∀ slot, .uid slot ∈ t.nodes → ∀ slot', S slot slot' → slot' = slot) : t' = t := by
  induction t using Tree.induct generalizing t' with
  | uid slot =>
    obtain ⟨slot', hslot, rfl⟩ := renamed_uid_iff.mp h
    rw [hslots slot (mem_nodes_self _) slot' hslot]
  | array items ih =>
    obtain ⟨items', hitems, rfl⟩ := renamed_array_iff.mp h
    have heq : items' = items := by
      refine eq_of_forall₂ hitems fun t ht t' hrenamed => ih t ht hrenamed fun slot hslot => ?_
      exact hslots slot (mem_nodes_array ht hslot)
    rw [heq]
  | dict entries ih =>
    obtain ⟨entries', hentries, rfl⟩ := renamed_dict_iff.mp h
    have heq : entries' = entries := by
      refine eq_of_forall₂ hentries fun e he e' hrenamed => ?_
      have hvalue : e'.2 = e.2 := ih e he hrenamed.2 fun slot hslot =>
        hslots slot (mem_nodes_dict he hslot)
      exact Prod.ext hrenamed.1.symm hvalue
    rw [heq]
  | _ => exact (renamed_scalar_iff rfl rfl).mp h

/-- A tree whose slots may all stay is one that has been carried along itself. -/
theorem renamed_self (hslots : ∀ slot, S slot slot) (t : Tree) : Renamed S t t := by
  induction t using Tree.induct with
  | uid slot => exact .uid (hslots slot)
  | array items ih =>
    exact renamed_array_iff.mpr ⟨items, List.forall₂_same.mpr ih, rfl⟩
  | dict entries ih =>
    exact renamed_dict_iff.mpr ⟨entries, List.forall₂_same.mpr fun e he => ⟨rfl, ih e he⟩, rfl⟩
  | _ => exact (renamed_scalar_iff rfl rfl).mpr rfl

@[simp] theorem renamed_eq_iff : Renamed Eq t t' ↔ t' = t := by
  constructor
  · intro h
    exact h.eq_of_nodes fun _ _ _ hslot => hslot.symm
  · rintro rfl
    exact renamed_self (fun _ => rfl) _

end Tree

end PlistCodec
