import PlistCodec.Proofs.Archive.History
import Std.Data.String.ToNat

/-!
# Naming root objects

A further root object is named by the number of those that are there.  Nothing makes sure that the
name is free: a root object that was renamed, or read from a property list, may have it already, and
is then replaced (`addsRoot_iff`).

Names with numbers only come to stand in other places than their own by renaming or by reading.  A
history without such a name loses no root object (`top?_of_reached`).
-/

namespace PlistCodec.Archive

/-! ## Adding a root object -/

/-- A call on `a` that succeeds in naming the object in `slot` as a root object, and leaves `b`. -/
inductive AddsRoot (a : Archive) : (slot : Nat) → (b : Archive) → Prop where
  /-- The object was there. -/
  | present {slot : Nat} {b : Archive} (h : (addTop slot).run a = .ok () b) : AddsRoot a slot b
  /-- The object is a new instance of a class. -/
  | appended {name : String} {ancestors : List String} {slot : Nat} {b : Archive}
      (h : (addTopClass name ancestors).run a = .ok slot b) : AddsRoot a slot b

/-- Whatever the call, the node is stored under the number of the root objects before it. -/
theorem AddsRoot.top?_eq {a b : Archive} {slot : Nat} (h : AddsRoot a slot b) (ha : HasTable a) :
    b.top? = some (Dict.insert a.roots (numberedTopKey a.roots.length) (.uid slot)) := by
  cases h with
  | present h =>
    rw [eq_withTop_of_run_addTop ha h]
    exact top?_withTop _ _
  | @appended name ancestors _ _ h =>
    cases hname : name.isEmpty with
    | true =>
      simp only [addTopClass, appendClass, hname, if_true] at h
      cases h
    | false =>
      have hclass := ha.run_appendClass ancestors hname
      have hslot : a.lastUid + 1 < (a.grown [bareInstance (a.lastUid + 2),
          classDescription name ancestors]).table.length := by
        rw [table_grown, List.length_append, ha.length_table]
        exact Nat.lt_add_of_pos_right (Nat.succ_pos _)
      rw [addTopClass, run_bind_of_ok hclass, run_bind_of_ok (run_addTop (ha.grown _) hslot),
        roots_grown] at h
      cases h
      exact top?_withTop _ _

/-! ## Lost root objects -/

/-- **When a root object is lost.**  A call that names a further root object leaves the others as
they are, in front of the new one, if and only if none of them has the name that is made of their
number.  Otherwise the new one takes the place of the one that has that name. -/
theorem addsRoot_iff {a b : Archive} {slot : Nat} (ha : Reachable a) (h : AddsRoot a slot b) :
    ((∃ name, name ∉ a.roots.keys ∧ b.top? = some (a.roots ++ [(name, .uid slot)])) ↔
      numberedTopKey a.roots.length ∉ a.roots.keys) ∧
    (numberedTopKey a.roots.length ∈ a.roots.keys → ∃ top, b.top? = some top ∧
      top.keys = a.roots.keys ∧ top.get? (numberedTopKey a.roots.length) = some (.uid slot) ∧
      ∀ name, name ≠ numberedTopKey a.roots.length → top.get? name = a.roots.get? name) := by
  have htop := h.top?_eq ha.hasTable
  refine ⟨⟨?_, fun hfree => ?_⟩, fun hused => ?_⟩
  · rintro ⟨name, -, hnew⟩ hused
    have hlength := congrArg List.length (Option.some.inj (htop.symm.trans hnew))
    rw [Dict.length_insert_of_mem hused, List.length_append] at hlength
    exact absurd hlength (Nat.ne_of_lt (Nat.lt_succ_self _))
  · exact ⟨_, hfree, by rw [htop, Dict.insert_of_not_mem hfree]⟩
  · refine ⟨_, htop, Dict.keys_insert_of_mem hused _, Dict.get?_insert_self _ _ _, ?_⟩
    exact fun name hname => Dict.get?_insert_of_ne _ _ hname.symm

/-- An archive whose only root object has the name that the next one gets. -/
def renamed : Archive :=
  (new.after (.addTopClass "NSArray" ["NSObject"])).after (.renameTop "$1")

theorem addsRoot_iff_renamed : Reachable renamed ∧ ∃ b, AddsRoot renamed 3 b ∧
    ((∃ name, name ∉ renamed.roots.keys ∧ b.top? = some (renamed.roots ++ [(name, .uid 3)])) ↔
      numberedTopKey renamed.roots.length ∉ renamed.roots.keys) ∧
    (numberedTopKey renamed.roots.length ∈ renamed.roots.keys → ∃ top, b.top? = some top ∧
      top.keys = renamed.roots.keys ∧
      top.get? (numberedTopKey renamed.roots.length) = some (.uid 3) ∧
      ∀ name, name ≠ numberedTopKey renamed.roots.length →
        top.get? name = renamed.roots.get? name) := by
  have hreachable : Reachable renamed := .step (.step (.initial (.inl rfl)) trivial) trivial
  have hadds : ∃ b, AddsRoot renamed 3 b :=
    ⟨_, @AddsRoot.appended renamed "NSString" ["NSObject"] 3 _ rfl⟩
  obtain ⟨b, hb⟩ := hadds
  exact ⟨hreachable, b, hb, addsRoot_iff hreachable hb⟩

/-- The root object of `renamed` is lost when another one is added. -/
theorem root_of_renamed_lost : Reachable renamed ∧ renamed.roots = [("$1", .uid 1)] ∧
    ∃ b, AddsRoot renamed 3 b ∧ b.top? = some [("$1", .uid 3)] :=
  ⟨.step (.step (.initial (.inl rfl)) trivial) trivial, rfl, _,
    @AddsRoot.appended renamed "NSString" ["NSObject"] 3 _ rfl, rfl⟩

/-! ## Histories without lost root objects -/

theorem numberedTopKey_injective {m n : Nat} (h : numberedTopKey m = numberedTopKey n) : m = n := by
  have hdigits : toString m = toString n := (String.append_right_inj "$").mp h
  exact Nat.repr_injective hdigits

/-- A name with a number in it stands in the place that the number says. -/
def Numbered (names : List String) : Prop :=
  ∀ place name, names[place]? = some name → ∀ n, name = numberedTopKey n → n = place

theorem Numbered.not_mem {names : List String} (h : Numbered names) :
    numberedTopKey names.length ∉ names := by
  intro hmem
  obtain ⟨place, hplace⟩ := List.mem_iff_getElem?.mp hmem
  have hlt := (List.getElem?_eq_some_iff.mp hplace).1
  have heq := h place _ hplace _ rfl
  omega

theorem Numbered.append {names : List String} (h : Numbered names) :
    Numbered (names ++ [numberedTopKey names.length]) := by
  intro place name hplace n hn
  by_cases hlt : place < names.length
  · rw [List.getElem?_append_left hlt] at hplace
    exact h place name hplace n hn
  · have hlast := (List.getElem?_eq_some_iff.mp hplace).1
    rw [List.length_append, List.length_singleton] at hlast
    obtain rfl : place = names.length := by omega
    rw [List.getElem?_concat_length] at hplace
    cases hplace
    exact (numberedTopKey_injective hn).symm

theorem Numbered.rename {first name : String} {rest : List String} (h : Numbered (first :: rest))
    (hname : ∀ n, name = numberedTopKey n → n = 0) : Numbered (name :: rest) := by
  intro place other hplace n hn
  cases place with
  | zero =>
    obtain rfl : name = other := Option.some.inj hplace
    exact hname n hn
  | succ place => exact h (place + 1) other hplace n hn

section Histories

variable {a b : Archive}

/-- **One step** adds a name that is numbered by its place, if any. -/
theorem Numbered.step {I : Invariant} {call : Call} (h : Numbered a.roots.keys)
    (hcall : ∀ n, call = .renameTop (numberedTopKey n) → n = 0) (hstep : Step I call a b) :
    Numbered b.roots.keys := by
  cases hstep with
  | grow =>
    rw [roots_grown]
    exact h
  | write =>
    rw [roots_withEntries]
    exact h
  | add =>
    have happend := h.append
    have hfresh := h.not_mem
    rw [Dict.length_keys] at happend hfresh
    rw [roots_withTop, Dict.insert_of_not_mem hfresh, Dict.keys, List.map_append]
    exact happend
  | @rename name top hname htop =>
    have hroots : a.roots = top := by rw [roots, htop, Option.getD_some]
    rw [hroots] at h
    rw [roots_withTop]
    cases top with
    | nil => exact h
    | cons first rest =>
      refine Numbered.rename h fun n hn => hcall n ?_
      exact hname.trans (congrArg _ hn)

/-- One call does so as well. -/
theorem Numbered.after (h : Numbered a.roots.keys) (ha : HasTable a) {call : Call}
    (hcall : ∀ n, call = .renameTop (numberedTopKey n) → n = 0) :
    Numbered (a.after call).roots.keys :=
  ((steps_after call.brings_anything ha).keep (p := fun c => Numbered c.roots.keys) ha h
    fun _ _ _ hc hstep => hc.step hcall hstep).2

/-- **When no root object is lost.**  On an archive whose root objects have no numbers in their
names but those of their places, the new archive for one, calls lose no root object as long as
renaming gives no name with a number but `$0`. -/
theorem top?_of_reached {slot : Nat}
    (h : Reached (fun a => HasTable a ∧ Numbered a.roots.keys)
      (fun _ call => ∀ n, call = .renameTop (numberedTopKey n) → n = 0) a)
    (hadds : AddsRoot a slot b) :
    b.top? = some (a.roots ++ [(numberedTopKey a.roots.length, .uid slot)]) := by
  have hnumbered : HasTable a ∧ Numbered a.roots.keys := by
    clear hadds
    induction h with
    | initial h => exact h
    | step _ hcall ih => exact ⟨ih.1.after _, ih.2.after ih.1 hcall⟩
  have hfresh := hnumbered.2.not_mem
  rw [Dict.length_keys] at hfresh
  rw [hadds.top?_eq hnumbered.1, Dict.insert_of_not_mem hfresh]

end Histories

end PlistCodec.Archive
