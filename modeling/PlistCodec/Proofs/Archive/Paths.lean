import Mathlib.Data.List.Chain
import PlistCodec.Proofs.Archive.Levels

/-!
# Endless and overlong paths

Flattening keeps no record of the slots that it has come through; it counts levels, and nothing
else.  That is enough to keep it out of a cycle.  Each reference that it follows takes a level
(`exists_of_hop`), and it follows all references of an instance or fails, so whatever path leads
away from an object is walked to its end before the object is flattened
(`exists_fewer_of_isChain`).  A cycle could be walked again with the levels that are left, and again
after that, until there are none (`not_mem_of_isChain`).
-/

namespace PlistCodec.Archive

/-- Flattening the object in `slot` follows a reference to `next`. -/
def Hop (a : Archive) (slot next : Nat) : Prop := Tree.uid next ∈ a.followed slot

section Paths

variable {a : Archive} {levels slot next target : Nat} {path : List Nat} {v : Tree}

theorem flattenWithin_zero_ne_ok : a.flattenWithin 0 slot ≠ .ok v := by
  rintro ⟨⟩

/-- **One hop** takes a level. -/
theorem exists_of_hop (h : a.flattenWithin (levels + 1) slot = .ok v) (hhop : a.Hop slot next) :
    ∃ w, a.flattenWithin levels next = .ok w :=
  (flattenWithin_succ_eq_ok_iff.mp h).exists_resolves (.uid next) hhop

/-- **A path** takes a level for each hop, and the object at its end is flattened with the levels
that are left. -/
theorem exists_fewer_of_isChain (h : a.flattenWithin levels slot = .ok v)
    (hpath : List.IsChain a.Hop (slot :: (path ++ [target]))) :
    ∃ fewer w, fewer + (path.length + 1) = levels ∧ a.flattenWithin fewer target = .ok w := by
  induction path generalizing levels slot v with
  | nil =>
    cases levels with
    | zero => exact absurd h flattenWithin_zero_ne_ok
    | succ levels =>
      obtain ⟨w, hw⟩ := exists_of_hop h (List.isChain_cons_cons.mp hpath).1
      exact ⟨levels, w, rfl, hw⟩
  | cons next rest ih =>
    cases levels with
    | zero => exact absurd h flattenWithin_zero_ne_ok
    | succ levels =>
      obtain ⟨hhop, hrest⟩ := List.isChain_cons_cons.mp hpath
      obtain ⟨w, hw⟩ := exists_of_hop h hhop
      obtain ⟨fewer, x, hfewer, hx⟩ := ih hw hrest
      exact ⟨fewer, x, by rw [List.length_cons]; omega, hx⟩

/-- There are fewer hops on a path than levels. -/
theorem length_lt_of_isChain (h : a.flattenWithin levels slot = .ok v)
    (hpath : List.IsChain a.Hop (slot :: path)) : path.length < levels := by
  rcases List.eq_nil_or_concat path with rfl | ⟨front, last, rfl⟩
  · refine Nat.pos_of_ne_zero ?_
    rintro rfl
    exact flattenWithin_zero_ne_ok h
  · rw [List.concat_eq_append] at hpath ⊢
    obtain ⟨fewer, w, hfewer, hw⟩ := exists_fewer_of_isChain h hpath
    have hpos : fewer ≠ 0 := by
      rintro rfl
      exact flattenWithin_zero_ne_ok hw
    rw [List.length_append, List.length_singleton]
    omega

/-- No path leads back to where it began. -/
theorem not_mem_of_isChain (h : a.flattenWithin levels slot = .ok v)
    (hpath : List.IsChain a.Hop (slot :: path)) : slot ∉ path := by
  -- on the levels: the way round takes some of them, and ends where it can be gone again
  induction levels using Nat.strong_induction_on generalizing v with
  | _ levels ih =>
    intro hmem
    obtain ⟨round, rest, rfl⟩ := List.append_of_mem hmem
    have hround : List.IsChain a.Hop (slot :: (round ++ [slot])) :=
      hpath.prefix ⟨rest, by simp⟩
    obtain ⟨fewer, w, hfewer, hw⟩ := exists_fewer_of_isChain h hround
    exact ih fewer (by omega) hw hmem

/-- No path comes through a slot twice. -/
theorem nodup_of_isChain (h : a.flattenWithin levels slot = .ok v)
    (hpath : List.IsChain a.Hop (slot :: path)) : (slot :: path).Nodup := by
  induction path generalizing levels slot v with
  | nil => exact List.pairwise_singleton _ slot
  | cons next rest ih =>
    refine List.nodup_cons.mpr ⟨not_mem_of_isChain h hpath, ?_⟩
    obtain ⟨hhop, hrest⟩ := List.isChain_cons_cons.mp hpath
    cases levels with
    | zero => exact absurd h flattenWithin_zero_ne_ok
    | succ levels =>
      obtain ⟨w, hw⟩ := exists_of_hop h hhop
      exact ih hw hrest

end Paths

/-- **Endless and overlong paths.**  If one can come back to a slot by following the references that
flattening follows from an object, or can follow more of them in a row than there are levels, then
the object is not flattened. -/
theorem flattenObject_eq_error_of_isChain {a : Archive} {slot : Nat} {path : List Nat}
    (hpath : List.IsChain a.Hop (slot :: path))
    (h : ¬ (slot :: path).Nodup ∨ maxDepth < path.length) :
    ∃ e, a.flattenObject slot = .error e := by
  cases hflatten : a.flattenObject slot with
  | error e => exact ⟨e, rfl⟩
  | ok v =>
    rcases h with hagain | hlong
    · exact absurd (nodup_of_isChain hflatten hpath) hagain
    · have hlt := length_lt_of_isChain hflatten hpath
      omega

/-- An array object with a dictionary object in it that leads back to the array. -/
def roundabout : Archive :=
  (((new.after (.addTopClass "NSArray" ["NSObject"])).after
    (.appendClass "NSDictionary" ["NSObject"])).after (.appendItem 1 (.inlineTree (.uid 3)))).after
    (.addEntry 3 "back" (.inlineTree (.uid 1)))

theorem flattenObject_roundabout : List.IsChain roundabout.Hop [1, 3, 1] ∧
    ¬ [1, 3, 1].Nodup ∧ ∃ e, roundabout.flattenObject 1 = .error e := by
  have hfirst : roundabout.followed 1 = [.uid 3] := by rfl
  have hsecond : roundabout.followed 3 = [.uid 5, .uid 1] := by rfl
  have hpath : List.IsChain roundabout.Hop [1, 3, 1] := by
    simp [Hop, hfirst, hsecond]
  have hagain : ¬ [1, 3, 1].Nodup := by decide
  exact ⟨hpath, hagain, flattenObject_eq_error_of_isChain hpath (.inl hagain)⟩

end PlistCodec.Archive
