import PlistCodec.Dict

/-!
# Laws of insertion

An insertion adds an entry at the end if the key is new, and otherwise changes the value of one
entry and nothing else.  Entries in which no key occurs twice therefore build up themselves.
-/

namespace PlistCodec.Dict

variable {α : Type}

/-- A new key goes to the end. -/
theorem insert_of_not_mem {d : Dict α} {key : String} (h : key ∉ d.keys) (value : α) :
    d.insert key value = d ++ [(key, value)] := by
  induction d with
  | nil => rfl
  | cons entry rest ih =>
    obtain ⟨name, old⟩ := entry
    simp only [keys, List.map_cons, List.mem_cons, not_or] at h
    have hname : name ≠ key := fun e => h.1 e.symm
    rw [insert, if_neg hname, ih h.2, List.cons_append]

theorem length_keys (d : Dict α) : d.keys.length = d.length := List.length_map _

/-- A key that is present takes the value in its place; the keys stay as they are. -/
theorem keys_insert_of_mem {d : Dict α} {key : String} (h : key ∈ d.keys) (value : α) :
    (d.insert key value).keys = d.keys := by
  rw [keys_insert, if_pos h]

theorem length_insert_of_mem {d : Dict α} {key : String} (h : key ∈ d.keys) (value : α) :
    (d.insert key value).length = d.length := by
  have := congrArg List.length (keys_insert_of_mem h value)
  simpa [keys] using this

theorem mem_of_get? {d : Dict α} {key : String} {value : α} (h : d.get? key = some value) :
    (key, value) ∈ d := by
  induction d with
  | nil => cases h
  | cons first rest ih =>
    obtain ⟨name, old⟩ := first
    by_cases hname : name = key
    · rw [get?, if_pos hname] at h
      cases h
      subst hname
      exact List.mem_cons_self
    · rw [get?, if_neg hname] at h
      exact List.mem_cons_of_mem _ (ih h)

/-- A key that is present stands in one place where an insertion changes its value, and nothing else
does. -/
theorem exists_insert_eq {d : Dict α} {key : String} {old : α} (h : d.get? key = some old)
    (value : α) : ∃ before behind, d = before ++ (key, old) :: behind ∧ key ∉ keys before ∧
      d.insert key value = before ++ (key, value) :: behind := by
  induction d with
  | nil => cases h
  | cons first rest ih =>
    obtain ⟨name, first⟩ := first
    by_cases hname : name = key
    · rw [get?, if_pos hname] at h
      cases h
      subst hname
      exact ⟨[], rest, rfl, List.not_mem_nil, by rw [insert, if_pos rfl]; rfl⟩
    · rw [get?, if_neg hname] at h
      obtain ⟨before, behind, rfl, hbefore, hinsert⟩ := ih h
      refine ⟨(name, first) :: before, behind, rfl, ?_, ?_⟩
      · exact List.not_mem_cons_of_ne_of_not_mem (Ne.symm hname) hbefore
      · rw [insert, if_neg hname, hinsert]
        rfl

/-- An entry after an insertion is the new one or was there before. -/
theorem mem_insert {d : Dict α} {key : String} {value : α} {entry : String × α}
    (h : entry ∈ d.insert key value) : entry = (key, value) ∨ entry ∈ d := by
  induction d with
  | nil => exact .inl (List.mem_singleton.mp h)
  | cons first rest ih =>
    obtain ⟨name, old⟩ := first
    by_cases hname : name = key
    · rw [insert, if_pos hname] at h
      rcases List.mem_cons.mp h with rfl | h
      · exact .inl (by rw [hname])
      · exact .inr (List.mem_cons_of_mem _ h)
    · rw [insert, if_neg hname] at h
      rcases List.mem_cons.mp h with rfl | h
      · exact .inr List.mem_cons_self
      · exact (ih h).imp_right (List.mem_cons_of_mem _)

/-- What is true of all values stays so with a value of which it is true. -/
theorem forall_insert {p : α → Prop} {d : Dict α} {key : String} {value : α} (hvalue : p value)
    (hd : ∀ e ∈ d, p e.2) : ∀ e ∈ d.insert key value, p e.2 := by
  intro e he
  rcases mem_insert he with rfl | he
  · exact hvalue
  · exact hd e he

theorem mem_insertAll {d : Dict α} {entries : List (String × α)} {entry : String × α}
    (h : entry ∈ d.insertAll entries) : entry ∈ d ∨ entry ∈ entries := by
  induction entries generalizing d with
  | nil => exact .inl h
  | cons first rest ih =>
    rcases ih h with hold | hrest
    · rcases mem_insert hold with rfl | hold
      · exact .inr List.mem_cons_self
      · exact .inl hold
    · exact .inr (List.mem_cons_of_mem _ hrest)

theorem mem_ofList {entries : List (String × α)} {entry : String × α}
    (h : entry ∈ ofList entries) : entry ∈ entries :=
  (mem_insertAll h).resolve_left List.not_mem_nil

theorem insertAll_of_distinct {d : Dict α} {entries : List (String × α)}
    (h : Distinct (d ++ entries)) : d.insertAll entries = d ++ entries := by
  induction entries generalizing d with
  | nil => rw [List.append_nil]; rfl
  | cons entry rest ih =>
    have hkey : entry.1 ∉ d.keys := by
      simp only [Distinct, keys, List.map_append, List.map_cons] at h
      intro hmem
      exact (List.nodup_append.mp h).2.2 _ hmem _ List.mem_cons_self rfl
    have hstep : d.insertAll (entry :: rest) = (d.insert entry.1 entry.2).insertAll rest := rfl
    rw [hstep, insert_of_not_mem hkey]
    have happend : d ++ [(entry.1, entry.2)] ++ rest = d ++ entry :: rest := by simp
    rw [ih (by rw [happend]; exact h), happend]

/-- Entries in which no key occurs twice are a dictionary as they are. -/
theorem ofList_of_distinct {entries : List (String × α)} (h : Distinct entries) :
    ofList entries = entries :=
  insertAll_of_distinct (d := []) h

/-! ## Weights -/

section Weights

variable (key : String → Nat) (value : α → Nat)

/-- What the entries weigh together, where keys and values are weighed each for itself. -/
def weight : List (String × α) → Nat
  | [] => 0
  | e :: rest => key e.1 + value e.2 + weight rest

/-- An insertion adds the weight of its entry at most. -/
theorem weight_insert_le (d : Dict α) (name : String) (x : α) :
    weight key value (d.insert name x) ≤ weight key value d + (key name + value x) := by
  induction d with
  | nil => simp [insert, weight]
  | cons entry rest ih =>
    rw [insert]
    split
    · simp only [weight]
      omega
    · simp only [weight]
      omega

theorem weight_insertAll_le (d : Dict α) (entries : List (String × α)) :
    weight key value (d.insertAll entries) ≤ weight key value d + weight key value entries := by
  induction entries generalizing d with
  | nil => exact Nat.le_refl _
  | cons entry rest ih =>
    have hrest := ih (d.insert entry.1 entry.2)
    have hfirst := weight_insert_le key value d entry.1 entry.2
    rw [weight]
    exact Nat.le_trans hrest (by omega)

/-- The dictionary that entries build up weighs no more than the entries. -/
theorem weight_ofList_le (entries : List (String × α)) :
    weight key value (ofList entries) ≤ weight key value entries := by
  have hle := weight_insertAll_le key value [] entries
  rwa [weight, Nat.zero_add] at hle

end Weights

theorem length_ofList_le (entries : List (String × α)) :
    (ofList entries).length ≤ entries.length := by
  have hlength : ∀ d : Dict α, weight (fun _ => 1) (fun _ => 0) d = d.length := by
    intro d
    induction d with
    | nil => rfl
    | cons entry rest ih => rw [weight, ih, List.length_cons, Nat.add_comm]
  rw [← hlength, ← hlength]
  exact weight_ofList_le _ _ entries

end PlistCodec.Dict
