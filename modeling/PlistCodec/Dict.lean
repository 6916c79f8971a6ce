/-!
# Ordered dictionaries

A dictionary is its list of entries, in the order in which their keys were first inserted.
`insert` replaces the value of a key that is present, in its place, and otherwise adds an entry at
the end; `get?` finds the value of a key.  A list of entries in which no key occurs twice is called
`Distinct`: `ofList` gives such a list, and `insert` keeps it one.
-/

namespace PlistCodec

/-- Entries of a dictionary, in order. -/
abbrev Dict (α : Type) := List (String × α)

namespace Dict

variable {α β : Type}

/-! ## Operations -/

/-- The value of the first entry with a key. -/
def get? : Dict α → String → Option α
  | [], _ => none
  | (name, value) :: rest, key => if name = key then some value else get? rest key

/-- Gives a key a value, in its place if it is present and at the end otherwise. -/
def insert : Dict α → String → α → Dict α
  | [], key, value => [(key, value)]
  | (name, old) :: rest, key, value =>
    if name = key then (name, value) :: rest else (name, old) :: insert rest key value

/-- The keys, in order. -/
def keys (d : Dict α) : List String := d.map Prod.fst

/-- Whether a key is present. -/
def contains (d : Dict α) (key : String) : Bool := (d.get? key).isSome

/-- Inserts entries one after the other. -/
def insertAll (d : Dict α) (entries : List (String × α)) : Dict α :=
  entries.foldl (fun d entry => d.insert entry.1 entry.2) d

/-- The dictionary that a list of entries builds up. -/
def ofList (entries : List (String × α)) : Dict α := insertAll [] entries

/-- No key occurs twice. -/
def Distinct (d : Dict α) : Prop := d.keys.Nodup

/-! ## Laws -/

@[simp] theorem get?_nil (key : String) : get? ([] : Dict α) key = none := rfl

@[simp] theorem get?_insert_self (d : Dict α) (key : String) (value : α) :
    (d.insert key value).get? key = some value := by
  induction d with
  | nil => simp [insert, get?]
  | cons entry rest ih =>
    obtain ⟨name, old⟩ := entry
    by_cases h : name = key <;> simp [insert, get?, h, ih]

theorem get?_insert_of_ne (d : Dict α) {key other : String} (value : α) (h : key ≠ other) :
    (d.insert key value).get? other = d.get? other := by
  induction d with
  | nil => simp [insert, get?, h]
  | cons entry rest ih =>
    obtain ⟨name, old⟩ := entry
    by_cases hk : name = key
    · subst hk; simp [insert, get?, h]
    · simp [insert, get?, hk, ih]

theorem mem_keys_iff (d : Dict α) (key : String) : key ∈ d.keys ↔ (d.get? key).isSome := by
  induction d with
  | nil => simp [keys]
  | cons entry rest ih =>
    obtain ⟨name, old⟩ := entry
    by_cases h : name = key
    · simp [keys, get?, h]
    · have h' : key ≠ name := fun e => h e.symm
      simpa [keys, get?, h, h'] using ih

/-- The keys after an insertion: as they were, with a new key at the end. -/
theorem keys_insert (d : Dict α) (key : String) (value : α) :
    (d.insert key value).keys = if key ∈ d.keys then d.keys else d.keys ++ [key] := by
  induction d with
  | nil => simp [insert, keys]
  | cons entry rest ih =>
    obtain ⟨name, old⟩ := entry
    by_cases h : name = key
    · simp [insert, keys, h]
    · have h' : key ≠ name := fun e => h e.symm
      simp only [keys] at ih
      by_cases hm : key ∈ rest.map Prod.fst <;> simp [insert, keys, h, h', hm, ih]

theorem Distinct.insert {d : Dict α} (h : d.Distinct) (key : String) (value : α) :
    (d.insert key value).Distinct := by
  unfold Distinct at h ⊢
  rw [keys_insert]
  split
  · exact h
  · next hm =>
    refine List.nodup_append.mpr ⟨h, by simp, ?_⟩
    intro a ha b hb
    simp only [List.mem_singleton] at hb
    subst hb
    exact fun e => hm (e ▸ ha)

theorem Distinct.insertAll {d : Dict α} (h : d.Distinct) (entries : List (String × α)) :
    (d.insertAll entries).Distinct := by
  induction entries generalizing d with
  | nil => exact h
  | cons entry rest ih => exact ih (h.insert entry.1 entry.2)

theorem distinct_ofList (entries : List (String × α)) : (ofList entries).Distinct :=
  Distinct.insertAll (d := []) List.nodup_nil entries

end Dict

end PlistCodec
