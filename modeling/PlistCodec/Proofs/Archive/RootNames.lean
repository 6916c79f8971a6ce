import PlistCodec.Proofs.Archive.Growth
import PlistCodec.Proofs.Archive.Instances

/-!
# Renaming the first root object

To give the first entry of `$top` another name, its entries are taken out and collected again under
the new name.  Had a further entry that name already, collecting them would merge the two, and a
root object would be lost; the check that comes before makes sure that none has
(`distinct_renameFirst`).  So what is renamed stays in its place with its value, and everything else
of the archive stays what it is (`renameTop_replaces`).
-/

namespace PlistCodec.Archive

/-! ## Entries with another first name -/

section Entries

variable {top : Dict Tree} {name : String}

theorem length_renameFirst (name : String) (top : Dict Tree) :
    (renameFirst name top).length = top.length := by
  cases top <;> rfl

theorem keys_renameFirst (name : String) (top : Dict Tree) :
    Dict.keys (renameFirst name top) = (Dict.keys top).set 0 name := by
  cases top <;> rfl

theorem map_snd_renameFirst (name : String) (top : Dict Tree) :
    (renameFirst name top).map Prod.snd = top.map Prod.snd := by
  cases top <;> rfl

/-- The new name has the value of the first entry, whatever the further entries are. -/
theorem get?_renameFirst_self (name : String) (top : Dict Tree) :
    Dict.get? (renameFirst name top) name = top.head?.map Prod.snd := by
  cases top with
  | nil => rfl
  | cons first rest => rw [renameFirst, Dict.get?, if_pos rfl, List.head?_cons, Option.map_some]

/-- Names other than the new one and the first one have the values that they had. -/
theorem get?_renameFirst_of_ne {key : String} (hname : key ≠ name)
    (hfirst : (Dict.keys top).head? ≠ some key) :
    Dict.get? (renameFirst name top) key = Dict.get? top key := by
  cases top with
  | nil => rfl
  | cons first rest =>
    obtain ⟨old, value⟩ := first
    have hold : old ≠ key := fun heq => hfirst (congrArg some heq)
    rw [renameFirst, Dict.get?, Dict.get?, if_neg hname.symm, if_neg hold]

/-- No two entries have one name afterwards, if no further entry had the new one. -/
theorem distinct_renameFirst (htop : Dict.Distinct top) (h : name ∉ (Dict.keys top).tail) :
    Dict.Distinct (renameFirst name top) := by
  cases top with
  | nil => exact htop
  | cons first rest => exact List.nodup_cons.mpr ⟨h, (List.nodup_cons.mp htop).2⟩

/-- The first name is free afterwards, unless it is the new one. -/
theorem get?_renameFirst_first (htop : Dict.Distinct top) {old : String}
    (hfirst : (Dict.keys top).head? = some old) (hname : old ≠ name) :
    Dict.get? (renameFirst name top) old = none := by
  cases top with
  | nil => cases hfirst
  | cons first rest =>
    obtain ⟨first, value⟩ := first
    obtain rfl : first = old := Option.some.inj hfirst
    have hfree : first ∉ Dict.keys rest := (List.nodup_cons.mp htop).1
    rw [renameFirst, Dict.get?, if_neg hname.symm]
    simpa [Dict.mem_keys_iff] using hfree

end Entries

/-! ## The call -/

section Call

variable {a : Archive} {top : Dict Tree}

theorem topUid?_some_eq (htop : a.top? = some top) (name : String) :
    a.topUid? (some name) = (Dict.get? top name).bind Tree.uid? := by
  obtain ⟨value, hvalue, hdict⟩ := Option.bind_eq_some_iff.mp htop
  simp only [topUid?, hvalue, hdict, bind, Option.bind_some]

/-- A name that a further entry has is refused before anything has changed. -/
theorem run_renameTop_of_mem (htop : a.top? = some top) {name : String}
    (h : name ∈ (Dict.keys top).tail) : (renameTop name).run a
      = .error (.invalidArgument s!"{topKey} already has an entry named {name}") a := by
  have hused : (Dict.keys top).tail.contains name = true := List.contains_iff_mem.mpr h
  rw [renameTop, run_bind_of_ok run_get, htop]
  simp only [hused]
  rfl

/-- With any other name the entries are replaced by the renamed ones. -/
theorem run_renameTop_of_not_mem (htop : a.top? = some top) {name : String}
    (h : name ∉ (Dict.keys top).tail) :
    (renameTop name).run a = .ok () (a.withTop (renameFirst name top)) := by
  have hfree : (Dict.keys top).tail.contains name = false :=
    Bool.eq_false_iff.mpr (mt List.contains_iff_mem.mp h)
  rw [renameTop, run_bind_of_ok run_get, htop]
  simp only [hfree]
  rfl

/-- The archive `b` is `a` but for the entries of `$top`, which are other ones in the same place. -/
structure DiffersInTop (a b : Archive) (top top' : Dict Tree) : Prop where
  /-- The table ends where it did. -/
  lastUid_eq : b.lastUid = a.lastUid
  /-- All entries of the property list are the same in the same places, but for that of `$top`. -/
  root_eq : ∃ before behind, a.root = before ++ (topKey, .dict top) :: behind ∧
    topKey ∉ Dict.keys before ∧ b.root = before ++ (topKey, .dict top') :: behind

theorem withTop_differsInTop (htop : a.top? = some top) (top' : Dict Tree) :
    DiffersInTop a (a.withTop top') top top' := by
  obtain ⟨value, hvalue, hdict⟩ := Option.bind_eq_some_iff.mp htop
  obtain rfl := Tree.dict?_eq_some_iff.mp hdict
  exact ⟨rfl, Dict.exists_insert_eq hvalue _⟩

/-- What a renaming makes of the entries of `$top`. -/
structure FirstRenamed (name : String) (top top' : Dict Tree) : Prop where
  /-- There are as many entries as before. -/
  length_eq : top'.length = top.length
  /-- Their values are the same in the same places. -/
  values_eq : top'.map Prod.snd = top.map Prod.snd
  /-- So are their names, but for the first one. -/
  keys_eq : Dict.keys top' = (Dict.keys top).set 0 name
  /-- Collecting them merges none of them. -/
  ofList_eq : Dict.Distinct top → Dict.ofList top' = top'
  /-- The first name is free, unless it is the new one. -/
  get?_first : Dict.Distinct top → ∀ old, (Dict.keys top).head? = some old → old ≠ name →
    Dict.get? top' old = none

theorem firstRenamed_renameFirst {name : String} (h : name ∉ (Dict.keys top).tail) :
    FirstRenamed name top (renameFirst name top) where
  length_eq := length_renameFirst name top
  values_eq := map_snd_renameFirst name top
  keys_eq := keys_renameFirst name top
  ofList_eq htop := Dict.ofList_of_distinct (distinct_renameFirst htop h)
  get?_first htop _ hfirst hname := get?_renameFirst_first htop hfirst hname

/-- **Renaming the first root object.**  If a further entry of `$top` has the name, the call fails
and the archive is what it was.  Otherwise it succeeds: the entries are the same in the same places,
but for the name of the first one, and nothing else of the archive has changed.  The first root
object is then found under the new name, and what is found under a name that is neither the new one
nor the first one is what was found before. -/
theorem renameTop_replaces (htop : a.top? = some top) (name : String) :
    (name ∈ (Dict.keys top).tail → (renameTop name).run a
      = .error (.invalidArgument s!"{topKey} already has an entry named {name}") a) ∧
    (name ∉ (Dict.keys top).tail → ∃ b top', (renameTop name).run a = .ok () b ∧
      b.top? = some top' ∧ FirstRenamed name top top' ∧ DiffersInTop a b top top' ∧
      b.topUid? (some name) = (top.head?.map Prod.snd).bind Tree.uid? ∧
      ∀ key, key ≠ name → (Dict.keys top).head? ≠ some key →
        b.topUid? (some key) = a.topUid? (some key)) := by
  refine ⟨run_renameTop_of_mem htop, fun h => ?_⟩
  have htop' := top?_withTop a (renameFirst name top)
  refine ⟨_, _, run_renameTop_of_not_mem htop h, htop', firstRenamed_renameFirst h,
    withTop_differsInTop htop _, ?_, fun key hname hfirst => ?_⟩
  · rw [topUid?_some_eq htop', get?_renameFirst_self]
  · rw [topUid?_some_eq htop', topUid?_some_eq htop, get?_renameFirst_of_ne hname hfirst]

/-- An archive with two root objects. -/
def twoRoots : Archive :=
  (new.after (.addTopClass "NSArray" ["NSObject"])).after (.addTopClass "NSString" ["NSObject"])

/-- The name of the second root object is refused, a new one is not. -/
theorem renameTop_replaces_twoRoots :
    twoRoots.top? = some [("$0", .uid 1), ("$1", .uid 3)] ∧
    (renameTop "$1").run twoRoots
      = .error (.invalidArgument s!"{topKey} already has an entry named $1") twoRoots ∧
    ∃ b top', (renameTop "root").run twoRoots = .ok () b ∧ b.top? = some top' ∧
      FirstRenamed "root" [("$0", .uid 1), ("$1", .uid 3)] top' ∧
      b.topUid? (some "root") = some 1 ∧
      b.topUid? (some "$1") = twoRoots.topUid? (some "$1") := by
  have htop : twoRoots.top? = some [("$0", .uid 1), ("$1", .uid 3)] := rfl
  obtain ⟨b, top', hrun, hb, hrenamed, -, hname, hother⟩ :=
    (renameTop_replaces htop "root").2 (by decide)
  exact ⟨htop, (renameTop_replaces htop "$1").1 (by decide), b, top', hrun, hb, hrenamed, hname,
    hother "$1" (by decide) (by decide)⟩

end Call

end PlistCodec.Archive
