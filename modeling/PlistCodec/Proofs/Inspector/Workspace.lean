import Mathlib.Data.List.Basic
import PlistCodec.Inspector.Workspace
import PlistCodec.Proofs.Dict
import PlistCodec.Proofs.Except
import PlistCodec.Proofs.Inspector.Files

/-!
# Workspaces as hosts with files

The places of a workspace are the names of its files.  A path is followed through directories, so
where it leads depends on the files that are there; creating one must not lead it astray.  It does
not: a directory on the way stays a directory, because the name of a new file was free, and so the
path that a file was created at is a path to this file (`Workspace.fileToRead_store`).
-/

namespace PlistCodec.Inspector

namespace Workspace

variable {w w' : Workspace}

/-! ## Reading and writing lead to names -/

/-- Whether a path goes on from here: it does not from a file, nor from a free name. -/
def Target.IsOpen : Target → Prop
  | .outside => True
  | .directory _ => True
  | .file _ => False
  | .free _ => False

theorem isOpen_of_enter {t u : Target} {part : String} (h : w.enter t part = .ok u) : t.IsOpen := by
  cases t with
  | outside => trivial
  | directory place => trivial
  | file name => cases h
  | free name => cases h

/-- Where a path begins. -/
def start (parts : List String) : Target :=
  if parts.head? = some "" then .outside else .directory []

theorem isOpen_start (parts : List String) : (start parts).IsOpen := by
  unfold start
  split <;> trivial

/-- A path that is read at leads to a file. -/
theorem fileToRead_eq_ok_iff {path name : String} :
    w.fileToRead path = .ok name ↔
      ∃ steps, parts path = .ok steps ∧ w.follow steps = .ok (.file name) := by
  constructor
  · intro h
    obtain ⟨steps, hparts, h⟩ := exists_of_bind_eq_ok h
    obtain ⟨t, hfollow, h⟩ := exists_of_bind_eq_ok h
    cases t with
    | file other =>
      cases h
      exact ⟨steps, hparts, hfollow⟩
    | _ => cases h
  · rintro ⟨steps, hparts, hfollow⟩
    rw [fileToRead, hparts]
    change (w.follow steps >>= _) = _
    rw [hfollow]
    rfl

/-- A path that is written at leads to a file or to a free name. -/
theorem exists_of_fileToWrite {path name : String} (h : w.fileToWrite path = .ok name) :
    ∃ steps, parts path = .ok steps ∧
      (w.follow steps = .ok (.file name) ∨ w.follow steps = .ok (.free name)) := by
  obtain ⟨steps, hparts, h⟩ := exists_of_bind_eq_ok h
  obtain ⟨t, hfollow, h⟩ := exists_of_bind_eq_ok h
  refine ⟨steps, hparts, ?_⟩
  cases t with
  | outside => cases h
  | directory place => cases h
  | file other =>
    dsimp only at h
    split at h
    case isTrue heq =>
      cases h
      exact .inl (heq ▸ hfollow)
    case isFalse => cases h
  | free other =>
    dsimp only at h
    split at h
    case isTrue heq =>
      cases h
      exact .inr (heq ▸ hfollow)
    case isFalse => cases h

/-! ## Looking up -/

theorem contains_eq (name : String) :
    Dict.contains w.files name = decide (name ∈ Dict.keys w.files) := by
  rw [Dict.contains, Bool.eq_iff_iff, decide_eq_true_iff, Dict.mem_keys_iff]

theorem isDirectory_eq (name : String) : w.isDirectory name
    = (Dict.keys w.files).any fun file => (name ++ "/").isPrefixOf file := by
  rw [isDirectory, Dict.keys, List.any_map]
  rfl

theorem isOpen_lookUp_iff {place : List String} : (w.lookUp place).IsOpen ↔
    nameOf place ∉ Dict.keys w.files ∧ w.isDirectory (nameOf place) = true := by
  rw [lookUp, contains_eq]
  by_cases hmem : nameOf place ∈ Dict.keys w.files
  · simp [hmem, Target.IsOpen]
  · cases w.isDirectory (nameOf place) <;> simp [hmem, Target.IsOpen]

theorem lookUp_of_isOpen {place : List String} (h : (w.lookUp place).IsOpen) :
    w.lookUp place = .directory place := by
  obtain ⟨hmem, hdirectory⟩ := isOpen_lookUp_iff.mp h
  simp [lookUp, contains_eq, hmem, hdirectory]

/-- A file is found exactly under the name that it has. -/
theorem lookUp_eq_file_iff {place : List String} {name : String} :
    w.lookUp place = .file name ↔ nameOf place = name ∧ name ∈ Dict.keys w.files := by
  rw [lookUp, contains_eq]
  by_cases hmem : nameOf place ∈ Dict.keys w.files
  · rw [decide_eq_true hmem, if_pos rfl, Target.file.injEq]
    exact ⟨fun h => ⟨h, h ▸ hmem⟩, And.left⟩
  · refine iff_of_false ?_ fun h => hmem (h.1 ▸ h.2)
    rw [decide_eq_false hmem, if_neg Bool.false_ne_true]
    split <;> simp

/-- What is not open has the name of the place. -/
theorem nameOf_of_lookUp {place : List String} {name : String}
    (h : w.lookUp place = .file name ∨ w.lookUp place = .free name) : nameOf place = name := by
  unfold lookUp at h
  split at h
  · simpa using h
  · split at h
    · simp at h
    · simpa using h

/-- Where a path leads depends on the names of the files only. -/
theorem fileToRead_congr (h : Dict.keys w'.files = Dict.keys w.files) :
    w'.fileToRead = w.fileToRead := by
  have hlookUp : w'.lookUp = w.lookUp := by
    funext place
    simp only [lookUp, contains_eq, isDirectory_eq, h]
  have henter : w'.enter = w.enter := by
    funext t part
    cases t <;> simp only [enter, hlookUp]
  funext path
  simp only [fileToRead, follow, henter]

/-! ## Following a path -/

/-- One part of a path leads on from a directory in a way that does not depend on any files, or to
what is looked up. -/
theorem enter_directory (place : List String) (part : String) :
    (∃ result : Except FileFault Target, (∀ u, result = .ok u → u.IsOpen) ∧
      ∀ w : Workspace, w.enter (.directory place) part = result) ∨
    ∀ w : Workspace, w.enter (.directory place) part = .ok (w.lookUp (place ++ [part])) := by
  by_cases hhere : (part = "" || part = ".") = true
  · refine .inl ⟨.ok (.directory place), ?_, fun w => by rw [enter, if_pos hhere]⟩
    rintro u ⟨⟩
    trivial
  by_cases hout : part = ".."
  · refine .inl ⟨.ok (if place.isEmpty then .outside else .directory place.dropLast), ?_,
      fun w => by rw [enter, if_neg hhere, if_pos hout]⟩
    rintro u ⟨⟩
    split <;> trivial
  by_cases hlong : maxPart < part.utf8ByteSize
  · refine .inl ⟨.error .nameTooLong, ?_,
      fun w => by rw [enter, if_neg hhere, if_neg hout, if_pos hlong]⟩
    rintro u ⟨⟩
  · exact .inr fun w => by rw [enter, if_neg hhere, if_neg hout, if_neg hlong]

section Following

variable {t u : Target}

/-- A path that leads on to a directory never went through a file, nor through a free name. -/
theorem isOpen_of_walk {steps : List String} (h : steps.foldlM w.enter t = .ok u) (hu : u.IsOpen) :
    t.IsOpen := by
  cases steps with
  | nil =>
    cases h
    exact hu
  | cons part rest =>
    obtain ⟨next, hnext, -⟩ := exists_of_foldlM_cons_eq_ok h
    exact isOpen_of_enter hnext

/-- Every directory of the one workspace is a directory of the other one. -/
def KeepsDirectories (w w' : Workspace) : Prop :=
  ∀ place, (w.lookUp place).IsOpen → w'.lookUp place = w.lookUp place

theorem KeepsDirectories.enter (hkeeps : KeepsDirectories w w') {part : String}
    (h : w.enter t part = .ok u) (hu : u.IsOpen) : w'.enter t part = .ok u := by
  cases t with
  | outside => exact h
  | file name => cases h
  | free name => cases h
  | directory place =>
    rcases enter_directory place part with ⟨result, -, hresult⟩ | hlookUp
    · rw [hresult w, ← hresult w'] at h
      exact h
    · rw [hlookUp w] at h
      cases h
      rw [hlookUp w', hkeeps _ hu]

/-- A path to a directory leads to the same directory then. -/
theorem KeepsDirectories.walk (hkeeps : KeepsDirectories w w') {steps : List String}
    (h : steps.foldlM w.enter t = .ok u) (hu : u.IsOpen) : steps.foldlM w'.enter t = .ok u := by
  induction steps generalizing t with
  | nil => exact h
  | cons part rest ih =>
    obtain ⟨next, hnext, hrest⟩ := exists_of_foldlM_cons_eq_ok h
    rw [List.foldlM_cons, hkeeps.enter hnext (isOpen_of_walk hrest hu)]
    exact ih hrest

/-- A path to a file or to a free name leads through directories, and looks the name up at last. -/
theorem exists_of_walk {steps : List String} (ht : t.IsOpen) (h : steps.foldlM w.enter t = .ok u)
    (hu : ¬ u.IsOpen) : ∃ before part place, steps = before ++ [part] ∧
      before.foldlM w.enter t = .ok (.directory place) ∧ u = w.lookUp (place ++ [part]) ∧
      ∀ w' : Workspace, w'.enter (.directory place) part = .ok (w'.lookUp (place ++ [part])) := by
  rcases List.eq_nil_or_concat' steps with rfl | ⟨before, part, rfl⟩
  · cases h
    exact absurd ht hu
  rw [List.foldlM_append] at h
  obtain ⟨last, hbefore, h⟩ := exists_of_bind_eq_ok h
  have hlast : w.enter last part = .ok u := (bind_pure (w.enter last part)).symm.trans h
  cases last with
  | file name => cases hlast
  | free name => cases hlast
  | outside =>
    rw [enter] at hlast
    split at hlast
    · cases hlast
      exact absurd trivial hu
    · cases hlast
  | directory place =>
    rcases enter_directory place part with ⟨result, hopen, hresult⟩ | hlookUp
    · exact absurd (hopen u ((hresult w).symm.trans hlast)) hu
    · refine ⟨before, part, place, rfl, hbefore, ?_, hlookUp⟩
      rw [hlookUp w] at hlast
      cases hlast
      rfl

end Following

/-! ## Storing -/

theorem keys_store (w : Workspace) (name : String) (bytes : Bytes) :
    Dict.keys (w.store name bytes).files
      = if name ∈ Dict.keys w.files then Dict.keys w.files else Dict.keys w.files ++ [name] :=
  Dict.keys_insert _ _ _

theorem mem_keys_store {name other : String} {bytes : Bytes} :
    other ∈ Dict.keys (w.store name bytes).files ↔ other ∈ Dict.keys w.files ∨ other = name := by
  rw [keys_store]
  split
  case isTrue hmem =>
    refine ⟨.inl, ?_⟩
    rintro (hother | rfl)
    · exact hother
    · exact hmem
  case isFalse => rw [List.mem_append, List.mem_singleton]

/-- Storing under a name that is no directory takes no directory away. -/
theorem keepsDirectories_store {place : List String} {name : String} (hname : nameOf place = name)
    (h : ¬ (w.lookUp place).IsOpen) (bytes : Bytes) :
    KeepsDirectories w (w.store name bytes) := by
  intro other hother
  obtain ⟨hmem, hdirectory⟩ := isOpen_lookUp_iff.mp hother
  have hne : nameOf other ≠ name := by
    intro heq
    rw [isOpen_lookUp_iff, hname, ← heq] at h
    exact h ⟨hmem, hdirectory⟩
  have hstays : ((w.store name bytes).lookUp other).IsOpen := by
    rw [isOpen_lookUp_iff, mem_keys_store, isDirectory_eq, List.any_eq_true]
    rw [isDirectory_eq, List.any_eq_true] at hdirectory
    obtain ⟨file, hfile, hprefix⟩ := hdirectory
    exact ⟨not_or.mpr ⟨hmem, hne⟩, file, mem_keys_store.mpr (.inl hfile), hprefix⟩
  rw [lookUp_of_isOpen hstays, lookUp_of_isOpen hother]

/-- **What is written at a path is read at this path.** -/
theorem fileToRead_store {path name : String} (h : w.fileToWrite path = .ok name) (bytes : Bytes) :
    (w.store name bytes).fileToRead path = .ok name := by
  obtain ⟨steps, hparts, hfollow⟩ := exists_of_fileToWrite h
  refine fileToRead_eq_ok_iff.mpr ⟨steps, hparts, ?_⟩
  obtain ⟨u, hwalk, hu⟩ : ∃ u, w.follow steps = .ok u ∧ (u = .file name ∨ u = .free name) := by
    rcases hfollow with hfile | hfree
    · exact ⟨_, hfile, .inl rfl⟩
    · exact ⟨_, hfree, .inr rfl⟩
  have hclosed : ¬ u.IsOpen := by
    rcases hu with rfl | rfl <;> exact id
  obtain ⟨before, part, place, rfl, hbefore, rfl, henter⟩ :=
    exists_of_walk (isOpen_start steps) hwalk hclosed
  have hname := nameOf_of_lookUp hu
  have hkeeps := keepsDirectories_store hname hclosed bytes
  change (before ++ [part]).foldlM (w.store name bytes).enter (start (before ++ [part])) = _
  rw [List.foldlM_append, hkeeps.walk hbefore trivial]
  change ((w.store name bytes).enter (.directory place) part >>= pure) = _
  rw [henter, lookUp_eq_file_iff.mpr ⟨hname, mem_keys_store.mpr (.inr rfl)⟩]
  rfl

/-- What is read is there. -/
theorem isSome_of_fileToRead {path name : String} (h : w.fileToRead path = .ok name) :
    (Dict.get? w.files name).isSome := by
  obtain ⟨steps, -, hfollow⟩ := fileToRead_eq_ok_iff.mp h
  obtain ⟨_, part, place, -, -, hlookUp, -⟩ := exists_of_walk (isOpen_start steps) hfollow id
  exact (Dict.mem_keys_iff _ _).mp (lookUp_eq_file_iff.mp hlookUp.symm).2

/-! ## The host -/

/-- The files of a workspace, at their names. -/
def view (w : Workspace) : Files String where
  content? := Dict.get? w.files
  source := w.fileToRead
  target := w.fileToWrite
  isSome_source _ _ h := isSome_of_fileToRead h

theorem stored_store (w : Workspace) (name : String) (bytes : Bytes) :
    w.view.Stored name bytes (w.store name bytes).view :=
  ⟨Dict.get?_insert_self _ _ _, fun _ hother => Dict.get?_insert_of_ne _ _ hother.symm⟩

instance : FileHost Workspace where
  Place := String
  files := view
  placeOf
    | .output => none
    | .file name => some name
  report_run _ _ := ⟨_, rfl, rfl⟩
  readFile_run _ w := ⟨w, rfl, rfl⟩
  createFile_run_error path w fault h := by
    have hfault : w.fileToWrite path = .error fault := h
    refine ⟨w, ?_, rfl⟩
    simp only [Host.createFile, hfault, StateT.run]
  createFile_run_ok path w name h := by
    have hname : w.fileToWrite path = .ok name := h
    refine ⟨.file name, w.store name [], ?_, rfl, stored_store w name [], fileToRead_store hname []⟩
    simp only [Host.createFile, hname, StateT.run]
  write_run sink bytes w name held hplace hheld := by
    cases sink with
    | output => cases hplace
    | file other =>
      obtain rfl : other = name := Option.some.inj hplace
      have hcontent : w.content other = held := by
        rw [content, show Dict.get? w.files other = some held from hheld, Option.getD_some]
      have hmem : other ∈ Dict.keys w.files :=
        (Dict.mem_keys_iff _ _).mpr (Option.isSome_of_eq_some hheld)
      refine ⟨w.store other (held ++ bytes), ?_, stored_store w other _, ?_⟩
      · rw [← hcontent]
        rfl
      · exact fileToRead_congr (Dict.keys_insert_of_mem hmem _)

end Workspace

end PlistCodec.Inspector
