import PlistCodec.Inspector.Session

/-!
# Hosts with files

What a session does to files can be said without knowing how a host keeps them.  `Files` is what
there is to see of them: what they hold, each at its place, and the places that paths lead to.
`FileHost` says what each operation of a host does to what is seen.  Reading and reporting change
nothing, creating a file makes it empty or leaves everything as it is, and writing puts bytes behind
what a file holds.

The simplest such host is a map from paths to contents (`FileMap`), in which every path is the place
of a file of its own.
-/

namespace PlistCodec.Inspector

/-! ## What is seen of files -/

/-- Files at their places, and where paths lead. -/
structure Files (Place : Type) where
  /-- What the file at a place holds, if there is one. -/
  content? : Place → Option Bytes
  /-- The place of the file that is read at a path. -/
  source : (path : String) → Except FileFault Place
  /-- The place of the file that is written at a path. -/
  target : (path : String) → Except FileFault Place
  /-- What is read is there. -/
  isSome_source : ∀ path place, source path = .ok place → (content? place).isSome

variable {Place : Type}

/-- What is read at a path. -/
def Files.find (f : Files Place) (path : String) : Except FileFault Bytes :=
  (f.source path).map fun place => (f.content? place).getD []

theorem Files.find_eq_ok_iff {f : Files Place} {path : String} {bytes : Bytes} :
    f.find path = .ok bytes ↔
      ∃ place, f.source path = .ok place ∧ f.content? place = some bytes := by
  rw [find]
  cases hsource : f.source path with
  | error fault => simp [Except.map]
  | ok place =>
    obtain ⟨held, hheld⟩ := Option.isSome_iff_exists.mp (f.isSome_source path place hsource)
    simp [Except.map, hheld]

/-- The file at `place` holds `bytes`, and all others hold what they held. -/
structure Files.Stored (f : Files Place) (place : Place) (bytes : Bytes) (f' : Files Place) :
    Prop where
  /-- The file holds the bytes. -/
  content?_self : f'.content? place = some bytes
  /-- No other file has changed, been created or been removed. -/
  content?_of_ne : ∀ other, other ≠ place → f'.content? other = f.content? other

/-- Of two changes of one file the second one counts. -/
theorem Files.Stored.trans {f f' f'' : Files Place} {place : Place} {bytes bytes' : Bytes}
    (h : f.Stored place bytes f') (h' : f'.Stored place bytes' f'') : f.Stored place bytes' f'' :=
  ⟨h'.content?_self, fun other hother =>
    (h'.content?_of_ne other hother).trans (h.content?_of_ne other hother)⟩

/-! ## What a host does to them -/

/-- A host whose states hold files. -/
class FileHost (σ : Type) [Host (StateM σ)] where
  /-- What tells files apart. -/
  Place : Type
  /-- What is seen of the files. -/
  files : σ → Files Place
  /-- The place of the file that a sink writes to; the standard output has none. -/
  placeOf : Host.Sink (StateM σ) → Option Place
  /-- A report changes no file. -/
  report_run : ∀ (line : String) (s : σ),
    ∃ s', (Host.report line : StateM σ Unit).run s = ((), s') ∧ files s' = files s
  /-- Reading finds what is seen, and changes no file. -/
  readFile_run : ∀ (path : String) (s : σ),
    ∃ s', (Host.readFile path : StateM σ _).run s = ((files s).find path, s') ∧ files s' = files s
  /-- A file that cannot be created leaves the others as they are. -/
  createFile_run_error : ∀ (path : String) (s : σ) (fault : FileFault),
    (files s).target path = .error fault →
      ∃ s', (Host.createFile path : StateM σ _).run s = (.error fault, s') ∧ files s' = files s
  /-- A file that is created is empty, and is the one that is read at the path from then on. -/
  createFile_run_ok : ∀ (path : String) (s : σ) (place : Place),
    (files s).target path = .ok place →
      ∃ sink s', (Host.createFile path : StateM σ _).run s = (.ok sink, s') ∧
        placeOf sink = some place ∧ (files s).Stored place [] (files s') ∧
        (files s').source path = .ok place
  /-- Writing puts all bytes behind what the file holds, and moves no file. -/
  write_run : ∀ (sink : Host.Sink (StateM σ)) (bytes : Bytes) (s : σ) (place : Place)
    (held : Bytes), placeOf sink = some place → (files s).content? place = some held →
      ∃ s', (Host.write sink bytes : StateM σ _).run s = (.ok (), s') ∧
        (files s).Stored place (held ++ bytes) (files s') ∧ (files s').source = (files s).source

/-! ## A map from paths to contents -/

/-- Files by their paths, every path being the place of a file of its own. -/
structure FileMap where
  /-- What the file at a path holds, if there is one. -/
  content? : String → Option Bytes

namespace FileMap

/-- Gives the file at a path a content. -/
def store (m : FileMap) (path : String) (bytes : Bytes) : FileMap :=
  ⟨fun other => if other = path then some bytes else m.content? other⟩

/-- The content of the file at a path. -/
def find (m : FileMap) (path : String) : Except FileFault Bytes :=
  match m.content? path with
  | some bytes => .ok bytes
  | none => .error .notFound

/-- Writes behind what the file at a path holds.  What is written to no path is not kept. -/
def write (m : FileMap) : (path : Option String) → Bytes → FileMap
  | some path, bytes => m.store path ((m.content? path).getD [] ++ bytes)
  | none, _ => m

/-- Sinks are paths; the standard output has none. -/
instance : Host (StateM FileMap) where
  Sink := Option String
  readFile path := fun m => (m.find path, m)
  createFile path := fun m => (.ok (some path), m.store path [])
  output := none
  write sink bytes := fun m => (.ok (), m.write sink bytes)
  report _ := fun m => ((), m)

/-- The files of a map, with every path leading to itself. -/
def files (m : FileMap) : Files String where
  content? := m.content?
  source path := if (m.content? path).isSome then .ok path else .error .notFound
  target path := .ok path
  isSome_source path place h := by
    split at h
    case isTrue hsome =>
      cases h
      exact hsome
    case isFalse => cases h

/-- A path leads to itself as long as there is a file. -/
theorem source_of_content? {m : FileMap} {path : String} {bytes : Bytes}
    (h : m.content? path = some bytes) : m.files.source path = .ok path :=
  if_pos (Option.isSome_of_eq_some h)

/-- A path leads to nothing but itself. -/
theorem eq_of_source_eq_ok {m : FileMap} {path place : String}
    (h : m.files.source path = .ok place) : place = path := by
  cases hcontent : m.content? path with
  | some bytes => exact Except.ok.inj (h.symm.trans (source_of_content? hcontent))
  | none => simp [files, hcontent] at h

theorem find_files (m : FileMap) (path : String) : m.files.find path = m.find path := by
  cases h : m.content? path with
  | some bytes =>
    rw [find, h]
    exact Files.find_eq_ok_iff.mpr ⟨path, source_of_content? h, h⟩
  | none =>
    have hsource : m.files.source path = .error .notFound := if_neg (by simp [h])
    rw [find, h, Files.find, hsource]
    rfl

theorem stored_store (m : FileMap) (path : String) (bytes : Bytes) :
    m.files.Stored path bytes (m.store path bytes).files :=
  ⟨if_pos rfl, fun _ hother => if_neg hother⟩

/-- Overwriting a file leaves the paths leading where they led. -/
theorem source_store {m : FileMap} {path : String} {held : Bytes}
    (h : m.content? path = some held) (bytes : Bytes) :
    (m.store path bytes).files.source = m.files.source := by
  funext other
  by_cases hother : other = path
  · subst hother
    rw [source_of_content? (if_pos rfl), source_of_content? h]
  · simp only [files, store, if_neg hother]

instance : FileHost FileMap where
  Place := String
  files := files
  placeOf := id
  report_run _ m := ⟨m, rfl, rfl⟩
  readFile_run path m := ⟨m, by rw [find_files]; rfl, rfl⟩
  createFile_run_error _ _ _ h := by cases h
  createFile_run_ok path m place h := by
    cases h
    exact ⟨some path, m.store path [], rfl, rfl, stored_store m path [],
      source_of_content? (if_pos rfl)⟩
  write_run sink bytes m place held hplace hheld := by
    obtain rfl : sink = some place := hplace
    have hwrite : m.write (some place) bytes = m.store place (held ++ bytes) := by
      rw [write, show m.content? place = some held from hheld, Option.getD_some]
    exact ⟨m.store place (held ++ bytes), congrArg (Prod.mk _) hwrite, stored_store m place _,
      source_store hheld _⟩

end FileMap

end PlistCodec.Inspector
