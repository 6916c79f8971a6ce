import PlistCodec.Proofs.Inspector.Workspace

/-!
# All or nothing

A session reads, decodes and renders before it creates a file, so whatever fails until then, and if
the file cannot be created, all files are what they were (`Outcome`).  A session that succeeds has
changed the file at its export path and no other one.  What this file holds was rendered from what
was read before anything was created, so the file that is read may be the one that is written.

This is proved for every host with files, for a map from paths to contents (`FileMap`) and for a
`Workspace` among them.
-/

namespace PlistCodec.Inspector

/-! ## How a session ends -/

/-- How a session that writes to `path` ends, with the files that it finds and those that it leaves.
The steps come in the order of the constructors, and the first one that fails ends the session. -/
inductive Outcome {Place : Type} (o : Options) (path : String) (f : Files Place) :
    Except Error Tree → Files Place → Prop where
  /-- The input could not be read. -/
  | unread {fault : FileFault} (hread : f.find o.input = .error fault) :
    Outcome o path f (.error (.readFailed fault o.input)) f
  /-- What was read could not be decoded. -/
  | undecoded {bytes : Bytes} {e : Error} (hread : f.find o.input = .ok bytes)
      (hdecode : decode bytes o.inputFormat o.topKey o.input = .error e) :
    Outcome o path f (.error e) f
  /-- The tree has no form in the format of the result. -/
  | unrendered {bytes : Bytes} {t : Tree} {e : Error} (hread : f.find o.input = .ok bytes)
      (hdecode : decode bytes o.inputFormat o.topKey o.input = .ok t)
      (hrender : render o.outputFormat t = .error e) : Outcome o path f (.error e) f
  /-- The file could not be created. -/
  | uncreated {bytes : Bytes} {t : Tree} {rendered : Bytes} {fault : FileFault}
      (hread : f.find o.input = .ok bytes)
      (hdecode : decode bytes o.inputFormat o.topKey o.input = .ok t)
      (hrender : render o.outputFormat t = .ok rendered) (htarget : f.target path = .error fault) :
    Outcome o path f (.error (.createFailed fault path)) f
  /-- The file was written. -/
  | written {bytes : Bytes} {t : Tree} {rendered : Bytes} {place : Place} {f' : Files Place}
      (hread : f.find o.input = .ok bytes)
      (hdecode : decode bytes o.inputFormat o.topKey o.input = .ok t)
      (hrender : render o.outputFormat t = .ok rendered) (htarget : f.target path = .ok place)
      (hstored : f.Stored place rendered f') (hsource : f'.source path = .ok place) :
    Outcome o path f (.ok t) f'

section Outcome

variable {Place : Type} {o : Options} {path : String} {f f' : Files Place}

/-- A failed session leaves every file with the content that it had. -/
theorem Outcome.content?_eq_of_error {e : Error} (h : Outcome o path f (.error e) f') :
    f'.content? = f.content? := by
  cases h <;> rfl

/-- What was written comes from what was read. -/
theorem Outcome.exists_of_ok {t : Tree} (h : Outcome o path f (.ok t) f') :
    ∃ input bytes rendered output,
      f.source o.input = .ok input ∧ f.content? input = some bytes ∧
      decode bytes o.inputFormat o.topKey o.input = .ok t ∧
      render o.outputFormat t = .ok rendered ∧
      f'.source path = .ok output ∧ f.Stored output rendered f' := by
  cases h with
  | written hread hdecode hrender htarget hstored hsource =>
    obtain ⟨input, hinput, hbytes⟩ := Files.find_eq_ok_iff.mp hread
    exact ⟨input, _, _, _, hinput, hbytes, hdecode, hrender, hsource, hstored⟩

/-- A session succeeds if each of its steps can. -/
theorem Outcome.exists_ok_iff {result : Except Error Tree} (h : Outcome o path f result f') :
    (∃ t, result = .ok t) ↔ ∃ bytes t rendered output, f.find o.input = .ok bytes ∧
      decode bytes o.inputFormat o.topKey o.input = .ok t ∧
      render o.outputFormat t = .ok rendered ∧ f.target path = .ok output := by
  constructor
  · rintro ⟨t, rfl⟩
    cases h with
    | written hread hdecode hrender htarget => exact ⟨_, _, _, _, hread, hdecode, hrender, htarget⟩
  · rintro ⟨bytes, t, rendered, output, hread, hdecode, hrender, htarget⟩
    -- a failure of one step is at odds with what is known of it
    cases h with
    | unread hread' => cases hread.symm.trans hread'
    | undecoded hread' hdecode' =>
      cases hread.symm.trans hread'
      cases hdecode.symm.trans hdecode'
    | unrendered hread' hdecode' hrender' =>
      cases hread.symm.trans hread'
      cases hdecode.symm.trans hdecode'
      cases hrender.symm.trans hrender'
    | uncreated _ _ _ htarget' => cases htarget.symm.trans htarget'
    | written => exact ⟨_, rfl⟩

end Outcome

/-! ## Steps of a session -/

theorem run_bind_of_eq {σ α β : Type} {x : StateM σ α} {next : α → StateM σ β} {s s' : σ} {a : α}
    (h : x.run s = (a, s')) : (x >>= next).run s = (next a).run s' := by
  rw [StateT.run_bind, h]
  rfl

section Steps

open FileHost

variable {σ : Type} [Host (StateM σ)] [FileHost σ]

/-- The tree that is loaded, or why there is none. -/
def loaded {Place : Type} (o : Options) (f : Files Place) : Except Error Tree :=
  match f.find o.input with
  | .error fault => .error (.readFailed fault o.input)
  | .ok bytes => decode bytes o.inputFormat o.topKey o.input

/-- Loading changes no file. -/
theorem load_run (o : Options) (s : σ) :
    ∃ s', (load o : StateM σ _).run s = (loaded o (files s), s') ∧ files s' = files s := by
  obtain ⟨after, hreport, hafter⟩ :=
    report_run s!"Decoding {o.input} as {o.inputFormat.name}..." s
  obtain ⟨s', hread, hfiles⟩ := readFile_run o.input after
  refine ⟨s', ?_, hfiles.trans hafter⟩
  rw [load, run_bind_of_eq hreport, run_bind_of_eq hread, loaded, hafter]
  cases (files s).find o.input with
  | error fault => rfl
  | ok bytes => rfl

omit [FileHost σ] in
/-- What cannot be rendered is not written. -/
theorem save_run_of_render_eq_error {o : Options} {t : Tree} {e : Error}
    (h : render o.outputFormat t = .error e) (s : σ) :
    (save o t : StateM σ _).run s = (.error e, s) := by
  rw [save, h]
  rfl

/-- Delivering to a file that cannot be created changes no file. -/
theorem deliver_run_of_target_eq_error {path : String} {fault : FileFault} {s : σ}
    (h : (files s).target path = .error fault) (rendered : Bytes) :
    ∃ s', (deliver (some path) rendered : StateM σ _).run s
      = (.error (.createFailed fault path), s') ∧ files s' = files s := by
  obtain ⟨s', hcreate, hfiles⟩ := createFile_run_error path s fault h
  refine ⟨s', ?_, hfiles⟩
  have hopen : (openSink (some path) : StateM σ _).run s
      = (.error (.createFailed fault path), s') := by
    rw [openSink, run_bind_of_eq hcreate]
    rfl
  rw [deliver, run_bind_of_eq hopen]
  rfl

/-- A file that can be created holds what was rendered, and nothing else, in the end. -/
theorem deliver_run_of_target_eq_ok {path : String} {place : Place σ} {s : σ}
    (h : (files s).target path = .ok place) (rendered : Bytes) :
    ∃ s', (deliver (some path) rendered : StateM σ _).run s = (.ok (), s') ∧
      (files s).Stored place rendered (files s') ∧ (files s').source path = .ok place := by
  obtain ⟨sink, created, hcreate, hsink, hempty, hsource⟩ := createFile_run_ok path s place h
  obtain ⟨s', hwrite, hstored, hmoved⟩ :=
    write_run sink rendered created place [] hsink hempty.content?_self
  refine ⟨s', ?_, hempty.trans hstored, by rw [hmoved, hsource]⟩
  have hopen : (openSink (some path) : StateM σ _).run s = (.ok sink, created) := by
    rw [openSink, run_bind_of_eq hcreate]
    rfl
  rw [deliver, run_bind_of_eq hopen]
  change ((Host.write sink rendered : StateM σ _) >>= _).run created = _
  rw [run_bind_of_eq hwrite]
  rfl

variable {o : Options} {path : String} {t : Tree} {rendered : Bytes} {s : σ}

theorem save_run_of_target_eq_error (hpath : o.exportPath = some path) {fault : FileFault}
    (hrender : render o.outputFormat t = .ok rendered)
    (htarget : (files s).target path = .error fault) :
    ∃ s', (save o t : StateM σ _).run s = (.error (.createFailed fault path), s') ∧
      files s' = files s := by
  obtain ⟨s', hdeliver, hfiles⟩ := deliver_run_of_target_eq_error htarget rendered
  refine ⟨s', ?_, hfiles⟩
  rw [save, hrender, hpath]
  change ((deliver (some path) rendered : StateM σ _) >>= _).run s = _
  rw [run_bind_of_eq hdeliver]
  rfl

theorem save_run_of_target_eq_ok (hpath : o.exportPath = some path) {place : Place σ}
    (hrender : render o.outputFormat t = .ok rendered)
    (htarget : (files s).target path = .ok place) :
    ∃ s', (save o t : StateM σ _).run s = (.ok (), s') ∧
      (files s).Stored place rendered (files s') ∧ (files s').source path = .ok place := by
  obtain ⟨written, hdeliver, hstored, hsource⟩ := deliver_run_of_target_eq_ok htarget rendered
  obtain ⟨s', hreport, hfiles⟩ := report_run s!"Wrote {o.outputFormat.name} to {path}" written
  refine ⟨s', ?_, hfiles ▸ hstored, hfiles ▸ hsource⟩
  rw [save, hrender, hpath]
  change ((deliver (some path) rendered : StateM σ _) >>= _).run s = _
  rw [run_bind_of_eq hdeliver]
  change ((Host.report _ : StateM σ Unit) >>= _).run written = _
  rw [run_bind_of_eq hreport]
  rfl

/-- Every session with an export path ends in one of the ways of `Outcome`. -/
theorem run_outcome (hpath : o.exportPath = some path) (s : σ) :
    Outcome o path (files s) ((run o : StateM σ _).run s).1
      (files ((run o : StateM σ _).run s).2) := by
  obtain ⟨after, hload, hafter⟩ := load_run o s
  rw [run, run_bind_of_eq hload, loaded, ← hafter]
  cases hread : (files after).find o.input with
  | error fault => exact .unread hread
  | ok bytes =>
    dsimp only
    cases hdecode : decode bytes o.inputFormat o.topKey o.input with
    | error e => exact .undecoded hread hdecode
    | ok t =>
      dsimp only
      cases hrender : render o.outputFormat t with
      | error e =>
        rw [run_bind_of_eq (save_run_of_render_eq_error hrender after)]
        exact .unrendered hread hdecode hrender
      | ok rendered =>
        cases htarget : (files after).target path with
        | error fault =>
          obtain ⟨s', hsave, hfiles⟩ := save_run_of_target_eq_error hpath hrender htarget
          rw [run_bind_of_eq hsave]
          change Outcome o path (files after) (.error (.createFailed fault path)) (files s')
          rw [hfiles]
          exact .uncreated hread hdecode hrender htarget
        | ok place =>
          obtain ⟨s', hsave, hstored, hsource⟩ := save_run_of_target_eq_ok hpath hrender htarget
          rw [run_bind_of_eq hsave]
          exact .written hread hdecode hrender htarget hstored hsource

end Steps

/-- `FileMap` with the byte of `true` in a file and one other file. -/
def FileMap.twoFiles : FileMap where
  content? path :=
    if path = "in.bin" then some [0x01] else if path = "other" then some [0x07] else none

/-- Converts a file in place. -/
def Options.inPlace : Options where
  inputFormat := .opack
  outputFormat := .json
  input := "in.bin"
  exportPath := some "in.bin"
  topKey := none

end PlistCodec.Inspector
