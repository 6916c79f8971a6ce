import PlistCodec.Proofs.Archive.Instances
import PlistCodec.Proofs.Archive.Meaning
import PlistCodec.Proofs.Archive.Simulation

/-!
# Archives inside of archives

An archive that is stored as the root object of another one is copied: its objects get other slots,
and one that is referred to twice becomes two.  What is copied flattens to what the original
flattens to, since slots and their copies simulate the source in the target
(`simulates_of_mirrors`).

There is one exception, and it is visible.  Flattening takes a property list that is stored in place
as it is, with the references in it, while the copy has references to copies there.  So the
flattened property lists are the same up to these references, and the same altogether if there are
none.
-/

namespace PlistCodec.Archive

/-- Slots and their copies hold the same, if slot 0 does. -/
theorem simulates_of_mirrors {source b : Archive} (hnull : source.find? 0 = some (.string nullText))
    (hnull' : b.find? 0 = some (.string nullText)) (depth : Nat) :
    Simulates depth (Mirrors source.find? b.find?) source b where
  ne_zero := by
    rintro slot slot' (_ | ⟨_, hslot', _, _, _⟩) hne
    · exact hne
    · exact hslot'
  primitive := by
    rintro slot slot' object (_ | ⟨_, _, hobject, hobject', hrenamed⟩) hfound hprimitive
    · rw [hnull', ← hnull, hfound]
    · obtain rfl := Option.some.inj (hobject.symm.trans hfound)
      rw [hobject', hprimitive.renamed_iff.mp hrenamed]
  entries := by
    rintro slot slot' entries (_ | ⟨_, _, hobject, hobject', hrenamed⟩) hfound
    · rw [hnull] at hfound
      cases hfound
    · obtain rfl := Option.some.inj (hobject.symm.trans hfound)
      obtain ⟨entries', hentries', rfl⟩ := Tree.renamed_dict_iff.mp hrenamed
      exact ⟨entries', hobject', fun name node hnode _ => hentries'.get? hnode⟩

/-- A tree without references is carried along as it is. -/
theorem eq_of_renamed_mirrors {find find' : Nat → Option Tree} {t t' : Tree}
    (h : t.Renamed (Mirrors find find') t') (hreferences : t.references = []) : t' = t := by
  refine h.eq_of_nodes fun slot hslot slot' hmirrors => ?_
  cases hmirrors with
  | null => rfl
  | copy hne _ _ _ _ =>
    have hmem := Tree.mem_references_iff.mpr ⟨hslot, hne⟩
    rw [hreferences] at hmem
    cases hmem

section Storing

variable {source a b : Archive}

/-- What a merge yields when it succeeds. -/
theorem mergeArchive_eq_ok {slot : Nat} {node : Tree} (htop : source.topUid? none = some slot)
    (h : (mergeArchive source).run a = .ok node b) :
    (mergeObject source (.uid slot) a).fault = none ∧
      (mergeObject source (.uid slot) a).node = node ∧
      (mergeObject source (.uid slot) a).archive = b := by
  simp only [EStateM.run, mergeArchive, htop] at h
  generalize mergeObject source (.uid slot) a = m at h ⊢
  obtain ⟨node', fault, archive⟩ := m
  cases fault with
  | some e => cases h
  | none => cases h; exact ⟨rfl, rfl, rfl⟩

/-- How the first root object is stored: what it has become is the default root object. -/
theorem exists_of_appendRoot {v : ArchiveValue} (ha : HasTable a)
    (htop : Dict.get? a.root topKey = none) (h : (appendRoot v).run a = .ok () b) :
    ∃ slot c, (encodeValue (maxDepth + 1) v).run a = .ok (.uid slot) c ∧
      b.find? = c.find? ∧ b.topUid? none = some slot := by
  obtain ⟨-, slot, c, hencode, hroot⟩ := appendRoot_eq_ok h
  have hgrew : GrewBy anything a c :=
    (of_ends_of_run_ok (encodeValue_grows (brings_anything v) ha) hencode).1
  have hroots : c.roots = [] := by rw [hgrew.roots_eq, roots, top?, htop]; rfl
  refine ⟨slot, c, hencode, ?_⟩
  rcases hroot with ⟨hsome, -⟩ | ⟨-, hadd⟩
  · rw [topUid?_none_eq, hroots] at hsome
    exact absurd rfl hsome
  · obtain rfl := eq_withTop_of_run_addTop (hgrew.hasTable ha) hadd
    constructor
    · funext other
      exact find?_withTop c _ other
    · rw [topUid?_withTop, hroots]
      rfl

/-- **Archives inside of archives.**  Let an archive, whose slot 0 holds the string for no object,
be stored as the root object of one that calls have made of the new archive and that has no root
objects yet.  Then the new archive flattens to what the other one flattens to, save that the
references in property lists that are stored in place lead to the copies of what they led to.
Without such references it flattens to the same. -/
theorem flatten_appendRoot_nsKeyedArchive {v : Tree}
    (ha : Reached (· = new) (fun _ _ => True) a) (htop : Dict.get? a.root topKey = none)
    (hnull : source.object 0 = .ok (.string nullText)) (hv : source.flatten = .ok v)
    (h : (appendRoot (.nsKeyedArchive source)).run a = .ok () b) :
    ∃ v', b.flatten = .ok v' ∧ v.Renamed (Mirrors source.find? b.find?) v' ∧
      (v.references = [] → v' = v) := by
  obtain ⟨htable, hfirst⟩ := null_of_reached ha
  obtain ⟨slot, hslot, hv⟩ := exists_of_bind_eq_ok hv
  rw [orFail_eq_ok_iff] at hslot
  obtain ⟨slot', c, hencode, hfind, hroot⟩ := exists_of_appendRoot htable htop h
  rw [encodeValue] at hencode
  obtain ⟨hdone, hnode, harchive⟩ := mergeArchive_eq_ok hslot hencode
  obtain ⟨new, hwalk⟩ := mergeNode_walked source (maxDepth + 1) (.uid slot) htable
  have hcopied := hwalk.copied_of_done hdone
  obtain rfl : c = a.grown new := harchive.symm.trans hwalk.archive_eq
  have hmirrors : Mirrors source.find? b.find? slot slot' := by
    have hrenamed := hcopied.mirrors _ (htable.finds_grown new)
    rw [← hfind, show (mergeNode source (maxDepth + 1) (.uid slot) a).node = .uid slot' from hnode,
      Tree.renamed_uid_iff] at hrenamed
    obtain ⟨_, hmirrors, ⟨⟩⟩ := hrenamed
    exact hmirrors
  have hnull' : b.find? 0 = some (.string nullText) := by
    rw [hfind]
    exact htable.find?_grown new hfirst
  have hsim := simulates_of_mirrors (find?_eq_some_of_object hnull) hnull' (maxDepth + 1)
  obtain ⟨v', hv', hrenamed⟩ :=
    hsim.flattensLike (Nat.le_refl _) (Nat.le_refl _) slot slot' v hmirrors hv
  refine ⟨v', ?_, hrenamed, eq_of_renamed_mirrors hrenamed⟩
  rw [flatten, hroot]
  exact hv'

end Storing

/-- An array object whose only item is a list that is stored in place, with a reference to the class
of the array object in it. -/
def inlineReference : Archive :=
  (new.after (.addTopClass "NSArray" ["NSObject"])).after
    (.appendItem 1 (.inlineTree (.array [.uid 2])))

/-- An array object that refers to one string twice, and holds a reference to slot 0 in place. -/
def sharedText : Archive :=
  ((((new.after (.addTopClass "NSArray" ["NSObject"])).after
    (.appendObject (.string "shared"))).after (.appendItem 1 (.inlineTree (.uid 3)))).after
      (.appendItem 1 (.inlineTree (.uid 3)))).after (.appendItem 1 (.inlineTree (.array [.uid 0])))

theorem flatten_appendRoot_sharedText :
    Reached (· = new) (fun _ _ => True) new ∧ Dict.get? new.root topKey = none ∧
    sharedText.object 0 = .ok (.string nullText) ∧
    sharedText.flatten = .ok (.array [.string "shared", .string "shared", .array [.uid 0]]) ∧
    ∃ b, (appendRoot (.nsKeyedArchive sharedText)).run new = .ok () b ∧
      b.flatten = .ok (.array [.string "shared", .string "shared", .array [.uid 0]]) := by
  have hreached : Reached (· = new) (fun _ _ => True) new := .initial rfl
  have hflatten : sharedText.flatten
      = .ok (.array [.string "shared", .string "shared", .array [.uid 0]]) := rfl
  have hrun : ∃ b, (appendRoot (.nsKeyedArchive sharedText)).run new = .ok () b := ⟨_, rfl⟩
  obtain ⟨b, hb⟩ := hrun
  obtain ⟨v', hv', -, heq⟩ := flatten_appendRoot_nsKeyedArchive hreached rfl rfl hflatten hb
  rw [heq (by decide)] at hv'
  exact ⟨hreached, rfl, rfl, hflatten, b, hb, hv'⟩

/-- The reference in the list leads to the class of the copy afterwards. -/
theorem flatten_appendRoot_inlineReference :
    Reached (· = new) (fun _ _ => True) new ∧ Dict.get? new.root topKey = none ∧
    Reachable inlineReference ∧ inlineReference.object 0 = .ok (.string nullText) ∧
    inlineReference.flatten = .ok (.array [.array [.uid 2]]) ∧
    ∃ b, (appendRoot (.nsKeyedArchive inlineReference)).run new = .ok () b ∧
      b.flatten = .ok (.array [.array [.uid 3]]) ∧ b.flatten ≠ inlineReference.flatten := by
  have hreachable : Reachable inlineReference := .step (.step (.initial (.inl rfl)) trivial) trivial
  have hflatten : inlineReference.flatten = .ok (.array [.array [.uid 2]]) := rfl
  have hrun : ∃ b, (appendRoot (.nsKeyedArchive inlineReference)).run new = .ok () b ∧
      b.flatten = .ok (.array [.array [.uid 3]]) := ⟨_, rfl, rfl⟩
  obtain ⟨b, hb, hcopied⟩ := hrun
  refine ⟨.initial rfl, rfl, hreachable, rfl, hflatten, b, hb, hcopied, ?_⟩
  rw [hcopied, hflatten]
  intro h
  cases h

end PlistCodec.Archive
