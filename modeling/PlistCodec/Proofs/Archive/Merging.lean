import PlistCodec.Proofs.Archive.History

/-!
# Merging keeps the graph

A node that has been merged into an archive means there what it meant in its source: both unfold to
the same tree.  Around the copy nothing has changed, and inside it nothing is left over.  The copy
is made of new objects, one for each time that the walk from the node followed a reference, so that
an object of the source that is referred to twice is there twice; they stand in the order of the
walk.
-/

namespace PlistCodec.Archive

/-- What a merge of the node `t` of the source into the archive `a` has to leave: the archive `b`,
with the objects `new` behind the table of `a`, and the node `t'`. -/
structure MergedInto (source : Archive) (t : Tree) (a : Archive) (t' : Tree) (b : Archive)
    (new : List Tree) : Prop where
  /-- The table of `a` ends with the slot that `a` knows as its last one. -/
  hasTable : HasTable a
  /-- The old objects are in their slots, and the new ones behind them. -/
  objects_eq : b.objects = .ok (a.table ++ new)
  /-- The last slot is that of the last new object. -/
  lastUid_eq : b.lastUid = a.lastUid + new.length
  /-- Nothing else has changed: not the names of the root objects, and neither the version nor the
  archiver. -/
  get?_root : ∀ key, key ≠ objectsKey → Dict.get? b.root key = Dict.get? a.root key
  /-- In its archive, the node unfolds to what the original unfolds to in the source. -/
  unfolds : ∃ u, source.Yields unfolding t u ∧ b.Yields unfolding t' u
  /-- A walk from the node reaches the new slots in order, each of them once. -/
  visits : b.Yields visit t' (List.range' (a.lastUid + 1) new.length)
  /-- The node and the new objects refer to each new slot once, and to no other slot. -/
  references_perm :
    (t'.references ++ new.flatMap Tree.references).Perm (List.range' (a.lastUid + 1) new.length)
  /-- A new object refers to slots behind its own only, so what refers to it is another one. -/
  forward : Forward (a.lastUid + 1) new

/-- **Merging keeps the graph.**  When a merge into an archive that calls can make succeeds, the
node unfolds in the new archive to what it unfolded to in the source; all that the archive held is
as it was; and the new objects stand in the order in which a walk from the node reaches them, with
one reference to each. -/
theorem mergeObject_mergedInto {source : Archive} {t : Tree} {a : Archive} (ha : Reachable a)
    (hdone : (mergeObject source t a).fault = none) :
    ∃ new, MergedInto source t a (mergeObject source t a).node
      (mergeObject source t a).archive new := by
  have htable := ha.hasTable
  obtain ⟨new, hwalk⟩ := mergeNode_walked source (maxDepth + 1) t htable
  have hcopied := hwalk.copied_of_done hdone
  have hfinds := htable.finds_grown new
  rw [mergeObject, hwalk.archive_eq]
  refine ⟨new, htable, ?_, lastUid_grown a new, ?_, ?_, ?_, hcopied.references_perm,
    hcopied.forward⟩
  · rw [(htable.grown new).objects_eq, table_grown]
  · exact fun key hkey => get?_root_grown a new hkey
  · obtain ⟨u, hu, hu'⟩ := hcopied.unfolds
    exact ⟨u, ⟨_, hu⟩, ⟨_, hu' _ hfinds⟩⟩
  · exact ⟨_, hcopied.visits _ hfinds⟩

/-- A source whose array refers to a string, and to no object. -/
def sharing : Archive where
  root := [(objectsKey, .array [.string nullText, .array [.uid 2, .uid 0], .string "shared"])]
  lastUid := 2

/-- The array of `sharing` beside the string that it refers to. -/
def sharingNode : Tree := .dict [("array", .uid 1), ("string", .uid 2)]

/-- A target with an instance and its class. -/
def instanceArchive : Archive := new.after (.addTopClass "NSArray" ["NSObject"])

theorem mergeObject_mergedInto_sharing : Reachable instanceArchive ∧
    (mergeObject sharing sharingNode instanceArchive).fault = none ∧
    ∃ copies, MergedInto sharing sharingNode instanceArchive
      (mergeObject sharing sharingNode instanceArchive).node
      (mergeObject sharing sharingNode instanceArchive).archive copies := by
  have hreachable : Reachable instanceArchive := .step (.initial (.inl rfl)) trivial
  have hdone : (mergeObject sharing sharingNode instanceArchive).fault = none := by
    decide +kernel
  exact ⟨hreachable, hdone, mergeObject_mergedInto hreachable hdone⟩

end PlistCodec.Archive
