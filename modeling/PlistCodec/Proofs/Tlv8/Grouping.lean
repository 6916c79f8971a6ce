import Mathlib.Algebra.Order.Ring.Nat
import Mathlib.Data.List.Induction
import Mathlib.Data.List.Nodup
import Std.Data.String.ToNat
import PlistCodec.Proofs.Dict
import PlistCodec.Tlv8.Record

/-!
# Grouping the records of a stream

`groups` goes over the records, and at each whose tag it has not met it goes over all of them once
more, for the values under this tag.  The two passes see the same records, and tags have the same
key only if they are equal.  So there is one group for each tag, in the order in which the tags
first appear, and each record is in exactly one of them (`perm_flatMap_withTag`).
-/

namespace PlistCodec.Tlv8

/-! ## Tags in the order of their first appearance -/

/-- The tags of records, each once, in the order in which they first appear. -/
def firstTags (found : List Record) : List UInt8 := (found.map Record.tag).eraseDups

/-- The records with a tag, in order. -/
def withTag (tag : UInt8) (found : List Record) : List Record :=
  found.filter fun record => record.tag = tag

theorem mem_firstTags {found : List Record} {tag : UInt8} :
    tag ∈ firstTags found ↔ tag ∈ found.map Record.tag :=
  List.mem_eraseDups

/-- A first record puts its tag in front, and takes it out of what follows. -/
theorem firstTags_cons (record : Record) (rest : List Record) :
    firstTags (record :: rest)
      = record.tag :: firstTags (rest.filter fun other => other.tag ≠ record.tag) := by
  have hfilter : (rest.map Record.tag).filter (fun tag => !tag == record.tag)
      = (rest.filter fun other => other.tag ≠ record.tag).map Record.tag := by
    rw [List.filter_map]
    congr 1
    refine List.filter_congr fun other _ => ?_
    simp [Bool.beq_eq_decide_eq]
  rw [firstTags, List.map_cons, List.eraseDups_cons, hfilter, ← firstTags]

/-- A further record adds its tag at the end, unless the tag is there already. -/
theorem firstTags_concat (found : List Record) (record : Record) :
    firstTags (found ++ [record])
      = firstTags found ++ if record.tag ∈ firstTags found then [] else [record.tag] := by
  rw [firstTags, List.map_append, List.eraseDups_append, ← firstTags]
  congr 1
  simp only [List.removeAll, List.map_singleton, List.filter_singleton, mem_firstTags]
  by_cases h : record.tag ∈ found.map Record.tag
  · simp only [List.elem_eq_mem, h, decide_true, Bool.not_true, if_true]
    rfl
  · simp only [List.elem_eq_mem, h, decide_false, Bool.not_false, if_false]
    rfl

/-- Tags stand in the order of the places where they first appear. -/
theorem pairwise_firstTags (found : List Record) : (firstTags found).Pairwise fun one other =>
    (found.map Record.tag).idxOf one < (found.map Record.tag).idxOf other := by
  induction found using List.reverseRecOn with
  | nil => exact List.Pairwise.nil
  | append_singleton found record ih =>
    -- the places of the tags that were there stay what they are
    have hplace : ∀ tag ∈ firstTags found,
        ((found ++ [record]).map Record.tag).idxOf tag = (found.map Record.tag).idxOf tag := by
      intro tag htag
      rw [List.map_append]
      exact List.idxOf_append_of_mem (mem_firstTags.mp htag)
    have hold : (firstTags found).Pairwise fun one other =>
        ((found ++ [record]).map Record.tag).idxOf one
          < ((found ++ [record]).map Record.tag).idxOf other := by
      refine ih.imp_of_mem fun {one other} hone hother hlt => ?_
      rwa [hplace one hone, hplace other hother]
    rw [firstTags_concat]
    split
    · rwa [List.append_nil]
    case isFalse hnew =>
      refine List.pairwise_append.mpr ⟨hold, List.pairwise_singleton _ _, ?_⟩
      intro tag htag last hlast
      obtain rfl := List.mem_singleton.mp hlast
      rw [hplace tag htag, List.map_append,
        List.idxOf_append_of_notMem (mt mem_firstTags.mpr hnew)]
      exact Nat.lt_add_right _ (List.idxOf_lt_length_iff.mpr (mem_firstTags.mp htag))

example : firstTags [⟨5, [1]⟩, ⟨4, []⟩, ⟨5, [2]⟩, ⟨1, []⟩] = [5, 4, 1] := by decide

theorem nodup_firstTags (found : List Record) : (firstTags found).Nodup := by
  refine (pairwise_firstTags found).imp fun {one other} hlt heq => ?_
  rw [heq] at hlt
  exact Nat.lt_irrefl _ hlt

section WithTag

variable {tag : UInt8} {record : Record}

theorem withTag_cons_self (record : Record) (rest : List Record) :
    withTag record.tag (record :: rest) = record :: withTag record.tag rest :=
  List.filter_cons_of_pos (decide_eq_true rfl)

theorem withTag_cons_of_ne (h : record.tag ≠ tag) (rest : List Record) :
    withTag tag (record :: rest) = withTag tag rest :=
  List.filter_cons_of_neg (by simpa using h)

/-- The records of another tag are no matter. -/
theorem withTag_filter_ne (h : record.tag ≠ tag) (found : List Record) :
    withTag tag (found.filter fun other => other.tag ≠ record.tag) = withTag tag found := by
  rw [withTag, withTag, List.filter_filter]
  refine List.filter_congr fun other _ => ?_
  by_cases htag : other.tag = tag
  · simp [htag, h.symm]
  · simp [htag]

end WithTag

/-- Each record is under exactly one tag. -/
theorem perm_flatMap_withTag (found : List Record) :
    ((firstTags found).flatMap fun tag => withTag tag found).Perm found := by
  match found with
  | [] => exact List.Perm.nil
  | first :: rest =>
    -- the first tag takes its records, and the others share what is left
    have hothers := perm_flatMap_withTag (rest.filter fun record => record.tag ≠ first.tag)
    have hunder : ∀ tag ∈ firstTags (rest.filter fun record => record.tag ≠ first.tag),
        withTag tag (first :: rest)
          = withTag tag (rest.filter fun record => record.tag ≠ first.tag) := by
      intro tag htag
      obtain ⟨record, hrecord, rfl⟩ := List.mem_map.mp (mem_firstTags.mp htag)
      have hne : record.tag ≠ first.tag := by simpa using (List.mem_filter.mp hrecord).2
      rw [withTag_cons_of_ne hne.symm, withTag_filter_ne hne.symm]
    have hsplit := List.filter_append_perm (fun record : Record => record.tag = first.tag) rest
    simp only [← decide_not] at hsplit
    rw [firstTags_cons, List.flatMap_cons, List.flatMap_congr hunder, withTag_cons_self,
      List.cons_append]
    exact ((hothers.append_left _).trans hsplit).cons first
termination_by found.length
decreasing_by exact Nat.lt_succ_of_le (List.length_filter_le _ _)

/-! ## Groups -/

theorem keyOfTag_injective : Function.Injective keyOfTag :=
  fun _ _ h => UInt8.toNat_inj.mp (Nat.repr_injective h)

/-- The values of the records under each tag of some records. -/
def groupsOf (data : Bytes) (found : List Record) : Dict Bytes :=
  (firstTags found).map fun tag => (keyOfTag tag, joined data tag)

theorem keys_groupsOf (data : Bytes) (found : List Record) :
    (groupsOf data found).keys = (firstTags found).map keyOfTag := by
  rw [groupsOf, Dict.keys, List.map_map]
  rfl

theorem distinct_groupsOf (data : Bytes) (found : List Record) :
    (groupsOf data found).Distinct := by
  rw [Dict.Distinct, keys_groupsOf]
  exact (nodup_firstTags found).map keyOfTag_injective

theorem contains_groupsOf {data : Bytes} {found : List Record} {tag : UInt8} :
    (groupsOf data found).contains (keyOfTag tag) = true ↔ tag ∈ firstTags found := by
  rw [Dict.contains, ← Dict.mem_keys_iff, keys_groupsOf,
    List.mem_map_of_injective keyOfTag_injective]

theorem joined?_of_mem {data : Bytes} {record : Record} (h : record ∈ records data) :
    joined? data record.tag = some (joined data record.tag) :=
  if_pos (List.any_eq_true.mpr ⟨record, h, decide_eq_true rfl⟩)

/-- One more record of the stream adds the group of its tag, unless it is there already. -/
theorem addGroup_groupsOf {data : Bytes} {record : Record} (h : record ∈ records data)
    (found : List Record) :
    addGroup data (groupsOf data found) record = groupsOf data (found ++ [record]) := by
  rw [addGroup]
  by_cases hmem : record.tag ∈ firstTags found
  · rw [if_pos (contains_groupsOf.mpr hmem), groupsOf, groupsOf, firstTags_concat, if_pos hmem,
      List.append_nil]
  · have hkey : keyOfTag record.tag ∉ (groupsOf data found).keys := by
      rwa [Dict.mem_keys_iff, ← Dict.contains, contains_groupsOf]
    rw [if_neg (mt contains_groupsOf.mp hmem), joined?_of_mem h]
    calc (groupsOf data found).insert (keyOfTag record.tag) (joined data record.tag)
        = groupsOf data found ++ [(keyOfTag record.tag, joined data record.tag)] :=
          Dict.insert_of_not_mem hkey _
      _ = groupsOf data (found ++ [record]) := by
          rw [groupsOf, groupsOf, firstTags_concat, if_neg hmem, List.map_append,
            List.map_singleton]

theorem foldl_addGroup {data : Bytes} {found : List Record}
    (h : ∀ record ∈ found, record ∈ records data) :
    found.foldl (addGroup data) [] = groupsOf data found := by
  induction found using List.reverseRecOn with
  | nil => rfl
  | append_singleton found record ih =>
    have hrecord : record ∈ records data := h record List.mem_concat_self
    rw [List.foldl_concat, ih fun other hother => h other (List.mem_append_left _ hother),
      addGroup_groupsOf hrecord]

theorem groups_eq (data : Bytes) : groups data = groupsOf data (records data) :=
  foldl_addGroup fun _ h => h

/-- The groups hold as many bytes as the records. -/
theorem sum_length_groups (data : Bytes) :
    ((groups data).map fun group => group.2.length).sum
      = ((records data).map fun record => record.value.length).sum := by
  have hperm := (perm_flatMap_withTag (records data)).flatMap_right Record.value
  rw [List.flatMap_assoc] at hperm
  rw [groups_eq, groupsOf, List.map_map, ← List.length_flatMap, ← hperm.length_eq,
    List.length_flatMap]
  rfl

/-- **Grouping loses nothing.**  A stream becomes a dictionary with an entry for each tag of its
records, in the order in which the tags first appear: under the decimal digits of the tag the values
of all records that have it, one behind the other.  No key occurs twice, and the values are as long
together as those of the records. -/
theorem toTree_eq_dict (data : Bytes) : ∃ found : Dict Bytes,
    toTree data = .dict (found.map fun group => (group.1, .data group.2)) ∧
      found = ((records data).map Record.tag).eraseDups.map (fun tag => (toString tag.toNat,
        ((records data).filter fun record => record.tag = tag).flatMap Record.value)) ∧
      found.Distinct ∧
      (found.map fun group => group.2.length).sum
        = ((records data).map fun record => record.value.length).sum := by
  refine ⟨groups data, rfl, groups_eq data, ?_, sum_length_groups data⟩
  rw [groups_eq]
  exact distinct_groupsOf data (records data)

end PlistCodec.Tlv8
