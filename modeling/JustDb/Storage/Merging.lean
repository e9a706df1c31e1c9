import JustDb.Storage.CompactionReads

/-!
# What a merge keeps

The versions of a key may arrive from any table and in any order.  Where no two of
them share a sequence number, a merge keeps the one with the largest, unless it is a
delete marker; the tables' order and the hash map's order leave no trace.
-/

namespace JustDb

namespace StorageEngine

variable {Table : Type} {ops : TableOps Table} {contents : Table → List Entry}

/-- No two entries of one key share a sequence number. -/
def DistinctVersions (versions : List Entry) : Prop :=
  versions.Pairwise fun left right => left.key = right.key → left.sequence ≠ right.sequence

instance (versions : List Entry) : Decidable (DistinctVersions versions) :=
  inferInstanceAs (Decidable (List.Pairwise _ _))

theorem DistinctVersions.perm {versions others : List Entry}
    (distinct : DistinctVersions versions) (perm : versions.Perm others) :
    DistinctVersions others :=
  List.Pairwise.perm distinct perm fun apart same equal => apart same.symm equal.symm

/-- Two versions of a key with one sequence number are one version. -/
theorem DistinctVersions.eq {versions : List Entry} (distinct : DistinctVersions versions)
    {left right : Entry} (leftMem : left ∈ versions) (rightMem : right ∈ versions)
    (sameKey : left.key = right.key) (sameSequence : left.sequence = right.sequence) :
    left = right := by
  by_contra differ
  have symmetric : Std.Symm fun first second : Entry =>
      first.key = second.key → first.sequence ≠ second.sequence :=
    ⟨fun _ _ apart same equal => apart same.symm equal.symm⟩
  exact List.Pairwise.forall distinct leftMem rightMem differ sameKey sameSequence

/-- An entry that no version of its key outranks, and that holds a value. -/
def IsNewestLive (versions : List Entry) (entry : Entry) : Prop :=
  entry ∈ versions ∧
    (∀ other ∈ versions, other.key = entry.key → other.sequence ≤ entry.sequence) ∧
    entry.value ≠ none

theorem isNewestLive_of_perm {versions others : List Entry} (perm : versions.Perm others)
    (entry : Entry) : IsNewestLive versions entry ↔ IsNewestLive others entry := by
  simp only [IsNewestLive, perm.mem_iff]

/-- The map that a merge of some versions builds. -/
def mergedMap (versions : List Entry) : Newest.Table Key Entry :=
  Newest.collect Entry.sequence ∅ (versions.map keyedVersion)

/-- It holds a newest version of every key. -/
theorem summarizes_mergedMap (versions : List Entry) :
    Newest.Summarizes Entry.sequence (versions.map keyedVersion) (mergedMap versions) :=
  (Newest.summarizes_empty Entry.sequence).collect (versions.map keyedVersion)

theorem lookup_mergedMap {versions : List Entry} (distinct : DistinctVersions versions)
    {key : Key} {entry : Entry} :
    (mergedMap versions).lookup key = some entry ↔
      (entry ∈ versions ∧ entry.key = key) ∧
        ∀ other ∈ versions, other.key = key → other.sequence ≤ entry.sequence := by
  have summary := summarizes_mergedMap versions
  constructor
  · intro held
    have newest := summary.newest held
    exact ⟨mem_map_keyedVersion.mp newest.1, fun other member keyed =>
      newest.2 other (mem_map_keyedVersion.mpr ⟨member, keyed⟩)⟩
  · rintro ⟨⟨member, keyed⟩, greatest⟩
    cases held : (mergedMap versions).lookup key with
    | none =>
        exact absurd (mem_map_keyedVersion.mpr ⟨member, keyed⟩) (summary.absent held entry)
    | some kept =>
        have newest := summary.newest held
        have own := mem_map_keyedVersion.mp newest.1
        have above := newest.2 entry (mem_map_keyedVersion.mpr ⟨member, keyed⟩)
        have below := greatest kept own.1 own.2
        rw [distinct.eq own.1 member (own.2.trans keyed.symm) (le_antisymm below above)]

theorem keyed_mergedMap {versions : List Entry} (distinct : DistinctVersions versions) :
    Keyed (mergedMap versions) := by
  intro item member
  have held : (mergedMap versions).lookup item.1 = some item.2 := AList.mem_lookup_iff.mpr member
  exact ((lookup_mergedMap distinct).mp held).1.2

/-- The live versions of the map are the newest versions that hold a value. -/
theorem mem_liveVersions_mergedMap {versions : List Entry}
    (distinct : DistinctVersions versions) (entry : Entry) :
    entry ∈ liveVersions (mergedMap versions) ↔ IsNewestLive versions entry := by
  rw [liveVersions, List.mem_insertionSort, List.mem_filter, List.mem_map, IsNewestLive,
    Option.isSome_iff_ne_none]
  constructor
  · rintro ⟨⟨item, member, rfl⟩, live⟩
    have held : (mergedMap versions).lookup item.1 = some item.2 :=
      AList.mem_lookup_iff.mpr member
    obtain ⟨⟨listed, keyed⟩, greatest⟩ := (lookup_mergedMap distinct).mp held
    exact ⟨listed, fun other otherMem same => greatest other otherMem (same.trans keyed), live⟩
  · rintro ⟨listed, greatest, live⟩
    have held := (lookup_mergedMap distinct).mpr ⟨⟨listed, rfl⟩, greatest⟩
    exact ⟨⟨⟨entry.key, entry⟩, AList.mem_lookup_iff.mp held, rfl⟩, live⟩

/-- Whatever order the hash map lists its values in, sorting gives the same list. -/
theorem liveVersions_of_listing {kept : Newest.Table Key Entry} (keyed : Keyed kept)
    {listing : List Entry} (perm : listing.Perm (kept.entries.map Sigma.snd)) :
    ((listing.filter fun entry => entry.value.isSome).insertionSort
      fun left right => left.key ≤ right.key) = liveVersions kept := by
  have keys : kept.entries.Pairwise fun left right => left.1 ≠ right.1 :=
    List.pairwise_map.mp kept.nodupKeys
  have distinct : (kept.entries.map Sigma.snd).Pairwise fun left right =>
      left.key ≠ right.key := by
    refine List.pairwise_map.mpr (keys.imp_of_mem fun leftMem rightMem apart => ?_)
    rwa [keyed _ leftMem, keyed _ rightMem]
  have sorted : Ascending ((listing.filter fun entry => entry.value.isSome).insertionSort
      fun left right => left.key ≤ right.key) := by
    apply Newest.pairwise_lt_insertionSort
    exact (distinct.perm perm.symm fun apart => apart.symm).filter _
  refine sorted.eq_of_mem_iff keyed.ascending_liveVersions fun entry => ?_
  simp only [liveVersions, List.mem_insertionSort, List.mem_filter, perm.mem_iff]

/-- A merge of tables whose iterators yield entries collects them all. -/
theorem mergeSstables_eq {tables1 tables2 : List Table}
    (yields : ∀ table ∈ tables1 ++ tables2, ops.iter table = (contents table).map .ok) :
    mergeSstables ops tables1 tables2 =
      .ok (liveVersions (mergedMap ((tables1 ++ tables2).flatMap contents))) := by
  have steps : ∀ table ∈ tables1 ++ tables2, ∀ kept,
      (ops.iter table).foldlM absorbEntry kept =
        .ok (Newest.collect Entry.sequence kept ((contents table).map keyedVersion)) :=
    fun table member kept => by rw [yields table member, foldlM_absorbEntry]
  rw [mergeSstables, Newest.foldlM_collect steps, Result.ok_bind, mergedMap, List.map_flatMap]
  rfl

/-- Where no two entries of one key share a sequence number, a merge lists, in ascending
key order, exactly the entries that hold a value and have the largest sequence of their
key, however the tables are ordered and split. -/
theorem mergeSstables_newest {tables1 tables2 : List Table}
    (yields : ∀ table ∈ tables1 ++ tables2, ops.iter table = (contents table).map .ok)
    (distinct : DistinctVersions ((tables1 ++ tables2).flatMap contents)) :
    ∃ merged, mergeSstables ops tables1 tables2 = .ok merged ∧ Ascending merged ∧
      (∀ entry, entry ∈ merged ↔
        IsNewestLive ((tables1 ++ tables2).flatMap contents) entry) ∧
      ∀ others1 others2, (others1 ++ others2).Perm (tables1 ++ tables2) →
        mergeSstables ops others1 others2 = .ok merged := by
  have listed := mem_liveVersions_mergedMap distinct
  have sorted := (keyed_mergedMap distinct).ascending_liveVersions
  refine ⟨_, mergeSstables_eq yields, sorted, listed, ?_⟩
  intro others1 others2 perm
  have versions := (perm.flatMap_right contents).symm
  rw [mergeSstables_eq fun table member => yields table (perm.mem_iff.mp member)]
  congr 1
  refine (keyed_mergedMap (distinct.perm versions)).ascending_liveVersions.eq_of_mem_iff sorted ?_
  intro entry
  rw [listed, mem_liveVersions_mergedMap (distinct.perm versions)]
  exact (isNewestLive_of_perm versions entry).symm

/-- Two tables, each with the newest version of one key, a put and a delete. -/
theorem mergeSstables_newest_put_and_delete :
    let older : MemoryTable := ⟨[], [⟨[1], some [1], 0, 1⟩, ⟨[2], none, 0, 4⟩], 0⟩
    let newer : MemoryTable := ⟨[], [⟨[1], some [3], 0, 3⟩, ⟨[2], some [2], 0, 2⟩], 0⟩
    ∃ merged, mergeSstables MemoryTable.ops [older] [newer] = .ok merged ∧
      Ascending merged ∧ ∀ entry, entry ∈ merged ↔
        IsNewestLive (([older] ++ [newer]).flatMap MemoryTable.entries) entry := by
  intro older newer
  obtain ⟨merged, ran, ascending, newest, _⟩ := @mergeSstables_newest MemoryTable
    MemoryTable.ops MemoryTable.entries [older] [newer] (fun _ _ => rfl) (by decide)
  exact ⟨merged, ran, ascending, newest⟩

end StorageEngine

end JustDb
