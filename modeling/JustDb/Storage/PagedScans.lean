import JustDb.Storage.ScanReads

/-!
# Scans page by page

The version that a scan keeps of a key depends on the sources only, not on the range
around the key.  A scan is therefore a window on one ascending list, and a range that is
scanned page by page gives the same list as one scan, whatever the sequence numbers are.
-/

namespace JustDb

variable {World Table : Type}

namespace StorageEngine

variable {ops : TableOps Table} {contents : Table → List Entry}
  {engine : StorageEngine Table}

/-- Every version that a source holds, in the order of a scan. -/
def held (contents : Table → List Entry) (engine : StorageEngine Table) :
    List (Key × (Value × SequenceNumber)) :=
  engine.memtables.flatMap (fun memtable => scanVersions memtable.entries) ++
    (List.range engine.config.maxLevels).flatMap fun level =>
      (engine.tables level).flatMap fun table =>
        scanVersions ((contents table).map fun entry => (entry.key, entry))

/-- What a scan of all keys would list. -/
def listing (contents : Table → List Entry) (engine : StorageEngine Table) :
    List (Key × Value) :=
  scanFinish (Newest.collect Prod.snd ∅ (engine.held contents))

theorem listing_ascending (contents : Table → List Entry) (engine : StorageEngine Table) :
    (engine.listing contents).Pairwise fun left right => left.1 < right.1 :=
  scanFinish_ascending _

/-- The part of a list whose keys lie in a range. -/
def window (start stop : Key) (pairs : List (Key × Value)) : List (Key × Value) :=
  pairs.filter fun pair => start ≤ pair.1 ∧ pair.1 < stop

/-- A scan collects the versions whose keys lie in its range. -/
theorem scanned_eq_filter (contents : Table → List Entry) (engine : StorageEngine Table)
    (start stop : Key) :
    engine.scanned contents start stop =
      (engine.held contents).filter fun version => start ≤ version.1 ∧ version.1 < stop := by
  have versions : ∀ entries : List (Key × Entry),
      scanVersions (entries.filter fun pair => start ≤ pair.1 ∧ pair.1 < stop) =
        (scanVersions entries).filter fun version => start ≤ version.1 ∧ version.1 < stop := by
    intro entries
    rw [scanVersions, scanVersions, List.filter_map]
    rfl
  have tables : ∀ table, tableVersions contents start stop table =
      (scanVersions ((contents table).map fun entry => (entry.key, entry))).filter
        fun version => start ≤ version.1 ∧ version.1 < stop := by
    intro table
    rw [← versions, tableVersions, List.filter_map]
    rfl
  rw [scanned, held, List.filter_append, List.filter_flatMap, List.filter_flatMap]
  congr 1
  · exact List.flatMap_congr fun memtable _ => versions memtable.entries
  · refine List.flatMap_congr fun level _ => ?_
    rw [levelVersions, List.filter_flatMap]
    exact List.flatMap_congr fun table _ => tables table

/-- A scan of an open engine is a window on the listing. -/
theorem Serves.scan_eq_window (serves : engine.Serves ops contents) {start stop : Key}
    (ordered : start ≤ stop) (running : engine.closed = false) :
    engine.scan ops start stop = .ok (window start stop (engine.listing contents)) := by
  rw [serves.scan_eq ordered running, scanned_eq_filter]
  refine congrArg Except.ok ?_
  have ascending := (scanFinish_ascending (Newest.collect Prod.snd ∅ (engine.held contents))).filter
    fun pair => decide (start ≤ pair.1 ∧ pair.1 < stop)
  refine (scanFinish_ascending _).eq_of_mem_iff ascending fun pair => ?_
  rw [mem_scanFinish, Newest.lookup_collect_filter Prod.snd _ fun key => start ≤ key ∧ key < stop,
    window, listing, List.mem_filter, mem_scanFinish]
  by_cases within : start ≤ pair.1 ∧ pair.1 < stop
  · simp [within]
  · simp [within]

/-! ## Pages -/

/-- Windows that meet are one window. -/
theorem window_append {first middle last : Key} (front : first ≤ middle) (back : middle ≤ last)
    {pairs : List (Key × Value)} (ascending : pairs.Pairwise fun left right => left.1 < right.1) :
    window first middle pairs ++ window middle last pairs = window first last pairs := by
  have whole : (window first middle pairs ++ window middle last pairs).Pairwise
      fun left right => left.1 < right.1 := by
    refine List.pairwise_append.mpr ⟨ascending.filter _, ascending.filter _, ?_⟩
    intro left leftMember right rightMember
    have below := of_decide_eq_true (List.mem_filter.mp leftMember).2
    have above := of_decide_eq_true (List.mem_filter.mp rightMember).2
    exact below.2.trans_le above.1
  refine whole.eq_of_mem_iff (ascending.filter _) fun pair => ?_
  simp only [window, List.mem_append, List.mem_filter, decide_eq_true_eq, ← and_or_left]
  refine and_congr_right fun _ => ⟨?_, fun within => ?_⟩
  · rintro (⟨low, high⟩ | ⟨low, high⟩)
    · exact ⟨low, high.trans_le back⟩
    · exact ⟨front.trans low, high⟩
  · rcases lt_or_ge pair.1 middle with below | above
    · exact .inl ⟨within.1, below⟩
    · exact .inr ⟨above, within.2⟩

/-- Scan page by page: from each stop to the next. -/
def scanPages (ops : TableOps Table) (engine : StorageEngine Table) :
    (start : Key) → (stops : List Key) → Result (List (Key × Value))
  | _, [] => .ok []
  | start, stop :: stops => do
      let page ← engine.scan ops start stop
      let pages ← engine.scanPages ops stop stops
      .ok (page ++ pages)

/-- Pages one after another are one scan, from the first start to the last stop. -/
theorem scanPages_eq_scan (serves : engine.Serves ops contents) (running : engine.closed = false)
    {start : Key} {stops : List Key} (ordered : (start :: stops).Pairwise (· ≤ ·)) :
    engine.scanPages ops start stops =
      engine.scan ops start ((start :: stops).getLast (List.cons_ne_nil _ _)) := by
  induction stops generalizing start with
  | nil =>
      rw [scanPages, List.getLast_singleton, serves.scan_eq_window le_rfl running, window,
        List.filter_eq_nil_iff.mpr]
      intro pair _ within
      obtain ⟨low, high⟩ := of_decide_eq_true within
      exact absurd low (not_le.mpr high)
  | cons stop stops ih =>
      obtain ⟨least, rest⟩ := List.pairwise_cons.mp ordered
      have front := least stop List.mem_cons_self
      have back := least _ (List.getLast_mem (List.cons_ne_nil stop stops))
      have further : stop ≤ (stop :: stops).getLast (List.cons_ne_nil stop stops) := by
        rcases List.mem_cons.mp (List.getLast_mem (List.cons_ne_nil stop stops)) with same | later
        · exact same.ge
        · exact (List.pairwise_cons.mp rest).1 _ later
      rw [scanPages, ih rest, serves.scan_eq_window front running,
        serves.scan_eq_window further running, List.getLast_cons (List.cons_ne_nil stop stops),
        serves.scan_eq_window back running, Result.ok_bind, Result.ok_bind,
        window_append front further (listing_ascending contents engine)]

/-- Two tables of level 0, the newer of which overwrites a key with a smaller sequence. -/
def overlapping : StorageEngine MemoryTable :=
  (fresh MemoryWorld.smallConfig).setLevel 0
    [{ path := ['0'], entries := [⟨[1], some [10], 0, 5⟩, ⟨[3], some [30], 0, 2⟩],
       createdAt := 0 },
     { path := ['1'], entries := [⟨[1], some [11], 1, 4⟩, ⟨[2], some [20], 1, 6⟩],
       createdAt := 1 }]

private theorem overlapping_serves :
    overlapping.Serves MemoryTable.ops MemoryTable.entries := by
  refine (exact_fresh _ _ _).serves.setLevel fun table member => ?_
  rcases List.mem_pair.mp member with rfl | rfl
  · exact MemoryTable.readsFor (List.pairwise_pair.mpr (by decide))
  · exact MemoryTable.readsFor (List.pairwise_pair.mpr (by decide))

theorem scanPages_eq_scan_overlapping :
    overlapping.scanPages MemoryTable.ops [0] [[2], [2, 1], [4]] =
      overlapping.scan MemoryTable.ops [0] [4] :=
  scanPages_eq_scan overlapping_serves rfl (by decide)

end StorageEngine

end JustDb
