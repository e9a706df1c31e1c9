import JustDb.Storage.Checkpoints

/-!
# Compactions that stop and reads after them

A compaction may stop before all of its outputs are there, or with any of its inputs still
there.  An engine that is opened on the files reads as before, wherever the compaction
stopped, exactly when opening alone keeps the reads and each input can stand in for all of
them: its versions have the values that are read, and nothing that the compaction drops and
no table that spans a key uncovers or hides another value.  Out of the last level, nothing
but delete markers may go; and where an output takes the name of a file, or an older stamp
than a table has, the checkpoints decide.
-/

namespace JustDb

open Stateful Machine

namespace Directory

open MemoryTable

variable {host : Host} {level : Nat} {machine : Machine Directory MemoryTable}

/-! ## What the outputs hold -/

theorem map_entries_outputsFrom (host : Host) (level ticks : Nat) (counter : SequenceNumber)
    (pieces : List (List Entry)) :
    (outputsFrom host level ticks counter pieces).map MemoryTable.entries = pieces := by
  induction pieces generalizing ticks counter with
  | nil => rfl
  | cons piece pieces ih => rw [outputsFrom, List.map_cons, ih]

section Outputs

variable {merged : List Entry} (completes : Completes level machine.engine)
  (merging : StorageEngine.mergeSstables ops (machine.engine.tables level)
    (machine.engine.tables (level + 1)) = .ok merged)
include completes merging

/-- The pieces that are written are chunks of the merge. -/
theorem exists_chunks : ∃ targetSize, pieces machine.engine level = chunksOf targetSize merged := by
  cases target : machine.engine.config.targetSize (level + 1) with
  | ok targetSize => exact ⟨targetSize, pieces_of_ok merging target⟩
  | error fault =>
      have stopped : ¬∃ targetSize, machine.engine.config.targetSize (level + 1) =
          .ok targetSize := by
        rintro ⟨targetSize, computed⟩
        cases target.symm.trans computed
      have empty := completes.resolve_right stopped
      cases empty.symm.trans merging
      refine ⟨0, ?_⟩
      rw [pieces, merging, target]
      rfl

/-- The outputs hold the merge of the two levels, cut into tables. -/
theorem flatMap_entries_outputs (host : Host) :
    (outputs host level machine).flatMap MemoryTable.entries = merged := by
  obtain ⟨targetSize, chunks⟩ := exists_chunks completes merging
  rw [List.flatMap_def, outputs, map_entries_outputsFrom, chunks, flatten_chunksOf]

theorem exactFor_outputs (host : Host) :
    ∀ output ∈ outputs host level machine, ExactFor ops output output.entries := by
  intro output member
  obtain ⟨targetSize, chunks⟩ := exists_chunks completes merging
  have piece : output.entries ∈ chunksOf targetSize merged := by
    rw [← chunks, ← map_entries_outputsFrom host (level + 1) machine.world.ticks
      machine.engine.sequenceCounter (pieces machine.engine level)]
    exact List.mem_map_of_mem member
  exact MemoryTable.exactFor (ne_nil_of_mem_chunksOf piece)
    ((StorageEngine.mergeSstables_ascending merging).of_mem_chunksOf piece)

theorem apart_outputs (host : Host) :
    (outputs host level machine).Pairwise (StorageEngine.Apart ops) := by
  refine StorageEngine.apart_of_ascending (exactFor_outputs completes merging host) ?_
  rw [flatMap_entries_outputs completes merging]
  exact StorageEngine.mergeSstables_ascending merging

/-- The merge holds of a key what an output does. -/
theorem entryFor_merged (host : Host) {key : Key} {version : Entry} :
    entryFor merged key = some version ↔
      ∃ output ∈ outputs host level machine, entryFor output.entries key = some version := by
  have exact_ := exactFor_outputs completes merging host
  rw [← flatMap_entries_outputs completes merging host, ← StorageEngine.runLookup_eq_entryFor,
    StorageEngine.runLookup_eq_some exact_ (apart_outputs completes merging host)]
  refine exists_congr fun output => and_congr_right fun member => ?_
  exact (exact_ output member).ascending.entryFor_eq_some.symm

/-- An output that spans a key holds of it what the merge does. -/
theorem entryFor_of_covers {host : Host} {output : MemoryTable}
    (member : output ∈ outputs host level machine) {key : Key} (covers : Covers key output) :
    entryFor merged key = entryFor output.entries key := by
  refine Option.ext fun version => ?_
  rw [entryFor_merged completes merging]
  refine ⟨?_, fun held => ⟨output, member, held⟩⟩
  rintro ⟨other, otherMem, held⟩
  have both := covers_of_held (exactFor_outputs completes merging host other otherMem) held
  by_cases same : other = output
  · rwa [← same]
  · have symmetric : Std.Symm (StorageEngine.Apart ops) := ⟨fun _ _ => Or.symm⟩
    rcases (apart_outputs completes merging host).forall otherMem member same with before | after
    · exact absurd (covers.1.trans both.2) (not_le.mpr before)
    · exact absurd (both.1.trans covers.2) (not_le.mpr after)

end Outputs

/-! ## Inputs that stand in for all -/

/-- A version stands in for all that the two levels hold of a key: it has the value that is
read, and where it may be dropped or hidden the levels below have that value too. -/
structure StandsIn (level : Nat) (machine : Machine Directory MemoryTable)
    (arranged : Nat → List MemoryTable) (key : Key) (version : Entry) : Prop where
  agrees : version.value = current machine key
  replaced : (version.value = none ∨ ∃ table ∈ machine.engine.tables (level + 1),
      Covers key table ∧ entryFor table.entries key = none) →
    (answersFrom (level + 2) machine.engine.config.maxLevels arranged key).bind Entry.value =
      version.value

/-- Every version that an input holds of a key stands in for all, if no level above holds
the key. -/
def Replaceable (level : Nat) (machine : Machine Directory MemoryTable) : Prop :=
  ∀ arranged, Arranges machine.world.files arranged →
    ∀ key, answersAbove level arranged key = none →
      ∀ table ∈ inputs level machine.engine, ∀ version,
        entryFor table.entries key = some version → StandsIn level machine arranged key version

section Replaceable

variable {arranged : Nat → List MemoryTable} {key : Key} (quiescent : Quiescent machine)
  (inside : level + 1 < machine.engine.config.maxLevels)
  (untouched : ReadAs machine.engine.config.maxLevels (current machine) machine.world.files)
  (arranges : Arranges machine.world.files arranged)
  (bare : answersAbove level arranged key = none)
include quiescent inside untouched arranges bare

/-- A key that no input holds is read from the levels below. -/
theorem below_of_unheld (unheld : ∀ table ∈ inputs level machine.engine,
      entryFor table.entries key = none) :
    (answersFrom (level + 2) machine.engine.config.maxLevels arranged key).bind Entry.value =
      current machine key := by
  have nothing : ∀ other, (other = level ∨ other = level + 1) →
      answer other (arranged other) key = none := by
    intro other merged
    by_contra found
    obtain ⟨version, found⟩ := Option.ne_none_iff_exists'.mp found
    obtain ⟨table, member, held⟩ := mem_of_answer found
    have placed := quiescent.mem_tables.mpr (arranges.mem_iff.mp member)
    have listed : table ∈ inputs level machine.engine := by
      rcases merged with rfl | rfl
      · exact List.mem_append_left _ placed
      · exact List.mem_append_right _ placed
    cases (unheld table listed).symm.trans held
  rw [← untouched arranged arranges key, reads_pair inside, bare, nothing level (.inl rfl),
    nothing (level + 1) (.inr rfl), Option.none_or, Option.none_or, Option.none_or]

variable (replaceable : Replaceable level machine)
include replaceable

/-- A key that a table of the lower level hides is read from the levels below. -/
theorem Replaceable.below_of_hidden {table : MemoryTable}
    (member : table ∈ machine.engine.tables (level + 1)) (covers : Covers key table)
    (missing : entryFor table.entries key = none) :
    (answersFrom (level + 2) machine.engine.config.maxLevels arranged key).bind Entry.value =
      current machine key := by
  by_cases unheld : ∀ input ∈ inputs level machine.engine, entryFor input.entries key = none
  · exact below_of_unheld quiescent inside untouched arranges bare unheld
  · push Not at unheld
    obtain ⟨input, listed, held⟩ := unheld
    obtain ⟨version, held⟩ := Option.ne_none_iff_exists'.mp held
    have stands := replaceable arranged arranges key bare input listed version held
    exact (stands.replaced (.inr ⟨table, member, covers, missing⟩)).trans stands.agrees

/-- A key that is not in the merge is read from the levels below. -/
theorem Replaceable.below_of_dropped {merged : List Entry}
    (merging : StorageEngine.mergeSstables ops (machine.engine.tables level)
      (machine.engine.tables (level + 1)) = .ok merged)
    (dropped : entryFor merged key = none) :
    (answersFrom (level + 2) machine.engine.config.maxLevels arranged key).bind Entry.value =
      current machine key := by
  rcases StorageEngine.kept_mergeSstables (fun _ => quiescent.exact_of_mem_inputs) merging key with
    ⟨unheld, -⟩ | ⟨table, listed, version, held, kept⟩
  · exact below_of_unheld quiescent inside untouched arranges bare unheld
  · have stands := replaceable arranged arranges key bare table listed version held
    have dead : version.value = none := by
      rw [dropped, Option.filter_some] at kept
      by_contra live
      rw [if_pos (Option.isSome_iff_ne_none.mpr live)] at kept
      cases kept
    exact (stands.replaced (.inl dead)).trans stands.agrees

end Replaceable

/-- Files in which the two levels are left with some of the inputs and of the outputs, and
with all of the one or of the other. -/
structure Mixed (host : Host) (level : Nat) (machine : Machine Directory MemoryTable)
    (after : List MemoryTable) : Prop where
  names : (after.map MemoryTable.path).Nodup
  elsewhere : Elsewhere level machine.world.files after
  upper : ∀ file ∈ after, fileLevel file.path = some level → file ∈ machine.engine.tables level
  lower : ∀ file ∈ after, fileLevel file.path = some (level + 1) →
    file ∈ outputs host level machine ∨ file ∈ machine.engine.tables (level + 1)
  whole : (∀ input ∈ inputs level machine.engine, input ∈ after) ∨
    ∀ output ∈ outputs host level machine, output ∈ after

section Leveled

variable {files tables : List MemoryTable} {other : Nat}
  (perm : (files.filter fun file => fileLevel file.path = some other).Perm tables)
include perm

theorem mem_of_leveled {file : MemoryTable} (member : file ∈ files)
    (leveled : fileLevel file.path = some other) : file ∈ tables :=
  perm.mem_iff.mp (List.mem_filter.mpr ⟨member, decide_eq_true leveled⟩)

theorem mem_of_mem_leveled {table : MemoryTable} (member : table ∈ tables) : table ∈ files :=
  (List.mem_filter.mp (perm.mem_iff.mpr member)).1

end Leveled

theorem mixed_afterOutputs (quiescent : Quiescent machine) (bounded : level + 1 < wordSize)
    (regular : Regular host level machine) (count : Nat) :
    Mixed host level machine (afterOutputs host level machine count) where
  names := names_written quiescent.names
  elsewhere := elsewhere_afterOutputs host bounded count
  upper _ member leveled :=
    mem_of_leveled (upper_afterOutputs host quiescent bounded count) member leveled
  lower _ member leveled :=
    (List.mem_append.mp (mem_of_leveled (lower_afterOutputs quiescent bounded regular count)
      member leveled)).imp_left List.mem_of_mem_take
  whole := .inl fun _ listed => (List.mem_append.mp listed).elim
    (mem_of_mem_leveled (upper_afterOutputs host quiescent bounded count))
    fun lower => mem_of_mem_leveled (lower_afterOutputs quiescent bounded regular count)
      (List.mem_append_right _ lower)

theorem mixed_afterRemovals (quiescent : Quiescent machine) (bounded : level + 1 < wordSize)
    (regular : Regular host level machine) (kept : MemoryTable → Bool) :
    Mixed host level machine (afterRemovals host level machine kept) where
  names := names_without (names_written quiescent.names)
  elsewhere := elsewhere_afterRemovals host quiescent bounded kept
  upper _ member leveled :=
    (List.mem_filter.mp (mem_of_leveled (upper_afterRemovals host quiescent bounded kept)
      member leveled)).1
  lower _ member leveled :=
    (List.mem_append.mp (mem_of_leveled (lower_afterRemovals quiescent bounded regular kept)
      member leveled)).imp_right fun old => (List.mem_filter.mp old).1
  whole := .inr fun _ member =>
    mem_of_mem_leveled (lower_afterRemovals quiescent bounded regular kept)
      (List.mem_append_left _ member)

/-- The merge holds live versions that the inputs hold. -/
theorem Quiescent.exists_of_merged (quiescent : Quiescent machine) {merged : List Entry}
    (merging : StorageEngine.mergeSstables ops (machine.engine.tables level)
      (machine.engine.tables (level + 1)) = .ok merged)
    {key : Key} {version : Entry} (held : entryFor merged key = some version) :
    (∃ table ∈ inputs level machine.engine, entryFor table.entries key = some version) ∧
      version.value ≠ none := by
  rcases StorageEngine.kept_mergeSstables (fun _ => quiescent.exact_of_mem_inputs) merging key with
    ⟨-, missing⟩ | ⟨table, listed, newest, newestHeld, kept⟩
  · cases missing.symm.trans held
  · obtain ⟨same, live⟩ := Option.filter_eq_some_iff.mp (kept.symm.trans held)
    cases same
    exact ⟨⟨table, listed, newestHeld⟩, Option.isSome_iff_ne_none.mp live⟩

namespace Mixed

variable {after : List MemoryTable} {arranged : Nat → List MemoryTable} {key : Key}

/-- The files before the compaction, in the order of those after it where they are the same. -/
theorem arranges_byAge (mixed : Mixed host level machine after) (quiescent : Quiescent machine)
    (arranges : Arranges after arranged) {upper : List MemoryTable}
    (perm : upper.Perm (machine.engine.tables level))
    (sorted : upper.Pairwise fun older newer => older.createdAt ≤ newer.createdAt) :
    Arranges machine.world.files
      (overriding level upper (byAge (machine.engine.tables (level + 1))) arranged) :=
  arranges.overriding mixed.elsewhere.symm (perm.trans (quiescent.filed level)) sorted
    ((byAge_perm _).trans (quiescent.filed (level + 1))) (byAge_sorted _)

/-- Where all inputs are left and none is asked, the levels below are read. -/
theorem below_of_unasked (mixed : Mixed host level machine after) (quiescent : Quiescent machine)
    (inside : level + 1 < machine.engine.config.maxLevels)
    (untouched : ReadAs machine.engine.config.maxLevels (current machine) machine.world.files)
    (arranges : Arranges after arranged) (bare : answersAbove level arranged key = none)
    (all : ∀ input ∈ inputs level machine.engine, input ∈ after)
    (first : answer level (arranged level) key = none)
    (second : asked (level + 1) (arranged (level + 1)) key = none) :
    (answersFrom (level + 2) machine.engine.config.maxLevels arranged key).bind Entry.value =
      current machine key := by
  have perm : (arranged level).Perm (machine.engine.tables level) := by
    refine (arranges.perm level).trans ((List.perm_ext_iff_of_nodup
      ((List.Nodup.of_map _ mixed.names).filter _) (quiescent.nodup_tables level)).mpr ?_)
    intro file
    rw [List.mem_filter, decide_eq_true_iff]
    refine ⟨fun present => mixed.upper file present.1 present.2, fun member => ?_⟩
    exact ⟨all file (List.mem_append_left _ member), (quiescent.mem_tables.mp member).2⟩
  have uncovered := not_covers_of_asked (Nat.succ_ne_zero level) second
  have nothing : asked (level + 1) (byAge (machine.engine.tables (level + 1))) key = none := by
    by_contra asks
    obtain ⟨table, asks⟩ := Option.ne_none_iff_exists'.mp asks
    have member := (byAge_perm _).mem_iff.mp (mem_of_asked asks)
    refine uncovered table (arranges.mem_iff.mpr ?_) (covers_of_asked (Nat.succ_ne_zero level) asks)
    exact ⟨all table (List.mem_append_right _ member), (quiescent.mem_tables.mp member).2⟩
  rw [← untouched _ (mixed.arranges_byAge quiescent arranges perm (arranges.sorted level)) key,
    reads_overriding inside, bare, first, answer_eq_asked, nothing, Option.bind_none,
    Option.none_or, Option.none_or, Option.none_or]

/-- Where all outputs are left and none is asked, the merge does not hold the key. -/
theorem not_merged_of_unasked (bounded : level + 1 < wordSize)
    (completes : Completes level machine.engine) {merged : List Entry}
    (merging : StorageEngine.mergeSstables ops (machine.engine.tables level)
      (machine.engine.tables (level + 1)) = .ok merged)
    (arranges : Arranges after arranged)
    (all : ∀ output ∈ outputs host level machine, output ∈ after)
    (second : asked (level + 1) (arranged (level + 1)) key = none) :
    entryFor merged key = none := by
  by_contra found
  obtain ⟨version, found⟩ := Option.ne_none_iff_exists'.mp found
  obtain ⟨output, member, held⟩ := (entryFor_merged completes merging host).mp found
  refine not_covers_of_asked (Nat.succ_ne_zero level) second output (arranges.mem_iff.mpr ?_)
    (covers_of_held (exactFor_outputs completes merging host output member) held)
  exact ⟨all output member, fileLevel_of_mem_outputsFrom bounded member⟩

end Mixed

/-- Where inputs stand in for all, some of them and of the outputs read as before. -/
theorem Replaceable.readAs (replaceable : Replaceable level machine)
    (quiescent : Quiescent machine) (inside : level + 1 < machine.engine.config.maxLevels)
    (bounded : level + 1 < wordSize)
    (untouched : ReadAs machine.engine.config.maxLevels (current machine) machine.world.files)
    (completes : Completes level machine.engine) {merged : List Entry}
    (merging : StorageEngine.mergeSstables ops (machine.engine.tables level)
      (machine.engine.tables (level + 1)) = .ok merged)
    {after : List MemoryTable} (mixed : Mixed host level machine after) :
    ReadAs machine.engine.config.maxLevels (current machine) after := by
  intro arranged arranges key
  set base := overriding level (byAge (machine.engine.tables level))
    (byAge (machine.engine.tables (level + 1))) arranged with baseEq
  have based : Arranges machine.world.files base :=
    mixed.arranges_byAge quiescent arranges (byAge_perm _) (byAge_sorted _)
  cases above : answersAbove level arranged key with
  | some version =>
      rw [← untouched _ based key, reads_overriding inside, reads_pair inside, above]
      rfl
  | none =>
      have bare : answersAbove level base key = none := by
        rw [baseEq, answersAbove_overriding, above]
      have stands := replaceable _ based key bare
      have dropped := below_of_dropped quiescent inside untouched based bare replaceable merging
      have hidden : ∀ table ∈ machine.engine.tables (level + 1), Covers key table →
          entryFor table.entries key = none → _ := fun _ =>
        below_of_hidden quiescent inside untouched based bare replaceable
      simp only [baseEq, answersFrom_overriding] at dropped hidden
      rw [reads_pair inside, above, Option.none_or]
      cases first : answer level (arranged level) key with
      | some version =>
          obtain ⟨table, member, held⟩ := mem_of_answer first
          obtain ⟨present, leveled⟩ := arranges.mem_iff.mp member
          exact (stands table (List.mem_append_left _ (mixed.upper table present leveled))
            version held).agrees
      | none =>
          rw [Option.none_or, answer_eq_asked]
          cases second : asked (level + 1) (arranged (level + 1)) key with
          | none =>
              rw [Option.bind_none, Option.none_or]
              rcases mixed.whole with all | all
              · exact mixed.below_of_unasked quiescent inside untouched arranges above all first
                  second
              · exact dropped (Mixed.not_merged_of_unasked bounded completes merging arranges all
                  second)
          | some file =>
              have covers := covers_of_asked (Nat.succ_ne_zero level) second
              obtain ⟨present, leveled⟩ := arranges.mem_iff.mp (mem_of_asked second)
              rw [Option.bind_some]
              rcases mixed.lower file present leveled with new | old
              · have merged_ := entryFor_of_covers completes merging new covers
                cases held : entryFor file.entries key with
                | none => exact dropped (merged_.trans held)
                | some version =>
                    obtain ⟨⟨table, listed, same⟩, -⟩ :=
                      quiescent.exists_of_merged merging (merged_.trans held)
                    exact (stands table listed version same).agrees
              · cases held : entryFor file.entries key with
                | none => exact hidden file old covers held
                | some version =>
                    exact (stands file (List.mem_append_right _ old) version held).agrees

/-! ## One input left, or none -/

theorem filter_eq_singleton {tables : List MemoryTable} (distinct : tables.Nodup)
    {table : MemoryTable} (member : table ∈ tables) :
    (tables.filter fun other => other = table) = [table] := by
  refine List.perm_singleton.mp ((List.perm_ext_iff_of_nodup (distinct.filter _)
    (List.nodup_singleton _)).mpr fun other => ?_)
  rw [List.mem_filter, decide_eq_true_iff, List.mem_singleton]
  exact ⟨And.right, fun same => ⟨same ▸ member, same⟩⟩

theorem filter_eq_nil {tables : List MemoryTable} {table : MemoryTable}
    (missing : table ∉ tables) : (tables.filter fun other => other = table) = [] :=
  List.filter_eq_nil_iff.mpr fun _ member same => missing (of_decide_eq_true same ▸ member)

/-- The tables of two levels are different. -/
theorem Quiescent.not_mem_tables (quiescent : Quiescent machine) {own other : Nat}
    {table : MemoryTable} (member : table ∈ machine.engine.tables own) (different : own ≠ other) :
    table ∉ machine.engine.tables other := by
  intro elsewhere
  have leveled := (quiescent.mem_tables.mp elsewhere).2
  rw [(quiescent.mem_tables.mp member).2] at leveled
  exact different (Option.some.inj leveled)

section Necessity

variable (checkpoints : Checkpoints host level machine) (quiescent : Quiescent machine)
  (inside : level + 1 < machine.engine.config.maxLevels) (bounded : level + 1 < wordSize)
  (regular : Regular host level machine)
include quiescent inside bounded regular

/-- What is read when some inputs are left, in given orders of the two levels. -/
theorem reads_afterRemovals {kept : MemoryTable → Bool}
    (readAs : ReadAs machine.engine.config.maxLevels (current machine)
      (afterRemovals host level machine kept))
    {arranged : Nat → List MemoryTable} (arranges : Arranges machine.world.files arranged)
    {key : Key} (bare : answersAbove level arranged key = none)
    {upper old : List MemoryTable} (upperEq : (machine.engine.tables level).filter kept = upper)
    (oldEq : (machine.engine.tables (level + 1)).filter kept = old)
    (upperSorted : upper.Pairwise fun older newer => older.createdAt ≤ newer.createdAt)
    (oldSorted : old.Pairwise fun older newer => older.createdAt ≤ newer.createdAt) :
    ((answer level upper key).or
        ((answer (level + 1) (old ++ byAge (outputs host level machine)) key).or
          (answersFrom (level + 2) machine.engine.config.maxLevels arranged key))).bind
        Entry.value = current machine key := by
  have upperPerm := upper_afterRemovals host quiescent bounded kept
  have lowerPerm := lower_afterRemovals quiescent bounded regular kept
  rw [upperEq] at upperPerm
  rw [oldEq] at lowerPerm
  have sorted : (old ++ byAge (outputs host level machine)).Pairwise
      fun older newer => older.createdAt ≤ newer.createdAt := by
    refine List.pairwise_append.mpr ⟨oldSorted, byAge_sorted _, fun table member output new => ?_⟩
    rw [← oldEq] at member
    exact regular.later output ((byAge_perm _).mem_iff.mp new) table (List.mem_filter.mp member).1
  have perm : (old ++ byAge (outputs host level machine)).Perm
      (outputs host level machine ++ old) :=
    ((byAge_perm _).append_left old).trans List.perm_append_comm
  have arranges' := arranges.overriding (elsewhere_afterRemovals host quiescent bounded kept)
    upperPerm.symm upperSorted (perm.trans lowerPerm.symm) sorted
  rw [← readAs _ arranges' key, reads_overriding inside, bare, Option.none_or]

include checkpoints

/-- Where a table of the lower level is the only input left, it decides for the keys that
it spans. -/
theorem Checkpoints.reads_of_lower {arranged : Nat → List MemoryTable}
    (arranges : Arranges machine.world.files arranged) {key : Key}
    (bare : answersAbove level arranged key = none) {table : MemoryTable}
    (member : table ∈ machine.engine.tables (level + 1)) (covers : Covers key table) :
    ((entryFor table.entries key).or
        (answersFrom (level + 2) machine.engine.config.maxLevels arranged key)).bind Entry.value =
      current machine key := by
  rw [← reads_afterRemovals quiescent inside bounded regular
    (checkpoints.keeping table (List.mem_append_right _ member)) arranges bare
    (filter_eq_nil (quiescent.not_mem_tables member (Nat.succ_ne_self level)))
    (filter_eq_singleton (quiescent.nodup_tables _) member) .nil (List.pairwise_singleton _ _),
    answer_nil, Option.none_or, List.singleton_append,
    answer_cons_of_covers (Nat.succ_ne_zero level) covers]

/-- Where a table of the upper level is the only input left, it decides for the keys that
it holds. -/
theorem Checkpoints.reads_of_upper {arranged : Nat → List MemoryTable}
    (arranges : Arranges machine.world.files arranged) {key : Key}
    (bare : answersAbove level arranged key = none) {table : MemoryTable}
    (member : table ∈ machine.engine.tables level) {version : Entry}
    (held : entryFor table.entries key = some version) :
    version.value = current machine key := by
  rw [← reads_afterRemovals quiescent inside bounded regular
    (checkpoints.keeping table (List.mem_append_left _ member)) arranges bare
    (filter_eq_singleton (quiescent.nodup_tables _) member)
    (filter_eq_nil (quiescent.not_mem_tables member (Nat.ne_add_one level)))
    (List.pairwise_singleton _ _) .nil, answer_singleton (quiescent.exact_ level table member),
    held]
  rfl

/-- Where the checkpoints keep the reads, inputs stand in for all. -/
theorem Checkpoints.replaceable (completes : Completes level machine.engine) {merged : List Entry}
    (merging : StorageEngine.mergeSstables ops (machine.engine.tables level)
      (machine.engine.tables (level + 1)) = .ok merged) :
    Replaceable level machine := by
  intro arranged arranges key bare table listed version held
  have agrees : version.value = current machine key := by
    rcases List.mem_append.mp listed with upper | lower
    · exact checkpoints.reads_of_upper quiescent inside bounded regular arranges bare upper held
    · have covers := covers_of_held (quiescent.exact_ _ table lower) held
      rw [← checkpoints.reads_of_lower quiescent inside bounded regular arranges bare lower covers,
        held]
      rfl
  refine ⟨agrees, ?_⟩
  rw [agrees]
  rintro (dead | ⟨other, member, covers, missing⟩)
  · have read := reads_afterRemovals quiescent inside bounded regular checkpoints.removing
      arranges bare (List.filter_false _) (List.filter_false _) .nil .nil
    rw [answer_nil, Option.none_or, List.nil_append] at read
    cases found : answer (level + 1) (byAge (outputs host level machine)) key with
    | none =>
        rw [found, Option.none_or] at read
        exact read
    | some entry =>
        -- the merge holds no delete markers
        obtain ⟨output, new, outputHeld⟩ := mem_of_answer found
        have merged_ := (entryFor_merged completes merging host).mpr
          ⟨output, (byAge_perm _).mem_iff.mp new, outputHeld⟩
        rw [found] at read
        exact absurd (read.trans dead) (quiescent.exists_of_merged merging merged_).2
  · have read := checkpoints.reads_of_lower quiescent inside bounded regular arranges bare member
      covers
    rwa [missing, Option.none_or] at read

end Necessity

/-! ## The last level -/

/-- All that a level holds of the keys that no level above holds are delete markers. -/
def Spent (level : Nat) (machine : Machine Directory MemoryTable) : Prop :=
  ∀ arranged, Arranges machine.world.files arranged →
    ∀ key, answersAbove level arranged key = none →
      ∀ table ∈ machine.engine.tables level, ∀ version,
        entryFor table.entries key = some version → version.value = none

section Last

variable (quiescent : Quiescent machine) (bounded : level + 1 < wordSize)
include quiescent

/-- Where a level is spent and none below is read, its tables may go. -/
theorem Spent.readAs (spent : Spent level machine)
    (untouched : ReadAs (level + 1) (current machine) machine.world.files)
    {after : List MemoryTable} (elsewhere : Elsewhere level machine.world.files after)
    (upper : ∀ file ∈ after, fileLevel file.path = some level →
      file ∈ machine.engine.tables level) :
    ReadAs (level + 1) (current machine) after := by
  intro arranged arranges key
  have based := arranges.overriding elsewhere.symm ((byAge_perm _).trans (quiescent.filed level))
    (byAge_sorted _) ((byAge_perm _).trans (quiescent.filed (level + 1))) (byAge_sorted _)
  rw [← untouched _ based key, reads_overriding_last, reads_last]
  cases above : answersAbove level arranged key with
  | some version => rfl
  | none =>
      have dead : ∀ tables : List MemoryTable, (∀ table ∈ tables,
          table ∈ machine.engine.tables level) →
            (answer level tables key).bind Entry.value = none := by
        intro tables own
        cases found : answer level tables key with
        | none => rfl
        | some version =>
            obtain ⟨table, member, held⟩ := mem_of_answer found
            exact spent _ based key (answersAbove_overriding.trans above) table (own table member)
              version held
      rw [Option.none_or, Option.none_or,
        dead (arranged level) fun file member => (arranges.mem_iff.mp member).elim (upper file),
        dead _ fun table => (byAge_perm _).mem_iff.mp]

include bounded

/-- The checkpoints of a compaction out of the last level keep the reads exactly where the
level is spent. -/
theorem checkpoints_iff_spent (last : level + 1 = machine.engine.config.maxLevels)
    (untouched : ReadAs machine.engine.config.maxLevels (current machine) machine.world.files) :
    Checkpoints host level machine ↔ Spent level machine := by
  rw [← last] at untouched
  constructor
  · intro checkpoints arranged arranges key bare table member version held
    have readAs : ∀ kept upper, (machine.engine.tables level).filter kept = upper →
        upper.Pairwise (fun older newer => older.createdAt ≤ newer.createdAt) →
        ReadAs (level + 1) (current machine) (afterRemovals host level machine kept) →
          (answer level upper key).bind Entry.value = current machine key := by
      intro kept upper upperEq sorted keeps
      have upperPerm := upper_afterRemovals host quiescent bounded kept
      rw [upperEq] at upperPerm
      have arranges' := arranges.overriding
        (elsewhere_afterRemovals host quiescent bounded kept) upperPerm.symm sorted
        (byAge_perm _) (byAge_sorted _)
      rw [← keeps _ arranges' key, reads_overriding_last, bare, Option.none_or]
    obtain ⟨_, removing, keeping⟩ := checkpoints
    rw [← last] at removing keeping
    have alone := readAs _ _ (filter_eq_singleton (quiescent.nodup_tables _) member)
      (List.pairwise_singleton _ _) (keeping table (List.mem_append_left _ member))
    have gone := readAs _ _ (List.filter_false _) .nil removing
    rw [answer_singleton (quiescent.exact_ level table member), held] at alone
    rw [answer_nil] at gone
    exact alone.trans gone.symm
  · intro spent
    have keeps : ∀ kept, ReadAs (level + 1) (current machine)
        (afterRemovals host level machine kept) := fun kept =>
      spent.readAs quiescent untouched (elsewhere_afterRemovals host quiescent bounded kept)
        fun file member leveled => (List.mem_filter.mp (mem_of_leveled
          (upper_afterRemovals host quiescent bounded kept) member leveled)).1
    constructor <;> rw [← last]
    · exact fun count => spent.readAs quiescent untouched
        (elsewhere_afterOutputs host bounded count)
        fun file => mem_of_leveled (upper_afterOutputs host quiescent bounded count)
    · exact keeps _
    · exact fun table _ => keeps _

end Last

/-! ## Every stop of a compaction -/

/-- What a compaction of a level must find to keep the reads wherever it stops. -/
structure Stoppable (host : Host) (level : Nat) (machine : Machine Directory MemoryTable) :
    Prop where
  last : level + 1 = machine.engine.config.maxLevels → Spent level machine
  regular : level + 1 < machine.engine.config.maxLevels → Regular host level machine →
    Replaceable level machine
  irregular : level + 1 < machine.engine.config.maxLevels → ¬Regular host level machine →
    Checkpoints host level machine

theorem checkpoints_iff_stoppable (quiescent : Quiescent machine)
    (inside : level < machine.engine.config.maxLevels) (bounded : level + 1 < wordSize)
    (untouched : ReadAs machine.engine.config.maxLevels (current machine) machine.world.files)
    (completes : Completes level machine.engine) {merged : List Entry}
    (merging : StorageEngine.mergeSstables ops (machine.engine.tables level)
      (machine.engine.tables (level + 1)) = .ok merged) :
    Checkpoints host level machine ↔ Stoppable host level machine := by
  constructor
  · intro checkpoints
    exact {
      last := fun last => (checkpoints_iff_spent quiescent bounded last untouched).mp checkpoints
      regular := fun deeper regular =>
        checkpoints.replaceable quiescent deeper bounded regular completes merging
      irregular := fun _ _ => checkpoints }
  · intro stoppable
    rcases Nat.lt_or_eq_of_le (Nat.succ_le_of_lt inside) with deeper | last
    · by_cases regular : Regular host level machine
      · have replaceable := stoppable.regular deeper regular
        have keeps : ∀ {after}, Mixed host level machine after →
            ReadAs machine.engine.config.maxLevels (current machine) after :=
          replaceable.readAs quiescent deeper bounded untouched completes merging
        exact {
          creating := fun count => keeps (mixed_afterOutputs quiescent bounded regular count)
          removing := keeps (mixed_afterRemovals quiescent bounded regular _)
          keeping := fun _ _ => keeps (mixed_afterRemovals quiescent bounded regular _) }
      · exact stoppable.irregular deeper regular
    · exact (checkpoints_iff_spent quiescent bounded last untouched).mpr (stoppable.last last)

/-- A compaction that an overflow stops leaves the files as they are. -/
theorem files_of_not_completes (pending : machine.engine.tables level ≠ [])
    (stops : ¬Completes level machine.engine) (outcomes : List Outcome) :
    (final (compactInto (platform host) level (withOutcomes machine outcomes))).world.files =
      machine.world.files := by
  have overflows : ∃ fault, machine.engine.config.targetSize (level + 1) = .error fault := by
    cases target : machine.engine.config.targetSize (level + 1) with
    | error fault => exact ⟨fault, rfl⟩
    | ok targetSize => exact absurd (.inr ⟨targetSize, target⟩) stops
  obtain ⟨fault, target⟩ := overflows
  have unchanged : ∀ after, Stopped host level machine after → after = machine.world.files := by
    intro after stopped
    cases stopped with
    | @creating created rest split =>
        have none : created ++ rest = [] := split.symm.trans (outputs_of_overflow target)
        rw [(List.append_eq_nil_iff.mp none).1]
        rfl
    | removing completes => exact absurd completes stops
  exact unchanged _ (stopped_withOutcomes pending outcomes)

private def tickingHost : Host where
  clock ticks := 3000000 + ticks
  order := id
  lists := List.Perm.refl

private def upperTable : MemoryTable where
  path := sstableName 0 2 2
  entries := [⟨[1], some [20], 0, 2⟩]
  createdAt := 2000000

private def lowerTable : MemoryTable where
  path := sstableName 1 1 1
  entries := [⟨[1], some [10], 0, 1⟩]
  createdAt := 1000000

/-- Level 0 holds a newer value than level 1. -/
def newerOverOlder : Machine Directory MemoryTable where
  engine := ((StorageEngine.fresh {}).setLevel 1 [lowerTable]).setLevel 0 [upperTable]
  world := { files := [upperTable, lowerTable], ticks := 0, outcomes := [] }

private theorem newerOverOlder_quiescent : Quiescent newerOverOlder where
  running := rfl
  flushed := by
    intro memtable member
    cases List.mem_singleton.mp member
    rfl
  exact_ := by
    intro level
    match level with
    | 0 | 1 =>
        exact List.forall_mem_singleton.mpr
          (MemoryTable.exactFor (by decide) (List.pairwise_singleton _ _))
    | _ + 2 => exact fun _ member => nomatch member
  ranked := by decide +kernel
  names := by decide +kernel
  filed := by
    intro level
    have upper : fileLevel upperTable.path = some 0 := by decide +kernel
    have lower : fileLevel lowerTable.path = some 1 := by decide +kernel
    refine .of_eq ?_
    match level with
    | 0 | 1 | _ + 2 => simp [newerOverOlder, StorageEngine.tables_setLevel, upper, lower]

private theorem newerOverOlder_memory : ∀ merged,
    StorageEngine.mergeSstables ops (newerOverOlder.engine.tables 0)
      (newerOverOlder.engine.tables 1) = .ok merged →
        Pieces.total Entry.size merged < wordSize := by
  intro merged merging
  have only : StorageEngine.mergeSstables ops (newerOverOlder.engine.tables 0)
      (newerOverOlder.engine.tables 1) = .ok upperTable.entries := by
    decide +kernel
  cases only.symm.trans merging
  decide +kernel

end Directory

end JustDb
