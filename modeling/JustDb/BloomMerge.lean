import JustDb.BloomBytes
import JustDb.Library.Stateful

/-!
# Merging bloom filters

`merge` as it changes its filter in place.  The bytes of the other filter are or-ed in
where this filter has a byte; both arrays of two filters with the same bit count reach
past every index that is hashed to, so no positive is lost.  The element counts are
added without a check.
-/

namespace JustDb

namespace BloomFilter

open Stateful

/-- A call on a filter that is borrowed mutably. -/
abbrev Merging (α : Type) := EStateM Fault BloomFilter α

/-- The loop body of `merge`. -/
def mergeByte (i : Nat) (byte : UInt8) : Merging PUnit := do
  let self ← get
  if i < self.bits.length then
    set { self with bits := self.bits.modify i (· ||| byte) }
  else
    pure ⟨⟩

/-- `merge`, with its effect on the filter also where it does not return `Ok`. -/
def mergeFrom (other : BloomFilter) : Merging PUnit := do
  let self ← get
  if self.bitCount ≠ other.bitCount ∨ self.hashCount ≠ other.hashCount then
    throw (.error (.invalidOperation "cannot merge bloom filters with different config"))
  else do
    other.bits.zipIdx.forM fun item => mergeByte item.2 item.1
    let merged ← get
    let elementCount ← lift (checkedAdd merged.elementCount other.elementCount)
    set { merged with elementCount }

/-- A filter with the bytes of another or-ed in, as far as it has bytes itself. -/
def joined (self other : BloomFilter) : BloomFilter :=
  { self with bits := self.bits.mapIdx fun i byte => byte ||| other.bits.getD i 0 }

theorem mergeByte_eq (self : BloomFilter) (i : Nat) (byte : UInt8) :
    mergeByte i byte self = .ok ⟨⟩ { self with bits := self.bits.modify i (· ||| byte) } := by
  rw [mergeByte, bind_of_ok (get_apply self)]
  split
  · rfl
  next outside =>
    rw [List.modify_eq_self (not_lt.mp outside)]
    rfl

/-- The loop over the bytes of the other filter from an index on. -/
theorem mergeBytes_eq (self : BloomFilter) (bytes : Bytes) (start : Nat) :
    (bytes.zipIdx start).forM (fun item => mergeByte item.2 item.1) self =
      .ok ⟨⟩ { self with bits := self.bits.mapIdx fun i byte =>
        byte ||| if start ≤ i then bytes.getD (i - start) 0 else 0 } := by
  induction bytes generalizing self start with
  | nil =>
      have same : self.bits.mapIdx (fun _ byte => byte) = self.bits := by
        apply List.ext_getElem <;> simp
      simp [same]
  | cons byte bytes ih =>
      rw [List.zipIdx_cons, forM_cons, bind_of_ok (mergeByte_eq self start byte), ih]
      congr 2
      apply List.ext_getElem
      · simp
      intro i _ _
      simp only [List.getElem_mapIdx, List.getElem_modify]
      rcases lt_trichotomy i start with below | rfl | above
      · simp [below.ne', not_le.mpr below, not_le.mpr (below.trans (Nat.lt_succ_self _))]
      · simp
      · have shifted : i - start = i - (start + 1) + 1 := by omega
        simp [above.ne, above.le, Nat.succ_le_of_lt above, shifted]

/-- Filters of different configurations are left alone. -/
theorem mergeFrom_of_differ {self other : BloomFilter}
    (differ : self.bitCount ≠ other.bitCount ∨ self.hashCount ≠ other.hashCount) :
    mergeFrom other self = .error (.error (.invalidOperation
      "cannot merge bloom filters with different config")) self := by
  rw [mergeFrom, bind_of_ok (get_apply self), if_pos differ]
  rfl

/-- Filters of one configuration are joined before their elements are counted. -/
theorem mergeFrom_of_same {self other : BloomFilter} (bitCount : self.bitCount = other.bitCount)
    (hashCount : self.hashCount = other.hashCount) :
    mergeFrom other self =
      match checkedAdd self.elementCount other.elementCount with
      | .ok elementCount => .ok ⟨⟩ { self.joined other with elementCount }
      | .error fault => .error fault (self.joined other) := by
  have looped := mergeBytes_eq self other.bits 0
  simp only [Nat.zero_le, if_true, Nat.sub_zero] at looped
  rw [mergeFrom, bind_of_ok (get_apply self), if_neg (by simp [bitCount, hashCount]),
    bind_of_ok looped, bind_of_ok (get_apply _)]
  change (lift (checkedAdd self.elementCount other.elementCount) >>= _) (self.joined other) = _
  cases checkedAdd self.elementCount other.elementCount with
  | ok elementCount => rfl
  | error fault => rfl

/-- What the call in place leaves is what `merge` makes. -/
theorem mergeFrom_eq_ok {self other merged : BloomFilter} :
    mergeFrom other self = .ok ⟨⟩ merged ↔ self.merge other = .ok merged := by
  by_cases differ : self.bitCount ≠ other.bitCount ∨ self.hashCount ≠ other.hashCount
  · rw [mergeFrom_of_differ differ, merge, if_pos differ]
    simp
  · rw [not_or, not_not, not_not] at differ
    rw [mergeFrom_of_same differ.1 differ.2, merge, if_neg (by simp [differ])]
    dsimp only
    cases checkedAdd self.elementCount other.elementCount with
    | ok elementCount => simp [joined]
    | error fault => simp

/-! ## Answers of a joined filter -/

/-- A filter whose bytes reach past every index that is hashed to. -/
def Sized (self : BloomFilter) : Prop :=
  self.bitCount ≤ 8 * self.bits.length

private theorem or_and_mask (left right mask : UInt8) :
    (left ||| right) &&& mask = left &&& mask ||| right &&& mask := by
  apply UInt8.toBitVec_inj.mp
  ext i
  simp [Bool.and_or_distrib_right]

theorem getBit_joined {self other : BloomFilter} {index : Nat}
    (inside : index / 8 < self.bits.length) :
    (self.joined other).getBit index = (self.getBit index || other.getBit index) := by
  simp only [getBit, joined, List.getElem?_mapIdx, List.getElem?_eq_getElem inside,
    Option.map_some, List.getD_eq_getElem?_getD]
  cases other.bits[index / 8]? with
  | none => simp
  | some byte =>
      rw [Option.getD_some, or_and_mask, Bool.eq_iff_iff]
      simp only [bne_iff_ne, ne_eq, Bool.or_eq_true, UInt8.or_eq_zero_iff, not_and_or]

/-- The answer is yes when every hashed bit is set. -/
theorem probe_eq_true {self : BloomFilter} (indexable : 0 < self.bitCount)
    {hashes : List UInt64} :
    self.probe hashes = .ok true ↔
      ∀ hash ∈ hashes, self.getBit (hash.toNat % self.bitCount) = true := by
  induction hashes with
  | nil => simp [probe]
  | cons hash hashes ih =>
      rw [probe, bitIndex, if_neg indexable.ne', Result.ok_bind, List.forall_mem_cons]
      split
      next set => rw [ih, and_iff_right set]
      next clear => simp [clear]

/-- A filter of the same configuration with more bits set gives no fewer positives. -/
theorem mightContain_mono {external : External} {self other : BloomFilter}
    (indexable : 0 < self.bitCount) (bitCount : other.bitCount = self.bitCount)
    (hashCount : other.hashCount = self.hashCount)
    (bits : ∀ index < self.bitCount, self.getBit index = true → other.getBit index = true)
    {element : Bytes} (positive : self.mightContain external element = .ok true) :
    other.mightContain external element = .ok true := by
  have hashes : other.hashElement external element = self.hashElement external element := by
    rw [hashElement, hashElement, hashCount]
  rw [mightContain, probe_eq_true indexable] at positive
  rw [mightContain, hashes, probe_eq_true (bitCount ▸ indexable), bitCount]
  intro hash member
  exact bits _ (Nat.mod_lt _ indexable) (positive hash member)

/-- Where this filter has a byte for every index, joining loses no positive of either. -/
theorem mightContain_joined {external : External} {self other : BloomFilter}
    (bitCount : self.bitCount = other.bitCount) (hashCount : self.hashCount = other.hashCount)
    (indexable : 0 < self.bitCount) (sized : self.Sized) (elementCount : Nat) {element : Bytes}
    (positive : self.mightContain external element = .ok true ∨
      other.mightContain external element = .ok true) :
    ({ self.joined other with elementCount } : BloomFilter).mightContain external element =
      .ok true := by
  have inside : ∀ index < self.bitCount, index / 8 < self.bits.length := by
    intro index below
    unfold Sized at sized
    omega
  let counted : BloomFilter := { self.joined other with elementCount }
  have set : ∀ index < self.bitCount,
      counted.getBit index = (self.getBit index || other.getBit index) :=
    fun index below => getBit_joined (inside index below)
  rcases positive with own | others
  · have kept : ∀ index < self.bitCount, self.getBit index = true →
        counted.getBit index = true := by
      intro index below found
      rw [set index below, found, Bool.true_or]
    exact @mightContain_mono external self counted indexable rfl rfl kept _ own
  · have gained : ∀ index < other.bitCount, other.getBit index = true →
        counted.getBit index = true := by
      intro index below found
      rw [set index (bitCount ▸ below), found, Bool.or_true]
    exact @mightContain_mono external other counted (bitCount ▸ indexable) bitCount hashCount
      gained _ others

/-! ## Filters that calls can make -/

/-- A filter that comes from `new` or `from_bytes` and any `add` and `merge` calls. -/
inductive Obtained (external : External) : BloomFilter → Prop where
  | new {filter : BloomFilter} (expectedElements : Nat) (falsePositiveRate : Float64) :
      BloomFilter.new external expectedElements falsePositiveRate = .ok filter →
      Obtained external filter
  | fromBytes {filter : BloomFilter} (data : Bytes) :
      BloomFilter.fromBytes data = .ok filter → Obtained external filter
  | add {past filter : BloomFilter} (element : Bytes) :
      Obtained external past → past.add external element = .ok filter →
      Obtained external filter
  | merge {past other filter : BloomFilter} :
      Obtained external past → Obtained external other → past.merge other = .ok filter →
      Obtained external filter

variable {external : External}

theorem Allotted.toSized {expectedElements : Nat} {filter : BloomFilter}
    (allotted : filter.Allotted expectedElements) : filter.Sized := by
  unfold Sized
  by_cases none : expectedElements = 0
  · obtain ⟨bitCount, bits⟩ := allotted.empty none
    rw [bitCount, bits]
  · obtain ⟨large, bits⟩ := allotted.sized none
    omega

/-- The arrays of `new` and of `from_bytes` are both large enough, and no call changes
their lengths. -/
theorem Obtained.sized {filter : BloomFilter} (obtained : Obtained external filter) :
    filter.Sized := by
  induction obtained with
  | new _ _ made => exact (allotted_of_new made).toSized
  | fromBytes _ read =>
      have bits := (readFrom_of_fromBytes read).bits
      unfold Sized
      omega
  | add _ _ added ih =>
      rw [eq_of_add external added]
      exact ih
  | merge _ _ merged ih _ =>
      unfold BloomFilter.merge at merged
      split at merged
      · cases merged
      · obtain ⟨count, _, built⟩ := Result.bind_eq_ok.mp merged
        cases built
        unfold Sized
        rw [List.length_mapIdx]
        exact ih

/-- Merging another filter into this one returns `Ok` and loses no positive of either
where the configurations agree, and is refused without effect where they differ. -/
structure MergesWith (external : External) (filter other : BloomFilter) : Prop where
  merged : filter.bitCount = other.bitCount → filter.hashCount = other.hashCount →
    0 < filter.bitCount → ∃ reached, mergeFrom other filter = .ok ⟨⟩ reached ∧
      ∀ element, filter.mightContain external element = .ok true ∨
        other.mightContain external element = .ok true →
        reached.mightContain external element = .ok true
  refused : filter.bitCount ≠ other.bitCount ∨ filter.hashCount ≠ other.hashCount →
    ∃ error, mergeFrom other filter = .error (.error error) filter

/-- A filter that calls can make merges any filter without loss exactly when, where their
configurations agree, the sum of their element counts is a machine word. -/
theorem mergesWith_iff {self : BloomFilter} (obtained : Obtained external self)
    (other : BloomFilter) :
    MergesWith external self other ↔
      (self.bitCount = other.bitCount → self.hashCount = other.hashCount → 0 < self.bitCount →
        self.elementCount + other.elementCount < wordSize) := by
  constructor
  · intro merges bitCount hashCount indexable
    obtain ⟨reached, ran, _⟩ := merges.merged bitCount hashCount indexable
    rw [mergeFrom_of_same bitCount hashCount, checkedAdd] at ran
    split at ran
    next elementCount counted => exact (checkedAdd_eq_ok.mp counted).1
    next => cases ran
  · intro countable
    constructor
    · intro bitCount hashCount indexable
      have counted : checkedAdd self.elementCount other.elementCount = .ok _ :=
        checkedAdd_eq_ok.mpr ⟨countable bitCount hashCount indexable, rfl⟩
      rw [mergeFrom_of_same bitCount hashCount, counted]
      refine ⟨_, rfl, fun element positive => ?_⟩
      exact mightContain_joined bitCount hashCount indexable obtained.sized _ positive
    · intro differ
      exact ⟨_, mergeFrom_of_differ differ⟩

/-- The bytes of a filter of 64 bits, of which 1, 3 and so on up to 19 are set. -/
private def oddBytes : Bytes :=
  [64, 0, 0, 0, 10, 0, 0, 0, 3, 0, 0, 0, 170, 170, 10, 0, 0, 0, 0, 0]

/-- The bytes of a filter of 64 bits, of which 0, 8 and 63 are set. -/
private def sparseBytes : Bytes :=
  [64, 0, 0, 0, 10, 0, 0, 0, 2, 0, 0, 0, 1, 1, 0, 0, 0, 0, 0, 128]

/-- A filter of `new`, with 56 bytes for its 64 bits, after a merge. -/
private def longFilter : BloomFilter :=
  { bits := [1, 1, 0, 0, 0, 0, 0, 128] ++ List.replicate 48 0, bitCount := 64, hashCount := 10,
    elementCount := 2 }

/-- A filter of `from_bytes`, with 8 bytes for its 64 bits. -/
private def shortFilter : BloomFilter :=
  { bits := [170, 170, 10, 0, 0, 0, 0, 0], bitCount := 64, hashCount := 10, elementCount := 3 }

theorem mergesWith_iff_uneven :
    (fromBytes oddBytes = .ok shortFilter ∧ shortFilter.bits.length < longFilter.bits.length) ∧
      (MergesWith External.plain longFilter shortFilter ↔
        (64 = 64 → 10 = 10 → 0 < 64 → 2 + 3 < wordSize)) := by
  have made : Obtained External.plain (.mk (List.replicate 56 0) 64 10 0) :=
    .new 1 (.finite (1 / 100)) (by decide +kernel)
  have read : Obtained External.plain (.mk [1, 1, 0, 0, 0, 0, 0, 128] 64 10 2) :=
    .fromBytes sparseBytes (by decide +kernel)
  have merged : Obtained External.plain longFilter := .merge made read (by decide +kernel)
  exact ⟨⟨by decide +kernel, by decide⟩, mergesWith_iff merged shortFilter⟩

/-- One element added and the filter merged with itself `doublings` times. -/
theorem obtained_doubled {doublings : Nat} (room : doublings < 64) :
    Obtained external (.mk [0] 8 1 (2 ^ doublings)) := by
  induction doublings with
  | zero =>
      have made : Obtained external (.mk [0] 8 1 0) := .new 0 .nan rfl
      exact .add [107] made (add_of_room external (by decide) (by decide) [107])
  | succ doublings ih =>
      have past : Obtained external (.mk [0] 8 1 (2 ^ doublings)) := ih (by omega)
      have below : 2 ^ (doublings + 1) < wordSize :=
        Nat.pow_lt_pow_right (by decide) room
      apply Obtained.merge past past
      have counted : checkedAdd (2 ^ doublings) (2 ^ doublings) = .ok (2 ^ (doublings + 1)) := by
        rw [Nat.pow_succ] at below ⊢
        exact checkedAdd_eq_ok.mpr ⟨by omega, by omega⟩
      rw [merge, if_neg (by simp)]
      simp [counted]

/-- The sixty-fourth doubling does not return `Ok`. -/
theorem counts_overflow :
    ¬ ∀ self other, Obtained External.plain self → Obtained External.plain other →
      MergesWith External.plain self other := by
  intro merges
  have made := @obtained_doubled External.plain 63 (by decide)
  obtain ⟨reached, ran, _⟩ := (merges _ _ made made).merged rfl rfl (by decide)
  rw [mergeFrom_of_same rfl rfl, checkedAdd, if_neg (by decide)] at ran
  cases ran

end BloomFilter

end JustDb
