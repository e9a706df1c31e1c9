import JustDb.Bloom

/-!
# Reading a bloom filter back

The header of a section holds the three counts of a filter in 32 bits each, and
the decoder expects one byte for each eight bits after it.  Whether a section is
read back is decided by the number of bytes that `new` allotted, which no later
call changes.  The decoder checks the number of bytes only, so it accepts a header
that counts no bits.
-/

namespace JustDb

namespace BloomFilter

variable (external : External)

/-- A filter that `add`, `merge` and `clear` calls can make of a new one.  The
filter merged in may be any filter. -/
inductive Reachable (expectedElements : Nat) (falsePositiveRate : Float64) :
    BloomFilter → Prop where
  | new {filter : BloomFilter} :
      BloomFilter.new external expectedElements falsePositiveRate = .ok filter →
      Reachable expectedElements falsePositiveRate filter
  | add {past filter : BloomFilter} (element : Bytes) :
      Reachable expectedElements falsePositiveRate past →
      past.add external element = .ok filter →
      Reachable expectedElements falsePositiveRate filter
  | merge {past filter : BloomFilter} (other : BloomFilter) :
      Reachable expectedElements falsePositiveRate past →
      past.merge other = .ok filter →
      Reachable expectedElements falsePositiveRate filter
  | clear {past : BloomFilter} :
      Reachable expectedElements falsePositiveRate past →
      Reachable expectedElements falsePositiveRate past.clear

/-- The section of a filter is read back with the same counts and the same
answer for every element. -/
def RoundTrips (filter : BloomFilter) : Prop :=
  ∃ read, fromBytes filter.toBytes = .ok read ∧
    read.bitCount = filter.bitCount ∧ read.hashCount = filter.hashCount ∧
    read.elementCount = filter.elementCount ∧
    ∀ element, read.mightContain external element = filter.mightContain external element

/-! ## The bytes that `new` allots -/

/-- A filter whose counts and bytes are as many as `new` gave it. -/
structure Allotted (expectedElements : Nat) (filter : BloomFilter) : Prop where
  hashes : filter.hashCount ≤ 10
  empty : expectedElements = 0 → filter.bitCount = 8 ∧ filter.bits.length = 1
  sized : expectedElements ≠ 0 →
    64 ≤ filter.bitCount ∧ filter.bits.length = filter.bitCount * 7 / 8

variable {external}

theorem allotted_of_new {expectedElements : Nat} {rate : Float64} {filter : BloomFilter}
    (made : new external expectedElements rate = .ok filter) :
    filter.Allotted expectedElements := by
  by_cases none : expectedElements = 0
  · subst none
    cases made
    exact ⟨by decide, fun _ => ⟨rfl, rfl⟩, fun some => absurd rfl some⟩
  · obtain ⟨bitCount, bits⟩ := shape_of_new external made none
    refine ⟨?_, fun zero => absurd zero none, fun _ => ⟨?_, bits⟩⟩
    · rw [new, if_neg none] at made
      obtain ⟨scaled, _, built⟩ := Result.bind_eq_ok.mp made
      cases built
      exact Nat.min_le_right _ _
    · rw [bitCount]
      exact Nat.le_max_right _ _

/-- Calls that keep the bit and hash counts and the number of bytes keep the
allotment. -/
theorem Allotted.of_eq {expectedElements : Nat} {past filter : BloomFilter}
    (allotted : past.Allotted expectedElements) (bitCount : filter.bitCount = past.bitCount)
    (hashCount : filter.hashCount = past.hashCount)
    (bits : filter.bits.length = past.bits.length) : filter.Allotted expectedElements := by
  constructor
  · rw [hashCount]
    exact allotted.hashes
  · rw [bitCount, bits]
    exact allotted.empty
  · rw [bitCount, bits]
    exact allotted.sized

theorem Reachable.allotted {expectedElements : Nat} {rate : Float64} {filter : BloomFilter}
    (reached : Reachable external expectedElements rate filter) :
    filter.Allotted expectedElements := by
  induction reached with
  | new made => exact allotted_of_new made
  | add element _ added ih =>
      rw [eq_of_add external added]
      exact ih.of_eq rfl rfl rfl
  | merge other _ merged ih =>
      unfold BloomFilter.merge at merged
      split at merged
      · cases merged
      · obtain ⟨count, _, built⟩ := Result.bind_eq_ok.mp merged
        cases built
        exact ih.of_eq rfl rfl List.length_mapIdx
  | clear _ ih => exact ih.of_eq rfl rfl (List.length_map _)

/-- The filters of a history are reachable. -/
theorem History.reachable {expectedElements : Nat} {rate : Float64} (history : History)
    {filter : BloomFilter} (ran : history.run external expectedElements rate = .ok filter) :
    Reachable external expectedElements rate filter := by
  induction history generalizing filter with
  | new => exact .new ran
  | add past element ih =>
      obtain ⟨before, pastRan, added⟩ := Result.bind_eq_ok.mp ran
      exact .add element (ih pastRan) added
  | merge past other pastIh _ =>
      obtain ⟨before, pastRan, rest⟩ := Result.bind_eq_ok.mp ran
      obtain ⟨merged, _, joined⟩ := Result.bind_eq_ok.mp rest
      exact .merge merged (pastIh pastRan) joined
  | clear past ih =>
      obtain ⟨before, pastRan, cleared⟩ := Result.bind_eq_ok.mp ran
      cases cleared
      exact .clear (ih pastRan)

/-- The allotment is what the decoder expects exactly for the filter of no element. -/
theorem Allotted.bytes_iff {expectedElements : Nat} {filter : BloomFilter}
    (allotted : filter.Allotted expectedElements) :
    filter.bits.length = (filter.bitCount + 7) / 8 ↔ expectedElements = 0 := by
  constructor
  · intro bytes
    by_contra some
    obtain ⟨large, allotment⟩ := allotted.sized some
    rw [allotment] at bytes
    omega
  · intro none
    obtain ⟨bitCount, bits⟩ := allotted.empty none
    rw [bits, bitCount]

/-- A filter whose counts fit the header is read back as it is when its bytes are as
many as the decoder expects. -/
theorem fromBytes_toBytes_of_lt {filter : BloomFilter} (bits : filter.bitCount < 256 ^ 4)
    (hashes : filter.hashCount < 256 ^ 4) (elements : filter.elementCount < 256 ^ 4) :
    fromBytes filter.toBytes =
      if filter.bits.length = (filter.bitCount + 7) / 8 then .ok filter
      else .error (.error (.corruption "invalid bloom filter data length")) := by
  rw [fromBytes_toBytes, Nat.mod_eq_of_lt bits, Nat.mod_eq_of_lt hashes,
    Nat.mod_eq_of_lt elements]

/-- Of the filters that calls can make, those built for no element are read back
and no others. -/
theorem roundTrips_iff {expectedElements : Nat} {rate : Float64} {filter : BloomFilter}
    (reached : Reachable external expectedElements rate filter)
    (bits : filter.bitCount < 2 ^ 32) (elements : filter.elementCount < 2 ^ 32) :
    filter.RoundTrips external ↔ expectedElements = 0 := by
  have allotted := reached.allotted
  have hashes : filter.hashCount < 256 ^ 4 := allotted.hashes.trans_lt (by decide)
  rw [← allotted.bytes_iff]
  constructor
  · intro ⟨read, decoded, _⟩
    by_contra bytes
    rw [fromBytes_toBytes_of_lt bits hashes elements, if_neg bytes] at decoded
    cases decoded
  · intro bytes
    have decoded : fromBytes filter.toBytes = .ok filter := by
      rw [fromBytes_toBytes_of_lt bits hashes elements, if_pos bytes]
    exact ⟨filter, decoded, rfl, rfl, rfl, fun _ => rfl⟩

/-- One element added to a filter built for none. -/
theorem roundTrips_iff_noneExpected :
    (BloomFilter.mk [0] 8 1 1).RoundTrips External.plain ↔ 0 = 0 := by
  have made : Reachable External.plain 0 (.finite (1 / 100)) (.mk [0] 8 1 0) := .new rfl
  exact roundTrips_iff (.add [107] made rfl) (by decide) (by decide)

/-- The filter of one element at rate `0.01`: 64 bits in 56 bytes, where the decoder
expects 8. -/
theorem one_element_not_read_back :
    ¬ ∀ filter, Reachable External.plain 1 (.finite (1 / 100)) filter →
      filter.bitCount < 2 ^ 32 → filter.elementCount < 2 ^ 32 →
      filter.RoundTrips External.plain := by
  intro roundTrips
  have made : BloomFilter.new External.plain 1 (.finite (1 / 100)) =
      .ok (.mk (List.replicate 56 0) 64 10 0) := by
    decide +kernel
  obtain ⟨read, decoded, _⟩ := roundTrips _ (.new made) (by decide) (by decide)
  exact fromBytes_toBytes_ne_ok External.plain made Nat.one_ne_zero 0 read decoded

/-! ## Accepted bytes in use -/

/-- Neither `might_contain` nor `add` of an element panics, as each would at a remainder
by zero, and every bit index they compute lies inside the bit array. -/
structure UsableFor (external : External) (filter : BloomFilter) (element : Bytes) : Prop where
  contains : ∃ answer, filter.mightContain external element = .ok answer
  adds : ∃ added, filter.add external element = .ok added
  inside : ∀ hash ∈ filter.hashElement external element,
    ∃ index, filter.bitIndex hash = .ok index ∧ index / 8 < filter.bits.length

/-- What `from_bytes` reads: three counts, and one byte for each eight bits. -/
structure ReadFrom (data : Bytes) (filter : BloomFilter) : Prop where
  bitCount : filter.bitCount = LittleEndian.decode (data.take 4)
  hashCount : filter.hashCount = LittleEndian.decode ((data.drop 4).take 4)
  elementCount : filter.elementCount = LittleEndian.decode ((data.drop 8).take 4)
  bits : filter.bits.length = (filter.bitCount + 7) / 8

theorem readFrom_of_fromBytes {data : Bytes} {filter : BloomFilter}
    (read : fromBytes data = .ok filter) : ReadFrom data filter := by
  unfold fromBytes at read
  split at read
  · cases read
  · dsimp only at read
    split at read
    · cases read
    next sized =>
      cases read
      refine ⟨rfl, rfl, rfl, ?_⟩
      rw [List.length_drop, not_not.mp sized, Nat.add_sub_cancel_left]

/-- The element count of a section leaves room for one more element. -/
theorem ReadFrom.countable {data : Bytes} {filter : BloomFilter} (read : ReadFrom data filter) :
    filter.elementCount + 1 < wordSize := by
  have digits := LittleEndian.decode_lt ((data.drop 8).take 4)
  have short : ((data.drop 8).take 4).length ≤ 4 := List.length_take_le _ _
  have below : filter.elementCount < 256 ^ 4 := by
    rw [read.elementCount]
    exact digits.trans_le (Nat.pow_le_pow_right (by decide) short)
  unfold wordSize UInt64.size
  omega

/-- A filter with bits answers for every list of hashes. -/
theorem probe_of_indexable {self : BloomFilter} (indexable : 0 < self.bitCount)
    (hashes : List UInt64) : ∃ answer, self.probe hashes = .ok answer := by
  induction hashes with
  | nil => exact ⟨true, rfl⟩
  | cons hash hashes ih =>
      rw [probe, bitIndex, if_neg indexable.ne', Result.ok_bind]
      split
      · exact ih
      · exact ⟨false, rfl⟩

/-- A bit index lies inside an array with an eighth of a byte for each bit. -/
theorem bitIndex_of_sized {self : BloomFilter} (indexable : 0 < self.bitCount)
    (sized : self.bitCount ≤ 8 * self.bits.length) (hash : UInt64) :
    ∃ index, self.bitIndex hash = .ok index ∧ index / 8 < self.bits.length := by
  refine ⟨hash.toNat % self.bitCount, if_neg indexable.ne', ?_⟩
  have below := Nat.mod_lt hash.toNat indexable
  omega

/-- A filter without bits fails at its first hash, if it has one. -/
theorem mightContain_of_no_bits {self : BloomFilter} (none : self.bitCount = 0)
    (hashes : 0 < self.hashCount) (element : Bytes) :
    self.mightContain external element = .error .panic := by
  obtain ⟨count, counted⟩ := Nat.exists_eq_succ_of_ne_zero hashes.ne'
  simp [mightContain, hashElement, counted, List.range_succ_eq_map, probe, bitIndex, none]

/-- Accepted bytes make a filter that can be used for an element exactly when they count
some bits or no hashes. -/
theorem usable_iff_of_fromBytes {data : Bytes} {filter : BloomFilter}
    (read : fromBytes data = .ok filter) (element : Bytes) :
    filter.UsableFor external element ↔
      LittleEndian.decode (data.take 4) ≠ 0 ∨ LittleEndian.decode ((data.drop 4).take 4) = 0 := by
  have header := readFrom_of_fromBytes read
  rw [← header.bitCount, ← header.hashCount]
  constructor
  · intro usable
    by_contra degenerate
    rw [not_or, not_not] at degenerate
    obtain ⟨answer, answered⟩ := usable.contains
    rw [mightContain_of_no_bits degenerate.1 (Nat.pos_of_ne_zero degenerate.2)] at answered
    cases answered
  · rintro (some | unhashed)
    · have indexable := Nat.pos_of_ne_zero some
      have sized : filter.bitCount ≤ 8 * filter.bits.length := by
        rw [header.bits]
        omega
      exact
        { contains := probe_of_indexable indexable _
          adds := ⟨_, add_of_room external indexable header.countable element⟩
          inside := fun hash _ => bitIndex_of_sized indexable sized hash }
    · have hashes : filter.hashElement external element = [] := by
        rw [hashElement, unhashed]
        rfl
      refine ⟨⟨true, ?_⟩, ⟨{ filter with elementCount := filter.elementCount + 1 }, ?_⟩, ?_⟩
      · rw [mightContain, hashes]
        rfl
      · rw [add, hashes]
        change (checkedAdd filter.elementCount 1 >>= _) = _
        rw [checkedAdd, if_pos header.countable]
        rfl
      · rw [hashes]
        intro hash member
        cases member

/-- The section of a filter with eight bits and one hash. -/
theorem usable_of_eight_bits :
    (BloomFilter.mk [0] 8 1 0).UsableFor External.plain [107] ↔
      LittleEndian.decode ([8, 0, 0, 0, 1, 0, 0, 0, 0, 0, 0, 0, 0].take 4) ≠ 0 ∨
        LittleEndian.decode (([8, 0, 0, 0, 1, 0, 0, 0, 0, 0, 0, 0, 0].drop 4).take 4) = 0 := by
  have read : fromBytes [8, 0, 0, 0, 1, 0, 0, 0, 0, 0, 0, 0, 0] = .ok (.mk [0] 8 1 0) := by
    decide
  exact usable_iff_of_fromBytes read [107]

/-- A header of twelve bytes that counts no bits and one hash is accepted. -/
theorem no_bits_accepted :
    ¬ ∀ (data : Bytes) (filter : BloomFilter), fromBytes data = .ok filter →
      ∀ element, filter.UsableFor External.plain element := by
  intro usable
  have read : fromBytes [0, 0, 0, 0, 1, 0, 0, 0, 0, 0, 0, 0] = .ok (.mk [] 0 1 0) := by
    decide
  obtain ⟨answer, answered⟩ := (usable _ _ read []).contains
  rw [mightContain_of_no_bits rfl Nat.one_pos] at answered
  cases answered

end BloomFilter

end JustDb
