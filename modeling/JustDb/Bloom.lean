import JustDb.External
import JustDb.Library.LittleEndian

/-!
# Bloom filters

The filter as the code has it, the byte format of its table section, and what a
whole history of `add`, `merge` and `clear` calls leaves in it.  `set_bit` only
hashes its index, so no history ever sets a bit.
-/

namespace JustDb

structure BloomFilter where
  bits : Bytes
  bitCount : Nat
  hashCount : Nat
  elementCount : Nat
  deriving DecidableEq, Repr

namespace BloomFilter

variable (external : External)

/-- `byte_count` is `(bit_count * 7) / 8`, with the product on `usize`. -/
def new (expectedElements : Nat) (falsePositiveRate : Float64) : Result BloomFilter :=
  if expectedElements = 0 then
    .ok { bits := [0], bitCount := 8, hashCount := 1, elementCount := 0 }
  else do
    let bitCount := max (external.bloomBits expectedElements falsePositiveRate) 64
    let hashCount := min (max (external.bloomHashes bitCount expectedElements) 1) 10
    let scaled ← checkedMul bitCount 7
    let byteCount := scaled / 8
    .ok { bits := List.replicate byteCount 0, bitCount, hashCount, elementCount := 0 }

/-- The header is `bit_count(4) + hash_count(4) + element_count(4)`. -/
def fromBytes (data : Bytes) : Result BloomFilter :=
  if data.length < 12 then
    .error (.error (.corruption "bloom filter data too short"))
  else
    let bitCount := LittleEndian.decode (data.take 4)
    let hashCount := LittleEndian.decode ((data.drop 4).take 4)
    let elementCount := LittleEndian.decode ((data.drop 8).take 4)
    let expectedByteCount := (bitCount + 7) / 8
    if data.length ≠ 12 + expectedByteCount then
      .error (.error (.corruption "invalid bloom filter data length"))
    else
      .ok { bits := data.drop 12, bitCount, hashCount, elementCount }

/-- Counts are narrowed to 32 bits by the header. -/
def toBytes (self : BloomFilter) : Bytes :=
  LittleEndian.encode 4 self.bitCount ++ LittleEndian.encode 4 self.hashCount ++
    LittleEndian.encode 4 self.elementCount ++ self.bits

/-- Double hashing: `h_i(x) = h1(x) + i * h2(x)`, on wrapping `u64`. -/
def hashElement (self : BloomFilter) (element : Bytes) : List UInt64 :=
  (List.range self.hashCount).map fun i =>
    external.hashBlake3 element + i.toUInt64 * external.hashDefault element

/-- `hash % bit_count`, which panics on a zero count. -/
def bitIndex (self : BloomFilter) (hash : UInt64) : Result Nat :=
  if self.bitCount = 0 then .error .panic else .ok (hash.toNat % self.bitCount)

def getBit (self : BloomFilter) (index : Nat) : Bool :=
  match self.bits[index / 8]? with
  | some byte => byte &&& ((1 : UInt8) <<< (index % 8).toUInt8) != 0
  | none => false

/-- Takes the filter mutably, hashes the index and returns the hash. -/
def setBit (self : BloomFilter) (index : Nat) : UInt64 × BloomFilter :=
  (external.hashIndex index, self)

def add (self : BloomFilter) (element : Bytes) : Result BloomFilter := do
  let touched ← (self.hashElement external element).foldlM
    (fun filter hash => do
      let index ← filter.bitIndex hash
      pure (filter.setBit external index).2) self
  let elementCount ← checkedAdd touched.elementCount 1
  pure { touched with elementCount }

/-- The probes of `might_contain`, stopping at the first clear bit. -/
def probe (self : BloomFilter) : List UInt64 → Result Bool
  | [] => .ok true
  | hash :: hashes => do
      let index ← self.bitIndex hash
      if self.getBit index then self.probe hashes else .ok false

def mightContain (self : BloomFilter) (element : Bytes) : Result Bool :=
  self.probe (self.hashElement external element)

def clear (self : BloomFilter) : BloomFilter :=
  { self with bits := self.bits.map fun _ => 0, elementCount := 0 }

/-- Bytes past the end of the shorter array are skipped. -/
def merge (self other : BloomFilter) : Result BloomFilter :=
  if self.bitCount ≠ other.bitCount ∨ self.hashCount ≠ other.hashCount then
    .error (.error (.invalidOperation "cannot merge bloom filters with different config"))
  else do
    let bits := self.bits.mapIdx fun i byte => byte ||| other.bits.getD i 0
    let elementCount ← checkedAdd self.elementCount other.elementCount
    .ok { self with bits, elementCount }

/-! ## Histories -/

/-- The calls made on a filter since `new`; a merged filter has its own. -/
inductive History where
  | new
  | add (past : History) (element : Bytes)
  | merge (past other : History)
  | clear (past : History)
  deriving DecidableEq, Repr

namespace History

/-- Make the calls of a history, on filters built for the same parameters. -/
def run (expectedElements : Nat) (falsePositiveRate : Float64) :
    History → Result BloomFilter
  | .new => BloomFilter.new external expectedElements falsePositiveRate
  | .add past element => do
      let filter ← past.run expectedElements falsePositiveRate
      filter.add external element
  | .merge past other => do
      let filter ← past.run expectedElements falsePositiveRate
      let merged ← other.run expectedElements falsePositiveRate
      filter.merge merged
  | .clear past => do
      let filter ← past.run expectedElements falsePositiveRate
      pure filter.clear

/-- The elements added since the last `clear`, merged ones included. -/
def added : History → List Bytes
  | .new => []
  | .add past element => past.added ++ [element]
  | .merge past other => past.added ++ other.added
  | .clear _ => []

end History

/-! ## No bit is ever set -/

/-- A filter that hashes at least once and has no bit set. -/
structure Blank (filter : BloomFilter) : Prop where
  hashes : 0 < filter.hashCount
  indexable : 0 < filter.bitCount
  clear : ∀ byte ∈ filter.bits, byte = 0

theorem blank_of_new {expectedElements : Nat} {rate : Float64} {filter : BloomFilter}
    (made : new external expectedElements rate = .ok filter) : filter.Blank := by
  unfold new at made
  split at made
  · cases made
    exact ⟨Nat.one_pos, by decide, by simp⟩
  · obtain ⟨scaled, _, built⟩ := Result.bind_eq_ok.mp made
    cases built
    refine ⟨?_, ?_, fun byte member => List.eq_of_mem_replicate member⟩
    · exact lt_min (lt_max_of_lt_right Nat.one_pos) (by decide)
    · exact lt_max_of_lt_right (by decide)

theorem elementCount_of_new {expectedElements : Nat} {rate : Float64} {filter : BloomFilter}
    (made : new external expectedElements rate = .ok filter) : filter.elementCount = 0 := by
  unfold new at made
  split at made
  · cases made
    rfl
  · obtain ⟨scaled, _, built⟩ := Result.bind_eq_ok.mp made
    cases built
    rfl

/-- A filter can be made unless its byte count overflows. -/
theorem new_isOk_iff {expectedElements : Nat} {rate : Float64} :
    (∃ filter, new external expectedElements rate = .ok filter) ↔
      expectedElements = 0 ∨ max (external.bloomBits expectedElements rate) 64 * 7 < wordSize := by
  unfold new
  split
  next none => exact iff_of_true ⟨_, rfl⟩ (.inl none)
  next some =>
    rw [or_iff_right some]
    by_cases room : max (external.bloomBits expectedElements rate) 64 * 7 < wordSize
    · simp [checkedMul, room]
    · simp [checkedMul, room]

/-- A filter that cannot be made panics. -/
theorem panic_of_new {expectedElements : Nat} {rate : Float64} {fault : Fault}
    (failed : new external expectedElements rate = .error fault) : fault = .panic := by
  unfold new at failed
  split at failed
  · cases failed
  · by_cases room : max (external.bloomBits expectedElements rate) 64 * 7 < wordSize
    · simp [checkedMul, room] at failed
    · simpa [checkedMul, room] using failed.symm

/-- The bit count and the bytes of a filter for some elements. -/
theorem shape_of_new {expectedElements : Nat} {rate : Float64} {filter : BloomFilter}
    (made : new external expectedElements rate = .ok filter) (some : expectedElements ≠ 0) :
    filter.bitCount = max (external.bloomBits expectedElements rate) 64 ∧
      filter.bits.length = filter.bitCount * 7 / 8 := by
  rw [new, if_neg some] at made
  obtain ⟨scaled, sum, built⟩ := Result.bind_eq_ok.mp made
  cases built
  rw [← (checkedMul_eq_ok.mp sum).2]
  exact ⟨rfl, List.length_replicate⟩

/-! ## The section of a filter -/

theorem toBytes_length (self : BloomFilter) : self.toBytes.length = 12 + self.bits.length := by
  simp only [toBytes, List.length_append, LittleEndian.encode_length]

theorem toBytes_take_bitCount (self : BloomFilter) :
    self.toBytes.take 4 = LittleEndian.encode 4 self.bitCount := by
  rw [toBytes, List.append_assoc, List.append_assoc]
  exact List.take_left' (LittleEndian.encode_length _ _)

theorem toBytes_take_hashCount (self : BloomFilter) :
    (self.toBytes.drop 4).take 4 = LittleEndian.encode 4 self.hashCount := by
  rw [toBytes, List.append_assoc, List.append_assoc,
    List.drop_left' (LittleEndian.encode_length _ _)]
  exact List.take_left' (LittleEndian.encode_length _ _)

theorem toBytes_take_elementCount (self : BloomFilter) :
    (self.toBytes.drop 8).take 4 = LittleEndian.encode 4 self.elementCount := by
  have eight : (LittleEndian.encode 4 self.bitCount ++
      LittleEndian.encode 4 self.hashCount).length = 8 := by
    rw [List.length_append, LittleEndian.encode_length, LittleEndian.encode_length]
  rw [toBytes, List.append_assoc, List.drop_left' eight]
  exact List.take_left' (LittleEndian.encode_length _ _)

theorem toBytes_drop_header (self : BloomFilter) : self.toBytes.drop 12 = self.bits := by
  have twelve : (LittleEndian.encode 4 self.bitCount ++ LittleEndian.encode 4 self.hashCount ++
      LittleEndian.encode 4 self.elementCount).length = 12 := by
    simp only [List.length_append, LittleEndian.encode_length]
  rw [toBytes, List.drop_left' twelve]

/-- A section is read back, with its counts narrowed, when its bytes are as many as
the decoder expects for the narrowed bit count. -/
theorem fromBytes_toBytes (self : BloomFilter) :
    fromBytes self.toBytes =
      if self.bits.length = (self.bitCount % 256 ^ 4 + 7) / 8 then
        .ok { bits := self.bits, bitCount := self.bitCount % 256 ^ 4,
              hashCount := self.hashCount % 256 ^ 4,
              elementCount := self.elementCount % 256 ^ 4 }
      else .error (.error (.corruption "invalid bloom filter data length")) := by
  have long : ¬ self.toBytes.length < 12 := by
    rw [toBytes_length]
    exact Nat.not_lt.mpr (Nat.le_add_right _ _)
  rw [fromBytes, if_neg long, toBytes_take_bitCount, toBytes_take_hashCount,
    toBytes_take_elementCount, toBytes_drop_header, toBytes_length,
    LittleEndian.decode_encode, LittleEndian.decode_encode, LittleEndian.decode_encode]
  simp only [ne_eq, Nat.add_right_inj, ite_not]

/-- The section of a filter for some elements is never read back: `new` allots seven
eighths of a byte for each bit, and `from_bytes` expects an eighth. -/
theorem fromBytes_toBytes_ne_ok {expectedElements : Nat} {rate : Float64}
    {filter : BloomFilter} (made : new external expectedElements rate = .ok filter)
    (some : expectedElements ≠ 0) (elementCount : Nat) (read : BloomFilter) :
    fromBytes { filter with elementCount }.toBytes ≠ .ok read := by
  obtain ⟨bitCount, bits⟩ := shape_of_new external made some
  have narrowed := Nat.mod_le filter.bitCount (256 ^ 4)
  have large : 64 ≤ filter.bitCount := bitCount ▸ Nat.le_max_right _ _
  have inexact : filter.bits.length ≠ (filter.bitCount % 256 ^ 4 + 7) / 8 := by
    rw [bits]
    generalize filter.bitCount % 256 ^ 4 = narrow at narrowed
    omega
  rw [fromBytes_toBytes, if_neg inexact]
  intro same
  cases same

/-! ## Adding elements -/

/-- Setting bits for a list of hashes returns the filter it was given. -/
theorem setBits_eq {self touched : BloomFilter} {hashes : List UInt64}
    (ran : hashes.foldlM (fun filter hash => do
      let index ← filter.bitIndex hash
      pure (filter.setBit external index).2) self = (.ok touched : Result BloomFilter)) :
    touched = self := by
  induction hashes generalizing self with
  | nil =>
      cases ran
      rfl
  | cons hash hashes ih =>
      rw [List.foldlM_cons] at ran
      obtain ⟨stepped, step, rest⟩ := Result.bind_eq_ok.mp ran
      obtain ⟨index, _, unchanged⟩ := Result.bind_eq_ok.mp step
      cases unchanged
      exact ih rest

/-- `add` counts the element and changes nothing else. -/
theorem eq_of_add {self filter : BloomFilter} {element : Bytes}
    (ran : self.add external element = .ok filter) :
    filter = { self with elementCount := self.elementCount + 1 } := by
  obtain ⟨touched, set, counted⟩ := Result.bind_eq_ok.mp ran
  obtain ⟨count, sum, built⟩ := Result.bind_eq_ok.mp counted
  cases setBits_eq external set
  cases built
  rw [(checkedAdd_eq_ok.mp sum).2]

/-- `add` fails only by a panic. -/
theorem panic_of_add {self : BloomFilter} {element : Bytes} {fault : Fault}
    (failed : self.add external element = .error fault) : fault = .panic := by
  have setting : ∀ (hashes : List UInt64) (filter : BloomFilter),
      hashes.foldlM (fun filter hash => do
        let index ← filter.bitIndex hash
        pure (filter.setBit external index).2) filter = (.error fault : Result BloomFilter) →
      fault = .panic := by
    intro hashes
    induction hashes with
    | nil => simp [pure, Except.pure]
    | cons hash hashes ih =>
        intro filter failed
        rw [List.foldlM_cons, bitIndex] at failed
        split at failed
        · cases failed
          rfl
        · exact ih _ failed
  rcases Result.bind_eq_error.mp failed with unset | ⟨touched, _, counting⟩
  · exact setting _ _ unset
  · rcases Result.bind_eq_error.mp counting with overflow | ⟨_, _, counted⟩
    · exact checkedAdd_eq_error overflow
    · cases counted

/-- A filter that can index its bits and count one more element adds it. -/
theorem add_of_room {self : BloomFilter} (indexable : 0 < self.bitCount)
    (room : self.elementCount + 1 < wordSize) (element : Bytes) :
    self.add external element = .ok { self with elementCount := self.elementCount + 1 } := by
  have touched : ∀ hashes : List UInt64, hashes.foldlM (fun filter hash => do
      let index ← filter.bitIndex hash
      pure (filter.setBit external index).2) self = (.ok self : Result BloomFilter) := by
    intro hashes
    induction hashes with
    | nil => rfl
    | cons hash hashes ih =>
        rw [List.foldlM_cons, bitIndex, if_neg indexable.ne']
        exact ih
  rw [add, touched, Result.ok_bind, checkedAdd, if_pos room]
  rfl

theorem Blank.merge {self other filter : BloomFilter} (blank : self.Blank)
    (otherBlank : other.Blank) (ran : self.merge other = .ok filter) : filter.Blank := by
  unfold BloomFilter.merge at ran
  split at ran
  · cases ran
  · obtain ⟨count, _, built⟩ := Result.bind_eq_ok.mp ran
    cases built
    refine ⟨blank.hashes, blank.indexable, fun byte member => ?_⟩
    obtain ⟨i, inside, rfl⟩ := List.mem_mapIdx.mp member
    have own : self.bits[i] = 0 := blank.clear _ (List.getElem_mem _)
    have others : other.bits.getD i 0 = 0 := by
      rw [List.getD_eq_getElem?_getD]
      cases found : other.bits[i]? with
      | none => rfl
      | some byte => exact otherBlank.clear byte (List.mem_of_getElem? found)
    rw [own, others]
    decide

theorem Blank.cleared {self : BloomFilter} (blank : self.Blank) : self.clear.Blank := by
  refine ⟨blank.hashes, blank.indexable, fun byte member => ?_⟩
  obtain ⟨_, _, rfl⟩ := List.mem_map.mp member
  rfl

theorem History.blank {n : Nat} {rate : Float64} (history : History)
    {filter : BloomFilter} (ran : history.run external n rate = .ok filter) :
    filter.Blank := by
  induction history generalizing filter with
  | new => exact blank_of_new external ran
  | add past element ih =>
      obtain ⟨before, pastRan, added⟩ := Result.bind_eq_ok.mp ran
      have blank := ih pastRan
      rw [eq_of_add external added]
      exact ⟨blank.hashes, blank.indexable, blank.clear⟩
  | merge past other pastIh otherIh =>
      obtain ⟨before, pastRan, rest⟩ := Result.bind_eq_ok.mp ran
      obtain ⟨merged, otherRan, joined⟩ := Result.bind_eq_ok.mp rest
      exact (pastIh pastRan).merge (otherIh otherRan) joined
  | clear past ih =>
      obtain ⟨before, pastRan, cleared⟩ := Result.bind_eq_ok.mp ran
      cases cleared
      exact (ih pastRan).cleared

/-- A blank filter answers no at its first probe. -/
theorem Blank.mightContain_eq {self : BloomFilter} (blank : self.Blank)
    (element : Bytes) : self.mightContain external element = .ok false := by
  obtain ⟨count, counted⟩ := Nat.exists_eq_succ_of_ne_zero blank.hashes.ne'
  have unset : ∀ index, self.getBit index = false := by
    intro index
    unfold getBit
    split
    next byte found =>
      rw [blank.clear byte (List.mem_of_getElem? found)]
      simp
    next => rfl
  simp [mightContain, hashElement, counted, List.range_succ_eq_map, probe, bitIndex,
    blank.indexable.ne', unset, bind, Except.bind]

/-- A filter finds every element added since the last `clear` exactly when there
is none. -/
theorem finds_added_iff {n : Nat} {rate : Float64} (history : History)
    {filter : BloomFilter} (ran : history.run external n rate = .ok filter) :
    (∀ element ∈ history.added, filter.mightContain external element = .ok true) ↔
      history.added = [] := by
  have blank := history.blank external ran
  constructor
  · intro found
    rw [List.eq_nil_iff_forall_not_mem]
    intro element member
    have answer := found element member
    rw [blank.mightContain_eq external element] at answer
    cases answer
  · intro none element member
    rw [none] at member
    cases member

/-- The filter of one element added at rate `0.01`. -/
private def oneAdded : BloomFilter :=
  { bits := List.replicate 56 0, bitCount := 64, hashCount := 10, elementCount := 1 }

private theorem run_oneAdded :
    (History.add .new [107]).run External.plain 1 (.finite (1 / 100)) = .ok oneAdded := by
  decide +kernel

theorem finds_added_iff_oneAdded :
    (∀ element ∈ (History.add .new [107]).added,
        oneAdded.mightContain External.plain element = .ok true) ↔
      (History.add .new [107]).added = [] :=
  finds_added_iff External.plain (.add .new [107]) run_oneAdded

/-- A filter for one element at rate `0.01` does not find the element added to it. -/
theorem added_element_not_found :
    ¬ ∀ filter, (History.add .new [107]).run External.plain 1 (.finite (1 / 100)) = .ok filter →
      ∀ element ∈ (History.add .new [107]).added,
        filter.mightContain External.plain element = .ok true := by
  intro found
  have answer := found oneAdded run_oneAdded [107] (by simp [History.added])
  revert answer
  decide

end BloomFilter

end JustDb
