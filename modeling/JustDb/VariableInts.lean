import JustDb.Serialization
import JustDb.Library.Base128

/-!
# Variable-length integers

`write_variable_int` writes the base-128 number of a `u64`.  `read_variable_int` ors seven
bits at a time into a `u64`, and gives up before an eleventh byte.  Of the seven bits of a
tenth byte only the lowest has a place in the word; the others are shifted out.
-/

namespace JustDb

open Stateful Parsing Base128

namespace Serializer

theorem toNat_shiftRight_seven (value : UInt64) : (value >>> 7).toNat = value.toNat / 128 := by
  rw [UInt64.toNat_shiftRight]
  exact Nat.shiftRight_eq_div_pow value.toNat 7

/-- `while value >= 0x80`, then the last byte. -/
def writeVariableInt (self : Serializer) (value : UInt64) : Serializer :=
  if value ≥ 0x80 then
    (self.writeU8 ((value &&& 0x7F).toUInt8 ||| 0x80)).writeVariableInt (value >>> 7)
  else
    self.writeU8 value.toUInt8
termination_by value.toNat
decreasing_by
  next large =>
    have bound : 128 ≤ value.toNat := UInt64.le_iff_toNat_le.mp large
    rw [toNat_shiftRight_seven]
    omega

theorem toNat_group (value : UInt64) :
    ((value &&& 0x7F).toUInt8).toNat = value.toNat % 128 := by
  have low : (value &&& 0x7F).toNat = value.toNat % 128 := by
    rw [UInt64.toNat_and]
    exact Nat.and_two_pow_sub_one_eq_mod value.toNat 7
  rw [UInt64.toNat_toUInt8, low]
  omega

/-- The bytes of the loop are the base-128 number of the value. -/
theorem writeVariableInt_eq (self : Serializer) (value : UInt64) :
    self.writeVariableInt value = { buffer := self.buffer ++ encode value.toNat } := by
  fun_induction writeVariableInt self value with
  | case1 self value large ih =>
      have bound : 128 ≤ value.toNat := UInt64.le_iff_toNat_le.mp large
      have byte : (value &&& 0x7F).toUInt8 ||| 0x80 = (value.toNat % 128 + 128).toUInt8 := by
        apply UInt8.toNat_inj.mp
        have high : value.toNat % 128 ||| 128 = value.toNat % 128 + 128 := by
          have group : value.toNat % 128 < 2 ^ 7 := Nat.mod_lt _ (by decide)
          rw [Nat.or_comm, Nat.add_comm]
          exact (Nat.two_pow_add_eq_or_of_lt group 1).symm
        rw [UInt8.toNat_or, toNat_group, UInt8.toNat_ofNat']
        change value.toNat % 128 ||| 128 = _
        omega
      rw [ih, writeU8, toNat_shiftRight_seven, byte, encode.eq_def value.toNat,
        if_neg (not_lt.mpr bound)]
      simp
  | case2 self value small =>
      have bound : value.toNat < 128 := not_le.mp fun large => small
        (UInt64.le_iff_toNat_le.mpr large)
      rw [writeU8, encode, if_pos bound]
      congr 3

end Serializer

namespace Deserializer

/-- The loop of `read_variable_int`.  The shift stays below 64, and `<<` drops the bits
that it moves out of the word. -/
def readVariableIntFrom (result : UInt64) (shift : Nat) : Decode UInt64 :=
  if shift ≥ 64 then
    throw (.error (.corruption "variable integer too long"))
  else do
    let byte ← readU8
    let result := result ||| ((byte &&& 0x7F).toUInt64 <<< shift.toUInt64)
    if byte &&& 0x80 = 0 then
      pure result
    else
      readVariableIntFrom result (shift + 7)
termination_by 64 - shift

def readVariableInt : Decode UInt64 :=
  readVariableIntFrom 0 0

/-! ## One byte of the loop -/

/-- A group is or-ed in above the bits read so far, less what does not fit the word. -/
theorem toNat_or_group {result : UInt64} {shift : Nat} (low : result.toNat < 2 ^ shift)
    (narrow : shift < 64) (byte : UInt8) :
    (result ||| ((byte &&& 0x7F).toUInt64 <<< shift.toUInt64)).toNat =
      result.toNat + 2 ^ shift * payload byte % 2 ^ 64 := by
  have shifted : ((byte &&& 0x7F).toUInt64 <<< shift.toUInt64).toNat =
      2 ^ shift * payload byte % 2 ^ 64 := by
    have same : shift.toUInt64.toNat % 64 = shift := by
      rw [UInt64.toNat_ofNat']
      omega
    rw [UInt64.toNat_shiftLeft, same, UInt8.toNat_toUInt64, Nat.shiftLeft_eq, Nat.mul_comm]
    rfl
  have above : 2 ^ shift * payload byte % 2 ^ 64 =
      2 ^ shift * (payload byte % 2 ^ (64 - shift)) := by
    rw [← Nat.mul_mod_mul_left, ← Nat.pow_add, Nat.add_sub_cancel' narrow.le]
  rw [UInt64.toNat_or, shifted, above, Nat.or_comm, Nat.add_comm]
  exact (Nat.two_pow_add_eq_or_of_lt low _).symm

/-- The last group of a number makes it a word, whatever of it does not fit. -/
theorem or_group_eq_ofNat {result : UInt64} {shift : Nat} (low : result.toNat < 2 ^ shift)
    (narrow : shift < 64) (byte : UInt8) :
    result ||| ((byte &&& 0x7F).toUInt64 <<< shift.toUInt64) =
      UInt64.ofNat (result.toNat + 2 ^ shift * value [byte]) := by
  have grown := toNat_or_group low narrow byte
  have below := UInt64.toNat_lt (result ||| (byte &&& 0x7F).toUInt64 <<< shift.toUInt64)
  rw [grown] at below
  apply UInt64.toNat_inj.mp
  rw [grown, UInt64.toNat_ofNat', value_cons, value_nil, Nat.mul_zero, Nat.add_zero,
    ← Nat.add_mod_mod, Nat.mod_eq_of_lt below]

/-- Each of the first nine groups fits the word whole. -/
theorem toNat_or_early_group {result : UInt64} {groups : Nat}
    (low : result.toNat < 2 ^ (7 * groups)) (early : groups < 9) (byte : UInt8) :
    (result ||| ((byte &&& 0x7F).toUInt64 <<< (7 * groups).toUInt64)).toNat =
      result.toNat + 2 ^ (7 * groups) * payload byte := by
  have fits : 2 ^ (7 * groups) * payload byte < 2 ^ (7 * (groups + 1)) := by
    rw [Nat.mul_succ, Nat.pow_add]
    exact Nat.mul_lt_mul_of_pos_left (payload_lt byte) (Nat.two_pow_pos _)
  have word : 2 ^ (7 * (groups + 1)) ≤ 2 ^ 64 := Nat.pow_le_pow_right (by decide) (by omega)
  rw [toNat_or_group low (by omega), Nat.mod_eq_of_lt (fits.trans_le word)]

/-- It stays below the groups to come. -/
theorem toNat_or_early_group_lt {result : UInt64} {groups : Nat}
    (low : result.toNat < 2 ^ (7 * groups)) (early : groups < 9) (byte : UInt8) :
    (result ||| ((byte &&& 0x7F).toUInt64 <<< (7 * groups).toUInt64)).toNat <
      2 ^ (7 * (groups + 1)) := by
  have digits := Nat.mul_le_mul_left (2 ^ (7 * groups)) (Nat.le_of_lt_succ (payload_lt byte))
  rw [toNat_or_early_group low early, Nat.mul_succ, Nat.pow_add]
  omega

theorem readU8_of_pending {self : Deserializer} {byte : UInt8} {rest : Bytes}
    (reading : cursor.reading self (byte :: rest)) :
    readU8 self = .ok byte (self.past 1) ∧ cursor.reading (self.past 1) rest := by
  have ahead : cursor.reading self ([byte] ++ rest) := reading
  obtain ⟨next, ran, behind⟩ := decodes_readU8 byte self rest ahead
  have kept : Keeps Deserializer.data readU8 :=
    (keeps_readWord 1).bind fun _ => keeps_pure _
  obtain rfl := eq_past_of_reading (kept.of_ok ran) ahead behind
  exact ⟨ran, behind⟩

theorem readU8_of_exhausted {self : Deserializer} (reading : cursor.reading self []) :
    readU8 self = .error (self.refusal 1) self := by
  have unfit : ¬ self.Fits 1 := by
    intro fits
    have exhausted := List.drop_eq_nil_iff.mp reading.2.2
    have within := fits.2
    omega
  exact bind_of_error (bind_of_error (readBytes_of_not_fits unfit))

/-! ## The loop -/

/-- What a read of a variable-length integer makes of the bytes in front of it, when
`groups` bytes have been read before: it returns the value of a terminated list of at most
ten bytes, as far as a word holds it, or fails.  A terminated list that it fails on is
longer, and reported. -/
inductive LoopOutcome (self : Deserializer) (pending : Bytes) (result : UInt64) (groups : Nat) :
    EStateM.Result Fault Deserializer UInt64 → Prop where
  | returned {bytes rest : Bytes} (split : pending = bytes ++ rest)
      (terminated : Terminated bytes) (short : groups + bytes.length ≤ 10) :
      LoopOutcome self pending result groups
        (.ok (UInt64.ofNat (result.toNat + 2 ^ (7 * groups) * value bytes))
          (self.past bytes.length))
  | failed {fault : Fault} {next : Deserializer}
      (long : ∀ bytes rest, pending = bytes ++ rest → Terminated bytes →
        10 < groups + bytes.length ∧ ∃ message, fault = .error (.corruption message)) :
      LoopOutcome self pending result groups (.error fault next)

theorem readVariableIntFrom_of_full (result : UInt64) (self : Deserializer) :
    readVariableIntFrom result 70 self =
      .error (.error (.corruption "variable integer too long")) self := by
  rw [readVariableIntFrom, if_pos (by decide)]
  rfl

/-- What the loop makes of the bytes behind a group that continues it makes of all of
them. -/
theorem LoopOutcome.more {self : Deserializer} {byte : UInt8} {pending : Bytes}
    {result grown : UInt64} {groups : Nat} {outcome : EStateM.Result Fault Deserializer UInt64}
    (continues : Continues byte)
    (group : grown.toNat = result.toNat + 2 ^ (7 * groups) * payload byte)
    (later : LoopOutcome (self.past 1) pending grown (groups + 1) outcome) :
    LoopOutcome self (byte :: pending) result groups outcome := by
  cases later with
  | @returned bytes rest split terminated short =>
      have whole : grown.toNat + 2 ^ (7 * (groups + 1)) * value bytes =
          result.toNat + 2 ^ (7 * groups) * value (byte :: bytes) := by
        rw [group, value_cons, Nat.mul_succ, Nat.pow_add]
        ring
      have position : (self.past 1).past bytes.length = self.past (byte :: bytes).length := by
        rw [past, past, past, List.length_cons, Nat.add_assoc, Nat.add_comm 1]
      rw [whole, position]
      apply LoopOutcome.returned (by rw [split, List.cons_append]) (.more continues terminated)
      rw [List.length_cons]
      omega
  | failed long =>
      apply LoopOutcome.failed
      intro bytes rest split terminated
      cases terminated with
      | last stops =>
          obtain ⟨rfl, _⟩ := List.cons.inj split
          exact absurd continues stops
      | more _ tail =>
          obtain ⟨longer, reported⟩ := long _ rest (List.cons.inj split).2 tail
          rw [List.length_cons]
          exact ⟨by omega, reported⟩

theorem loopOutcome_readVariableIntFrom {self : Deserializer} {pending : Bytes}
    (reading : cursor.reading self pending) {result : UInt64} {groups : Nat}
    (few : groups ≤ 9) (low : result.toNat < 2 ^ (7 * groups)) :
    LoopOutcome self pending result groups (readVariableIntFrom result (7 * groups) self) := by
  induction pending generalizing self result groups with
  | nil =>
      rw [readVariableIntFrom, if_neg (by omega), bind_of_error (readU8_of_exhausted reading)]
      apply LoopOutcome.failed
      intro bytes rest split terminated
      exact absurd (List.append_eq_nil_iff.mp split.symm).1 terminated.ne_nil
  | cons byte pending ih =>
      obtain ⟨ran, behind⟩ := readU8_of_pending reading
      have narrow : 7 * groups < 64 := by omega
      rw [readVariableIntFrom, if_neg (not_le.mpr narrow), bind_of_ok ran]
      split
      next stops =>
        rw [or_group_eq_ofNat low narrow byte]
        exact .returned (List.singleton_append).symm (.last (not_not.mpr stops))
          (Nat.succ_le_succ few)
      next continues =>
        rcases Nat.lt_or_eq_of_le few with fewer | rfl
        · exact .more continues (toNat_or_early_group low fewer byte)
            (ih behind fewer (toNat_or_early_group_lt low fewer byte))
        · rw [readVariableIntFrom_of_full]
          apply LoopOutcome.failed
          intro bytes rest split terminated
          refine ⟨?_, _, rfl⟩
          cases terminated with
          | last stops =>
              obtain ⟨rfl, _⟩ := List.cons.inj split
              exact absurd continues stops
          | more _ tail =>
              have some := List.length_pos_of_ne_nil tail.ne_nil
              rw [List.length_cons]
              omega

/-- A read starts the loop with no groups behind it. -/
theorem loopOutcome_readVariableInt {self : Deserializer} {pending : Bytes}
    (reading : cursor.reading self pending) :
    LoopOutcome self pending 0 0 (readVariableInt self) :=
  loopOutcome_readVariableIntFrom reading (Nat.zero_le 9) Nat.one_pos

/-! ## Round trip -/

/-- A terminated list of at most ten bytes is read and left behind. -/
theorem readVariableInt_of_terminated {self : Deserializer} {bytes rest : Bytes}
    (reading : cursor.reading self (bytes ++ rest)) (terminated : Terminated bytes)
    (short : bytes.length ≤ 10) :
    readVariableInt self = .ok (UInt64.ofNat (value bytes)) (self.past bytes.length) := by
  generalize ran : readVariableInt self = outcome
  have read := loopOutcome_readVariableInt reading
  rw [ran] at read
  cases read with
  | returned split other _ =>
      obtain rfl := terminated.eq_of_append_eq other split
      simp
  | failed long =>
      have longer := (long bytes rest rfl terminated).1
      omega

/-- A variable-length integer is one to ten bytes, and is read back from any slice that goes
on with it, up to its last byte. -/
theorem readVariableInt_writeVariableInt (number : UInt64) {self : Deserializer}
    {suffix : Bytes}
    (reading : cursor.reading self
      ((Serializer.writeVariableInt {} number).finish ++ suffix)) :
    readVariableInt self =
        .ok number (self.past (Serializer.writeVariableInt {} number).finish.length) ∧
      1 ≤ (Serializer.writeVariableInt {} number).finish.length ∧
        (Serializer.writeVariableInt {} number).finish.length ≤ 10 := by
  rw [Serializer.writeVariableInt_eq, Serializer.finish, List.nil_append] at reading ⊢
  have terminated := terminated_encode number.toNat
  have below : number.toNat < 128 ^ 10 :=
    number.toNat_lt.trans_le (by decide)
  have short := length_encode_le below
  refine ⟨?_, List.length_pos_of_ne_nil terminated.ne_nil, short⟩
  rw [readVariableInt_of_terminated reading terminated short, value_encode, UInt64.ofNat_toNat]

/-- The number 300, with a byte behind it. -/
theorem readVariableInt_writeVariableInt_300 :
    readVariableInt { data := (Serializer.writeVariableInt {} 300).finish ++ [7] } =
        .ok 300 (past { data := (Serializer.writeVariableInt {} 300).finish ++ [7] }
          (Serializer.writeVariableInt {} 300).finish.length) ∧
      1 ≤ (Serializer.writeVariableInt {} 300).finish.length ∧
        (Serializer.writeVariableInt {} 300).finish.length ≤ 10 := by
  have written : (Serializer.writeVariableInt {} 300).finish = [172, 2] := by
    rw [Serializer.writeVariableInt_eq]
    decide +kernel
  apply readVariableInt_writeVariableInt 300
  refine ⟨Nat.zero_le _, ?_, rfl⟩
  rw [written]
  decide

/-! ## Truncation -/

/-- A read returns the exact sum of the groups that it consumes, and answers a terminated
list whose value is no `u64` with an error. -/
structure NeverTruncates (source : Deserializer) : Prop where
  sums : ∀ number next, readVariableInt source = .ok number next →
    number.toNat =
      value ((source.data.drop source.position).take (next.position - source.position))
  rejects : ∀ bytes rest, source.data.drop source.position = bytes ++ rest →
    Terminated bytes → 2 ^ 64 ≤ value bytes →
      ∃ error next, readVariableInt source = .error (.error error) next

/-- Nine bytes that continue and a tenth that stops with more than its lowest bit set. -/
def TenthByteOverflows (pending : Bytes) : Prop :=
  ∃ front last rest, pending = front ++ last :: rest ∧ front.length = 9 ∧
    (∀ byte ∈ front, Continues byte) ∧ ¬ Continues last ∧ 2 ≤ payload last

/-- A terminated list of at most ten bytes spells more than a word holds exactly where its
tenth byte does not fit. -/
theorem tenthByteOverflows_iff {bytes rest : Bytes} (terminated : Terminated bytes)
    (short : bytes.length ≤ 10) :
    TenthByteOverflows (bytes ++ rest) ↔ 2 ^ 64 ≤ value bytes := by
  constructor
  · rintro ⟨front, last, others, split, nine, continues, stops, digit⟩
    have same : bytes = front ++ [last] := by
      apply terminated.eq_of_append_eq (terminated_append_singleton continues stops)
      rw [split, List.append_assoc, List.singleton_append]
    rw [same, value_append, nine, value_cons, value_nil]
    omega
  · intro large
    obtain ⟨front, last, rfl, continues, stops⟩ := terminated.exists_last
    rw [List.length_append, List.length_singleton] at short
    have digit := payload_lt last
    have below := value_lt front
    rw [value_append, value_cons, value_nil, Nat.mul_zero, Nat.add_zero] at large
    have nine : front.length = 9 := by
      by_contra fewer
      have word : 128 ^ (front.length + 1) ≤ 128 ^ 9 :=
        Nat.pow_le_pow_right (by decide) (by omega)
      rw [Nat.pow_succ] at word
      have digits := Nat.mul_le_mul_left (128 ^ front.length) (Nat.le_of_lt_succ digit)
      omega
    rw [nine] at below large
    refine ⟨front, last, rest, List.append_assoc .., nine, continues, stops, ?_⟩
    omega

/-- A read in front of some bytes never truncates exactly when their tenth byte does not
overflow. -/
theorem neverTruncates_iff {self : Deserializer} {pending : Bytes}
    (reading : cursor.reading self pending) :
    self.NeverTruncates ↔ ¬ TenthByteOverflows pending := by
  constructor
  · rintro never ⟨front, last, rest, rfl, nine, continues, stops, digit⟩
    have terminated := terminated_append_singleton continues stops
    have ten : (front ++ [last]).length = 10 := by
      rw [List.length_append, nine, List.length_singleton]
    rw [← List.singleton_append, ← List.append_assoc] at reading
    have large : 2 ^ 64 ≤ value (front ++ [last]) :=
      (@tenthByteOverflows_iff _ rest terminated ten.le).mp
        ⟨front, last, rest, by simp, nine, continues, stops, digit⟩
    obtain ⟨error, next, failed⟩ := never.rejects _ rest reading.2.2 terminated large
    rw [readVariableInt_of_terminated reading terminated ten.le] at failed
    cases failed
  · intro fits
    have read := loopOutcome_readVariableInt reading
    constructor
    · intro number next ran
      rw [ran] at read
      cases read with
      | @returned bytes rest split terminated short =>
          rw [Nat.zero_add] at short
          rw [split, tenthByteOverflows_iff terminated short, not_le] at fits
          have position : (self.past bytes.length).position - self.position = bytes.length :=
            Nat.add_sub_cancel_left _ _
          rw [reading.2.2, split, position, List.take_left, UInt64.toNat_ofNat']
          simpa using Nat.mod_eq_of_lt fits
    · intro bytes rest ahead terminated large
      rw [reading.2.2] at ahead
      generalize ran : readVariableInt self = outcome at read
      cases read with
      | returned split other short =>
          rw [Nat.zero_add] at short
          rw [terminated.eq_of_append_eq other (ahead.symm.trans split)] at large
          rw [split] at fits
          exact absurd ((tenthByteOverflows_iff other short).mpr large) fits
      | failed long =>
          obtain ⟨_, message, rfl⟩ := long bytes rest ahead terminated
          exact ⟨_, _, rfl⟩

/-- The two bytes of the number 300. -/
theorem neverTruncates_300 :
    NeverTruncates { data := [172, 2] } ↔ ¬ TenthByteOverflows [172, 2] :=
  neverTruncates_iff ⟨Nat.zero_le _, by decide, rfl⟩

/-- Ten bytes that spell `2 ^ 64` are read as 0. -/
theorem two_pow_64_read_as_zero :
    ¬ ∀ data : Bytes, data.length < wordSize → NeverTruncates { data } := by
  intro never
  have continues : ∀ byte ∈ List.replicate 9 (128 : UInt8), Continues byte := by
    intro byte member
    rw [List.eq_of_mem_replicate member]
    decide
  have terminated : Terminated (List.replicate 9 128 ++ [2]) :=
    terminated_append_singleton continues (by decide)
  have reading : cursor.reading { data := List.replicate 9 128 ++ [2] }
      ((List.replicate 9 128 ++ [2]) ++ []) := ⟨Nat.zero_le _, by decide, rfl⟩
  have summed := (never _ (by decide)).sums _ _
    (readVariableInt_of_terminated reading terminated (by decide))
  revert summed
  decide +kernel

end Deserializer

end JustDb
