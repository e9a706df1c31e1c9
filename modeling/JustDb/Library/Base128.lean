import Mathlib.Algebra.BigOperators.Ring.List
import Mathlib.Algebra.Order.Ring.Nat
import Mathlib.Tactic.Ring

/-!
# Base-128 numbers

Numbers as bytes of seven bits each, least significant first, in which the high bit of
every byte but the last is set.  The value of a byte list is a sum over all its bytes, so
it is defined for lists of any length, terminated or not.
-/

namespace Base128

/-- The seven bits of a byte that carry the number. -/
def payload (byte : UInt8) : Nat :=
  (byte &&& 0x7F).toNat

/-- The high bit of a byte: another byte follows. -/
def Continues (byte : UInt8) : Prop :=
  byte &&& 0x80 ≠ 0

instance (byte : UInt8) : Decidable (Continues byte) :=
  inferInstanceAs (Decidable (_ ≠ _))

/-- The number that a byte list spells. -/
def value (bytes : List UInt8) : Nat :=
  (bytes.mapIdx fun i byte => payload byte * 2 ^ (7 * i)).sum

/-- Every byte but the last continues. -/
inductive Terminated : List UInt8 → Prop where
  | last {byte : UInt8} : ¬ Continues byte → Terminated [byte]
  | more {byte : UInt8} {bytes : List UInt8} :
      Continues byte → Terminated bytes → Terminated (byte :: bytes)

/-- The shortest terminated byte list of a number. -/
def encode (number : Nat) : List UInt8 :=
  if number < 128 then [number.toUInt8]
  else (number % 128 + 128).toUInt8 :: encode (number / 128)
termination_by number

/-! ## Bytes -/

theorem payload_eq (byte : UInt8) : payload byte = byte.toNat % 128 := by
  rw [payload, UInt8.toNat_and]
  exact Nat.and_two_pow_sub_one_eq_mod byte.toNat 7

theorem payload_lt (byte : UInt8) : payload byte < 128 := by
  rw [payload_eq]
  exact Nat.mod_lt _ (by decide)

theorem continues_iff (byte : UInt8) : Continues byte ↔ 128 ≤ byte.toNat := by
  have every : ∀ number : Fin 256, number.val &&& 128 = number.val / 128 * 128 := by
    decide +kernel
  have high : (byte &&& 0x80).toNat = byte.toNat / 128 * 128 := by
    rw [UInt8.toNat_and]
    exact every ⟨byte.toNat, byte.toNat_lt⟩
  have below := byte.toNat_lt
  rw [Continues, ne_eq, ← UInt8.toNat_inj, high, UInt8.toNat_zero]
  omega

/-! ## Values -/

@[simp] theorem value_nil : value [] = 0 := rfl

theorem value_cons (byte : UInt8) (bytes : List UInt8) :
    value (byte :: bytes) = payload byte + 128 * value bytes := by
  have scaled : bytes.mapIdx (fun i byte => payload byte * 2 ^ (7 * (i + 1))) =
      (bytes.mapIdx fun i byte => payload byte * 2 ^ (7 * i)).map (128 * ·) := by
    apply List.ext_getElem
    · simp
    intro i _ _
    rw [List.getElem_map, List.getElem_mapIdx, List.getElem_mapIdx]
    ring
  rw [value, List.mapIdx_cons, List.sum_cons, scaled, List.sum_map_mul_left, List.map_id',
    ← value]
  simp

theorem value_append (front back : List UInt8) :
    value (front ++ back) = value front + 128 ^ front.length * value back := by
  induction front with
  | nil => simp
  | cons byte front ih =>
      rw [List.cons_append, value_cons, value_cons, ih, List.length_cons]
      ring

theorem value_lt (bytes : List UInt8) : value bytes < 128 ^ bytes.length := by
  induction bytes with
  | nil => exact Nat.one_pos
  | cons byte bytes ih =>
      have digit := payload_lt byte
      rw [value_cons, List.length_cons, Nat.pow_succ]
      omega

/-! ## Terminated lists -/

theorem Terminated.ne_nil {bytes : List UInt8} (terminated : Terminated bytes) : bytes ≠ [] := by
  cases terminated with
  | last => exact List.cons_ne_nil _ _
  | more => exact List.cons_ne_nil _ _

/-- A byte list starts with one terminated list at most. -/
theorem Terminated.eq_of_append_eq {first second firstRest secondRest : List UInt8}
    (one : Terminated first) (other : Terminated second)
    (same : first ++ firstRest = second ++ secondRest) : first = second := by
  induction one generalizing second with
  | last stops =>
      cases other with
      | last => rw [(List.cons.inj same).1]
      | more continues => exact absurd ((List.cons.inj same).1 ▸ continues) stops
  | more continues _ ih =>
      cases other with
      | last stops => exact absurd ((List.cons.inj same).1 ▸ continues) stops
      | more _ tail =>
          obtain ⟨rfl, rest⟩ := List.cons.inj same
          rw [ih tail rest]

theorem terminated_append_singleton {front : List UInt8} {last : UInt8}
    (continue_ : ∀ byte ∈ front, Continues byte) (stops : ¬ Continues last) :
    Terminated (front ++ [last]) := by
  induction front with
  | nil => exact .last stops
  | cons byte front ih =>
      exact .more (continue_ byte List.mem_cons_self)
        (ih fun other member => continue_ other (List.mem_cons_of_mem _ member))

theorem Terminated.exists_last {bytes : List UInt8} (terminated : Terminated bytes) :
    ∃ front last, bytes = front ++ [last] ∧ (∀ byte ∈ front, Continues byte) ∧
      ¬ Continues last := by
  induction terminated with
  | last stops => exact ⟨[], _, rfl, fun _ member => absurd member List.not_mem_nil, stops⟩
  | more continues _ ih =>
      obtain ⟨front, last, rfl, more, stops⟩ := ih
      exact ⟨_ :: front, last, rfl, List.forall_mem_cons.mpr ⟨continues, more⟩, stops⟩

/-! ## Encodings -/

theorem terminated_encode (number : Nat) : Terminated (encode number) := by
  fun_induction encode number with
  | case1 number small =>
      apply Terminated.last
      rw [continues_iff, UInt8.toNat_ofNat']
      omega
  | case2 number large ih =>
      apply Terminated.more _ ih
      rw [continues_iff, UInt8.toNat_ofNat']
      omega

theorem value_encode (number : Nat) : value (encode number) = number := by
  fun_induction encode number with
  | case1 number small =>
      rw [value_cons, value_nil, payload_eq, UInt8.toNat_ofNat']
      omega
  | case2 number large ih =>
      rw [value_cons, ih, payload_eq, UInt8.toNat_ofNat']
      omega

/-- A number below `128 ^ count` takes at most `count` bytes. -/
theorem length_encode_le {number count : Nat} (small : number < 128 ^ (count + 1)) :
    (encode number).length ≤ count + 1 := by
  induction count generalizing number with
  | zero =>
      have one : number < 128 := small
      rw [encode, if_pos one, List.length_singleton]
  | succ count ih =>
      rw [encode]
      split
      · exact Nat.le_add_left 1 _
      · have quotient : number / 128 < 128 ^ (count + 1) :=
          Nat.div_lt_of_lt_mul (by rwa [Nat.mul_comm, ← Nat.pow_succ])
        rw [List.length_cons]
        exact Nat.succ_le_succ (ih quotient)

end Base128
