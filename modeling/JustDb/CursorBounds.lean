import JustDb.Serialization
import JustDb.Library.Runs

/-!
# The bounds of the cursor

Histories of calls on a deserializer, each of which may fail.  All of them go through
`ensure_byte`, whose sum of position and length is computed on `usize`.
-/

namespace JustDb

open Stateful

namespace Deserializer

/-- A call of one of the reading functions. -/
inductive Read where
  | u8
  | u16
  | u32
  | u64
  | bytes (n : Nat)
  | skip (n : Nat)
  | peek
  deriving DecidableEq, Repr

namespace Read

/-- The bytes that a call asks for. -/
def requested : Read → Nat
  | u8 => 1
  | u16 => 2
  | u32 => 4
  | u64 => 8
  | bytes n => n
  | skip n => n
  | peek => 1

/-- The bytes by which a call that succeeds moves. -/
def moved : Read → Nat
  | peek => 0
  | call => call.requested

/-- Make the call, for its effect on the cursor. -/
def perform : Read → Decode Unit
  | u8 => do let _ ← readU8
  | u16 => do let _ ← readU16
  | u32 => do let _ ← readU32
  | u64 => do let _ ← readU64
  | bytes n => do let _ ← readBytes n
  | skip n => Deserializer.skip n
  | peek => do let _ ← peekU8

end Read

/-- The cursor after a call, whether it failed or not. -/
def step (self : Deserializer) (call : Read) : Deserializer :=
  final (call.perform self)

/-- What is asked of a call: the position stays inside the slice and does not decrease,
there is no panic, and the call fails exactly when fewer bytes than requested remain, and
then does not move. -/
structure Behaves (source : Deserializer) (call : Read) : Prop where
  inside : (source.step call).position ≤ source.data.length
  forward : source.position ≤ (source.step call).position
  calm : outcome (call.perform source) ≠ .error .panic
  fails_iff : succeeded (call.perform source) = false ↔ source.remaining < call.requested
  unmoved : succeeded (call.perform source) = false → source.step call = source

/-- The sum that the bounds check computes is a machine word. -/
def Addressable (self : Deserializer) (call : Read) : Prop :=
  self.position + call.requested < wordSize

/-- The position is inside a slice that a machine can address. -/
def Bounded (self : Deserializer) : Prop :=
  self.position ≤ self.data.length ∧ self.data.length < wordSize

/-! ## What a call does -/

theorem readWord_of_fits {self : Deserializer} {width : Nat} (fits : self.Fits width) :
    readWord width self =
      .ok (LittleEndian.decode ((self.data.drop self.position).take width)) (self.past width) :=
  readWord_eq_ok.mpr ⟨fits, rfl, rfl⟩

theorem peekU8_of_fits {self : Deserializer} (fits : self.Fits 1) :
    ∃ byte, peekU8 self = .ok byte self := by
  have within : self.position < self.data.length := fits.2
  refine ⟨self.data[self.position], ?_⟩
  have checked := (@ensureByte_eq_ok self self 1 ()).mpr ⟨fits, rfl⟩
  rw [peekU8, bind_of_ok checked, bind_of_ok (get_apply self), List.getElem?_eq_getElem within]
  rfl

/-- A call for bytes that are there succeeds. -/
theorem perform_of_fits {self : Deserializer} {call : Read} (fits : self.Fits call.requested) :
    call.perform self = .ok () (self.past call.moved) := by
  have word : ∀ (width : Nat) (α : Type) (convert : Nat → α), self.Fits width →
      (do let _ ← (do let word ← readWord width; pure (convert word) : Decode α) : Decode Unit)
        self = .ok () (self.past width) :=
    fun width _ _ fits => bind_of_ok (bind_of_ok (readWord_of_fits fits))
  cases call with
  | u8 => exact word 1 UInt8 Nat.toUInt8 fits
  | u16 => exact word 2 UInt16 Nat.toUInt16 fits
  | u32 => exact word 4 UInt32 Nat.toUInt32 fits
  | u64 => exact word 8 UInt64 Nat.toUInt64 fits
  | bytes n => exact bind_of_ok (readBytes_eq_ok.mpr ⟨fits, rfl, rfl⟩)
  | skip n => exact skip_eq_ok.mpr ⟨fits, rfl⟩
  | peek =>
      obtain ⟨byte, peeked⟩ := peekU8_of_fits fits
      exact bind_of_ok peeked

/-- A call for bytes that are not there is refused by the bounds check. -/
theorem perform_of_not_fits {self : Deserializer} {call : Read}
    (unfit : ¬ self.Fits call.requested) :
    call.perform self = .error (self.refusal call.requested) self := by
  have word : ∀ (width : Nat) (α : Type) (convert : Nat → α), ¬ self.Fits width →
      (do let _ ← (do let word ← readWord width; pure (convert word) : Decode α) : Decode Unit)
        self = .error (self.refusal width) self :=
    fun width _ _ unfit => bind_of_error (bind_of_error (bind_of_error
      (readBytes_of_not_fits unfit)))
  cases call with
  | u8 => exact word 1 UInt8 Nat.toUInt8 unfit
  | u16 => exact word 2 UInt16 Nat.toUInt16 unfit
  | u32 => exact word 4 UInt32 Nat.toUInt32 unfit
  | u64 => exact word 8 UInt64 Nat.toUInt64 unfit
  | bytes n => exact bind_of_error (readBytes_of_not_fits unfit)
  | skip n => exact bind_of_error (ensureByte_of_not_fits unfit)
  | peek => exact bind_of_error (bind_of_error (ensureByte_of_not_fits unfit))

theorem Read.moved_le (call : Read) : call.moved ≤ call.requested := by
  cases call with
  | peek => exact Nat.zero_le 1
  | _ => exact le_rfl

/-- No call takes a bounded cursor out of its slice. -/
theorem Bounded.step {self : Deserializer} (bounded : self.Bounded) (call : Read) :
    (self.step call).Bounded := by
  by_cases fits : self.Fits call.requested
  · rw [Deserializer.step, perform_of_fits fits]
    have moved := call.moved_le
    have inside := fits.2
    refine ⟨?_, bounded.2⟩
    change self.position + call.moved ≤ self.data.length
    omega
  · rw [Deserializer.step, perform_of_not_fits fits]
    exact bounded

theorem behaves_of_fits {self : Deserializer} {call : Read} (fits : self.Fits call.requested) :
    self.Behaves call := by
  have ran := perform_of_fits fits
  have moved := call.moved_le
  have inside := fits.2
  have stepped : self.step call = self.past call.moved := by
    rw [Deserializer.step, ran]
    rfl
  have position : (self.past call.moved).position = self.position + call.moved := rfl
  constructor
  · rw [stepped, position]
    omega
  · rw [stepped, position]
    exact Nat.le_add_right _ _
  · rw [ran]
    exact nofun
  · rw [ran, remaining]
    exact iff_of_false nofun (by omega)
  · rw [ran]
    exact nofun

/-- A bounded cursor refuses a call past the end with an error, where the sum is a machine
word, and stays where it is. -/
theorem Bounded.behaves_of_not_fits {self : Deserializer} (bounded : self.Bounded)
    {call : Read} (unfit : ¬ self.Fits call.requested) (addressable : self.Addressable call) :
    self.Behaves call := by
  have ran := perform_of_not_fits unfit
  have within := bounded.1
  have outside : ¬ self.position + call.requested ≤ self.data.length :=
    fun inside => unfit ⟨addressable, inside⟩
  have stepped : self.step call = self := by
    rw [Deserializer.step, ran]
    rfl
  have reported : self.refusal call.requested =
      .error (.corruption "unexpected end of data") := if_pos addressable
  constructor
  · rw [stepped]
    exact within
  · rw [stepped]
  · rw [ran, reported]
    exact nofun
  · rw [ran, remaining]
    exact iff_of_true rfl (by omega)
  · exact fun _ => stepped

/-- A call on a bounded cursor behaves exactly when its sum is a machine word. -/
theorem Bounded.behaves_iff {self : Deserializer} (bounded : self.Bounded) (call : Read) :
    self.Behaves call ↔ self.Addressable call := by
  constructor
  · intro behaves
    by_contra overflows
    have unfit : ¬ self.Fits call.requested := fun fits => overflows fits.1
    have panics : self.refusal call.requested = .panic := if_neg overflows
    apply behaves.calm
    rw [perform_of_not_fits unfit, panics]
    rfl
  · intro addressable
    by_cases fits : self.Fits call.requested
    · exact behaves_of_fits fits
    · exact bounded.behaves_of_not_fits fits addressable

/-- Every call of a history behaves exactly when none asks for so many bytes that the sum of
position and length overflows. -/
theorem behaves_iff_addressable {data : Bytes} (bounded : data.length < wordSize)
    (calls : List Read) :
    Runs.Guarded Behaves step { data } calls ↔ Runs.Guarded Addressable step { data } calls := by
  let inv : Deserializer → List Read → Prop := fun self _ => self.Bounded
  have initially : inv { data } calls := ⟨Nat.zero_le _, bounded⟩
  apply Runs.guarded_congr _ _ initially
  · exact fun self call _ (within : self.Bounded) => within.behaves_iff call
  · exact fun self call _ (within : self.Bounded) _ => within.step call

/-- Two bytes read one after the other. -/
theorem behaves_iff_addressable_two :
    Runs.Guarded Behaves step { data := [1, 2] } [.u8, .u8] ↔
      Runs.Guarded Addressable step { data := [1, 2] } [.u8, .u8] :=
  behaves_iff_addressable (by decide) _

/-- Skipping the largest `usize` from the second byte on. -/
theorem skip_overflows :
    ¬ ∀ (data : Bytes) (calls : List Read), data.length < wordSize →
      (∀ call ∈ calls, call.requested < wordSize) →
      Runs.Guarded Behaves step { data } calls := by
  intro behave
  have history := behave [0] [.u8, .skip (wordSize - 1)] (by decide) (by decide)
  have bounded : (step { data := [0] } .u8).Bounded :=
    Bounded.step ⟨Nat.zero_le _, by decide⟩ .u8
  have addressable := (bounded.behaves_iff _).mp history.2.1
  revert addressable
  unfold Addressable
  decide

end Deserializer

end JustDb
