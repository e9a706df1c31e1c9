import JustDb.Basic
import JustDb.Library.LittleEndian
import JustDb.Library.Parsing

/-!
# Binary serialization

The byte buffer that table files are written through and the cursor that they
are read with.  Every read goes through the one bounds check, `ensureByte`.
-/

namespace JustDb

open Stateful Parsing

/-- The UTF-8 bytes of a string: `as_bytes`. -/
def asBytes (s : String) : Bytes :=
  s.toUTF8.data.toList

/-- `String::from_utf8`, which accepts the UTF-8 encodings of strings. -/
def fromUtf8 (bytes : Bytes) : Option String :=
  String.fromUTF8? bytes.toByteArray

theorem fromUtf8_asBytes (s : String) : fromUtf8 (asBytes s) = some s := by
  have same : (asBytes s).toByteArray = s.toByteArray := by
    apply ByteArray.ext
    simp [asBytes, List.data_toByteArray]
  rw [fromUtf8, same]
  exact dif_pos s.isValidUTF8

/-- serializer for writing data -/
structure Serializer where
  buffer : Bytes := []
  deriving DecidableEq, Repr

namespace Serializer

def writeU8 (self : Serializer) (value : UInt8) : Serializer :=
  { buffer := self.buffer ++ [value] }

def writeU16 (self : Serializer) (value : UInt16) : Serializer :=
  { buffer := self.buffer ++ LittleEndian.encode 2 value.toNat }

def writeU32 (self : Serializer) (value : UInt32) : Serializer :=
  { buffer := self.buffer ++ LittleEndian.encode 4 value.toNat }

def writeU64 (self : Serializer) (value : UInt64) : Serializer :=
  { buffer := self.buffer ++ LittleEndian.encode 8 value.toNat }

def writeBytes (self : Serializer) (bytes : Bytes) : Serializer :=
  { buffer := self.buffer ++ bytes }

/-- The length prefix is `bytes.len() as u32`. -/
def writeString (self : Serializer) (s : String) : Serializer :=
  (self.writeU32 (asBytes s).length.toUInt32).writeBytes (asBytes s)

def finish (self : Serializer) : Bytes :=
  self.buffer

end Serializer

/-- A read position in a borrowed slice. -/
structure Deserializer where
  data : Bytes
  position : Nat := 0
  deriving DecidableEq, Repr

namespace Deserializer

/-- A call on a deserializer: it moves the position or returns an error. -/
abbrev Decode (α : Type) := EStateM Fault Deserializer α

/-- The one bounds check.  `position + n` is computed on `usize`. -/
def ensureByte (n : Nat) : Decode Unit := do
  let self ← get
  let needed ← lift (checkedAdd self.position n)
  if needed > self.data.length then
    throw (.error (.corruption "unexpected end of data"))

def readBytes (len : Nat) : Decode Bytes := do
  ensureByte len
  let self ← get
  set { self with position := self.position + len }
  pure ((self.data.drop self.position).take len)

/-- The fixed-width reads: `width` bytes, least significant first. -/
def readWord (width : Nat) : Decode Nat := do
  let bytes ← readBytes width
  pure (LittleEndian.decode bytes)

def readU8 : Decode UInt8 := do
  let word ← readWord 1
  pure word.toUInt8

def readU16 : Decode UInt16 := do
  let word ← readWord 2
  pure word.toUInt16

def readU32 : Decode UInt32 := do
  let word ← readWord 4
  pure word.toUInt32

def readU64 : Decode UInt64 := do
  let word ← readWord 8
  pure word.toUInt64

def readString : Decode String := do
  let len ← readU32
  let bytes ← readBytes len.toNat
  match fromUtf8 bytes with
  | some s => pure s
  | none => throw (.error (.corruption "Invalid UTF-8 string"))

def skip (n : Nat) : Decode Unit := do
  ensureByte n
  modify fun self => { self with position := self.position + n }

/-- The next byte, without moving. -/
def peekU8 : Decode UInt8 := do
  ensureByte 1
  let self ← get
  match self.data[self.position]? with
  | some byte => pure byte
  | none => throw .panic

def remaining (self : Deserializer) : Nat :=
  self.data.length - self.position

/-- Run a decoder on a slice from its start and drop the cursor. -/
def decodeFrom (data : Bytes) (decoder : Decode α) : Result α :=
  match decoder { data } with
  | .ok value _ => .ok value
  | .error fault _ => .error fault

/-! ## Which reads succeed -/

/-- The bytes asked for are there, and their end is a machine word. -/
def Fits (self : Deserializer) (n : Nat) : Prop :=
  self.position + n < wordSize ∧ self.position + n ≤ self.data.length

/-- The cursor past some bytes. -/
def past (self : Deserializer) (n : Nat) : Deserializer :=
  { self with position := self.position + n }

theorem ensureByte_eq_ok {self next : Deserializer} {n : Nat} {done : Unit} :
    ensureByte n self = .ok done next ↔ self.Fits n ∧ next = self := by
  rw [ensureByte, bind_of_ok (get_apply self), checkedAdd, Fits]
  by_cases word : self.position + n < wordSize
  · rw [if_pos word, bind_of_ok (lift_ok _ _)]
    by_cases inside : self.position + n ≤ self.data.length
    · rw [if_neg (not_lt.mpr inside)]
      simp [word, inside, eq_comm]
    · rw [if_pos (not_le.mp inside)]
      simp [inside]
  · rw [if_neg word, bind_of_error (lift_error _ _)]
    simp [word]

/-- Why a request is refused: the sum of position and length overflows, or there are not
that many bytes. -/
def refusal (self : Deserializer) (n : Nat) : Fault :=
  if self.position + n < wordSize then .error (.corruption "unexpected end of data")
  else .panic

theorem ensureByte_of_not_fits {self : Deserializer} {n : Nat} (unfit : ¬ self.Fits n) :
    ensureByte n self = .error (self.refusal n) self := by
  rw [ensureByte, bind_of_ok (get_apply self), checkedAdd, refusal]
  by_cases word : self.position + n < wordSize
  · have outside : self.position + n > self.data.length :=
      not_le.mp fun inside => unfit ⟨word, inside⟩
    rw [if_pos word, if_pos word, bind_of_ok (lift_ok _ _), if_pos outside]
    rfl
  · rw [if_neg word, if_neg word, bind_of_error (lift_error _ _)]

/-- A read is refused without moving. -/
theorem readBytes_of_not_fits {self : Deserializer} {len : Nat} (unfit : ¬ self.Fits len) :
    readBytes len self = .error (self.refusal len) self :=
  bind_of_error (ensureByte_of_not_fits unfit)

theorem readBytes_eq_ok {self next : Deserializer} {len : Nat} {bytes : Bytes} :
    readBytes len self = .ok bytes next ↔
      self.Fits len ∧ (self.data.drop self.position).take len = bytes ∧ next = self.past len := by
  simp only [readBytes, bind_eq_ok, ensureByte_eq_ok]
  constructor
  · rintro ⟨_, _, ⟨fits, rfl⟩, _, _, got, _, _, moved, ran⟩
    cases got
    cases moved
    cases ran
    exact ⟨fits, rfl, rfl⟩
  · rintro ⟨fits, rfl, rfl⟩
    exact ⟨(), self, ⟨fits, rfl⟩, self, self, rfl, ⟨⟩, self.past len, rfl, rfl⟩

theorem skip_eq_ok {self next : Deserializer} {n : Nat} {done : Unit} :
    skip n self = .ok done next ↔ self.Fits n ∧ next = self.past n := by
  simp only [skip, bind_eq_ok, ensureByte_eq_ok]
  constructor
  · rintro ⟨_, _, ⟨fits, rfl⟩, ran⟩
    cases ran
    exact ⟨fits, rfl⟩
  · rintro ⟨fits, rfl⟩
    exact ⟨(), self, ⟨fits, rfl⟩, rfl⟩

/-- Skipping bytes moves like reading them. -/
theorem skip_abreast (n : Nat) : Abreast (skip n) (readBytes n) := by
  intro self next
  simp only [skip_eq_ok, readBytes_eq_ok]
  constructor
  · rintro ⟨_, fits, rfl⟩
    exact ⟨_, fits, rfl, rfl⟩
  · rintro ⟨_, fits, _, rfl⟩
    exact ⟨(), fits, rfl⟩

theorem readWord_eq_ok {self next : Deserializer} {width word : Nat} :
    readWord width self = .ok word next ↔
      self.Fits width ∧
        LittleEndian.decode ((self.data.drop self.position).take width) = word ∧
          next = self.past width := by
  simp only [readWord, bind_eq_ok, readBytes_eq_ok]
  constructor
  · rintro ⟨_, _, ⟨fits, rfl, rfl⟩, ran⟩
    cases ran
    exact ⟨fits, rfl, rfl⟩
  · rintro ⟨fits, rfl, rfl⟩
    exact ⟨_, _, ⟨fits, rfl, rfl⟩, rfl⟩

/-- Two words in a row move like one skip of their common width. -/
theorem skip_abreast_words (first second : Nat) :
    Abreast (skip (first + second)) (do
      let _ ← readWord first
      readWord second) := by
  intro self next
  simp only [skip_eq_ok, bind_eq_ok, readWord_eq_ok, Fits, past]
  constructor
  · rintro ⟨_, ⟨word, inside⟩, rfl⟩
    refine ⟨_, _, _, ⟨⟨by omega, by omega⟩, rfl, rfl⟩, ⟨?_, ?_⟩, rfl, ?_⟩
    · simpa only [Nat.add_assoc] using word
    · simpa only [Nat.add_assoc] using inside
    · rw [Nat.add_assoc]
  · rintro ⟨_, _, _, ⟨_, _, rfl⟩, ⟨word, inside⟩, _, rfl⟩
    rw [Nat.add_assoc] at word inside
    exact ⟨(), ⟨word, inside⟩, by rw [Nat.add_assoc]⟩

/-! ## What a read does -/

/-- The position lies in a slice that a machine can address, in front of exactly
the bytes that are still to be read. -/
def cursor : Cursor Deserializer UInt8 where
  reading self pending :=
    self.position ≤ self.data.length ∧ self.data.length < wordSize ∧
      self.data.drop self.position = pending

theorem ensureByte_of_le {self : Deserializer} {n : Nat}
    (fits : self.position + n ≤ self.data.length) (bounded : self.data.length < wordSize) :
    ensureByte n self = .ok () self := by
  have noOverflow : checkedAdd self.position n = .ok (self.position + n) :=
    checkedAdd_eq_ok.mpr ⟨by omega, rfl⟩
  rw [ensureByte, bind_of_ok (get_apply self), noOverflow, bind_of_ok (lift_ok _ _),
    if_neg (by omega)]
  rfl

theorem readBytes_of_le {self : Deserializer} {len : Nat}
    (fits : self.position + len ≤ self.data.length)
    (bounded : self.data.length < wordSize) :
    readBytes len self =
      .ok ((self.data.drop self.position).take len)
        { self with position := self.position + len } := by
  rw [readBytes, bind_of_ok (ensureByte_of_le fits bounded), bind_of_ok (get_apply self),
    bind_of_ok (set_apply _ _), pure_apply]

theorem decodes_readBytes (bytes : Bytes) :
    Decodes cursor (readBytes bytes.length) bytes bytes := by
  rintro self rest ⟨inside, bounded, pending⟩
  have lengths := congrArg List.length pending
  simp only [List.length_drop, List.length_append] at lengths
  refine ⟨{ self with position := self.position + bytes.length }, ?_, ?_, bounded, ?_⟩
  · rw [readBytes_of_le (by omega) bounded, pending, List.take_left]
  · change self.position + bytes.length ≤ self.data.length
    omega
  · change self.data.drop (self.position + bytes.length) = rest
    rw [← List.drop_drop, pending, List.drop_left]

/-- A word that fits its width is read back, in whatever type it is wanted. -/
theorem decodes_readWord (width : Nat) {value : Nat} (small : value < 256 ^ width)
    (convert : Nat → α) :
    Decodes cursor (do let word ← readWord width; pure (convert word))
      (LittleEndian.encode width value) (convert value) := by
  have bytes := decodes_readBytes (LittleEndian.encode width value)
  rw [LittleEndian.encode_length] at bytes
  refine Decodes.map (bytes.map ?_) (Decodes.pure _)
  rw [LittleEndian.decode_encode, Nat.mod_eq_of_lt small]
  exact Decodes.pure _

theorem decodes_readU8 (value : UInt8) :
    Decodes cursor readU8 [value] value := by
  have word := decodes_readWord 1 (value.toNat_lt) Nat.toUInt8
  rw [show value.toNat.toUInt8 = value by simp] at word
  simp only [LittleEndian.encode, show value.toNat.toUInt8 = value by simp] at word
  exact word

theorem decodes_readU16 (value : UInt16) :
    Decodes cursor readU16 (LittleEndian.encode 2 value.toNat) value := by
  have word := decodes_readWord 2 (value.toNat_lt) Nat.toUInt16
  rwa [show value.toNat.toUInt16 = value by simp] at word

theorem decodes_readU32 (value : UInt32) :
    Decodes cursor readU32 (LittleEndian.encode 4 value.toNat) value := by
  have word := decodes_readWord 4 (value.toNat_lt) Nat.toUInt32
  rwa [show value.toNat.toUInt32 = value by simp] at word

theorem decodes_readU64 (value : UInt64) :
    Decodes cursor readU64 (LittleEndian.encode 8 value.toNat) value := by
  have word := decodes_readWord 8 (value.toNat_lt) Nat.toUInt64
  rwa [show value.toNat.toUInt64 = value by simp] at word

/-- Skipping a segment reads past it. -/
theorem decodes_skip (bytes : Bytes) :
    Decodes cursor (skip bytes.length) bytes () := by
  rintro self rest ⟨inside, bounded, pending⟩
  have lengths := congrArg List.length pending
  simp only [List.length_drop, List.length_append] at lengths
  refine ⟨{ self with position := self.position + bytes.length }, ?_, ?_, bounded, ?_⟩
  · rw [skip, bind_of_ok (ensureByte_of_le (by omega) bounded), modify_apply]
  · change self.position + bytes.length ≤ self.data.length
    omega
  · change self.data.drop (self.position + bytes.length) = rest
    rw [← List.drop_drop, pending, List.drop_left]

/-- No read changes the slice. -/
theorem keeps_readBytes (len : Nat) : Keeps Deserializer.data (readBytes len) := by
  intro self
  by_cases fits : self.Fits len
  · rw [readBytes_eq_ok.mpr ⟨fits, rfl, rfl⟩]
    rfl
  · rw [readBytes_of_not_fits fits]
    rfl

theorem keeps_readWord (width : Nat) : Keeps Deserializer.data (readWord width) :=
  (keeps_readBytes width).bind fun _ => keeps_pure _

/-- Between a segment and what is behind it there is one position. -/
theorem eq_past_of_reading {self next : Deserializer} {segment rest : Bytes}
    (data : next.data = self.data) (before : cursor.reading self (segment ++ rest))
    (after : cursor.reading next rest) : next = self.past segment.length := by
  obtain ⟨inside, _, pending⟩ := before
  obtain ⟨nextInside, _, nextPending⟩ := after
  have lengths := congrArg List.length pending
  have nextLengths := congrArg List.length nextPending
  simp only [List.length_drop, List.length_append] at lengths nextLengths
  rw [data] at nextInside nextLengths
  have position : next.position = self.position + segment.length := by omega
  cases next
  cases data
  cases position
  rfl

/-- Decoding a slice that starts with the encoding of a value returns it. -/
theorem decodeFrom_of_returns {decoder : Decode α} {segment rest : Bytes} {value : α}
    (returns : Returns cursor decoder segment value)
    (bounded : (segment ++ rest).length < wordSize) :
    decodeFrom (segment ++ rest) decoder = .ok value := by
  obtain ⟨next, ran⟩ := returns { data := segment ++ rest } rest
    ⟨Nat.zero_le _, bounded, rfl⟩
  rw [decodeFrom, ran]

theorem decodeFrom_of_returns_whole {decoder : Decode α} {data : Bytes} {value : α}
    (returns : Returns cursor decoder data value) (bounded : data.length < wordSize) :
    decodeFrom data decoder = .ok value := by
  rw [← List.append_nil data] at bounded ⊢
  exact decodeFrom_of_returns returns bounded

end Deserializer

end JustDb
