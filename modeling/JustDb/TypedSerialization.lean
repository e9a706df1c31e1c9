import JustDb.Serialization

/-!
# Typed serialization

The `Serialize` and `Deserialize` traits with their six implementations.  A sequence of
values of any of these types is written into one serializer and read back, type by type,
from whatever slice starts with it.
-/

namespace JustDb

open Stateful Parsing Deserializer

class Serialize (α : Type) where
  serialize : α → Serializer → Result Serializer

class Deserialize (α : Type) where
  deserialize : Decode α

instance : Serialize UInt8 where
  serialize value serializer := .ok (serializer.writeU8 value)

instance : Serialize UInt16 where
  serialize value serializer := .ok (serializer.writeU16 value)

instance : Serialize UInt32 where
  serialize value serializer := .ok (serializer.writeU32 value)

instance : Serialize UInt64 where
  serialize value serializer := .ok (serializer.writeU64 value)

instance : Serialize String where
  serialize value serializer := .ok (serializer.writeString value)

/-- `Vec<u8>`; the length prefix is `self.len() as u32`. -/
instance : Serialize Bytes where
  serialize value serializer :=
    .ok ((serializer.writeU32 value.length.toUInt32).writeBytes value)

instance : Deserialize UInt8 where
  deserialize := readU8

instance : Deserialize UInt16 where
  deserialize := readU16

instance : Deserialize UInt32 where
  deserialize := readU32

instance : Deserialize UInt64 where
  deserialize := readU64

instance : Deserialize String where
  deserialize := readString

instance : Deserialize Bytes where
  deserialize := do
    let len ← readU32
    readBytes len.toNat

/-- The types that implement both traits. -/
inductive Kind where
  | u8
  | u16
  | u32
  | u64
  | string
  | bytes
  deriving DecidableEq, Repr

namespace Kind

/-- The values of a type. -/
abbrev Carrier : Kind → Type
  | u8 => UInt8
  | u16 => UInt16
  | u32 => UInt32
  | u64 => UInt64
  | string => String
  | bytes => Bytes

instance : (kind : Kind) → Serialize kind.Carrier
  | u8 => inferInstanceAs (Serialize UInt8)
  | u16 => inferInstanceAs (Serialize UInt16)
  | u32 => inferInstanceAs (Serialize UInt32)
  | u64 => inferInstanceAs (Serialize UInt64)
  | string => inferInstanceAs (Serialize String)
  | bytes => inferInstanceAs (Serialize Bytes)

instance : (kind : Kind) → Deserialize kind.Carrier
  | u8 => inferInstanceAs (Deserialize UInt8)
  | u16 => inferInstanceAs (Deserialize UInt16)
  | u32 => inferInstanceAs (Deserialize UInt32)
  | u64 => inferInstanceAs (Deserialize UInt64)
  | string => inferInstanceAs (Deserialize String)
  | bytes => inferInstanceAs (Deserialize Bytes)

end Kind

/-- A value together with its type. -/
abbrev Item := (kind : Kind) × kind.Carrier

/-- Serialize values in order into one serializer. -/
def serializeAll (items : List Item) (serializer : Serializer) : Result Serializer :=
  items.foldlM (fun serializer item => Serialize.serialize item.2 serializer) serializer

/-- Deserialize values of the given types in order. -/
def deserializeAll : List Kind → Decode (List Item)
  | [] => pure []
  | kind :: kinds => do
      let value ← (Deserialize.deserialize : Decode kind.Carrier)
      let items ← deserializeAll kinds
      pure (⟨kind, value⟩ :: items)

namespace Item

/-- A string or byte vector is shorter than `2 ^ 32` bytes. -/
def Short : Item → Prop
  | ⟨.string, s⟩ => (asBytes s).length < 2 ^ 32
  | ⟨.bytes, bytes⟩ => bytes.length < 2 ^ 32
  | _ => True

/-- A byte string behind the low 32 bits of its length. -/
def sized (bytes : Bytes) : Bytes :=
  LittleEndian.encode 4 bytes.length.toUInt32.toNat ++ bytes

/-- The bytes that a value is written as. -/
def encoding : Item → Bytes
  | ⟨.u8, value⟩ => [value]
  | ⟨.u16, value⟩ => LittleEndian.encode 2 value.toNat
  | ⟨.u32, value⟩ => LittleEndian.encode 4 value.toNat
  | ⟨.u64, value⟩ => LittleEndian.encode 8 value.toNat
  | ⟨.string, s⟩ => sized (asBytes s)
  | ⟨.bytes, bytes⟩ => sized bytes

end Item

/-! ## What is written -/

theorem serialize_eq (item : Item) (serializer : Serializer) :
    Serialize.serialize item.2 serializer =
      .ok { buffer := serializer.buffer ++ item.encoding } := by
  rcases item with ⟨kind, value⟩
  cases kind with
  | u8 => rfl
  | u16 => rfl
  | u32 => rfl
  | u64 => rfl
  | string => exact congrArg (Except.ok ∘ Serializer.mk) (List.append_assoc ..)
  | bytes => exact congrArg (Except.ok ∘ Serializer.mk) (List.append_assoc ..)

theorem serializeAll_eq (items : List Item) (serializer : Serializer) :
    serializeAll items serializer =
      .ok { buffer := serializer.buffer ++ items.flatMap Item.encoding } := by
  induction items generalizing serializer with
  | nil =>
      rw [List.flatMap_nil, List.append_nil]
      rfl
  | cons item items ih =>
      rw [serializeAll, List.foldlM_cons, serialize_eq, Result.ok_bind, ← serializeAll, ih,
        List.flatMap_cons, List.append_assoc]

/-! ## What is read -/

theorem toNat_toUInt32_of_short {bytes : Bytes} (short : bytes.length < 2 ^ 32) :
    bytes.length.toUInt32.toNat = bytes.length :=
  Nat.mod_eq_of_lt short

/-- A value is read from its encoding, whatever follows. -/
theorem decodes_deserialize {item : Item} (short : item.Short) :
    Decodes cursor (Deserialize.deserialize : Decode item.1.Carrier) item.encoding item.2 := by
  rcases item with ⟨kind, value⟩
  cases kind with
  | u8 => exact decodes_readU8 value
  | u16 => exact decodes_readU16 value
  | u32 => exact decodes_readU32 value
  | u64 => exact decodes_readU64 value
  | string =>
      apply (decodes_readU32 (asBytes value).length.toUInt32).bind
      rw [toNat_toUInt32_of_short short]
      apply (decodes_readBytes (asBytes value)).map
      rw [fromUtf8_asBytes]
      exact Decodes.pure value
  | bytes =>
      apply (decodes_readU32 (List.length value).toUInt32).bind
      rw [toNat_toUInt32_of_short short]
      exact decodes_readBytes value

theorem decodes_deserializeAll {items : List Item} (short : ∀ item ∈ items, item.Short) :
    Decodes cursor (deserializeAll (items.map Sigma.fst)) (items.flatMap Item.encoding)
      items := by
  induction items with
  | nil => exact Decodes.pure []
  | cons item items ih =>
      have rest := ih fun other member => short other (List.mem_cons_of_mem _ member)
      rw [List.flatMap_cons]
      exact (decodes_deserialize (short item List.mem_cons_self)).bind
        (rest.map (Decodes.pure _))

/-- No value is read in a way that changes the slice. -/
theorem keeps_deserialize (kind : Kind) :
    Keeps Deserializer.data (Deserialize.deserialize : Decode kind.Carrier) := by
  have word : ∀ (width : Nat) (α : Type) (convert : Nat → α), Keeps Deserializer.data
      (do let word ← readWord width; pure (convert word)) :=
    fun width _ _ => (keeps_readWord width).bind fun _ => keeps_pure _
  cases kind with
  | u8 => exact word 1 UInt8 Nat.toUInt8
  | u16 => exact word 2 UInt16 Nat.toUInt16
  | u32 => exact word 4 UInt32 Nat.toUInt32
  | u64 => exact word 8 UInt64 Nat.toUInt64
  | string =>
      apply Keeps.bind (word 4 UInt32 Nat.toUInt32)
      intro len
      apply (keeps_readBytes len.toNat).bind
      intro bytes self
      cases fromUtf8 bytes with
      | some s => rfl
      | none => rfl
  | bytes => exact Keeps.bind (word 4 UInt32 Nat.toUInt32) fun _ => keeps_readBytes _

theorem keeps_deserializeAll (kinds : List Kind) :
    Keeps Deserializer.data (deserializeAll kinds) := by
  induction kinds with
  | nil => exact keeps_pure _
  | cons kind kinds ih =>
      exact (keeps_deserialize kind).bind fun _ => ih.bind fun _ => keeps_pure _

/-- Values serialized in order are deserialized in order from the result and any trailing
bytes, and the deserializer stops at the trailing bytes. -/
theorem deserializeAll_serializeAll {items : List Item} (short : ∀ item ∈ items, item.Short)
    {trailing : Bytes} (bounded : (items.flatMap Item.encoding ++ trailing).length < wordSize) :
    ∃ serializer, serializeAll items {} = .ok serializer ∧
      deserializeAll (items.map Sigma.fst) { data := serializer.finish ++ trailing } =
        .ok items { data := serializer.finish ++ trailing,
                    position := serializer.finish.length } := by
  refine ⟨_, serializeAll_eq items {}, ?_⟩
  rw [Serializer.finish, List.nil_append]
  have ready : cursor.reading { data := items.flatMap Item.encoding ++ trailing }
      (items.flatMap Item.encoding ++ trailing) := ⟨Nat.zero_le _, bounded, rfl⟩
  obtain ⟨next, ran, behind⟩ := decodes_deserializeAll short _ trailing ready
  have kept := (keeps_deserializeAll _).of_ok ran
  rw [ran, eq_past_of_reading kept ready behind, past, Nat.zero_add]

/-- One value of each type. -/
theorem deserializeAll_serializeAll_each :
    ∃ serializer, serializeAll [⟨.u8, 1⟩, ⟨.u16, 2⟩, ⟨.u32, 3⟩, ⟨.u64, 4⟩, ⟨.string, "né"⟩,
        ⟨.bytes, [5, 6]⟩] {} = .ok serializer ∧
      deserializeAll [.u8, .u16, .u32, .u64, .string, .bytes]
          { data := serializer.finish ++ [7] } =
        .ok [⟨.u8, 1⟩, ⟨.u16, 2⟩, ⟨.u32, 3⟩, ⟨.u64, 4⟩, ⟨.string, "né"⟩, ⟨.bytes, [5, 6]⟩]
          { data := serializer.finish ++ [7], position := serializer.finish.length } := by
  apply deserializeAll_serializeAll
  · have few : (asBytes "né").length < 2 ^ 32 := by decide +kernel
    simpa [Item.Short] using few
  · decide +kernel

end JustDb
