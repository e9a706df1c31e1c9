import JustDb.TypedSerialization

/-!
# What the decoders accept

A decoder that returns has consumed the bytes that the serializer writes for what it
returned.  With the round trip, this tells the byte strings that are accepted, and what
is made of them.
-/

namespace JustDb

open Stateful Parsing Deserializer

/-- A string that was made from bytes has these bytes. -/
theorem asBytes_of_fromUtf8 {bytes : Bytes} {s : String} (made : fromUtf8 bytes = some s) :
    asBytes s = bytes := by
  rw [fromUtf8, String.fromUTF8?] at made
  split at made
  · cases made
    rw [asBytes]
    simp [String.fromUTF8]
  · cases made

namespace Deserializer

/-! ## Bytes and words -/

theorem consumes_readBytes (len : Nat) :
    Consumes cursor (readBytes len) fun bytes segment => segment = bytes ∧ bytes.length = len := by
  rintro self pending bytes next ⟨inside, bounded, rfl⟩ ran
  obtain ⟨⟨_, fits⟩, rfl, rfl⟩ := readBytes_eq_ok.mp ran
  refine ⟨_, _, (List.take_append_drop len _).symm, ⟨rfl, ?_⟩, fits, bounded, ?_⟩
  · rw [List.length_take, List.length_drop]
    omega
  · rw [List.drop_drop]
    rfl

theorem consumes_readWord (width : Nat) :
    Consumes cursor (readWord width) fun word segment =>
      segment = LittleEndian.encode width word ∧ word < 256 ^ width := by
  refine (consumes_readBytes width).bind fun bytes segment read => Consumes.pure ?_
  obtain ⟨rfl, sized⟩ := read
  have small := LittleEndian.decode_lt segment
  have whole := LittleEndian.encode_decode segment
  rw [sized] at small whole
  rw [List.append_nil]
  exact ⟨whole.symm, small⟩

/-- A word in a type whose values are the words of the width. -/
theorem consumes_convertedWord (width : Nat) {convert : Nat → α} (toNat : α → Nat)
    (same : ∀ word < 256 ^ width, toNat (convert word) = word) :
    Consumes cursor (do let word ← readWord width; pure (convert word))
      fun value segment => segment = LittleEndian.encode width (toNat value) := by
  refine (consumes_readWord width).bind fun word segment read => Consumes.pure ?_
  rw [List.append_nil, same word read.2]
  exact read.1

theorem consumes_readU8 : Consumes cursor readU8 fun value segment => segment = [value] := by
  refine (consumes_convertedWord 1 UInt8.toNat fun word small => ?_).mono ?_
  · exact Nat.mod_eq_of_lt small
  · rintro value segment rfl
    simp [LittleEndian.encode]

theorem consumes_readU16 : Consumes cursor readU16 fun value segment =>
    segment = LittleEndian.encode 2 value.toNat :=
  consumes_convertedWord 2 UInt16.toNat fun _ small => Nat.mod_eq_of_lt small

theorem consumes_readU32 : Consumes cursor readU32 fun value segment =>
    segment = LittleEndian.encode 4 value.toNat :=
  consumes_convertedWord 4 UInt32.toNat fun _ small => Nat.mod_eq_of_lt small

theorem consumes_readU64 : Consumes cursor readU64 fun value segment =>
    segment = LittleEndian.encode 8 value.toNat :=
  consumes_convertedWord 8 UInt64.toNat fun _ small => Nat.mod_eq_of_lt small

/-- A length and as many bytes. -/
theorem consumes_sized : Consumes cursor (do let len ← readU32; readBytes len.toNat)
    fun bytes segment => segment = Item.sized bytes ∧ bytes.length < 2 ^ 32 := by
  refine consumes_readU32.bind fun len head spelled => (consumes_readBytes _).mono ?_
  rintro bytes segment ⟨rfl, sized⟩
  have small : List.length segment < 2 ^ 32 := sized ▸ len.toNat_lt
  refine ⟨?_, small⟩
  rw [Item.sized, toNat_toUInt32_of_short small, sized, spelled]

/-- A slice is decoded as a value exactly when it starts with a segment of the grammar. -/
theorem decodeFrom_accepts_iff {decoder : Decode α} {grammar : α → Bytes → Prop}
    (consumes : Consumes cursor decoder grammar)
    (decodes : ∀ value segment, grammar value segment → Decodes cursor decoder segment value)
    {data : Bytes} (bounded : data.length < wordSize) (value : α) :
    decodeFrom data decoder = .ok value ↔ ∃ segment, segment <+: data ∧ grammar value segment := by
  have ready : cursor.reading { data } data := ⟨Nat.zero_le _, bounded, rfl⟩
  rw [← accepts_iff consumes decodes ready, decodeFrom]
  cases decoder { data } <;> simp

end Deserializer

/-! ## Typed values -/

/-- A length and as many bytes that are UTF-8. -/
theorem consumes_readString : Consumes cursor readString
    fun s segment => segment = Item.sized (asBytes s) ∧ (asBytes s).length < 2 ^ 32 := by
  rw [readString, ← bind_assoc]
  refine consumes_sized.bind fun bytes segment spelled => ?_
  cases made : fromUtf8 bytes with
  | none => exact consumes_throw _
  | some s =>
      refine Consumes.pure ?_
      rw [List.append_nil, asBytes_of_fromUtf8 made]
      exact spelled

/-- A value is read from its encoding only. -/
theorem consumes_deserialize (kind : Kind) :
    Consumes cursor (Deserialize.deserialize : Decode kind.Carrier) fun value segment =>
      segment = Item.encoding ⟨kind, value⟩ ∧ Item.Short ⟨kind, value⟩ := by
  cases kind with
  | u8 => exact consumes_readU8.mono fun _ _ spelled => ⟨spelled, trivial⟩
  | u16 => exact consumes_readU16.mono fun _ _ spelled => ⟨spelled, trivial⟩
  | u32 => exact consumes_readU32.mono fun _ _ spelled => ⟨spelled, trivial⟩
  | u64 => exact consumes_readU64.mono fun _ _ spelled => ⟨spelled, trivial⟩
  | bytes => exact consumes_sized
  | string => exact consumes_readString

theorem consumes_deserializeAll (kinds : List Kind) :
    Consumes cursor (deserializeAll kinds) fun items segment =>
      items.map Sigma.fst = kinds ∧ (∀ item ∈ items, item.Short) ∧
        segment = items.flatMap Item.encoding := by
  induction kinds with
  | nil => exact Consumes.pure ⟨rfl, by simp, rfl⟩
  | cons kind kinds ih =>
      refine (consumes_deserialize kind).bind fun value head one => ?_
      refine ih.bind fun items tail rest => Consumes.pure ?_
      obtain ⟨kindsEq, short, rfl⟩ := rest
      refine ⟨by rw [List.map_cons, kindsEq], ?_, ?_⟩
      · rw [List.forall_mem_cons]
        exact ⟨one.2, short⟩
      · rw [List.append_nil, List.flatMap_cons, one.1]

/-- Values of given types are deserialized from a slice exactly when the slice starts with
what the serializer writes for them, and the deserializer then stops right behind. -/
theorem deserializeAll_accepts_iff {data : Bytes} (bounded : data.length < wordSize)
    (kinds : List Kind) (items : List Item) (position : Nat) :
    deserializeAll kinds { data } = .ok items { data, position } ↔
      items.map Sigma.fst = kinds ∧ (∀ item ∈ items, item.Short) ∧
        ∃ serializer, serializeAll items {} = .ok serializer ∧
          serializer.finish <+: data ∧ position = serializer.finish.length := by
  have ready : cursor.reading { data } data := ⟨Nat.zero_le _, bounded, rfl⟩
  constructor
  · intro ran
    obtain ⟨segment, rest, split, ⟨kindsEq, short, spelled⟩, behind⟩ :=
      consumes_deserializeAll kinds _ data items _ ready ran
    subst split
    have stopped : ({ data := segment ++ rest, position } : Deserializer) =
        past { data := segment ++ rest } segment.length := eq_past_of_reading rfl ready behind
    refine ⟨kindsEq, short, _, serializeAll_eq items {}, ?_, ?_⟩
    · rw [Serializer.finish, List.nil_append, ← spelled]
      exact List.prefix_append _ _
    · rw [Serializer.finish, List.nil_append, ← spelled]
      exact (congrArg Deserializer.position stopped).trans (Nat.zero_add _)
  · rintro ⟨rfl, short, serializer, wrote, ⟨rest, rfl⟩, rfl⟩
    rw [serializeAll_eq] at wrote
    cases wrote
    rw [Serializer.finish, List.nil_append] at bounded ready ⊢
    obtain ⟨next, ran, behind⟩ := decodes_deserializeAll short _ rest ready
    have kept := (keeps_deserializeAll _).of_ok ran
    rw [ran, eq_past_of_reading kept ready behind, past, Nat.zero_add]

/-- A number and a byte vector, with a byte behind them that is left alone. -/
theorem deserializeAll_accepts_iff_two :
    deserializeAll [.u8, .bytes] { data := [7, 1, 0, 0, 0, 9, 5] } =
      .ok [⟨.u8, 7⟩, ⟨.bytes, [9]⟩] { data := [7, 1, 0, 0, 0, 9, 5], position := 6 } := by
  refine (deserializeAll_accepts_iff (by decide) _ _ _).mpr ⟨rfl, ?_, _, rfl, ?_, rfl⟩
  · intro item member
    rcases List.mem_pair.mp member with rfl | rfl
    · trivial
    · exact (by decide : 1 < 2 ^ 32)
  · exact ⟨[5], rfl⟩

/-! ## One value at a time -/

namespace Serializer

def size (self : Serializer) : Nat :=
  self.buffer.length

end Serializer

namespace Utils

def serialize {α : Type} [Serialize α] (value : α) : Result Bytes := do
  let serializer ← Serialize.serialize value {}
  .ok serializer.finish

def deseriaze {α : Type} [Deserialize α] (data : Bytes) : Result α :=
  decodeFrom data Deserialize.deserialize

def serializedSized {α : Type} [Serialize α] (value : α) : Result Nat := do
  let serializer ← Serialize.serialize value {}
  .ok serializer.size

/-- A slice is taken for a value exactly when it starts with the bytes of the value, of
which there are as many as the value is said to take. -/
theorem deseriaze_eq_ok_iff {data : Bytes} (bounded : data.length < wordSize) {kind : Kind}
    (value : kind.Carrier) :
    deseriaze data = .ok value ↔ Item.Short ⟨kind, value⟩ ∧
      ∃ bytes, serialize value = .ok bytes ∧ serializedSized value = .ok bytes.length ∧
        bytes <+: data := by
  have written : serialize value = .ok (Item.encoding ⟨kind, value⟩) := by
    rw [serialize, serialize_eq ⟨kind, value⟩]
    rfl
  have sized : serializedSized value = .ok (Item.encoding ⟨kind, value⟩).length := by
    rw [serializedSized, serialize_eq ⟨kind, value⟩]
    rfl
  rw [deseriaze, decodeFrom_accepts_iff (consumes_deserialize kind) _ bounded]
  · constructor
    · rintro ⟨_, front, rfl, short⟩
      exact ⟨short, _, written, sized, front⟩
    · rintro ⟨short, bytes, wrote, -, front⟩
      cases written.symm.trans wrote
      exact ⟨_, front, rfl, short⟩
  · rintro value segment ⟨rfl, short⟩
    exact decodes_deserialize short

end Utils

end JustDb
