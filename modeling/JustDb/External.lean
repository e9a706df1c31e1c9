import JustDb.Config

/-!
# External functions

What the engine takes from other crates and from floating-point arithmetic: the
sizing formulas and hash functions of the bloom filter, the block checksum and
the two compressors.  They are parameters of the model; the laws that a proof
relies on are stated apart, as properties of an `External`.
-/

namespace JustDb

structure External where
  /-- `(-(n as f64) * p.ln() / 2.0.ln().powi(2)).ceil() as usize` -/
  bloomBits : Nat → Float64 → Nat
  /-- `((m as f64 / n as f64) * 2.0.ln()).ceil() as usize` -/
  bloomHashes : Nat → Nat → Nat
  /-- the first eight bytes of the blake3 digest, as a `u64` -/
  hashBlake3 : Bytes → UInt64
  /-- `DefaultHasher` on a byte slice -/
  hashDefault : Bytes → UInt64
  /-- `DefaultHasher` on a `usize` -/
  hashIndex : Nat → UInt64
  /-- `crc32fast` -/
  crc32 : Bytes → UInt32
  /-- `lz4_flex::compress_prepend_size` -/
  lz4Compress : Bytes → Bytes
  /-- `lz4_flex::decompress_size_prepended` -/
  lz4Decompress : Bytes → Except String Bytes
  /-- `zstd::bulk::compress` at a level -/
  zstdCompress : Bytes → Int → Except String Bytes
  /-- `zstd::bulk::decompress` into a buffer of a given capacity -/
  zstdDecompress : Bytes → Nat → Except String Bytes

/-- `lz4_flex` decompression undoes its compression. -/
def External.Lz4RoundTrips (external : External) : Prop :=
  ∀ data, external.lz4Decompress (external.lz4Compress data) = .ok data

/-- `zstd::bulk::compress` allocates a buffer of `compress_bound` bytes, so it does
not fail. -/
def External.ZstdCompresses (external : External) : Prop :=
  ∀ data level, ∃ compressed, external.zstdCompress data level = .ok compressed

/-- `zstd::bulk::decompress` returns what was compressed where it fits the capacity, and
an error where it does not. -/
structure External.ZstdRoundTrips (external : External) : Prop where
  fits : ∀ {data level compressed capacity},
    external.zstdCompress data level = .ok compressed → data.length ≤ capacity →
      external.zstdDecompress compressed capacity = .ok data
  overflows : ∀ {data level compressed capacity},
    external.zstdCompress data level = .ok compressed → capacity < data.length →
      ∃ reason, external.zstdDecompress compressed capacity = .error reason

/-- A concrete choice under which the model runs: constant hashes, compressors
that copy, and the bloom sizes of one or two entries at the rates `0` and `0.01`. -/
def External.plain : External where
  bloomBits count rate := if rate = .finite 0 then wordSize - 1 else 10 * count
  bloomHashes bits count := bits / count
  hashBlake3 _ := 1
  hashDefault _ := 2
  hashIndex _ := 3
  crc32 data := data.length.toUInt32
  lz4Compress data := data
  lz4Decompress data := .ok data
  zstdCompress data _ := .ok data
  zstdDecompress data capacity :=
    if data.length ≤ capacity then .ok data else .error "destination buffer is too small"

theorem External.plain_lz4RoundTrips : External.plain.Lz4RoundTrips :=
  fun _ => rfl

theorem External.plain_zstdCompresses : External.plain.ZstdCompresses :=
  fun data _ => ⟨data, rfl⟩

theorem External.plain_zstdRoundTrips : External.plain.ZstdRoundTrips where
  fits := by
    intro data level compressed capacity made small
    cases made
    exact if_pos small
  overflows := by
    intro data level compressed capacity made large
    cases made
    exact ⟨_, if_neg (not_le.mpr large)⟩

end JustDb
