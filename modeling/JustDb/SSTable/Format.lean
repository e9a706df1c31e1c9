import JustDb.External
import JustDb.Serialization

/-!
# Table file format

Constants and records shared by the writer and the reader of a table file, and
the names under which the engine stores table files.
-/

namespace JustDb

/-- magic number for sstable files -/
def sstableMagic : UInt32 := 0x53533454

/-- sstable format version -/
def sstableVersion : UInt32 := 1

/-- block size for data compression -/
def blockSize : Nat := 4096

/-- footer size in bytes -/
def footerSize : Nat := 64

/-- Table metadata; sizes, counts and offsets are `u64` values. -/
structure SStableMeta where
  entryCount : Nat
  dataSize : Nat
  indexSize : Nat
  bloomOffset : Nat
  bloomSize : Nat
  minKey : Key
  maxKey : Key
  compression : CompressionType
  createdAt : Timestamp
  version : UInt32
  deriving DecidableEq, Repr

/-- First key, file offset and stored size of one data block. -/
structure IndexEntry where
  key : Key
  offset : Nat
  size : Nat
  deriving DecidableEq, Repr

/-- The name of a file in the `sstables` directory. -/
abbrev FileName := List Char

/-- `{:0width}` of a number. -/
def paddedDigits (width value : Nat) : FileName :=
  let digits := Nat.toDigits 10 value
  List.replicate (width - digits.length) '0' ++ digits

/-- `L{level}_{timestamp:010}_{sequence}.sst` -/
def sstableName (level seconds : Nat) (sequence : SequenceNumber) : FileName :=
  'L' :: paddedDigits 0 level ++ '_' :: paddedDigits 10 seconds ++
    '_' :: paddedDigits 0 sequence.toNat ++ ".sst".toList

/-- `path.extension() == Some("sst")`: a non-empty stem before the last dot. -/
def hasSstExtension (name : FileName) : Bool :=
  ".sst".toList.isSuffixOf name && decide (4 < name.length)

/-- Decimal digits of a `usize`, refused on overflow. -/
def parseDigits (value : Nat) : FileName → Option Nat
  | [] => some value
  | digit :: digits =>
      if digit.isDigit then
        let next := value * 10 + (digit.toNat - '0'.toNat)
        if next < wordSize then parseDigits next digits else none
      else none

/-- `str::parse::<usize>`: at least one digit, after an optional plus sign. -/
def parseUsize : FileName → Option Nat
  | [] => none
  | ['+'] => none
  | '+' :: digits => parseDigits 0 digits
  | digits => parseDigits 0 digits

def parseLevelFromFilename (name : FileName) : Option Nat :=
  match name with
  | 'L' :: rest => if '_' ∈ rest then parseUsize (rest.takeWhile (· ≠ '_')) else none
  | _ => none

/-! ## The level in a name -/

/-- Parsing digits reads their value, where it fits. -/
theorem parseDigits_eq {digits : FileName} {value : Nat}
    (numeric : ∀ digit ∈ digits, digit.isDigit = true)
    (bounded : Nat.ofDigitChars 10 digits value < wordSize) :
    parseDigits value digits = some (Nat.ofDigitChars 10 digits value) := by
  induction digits generalizing value with
  | nil => rfl
  | cons digit digits ih =>
      rw [Nat.ofDigitChars_cons, Nat.mul_comm] at bounded ⊢
      have grows : value * 10 + (digit.toNat - '0'.toNat) ≤
          Nat.ofDigitChars 10 digits (value * 10 + (digit.toNat - '0'.toNat)) := by
        rw [Nat.ofDigitChars_eq_ofDigitChars_zero]
        exact Nat.le_add_right_of_le (Nat.le_mul_of_pos_left _ (Nat.pow_pos (by decide)))
      rw [parseDigits, if_pos (numeric digit List.mem_cons_self)]
      dsimp only
      rw [if_pos (Nat.lt_of_le_of_lt grows bounded)]
      exact ih (fun other member => numeric other (List.mem_cons_of_mem _ member)) bounded

theorem parseUsize_toDigits {value : Nat} (bounded : value < wordSize) :
    parseUsize (Nat.toDigits 10 value) = some value := by
  have numeric : ∀ digit ∈ Nat.toDigits 10 value, digit.isDigit = true := fun digit member =>
    Nat.isDigit_of_mem_toDigits (by decide) le_rfl member
  have read : parseDigits 0 (Nat.toDigits 10 value) = some value := by
    rw [parseDigits_eq numeric (by rwa [Nat.ofDigitChars_ten_toDigits]),
      Nat.ofDigitChars_ten_toDigits]
  rw [parseUsize.eq_def]
  split
  next empty => exact absurd empty Nat.toDigits_ne_nil
  next plus =>
    rw [plus] at numeric
    exact absurd (numeric _ List.mem_cons_self) (by decide)
  next plus =>
    rw [plus] at numeric
    exact absurd (numeric _ List.mem_cons_self) (by decide)
  next => exact read

theorem paddedDigits_zero (value : Nat) : paddedDigits 0 value = Nat.toDigits 10 value := by
  rw [paddedDigits, Nat.zero_sub]
  rfl

/-- The name that the engine gives a table file tells its level. -/
theorem parseLevelFromFilename_sstableName {level : Nat} (bounded : level < wordSize)
    (seconds : Nat) (sequence : SequenceNumber) :
    parseLevelFromFilename (sstableName level seconds sequence) = some level := by
  set rest := paddedDigits 10 seconds ++ '_' :: paddedDigits 0 sequence.toNat ++ ".sst".toList
  have shape : sstableName level seconds sequence =
      'L' :: (Nat.toDigits 10 level ++ '_' :: rest) := by
    simp [sstableName, paddedDigits_zero, rest]
  have digits : ∀ digit ∈ Nat.toDigits 10 level, decide (digit ≠ '_') = true := by
    intro digit member
    refine decide_eq_true fun same => ?_
    rw [same] at member
    exact Nat.underscore_not_in_toDigits member
  have underscore : '_' ∈ Nat.toDigits 10 level ++ '_' :: rest :=
    List.mem_append_right _ List.mem_cons_self
  rw [shape, parseLevelFromFilename, if_pos underscore, List.takeWhile_append_of_pos digits,
    List.takeWhile_cons_of_neg (by decide), List.append_nil, parseUsize_toDigits bounded]

theorem hasSstExtension_sstableName (level seconds : Nat) (sequence : SequenceNumber) :
    hasSstExtension (sstableName level seconds sequence) = true := by
  have suffix : ".sst".toList <:+ sstableName level seconds sequence := ⟨_, rfl⟩
  have longer : 4 < (sstableName level seconds sequence).length := by
    simp [sstableName]
    omega
  rw [hasSstExtension, decide_eq_true longer, Bool.and_true]
  exact List.isSuffixOf_iff_suffix.mpr suffix

theorem underscore_notMem_paddedDigits (width value : Nat) : '_' ∉ paddedDigits width value := by
  rw [paddedDigits, List.mem_append, List.mem_replicate]
  rintro (⟨_, same⟩ | member)
  · exact absurd same (by decide)
  · exact Nat.underscore_not_in_toDigits member

/-- Leading zeros do not change the number. -/
theorem ofDigitChars_paddedDigits (width value : Nat) :
    Nat.ofDigitChars 10 (paddedDigits width value) 0 = value := by
  have zeros : ∀ count, Nat.ofDigitChars 10
      (List.replicate count '0' ++ Nat.toDigits 10 value) 0 = value := by
    intro count
    induction count with
    | zero => exact Nat.ofDigitChars_ten_toDigits
    | succ count ih =>
        rw [List.replicate_succ, List.cons_append, Nat.ofDigitChars_cons]
        exact ih
  exact zeros _

theorem paddedDigits_injective (width : Nat) : Function.Injective (paddedDigits width) := by
  intro left right same
  rw [← ofDigitChars_paddedDigits width left, same, ofDigitChars_paddedDigits]

/-- Two names that agree up to their first underscore and after it. -/
theorem append_underscore_inj {left right leftRest rightRest : FileName}
    (leftFree : '_' ∉ left) (rightFree : '_' ∉ right)
    (same : left ++ '_' :: leftRest = right ++ '_' :: rightRest) :
    left = right ∧ leftRest = rightRest := by
  have cut : ∀ {word rest : FileName}, '_' ∉ word →
      (word ++ '_' :: rest).takeWhile (· ≠ '_') = word := by
    intro word rest free
    have plain : ∀ letter ∈ word, decide (letter ≠ '_') = true := by
      intro letter member
      exact decide_eq_true fun equal => free (equal ▸ member)
    rw [List.takeWhile_append_of_pos plain, List.takeWhile_cons_of_neg (by decide),
      List.append_nil]
  have words : left = right := by
    rw [← cut leftFree, same, cut rightFree]
  subst words
  exact ⟨rfl, (List.cons.inj (List.append_cancel_left same)).2⟩

/-- Tables of different levels, seconds or numbers have different names. -/
theorem sstableName_inj {level seconds level' seconds' : Nat} {sequence sequence' : SequenceNumber}
    (same : sstableName level seconds sequence = sstableName level' seconds' sequence') :
    level = level' ∧ seconds = seconds' ∧ sequence = sequence' := by
  have shape : ∀ (level seconds : Nat) (sequence : SequenceNumber),
      sstableName level seconds sequence = 'L' :: (paddedDigits 0 level ++ '_' ::
        (paddedDigits 10 seconds ++ '_' :: (paddedDigits 0 sequence.toNat ++ ".sst".toList))) := by
    intro level seconds sequence
    simp [sstableName]
  rw [shape, shape, List.cons.injEq] at same
  obtain ⟨levels, rest⟩ := append_underscore_inj (underscore_notMem_paddedDigits _ _)
    (underscore_notMem_paddedDigits _ _) same.2
  obtain ⟨times, last⟩ := append_underscore_inj (underscore_notMem_paddedDigits _ _)
    (underscore_notMem_paddedDigits _ _) rest
  exact ⟨paddedDigits_injective 0 levels, paddedDigits_injective 10 times,
    UInt64.toNat_inj.mp (paddedDigits_injective 0 (List.append_cancel_right last))⟩

end JustDb
