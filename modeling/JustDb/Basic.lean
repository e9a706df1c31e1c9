import Mathlib.Data.List.Sort
import Mathlib.Order.Basic

/-!
# Entries, errors and results

The vocabulary of the storage engine: byte-string keys and values, versioned
entries, and the two ways in which a call can fail to return `Ok`.  A byte
string is a list of bytes ordered lexicographically, as `Vec<u8>` is.
-/

namespace JustDb

/-- A byte string: `Vec<u8>`, `&[u8]` or `Bytes`. -/
abbrev Bytes := List UInt8

/-- Key type used throughout the storage engine. -/
abbrev Key := Bytes

/-- Value type used throughout the storage engine. -/
abbrev Value := Bytes

/-- Microseconds since the Unix epoch, as a `u64`. -/
abbrev Timestamp := UInt64

/-- Sequence number for ordering operations. -/
abbrev SequenceNumber := UInt64

/-- Comparing two byte strings goes by their lexicographic order. -/
private theorem compare_eq_compareOfLessAndEq (left right : List UInt8) :
    compare left right = compareOfLessAndEq left right := by
  induction left generalizing right with
  | nil => cases right <;> simp [compareOfLessAndEq]
  | cons first left ih =>
      cases right with
      | nil => simp [compareOfLessAndEq]
      | cons other right =>
          rw [List.compare_cons_cons, ih,
            show compare first other = compareOfLessAndEq first other from rfl]
          by_cases below : first < other
          · simp [compareOfLessAndEq, List.cons_lt_cons_iff, below]
          · by_cases same : first = other
            · subst same
              simp [compareOfLessAndEq, below]
            · simp [compareOfLessAndEq, List.cons_lt_cons_iff, below, same]

/-- The lexicographic order of byte strings, with the comparison and the
decision procedures of the core library. -/
instance : LinearOrder Bytes where
  le_refl := Std.le_refl
  le_trans := fun _ _ _ => Std.le_trans
  le_antisymm := fun _ _ => Std.le_antisymm
  le_total := fun _ _ => Std.le_total
  lt_iff_le_not_ge := fun _ _ => Std.lt_iff_le_and_not_ge
  toDecidableLE := inferInstance
  toDecidableLT := inferInstance
  toDecidableEq := inferInstance
  compare_eq_compareOfLessAndEq := compare_eq_compareOfLessAndEq

/-- Timestamps and sequence numbers are compared as the numbers they hold. -/
instance sequenceOrder : LinearOrder UInt64 where
  le_refl := UInt64.le_refl
  le_trans := fun _ _ _ => UInt64.le_trans
  le_antisymm := fun _ _ => UInt64.le_antisymm
  le_total := UInt64.le_total
  lt_iff_le_not_ge := fun _ _ => Std.lt_iff_le_and_not_ge
  toDecidableLE := inferInstance
  toDecidableLT := inferInstance
  toDecidableEq := inferInstance
  compare_eq_compareOfLessAndEq := fun _ _ => rfl

/-- max key size in bytes -/
def maxKeySize : Nat := 1024

/-- max value size in bytes -/
def maxValueSize : Nat := 1024 * 1024

/-- Number of values of a 64-bit machine word, `usize` included. -/
def wordSize : Nat := UInt64.size

/-- Entry in the storage engine.  `value` is `none` for a delete marker. -/
structure Entry where
  key : Key
  value : Option Value
  timestamp : Timestamp
  sequence : SequenceNumber
  deriving DecidableEq, Repr

namespace Entry

/-- Eight bytes each are charged for timestamp and sequence. -/
def size (entry : Entry) : Nat :=
  entry.key.length + (entry.value.map List.length).getD 0 + 16

end Entry

/-- Strictly ascending by key, as a table stores its entries. -/
def Ascending (entries : List Entry) : Prop :=
  entries.Pairwise fun left right => left.key < right.key

/-- The first entry of a list with a given key. -/
def entryFor (entries : List Entry) (key : Key) : Option Entry :=
  entries.find? fun entry => entry.key = key

theorem entryFor_eq_none {entries : List Entry} {key : Key} :
    entryFor entries key = none ↔ ∀ entry ∈ entries, entry.key ≠ key := by
  simp [entryFor]

theorem mem_of_entryFor {entries : List Entry} {key : Key} {entry : Entry}
    (found : entryFor entries key = some entry) : entry ∈ entries ∧ entry.key = key :=
  ⟨List.mem_of_find?_eq_some found, by simpa using List.find?_some found⟩

/-- In ascending entries each key occurs once. -/
theorem Ascending.eq_of_key_eq {entries : List Entry} (ascending : Ascending entries)
    {left right : Entry} (leftMem : left ∈ entries) (rightMem : right ∈ entries)
    (same : left.key = right.key) : left = right := by
  have apart : entries.Pairwise fun left right => left.key = right.key → left = right :=
    ascending.imp fun below equal => absurd equal below.ne
  have flipped : entries.Pairwise (flip fun left right => left.key = right.key → left = right) :=
    ascending.imp fun below equal => absurd equal below.ne'
  exact List.Pairwise.forall_of_forall_of_flip (fun _ _ _ => rfl) apart flipped leftMem
    rightMem same

theorem Ascending.entryFor_eq_some {entries : List Entry} (ascending : Ascending entries)
    {key : Key} {entry : Entry} :
    entryFor entries key = some entry ↔ entry ∈ entries ∧ entry.key = key := by
  constructor
  · exact mem_of_entryFor
  · rintro ⟨member, keyed⟩
    cases found : entryFor entries key with
    | none => exact absurd keyed (entryFor_eq_none.mp found entry member)
    | some other =>
        obtain ⟨otherMem, otherKeyed⟩ := mem_of_entryFor found
        rw [ascending.eq_of_key_eq otherMem member (otherKeyed.trans keyed.symm)]

/-- The first of ascending entries has the least key. -/
theorem Ascending.le_of_head? {entries : List Entry} (ascending : Ascending entries) {key : Key}
    (first : entries.head?.map Entry.key = some key) {entry : Entry} (member : entry ∈ entries) :
    key ≤ entry.key := by
  cases entries with
  | nil => cases member
  | cons head rest =>
      rw [List.head?_cons, Option.map_some, Option.some.injEq] at first
      rw [← first]
      rcases List.mem_cons.mp member with rfl | later
      · exact le_rfl
      · exact ((List.pairwise_cons.mp ascending).1 entry later).le

/-- The last of ascending entries has the greatest key. -/
theorem Ascending.le_of_getLast? {entries : List Entry} (ascending : Ascending entries)
    {key : Key} (last : entries.getLast?.map Entry.key = some key) {entry : Entry}
    (member : entry ∈ entries) : entry.key ≤ key := by
  rcases List.eq_nil_or_concat entries with rfl | ⟨front, final, rfl⟩
  · cases member
  · rw [List.concat_eq_append] at ascending last member
    rw [List.getLast?_concat, Option.map_some, Option.some.injEq] at last
    rw [← last]
    rcases List.mem_append.mp member with earlier | same
    · exact ((List.pairwise_append.mp ascending).2.2 entry earlier final
        (List.mem_singleton_self final)).le
    · rw [List.mem_singleton.mp same]

/-- Ascending entries are determined by their members. -/
theorem Ascending.eq_of_mem_iff {left right : List Entry} (leftSorted : Ascending left)
    (rightSorted : Ascending right) (same : ∀ entry, entry ∈ left ↔ entry ∈ right) :
    left = right := by
  have nodup : ∀ {entries : List Entry}, Ascending entries → entries.Nodup :=
    fun ascending => ascending.imp fun below equal => below.ne (congrArg Entry.key equal)
  have perm : left.Perm right :=
    (List.perm_ext_iff_of_nodup (nodup leftSorted) (nodup rightSorted)).mpr same
  refine perm.eq_of_pairwise (fun first second _ _ below above => ?_) leftSorted rightSorted
  exact absurd below (lt_asymm above)

/-- The `StorageError` variants that the modelled functions construct. -/
inductive StorageError where
  | io
  | compression (message : String)
  | decompression (message : String)
  | checksumMismatch (expected actual : UInt32)
  | invalidKeySize (size maxSize : Nat)
  | invalidValueSize (size maxSize : Nat)
  | corruption (message : String)
  | config (message : String)
  | readOnly
  | closed
  | invalidOperation (message : String)
  deriving DecidableEq, Repr

/-- Why a call did not return `Ok`: it returned `Err`, or it panicked (overflow
of checked arithmetic, a slice or allocation out of range).  A panic unwinds
through every `?` and through every handler of an `Err`. -/
inductive Fault where
  | error (error : StorageError)
  | panic
  deriving DecidableEq, Repr

/-- The crate's `Result<T>`, with panics made explicit. -/
abbrev Result (α : Type) := Except Fault α

@[simp] theorem Result.ok_bind {α β : Type} (value : α) (next : α → Result β) :
    ((.ok value : Result α) >>= next) = next value := rfl

@[simp] theorem Result.error_bind {α β : Type} (fault : Fault) (next : α → Result β) :
    ((.error fault : Result α) >>= next) = .error fault := rfl

theorem Result.bind_eq_ok {α β : Type} {result : Result α} {next : α → Result β}
    {value : β} :
    (result >>= next) = .ok value ↔
      ∃ middle, result = .ok middle ∧ next middle = .ok value := by
  cases result <;> simp [bind, Except.bind]

theorem Result.bind_eq_error {α β : Type} {result : Result α} {next : α → Result β}
    {fault : Fault} :
    (result >>= next) = .error fault ↔
      result = .error fault ∨ ∃ middle, result = .ok middle ∧ next middle = .error fault := by
  cases result <;> simp [bind, Except.bind]

/-- What each step of a loop keeps holds after a loop that returned `Ok`. -/
theorem Result.foldlM_invariant {α β : Type} {step : β → α → Result β} {invariant : β → Prop}
    (preserved : ∀ state item next, invariant state → step state item = .ok next →
      invariant next) {items : List α} {state reached : β} (initially : invariant state)
    (ran : items.foldlM step state = .ok reached) : invariant reached := by
  induction items generalizing state with
  | nil =>
      cases ran
      exact initially
  | cons item items ih =>
      rw [List.foldlM_cons] at ran
      obtain ⟨next, stepped, rest⟩ := Result.bind_eq_ok.mp ran
      exact ih (preserved state item next initially stepped) rest

/-- What each step of a loop keeps, for the items of the loop, holds after a loop that
returned `Ok`. -/
theorem Result.foldlM_invariant_of_mem {α β : Type} {step : β → α → Result β}
    {invariant : β → Prop} {items : List α}
    (preserved : ∀ state, ∀ item ∈ items, ∀ next, invariant state → step state item = .ok next →
      invariant next) {state reached : β} (initially : invariant state)
    (ran : items.foldlM step state = .ok reached) : invariant reached := by
  induction items generalizing state with
  | nil =>
      cases ran
      exact initially
  | cons item items ih =>
      rw [List.foldlM_cons] at ran
      obtain ⟨next, stepped, rest⟩ := Result.bind_eq_ok.mp ran
      have kept := preserved state item List.mem_cons_self next initially stepped
      exact ih (fun state other member => preserved state other (List.mem_cons_of_mem _ member))
        kept rest

/-- A counter below its maximum grows with `fetch_add`. -/
theorem lt_add_one_of_room {counter : SequenceNumber} (room : counter.toNat + 1 < wordSize) :
    counter < counter + 1 := by
  have kept : (counter + 1).toNat = counter.toNat + 1 := by
    rw [UInt64.toNat_add]
    exact Nat.mod_eq_of_lt room
  rw [UInt64.lt_iff_toNat_lt, kept]
  exact Nat.lt_succ_self _

/-- `a + b` on `usize` or `u64`, which panics on overflow. -/
def checkedAdd (a b : Nat) : Result Nat :=
  if a + b < wordSize then .ok (a + b) else .error .panic

/-- `a * b` on `usize`, which panics on overflow. -/
def checkedMul (a b : Nat) : Result Nat :=
  if a * b < wordSize then .ok (a * b) else .error .panic

theorem checkedAdd_eq_ok {a b c : Nat} :
    checkedAdd a b = .ok c ↔ a + b < wordSize ∧ a + b = c := by
  unfold checkedAdd
  split <;> simp_all

theorem checkedAdd_eq_error {a b : Nat} {fault : Fault}
    (failed : checkedAdd a b = .error fault) : fault = .panic := by
  unfold checkedAdd at failed
  split at failed
  · cases failed
  · exact (Except.error.inj failed).symm

theorem checkedMul_eq_ok {a b c : Nat} :
    checkedMul a b = .ok c ↔ a * b < wordSize ∧ a * b = c := by
  unfold checkedMul
  split <;> simp_all

end JustDb
