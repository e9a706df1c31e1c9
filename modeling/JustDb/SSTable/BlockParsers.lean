import JustDb.SSTable.Reader

/-!
# The three parsers of a block

The grammar of a block's records is written out three times: for the iterator, which
reads every record, for point lookups, which read one, and for range reads, which read
the records in the range.  The records that are not read are skipped.  Skipping a
record moves the cursor as reading it does, on every input, so the parsers stay
abreast record by record.
-/

namespace JustDb

open Stateful Deserializer Parsing

theorem skipValue_abreast : Abreast skipValue readValue := by
  apply Abreast.same_bind readU8
  intro hasValue
  split
  · apply Abreast.same_bind readU32
    intro valueLen
    exact (skip_abreast valueLen.toNat).bind_pure
  · exact fun _ _ => ⟨fun ⟨_, ran⟩ => ⟨none, by cases ran; rfl⟩,
      fun ⟨_, ran⟩ => ⟨(), by cases ran; rfl⟩⟩

/-- Sixteen bytes are skipped where two words of eight are read. -/
theorem skip_abreast_stamps : Abreast (skip 16) (do
    let _ ← readU64
    readU64) := by
  refine (skip_abreast_words 8 8).trans ?_
  exact (Abreast.refl (readWord 8)).bind_pure.bind fun _ _ => (Abreast.refl (readWord 8)).bind_pure

/-- Skipping the rest of a record moves like reading it. -/
theorem skipVersion_abreast (key : Key) : Abreast skipVersion (readVersion key) := by
  refine skipValue_abreast.bind fun _ value => ?_
  intro state next
  refine (skip_abreast_stamps state next).trans ?_
  simp only [bind_eq_ok]
  constructor
  · rintro ⟨sequence, timestamp, middle, first, second⟩
    exact ⟨{ key, value, timestamp, sequence }, timestamp, middle, first, sequence, next,
      second, rfl⟩
  · rintro ⟨_, timestamp, middle, first, sequence, reached, second, done⟩
    cases done
    exact ⟨sequence, timestamp, middle, first, second⟩

/-- A record carries the key that was read in front of it. -/
theorem key_of_readVersion {key : Key} {entry : Entry} {state next : Deserializer}
    (ran : readVersion key state = .ok entry next) : entry.key = key := by
  obtain ⟨_, _, _, ran⟩ := bind_eq_ok.mp ran
  obtain ⟨_, _, _, ran⟩ := bind_eq_ok.mp ran
  obtain ⟨_, _, _, ran⟩ := bind_eq_ok.mp ran
  cases ran
  rfl

/-- Reading records one by one. -/
theorem repeated_readEntry_eq_ok {count : Nat} {entries : List Entry}
    {state reached : Deserializer} :
    repeated readEntry (count + 1) state = .ok entries reached ↔
      ∃ key middle entry next rest, readKey state = .ok key middle ∧
        readVersion key middle = .ok entry next ∧
        repeated readEntry count next = .ok rest reached ∧ entries = entry :: rest := by
  simp only [repeated, readEntry, bind_eq_ok]
  constructor
  · rintro ⟨entry, next, ⟨key, middle, keyRan, ran⟩, rest, _, restRan, done⟩
    cases done
    exact ⟨key, middle, entry, next, rest, keyRan, ran, restRan, rfl⟩
  · rintro ⟨key, middle, entry, next, rest, keyRan, ran, restRan, rfl⟩
    exact ⟨entry, next, ⟨key, middle, keyRan, ran⟩, rest, reached, restRan, rfl⟩

/-- The range loop reads what the full loop reads, and keeps the entries in the range. -/
theorem rangeRecords_eq_ok {start stop : Key} {count : Nat} {found : List Entry}
    {state reached : Deserializer} :
    rangeRecords start stop count state = .ok found reached ↔
      ∃ entries, repeated readEntry count state = .ok entries reached ∧
        found = entries.filter fun entry => start ≤ entry.key ∧ entry.key < stop := by
  induction count generalizing state found with
  | zero =>
      constructor
      · intro ran
        cases ran
        exact ⟨[], rfl, rfl⟩
      · rintro ⟨_, ran, rfl⟩
        cases ran
        rfl
  | succ count ih =>
      simp only [repeated_readEntry_eq_ok, rangeRecords, bind_eq_ok]
      constructor
      · rintro ⟨key, middle, keyRan, ran⟩
        split at ran
        next within =>
          simp only [bind_eq_ok] at ran
          obtain ⟨entry, next, versionRan, rest, _, restRan, done⟩ := ran
          cases done
          obtain ⟨entries, allRan, rfl⟩ := ih.mp restRan
          refine ⟨_, ⟨key, middle, entry, next, entries, keyRan, versionRan, allRan, rfl⟩, ?_⟩
          rw [List.filter_cons_of_pos]
          rw [key_of_readVersion versionRan]
          exact decide_eq_true within
        next outside =>
          simp only [bind_eq_ok] at ran
          obtain ⟨_, next, skipped, restRan⟩ := ran
          obtain ⟨entry, versionRan⟩ := (skipVersion_abreast key middle next).mp ⟨_, skipped⟩
          obtain ⟨entries, allRan, rfl⟩ := ih.mp restRan
          refine ⟨_, ⟨key, middle, entry, next, entries, keyRan, versionRan, allRan, rfl⟩, ?_⟩
          rw [List.filter_cons_of_neg]
          rw [key_of_readVersion versionRan]
          simpa using outside
      · rintro ⟨_, ⟨key, middle, entry, next, entries, keyRan, versionRan, allRan, rfl⟩, rfl⟩
        refine ⟨key, middle, keyRan, ?_⟩
        have keyed := key_of_readVersion versionRan
        have rest := ih.mpr ⟨entries, allRan, rfl⟩
        split
        next within =>
          rw [bind_of_ok versionRan, bind_of_ok rest, List.filter_cons_of_pos]
          · rfl
          · rw [keyed]
            exact decide_eq_true within
        next outside =>
          obtain ⟨_, skipped⟩ := (skipVersion_abreast key middle next).mpr ⟨_, versionRan⟩
          rw [bind_of_ok skipped, List.filter_cons_of_neg]
          · exact rest
          · rw [keyed]
            simpa using outside

/-- Where the full loop succeeds, the search finds the first entry of its key. -/
theorem searchRecords_of_repeated (key : Key) {count : Nat} {entries : List Entry}
    {state reached : Deserializer} (ran : repeated readEntry count state = .ok entries reached) :
    ∃ stopped, searchRecords key count state = .ok (entryFor entries key) stopped := by
  induction count generalizing state entries with
  | zero =>
      cases ran
      exact ⟨reached, rfl⟩
  | succ count ih =>
      obtain ⟨found, middle, entry, next, rest, keyRan, versionRan, allRan, rfl⟩ :=
        repeated_readEntry_eq_ok.mp ran
      have keyed := key_of_readVersion versionRan
      rw [searchRecords, bind_of_ok keyRan]
      split
      next same =>
        rw [bind_of_ok versionRan, entryFor,
          List.find?_cons_of_pos (by simpa using keyed.trans same)]
        exact ⟨next, rfl⟩
      next differ =>
        obtain ⟨_, skipped⟩ := (skipVersion_abreast found middle next).mpr ⟨_, versionRan⟩
        rw [bind_of_ok skipped, entryFor, List.find?_cons_of_neg (by simpa [keyed] using differ)]
        exact ih allRan

/-- A slice decodes to a value exactly when the decoder returns it from the start. -/
theorem decodeFrom_eq_ok {α : Type} {data : Bytes} {decoder : Decode α} {value : α} :
    decodeFrom data decoder = .ok value ↔ ∃ reached, decoder { data } = .ok value reached := by
  rw [decodeFrom]
  cases decoder { data } <;> simp

/-- On every byte string the range parser succeeds exactly when the full parser does,
and returns its entries in the range; where the full parser succeeds, the search
returns its first entry of the key. -/
theorem blockParsers_agree (blockData : Bytes) (start stop key : Key) :
    (∀ found, getEntriesInRangeFromBlock blockData start stop = .ok found ↔
      ∃ entries, parseBlock blockData = .ok entries ∧
        found = entries.filter fun entry => start ≤ entry.key ∧ entry.key < stop) ∧
    ∀ entries, parseBlock blockData = .ok entries →
      searchInBlock blockData key = .ok (entryFor entries key) := by
  simp only [getEntriesInRangeFromBlock, parseBlock, searchInBlock, decodeFrom_eq_ok, bind_eq_ok,
    rangeRecords_eq_ok]
  constructor
  · intro found
    constructor
    · rintro ⟨reached, count, middle, countRan, entries, ran, filtered⟩
      exact ⟨entries, ⟨reached, count, middle, countRan, ran⟩, filtered⟩
    · rintro ⟨entries, ⟨reached, count, middle, countRan, ran⟩, filtered⟩
      exact ⟨reached, count, middle, countRan, entries, ran, filtered⟩
  · rintro entries ⟨reached, count, middle, countRan, ran⟩
    obtain ⟨stopped, found⟩ := searchRecords_of_repeated key ran
    exact ⟨stopped, count, middle, countRan, found⟩

end JustDb
