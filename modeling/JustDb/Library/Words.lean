import Mathlib.Data.List.DropRight

/-!
# Words between separators

A text is split at its separators, and the pieces that are not empty are its words.
`Spaced` says how words are laid out in a text; it holds of exactly one list of words,
the one that splitting finds.
-/

namespace Words

variable {α : Type*} (separator : α → Bool)

/-- The pieces between the separators, the empty ones included. -/
def split : List α → List (List α)
  | [] => [[]]
  | item :: items =>
      if separator item then
        [] :: split items
      else
        match split items with
        | [] => [[item]]
        | piece :: pieces => (item :: piece) :: pieces

/-- The pieces that are not empty. -/
def words (text : List α) : List (List α) :=
  (split separator text).filter fun piece => !piece.isEmpty

/-- A text without the separators at its two ends. -/
def trim (text : List α) : List α :=
  (text.dropWhile separator).rdropWhile separator

/-- Separators only. -/
def Blank (gap : List α) : Prop :=
  ∀ item ∈ gap, separator item = true

/-- Some items, and no separator. -/
def Word (word : List α) : Prop :=
  word ≠ [] ∧ ∀ item ∈ word, separator item = false

/-- The words of a text, with gaps before, between and behind them; only the first and
the last gap may be empty. -/
inductive Spaced : List (List α) → List α → Prop
  | blank {gap : List α} (blank : Blank separator gap) : Spaced [] gap
  | last {gap word rest : List α} (before : Blank separator gap) (word_ : Word separator word)
      (behind : Blank separator rest) : Spaced [word] (gap ++ word ++ rest)
  | cons {gap word rest : List α} {words : List (List α)} {item : α}
      (before : Blank separator gap) (word_ : Word separator word)
      (separates : separator item = true) (spaced : Spaced words rest) :
      Spaced (word :: words) (gap ++ word ++ item :: rest)

variable {separator}

theorem split_ne_nil (text : List α) : split separator text ≠ [] := by
  cases text with
  | nil => exact List.cons_ne_nil _ _
  | cons item items =>
      rw [split]
      split
      · exact List.cons_ne_nil _ _
      · split <;> exact List.cons_ne_nil _ _

/-- A separator ends a piece. -/
theorem split_append {item : α} (separates : separator item = true) (front back : List α) :
    split separator (front ++ item :: back) = split separator front ++ split separator back := by
  induction front with
  | nil => simp [split, separates]
  | cons head front ih =>
      obtain ⟨piece, pieces, pieced⟩ := List.exists_cons_of_ne_nil (@split_ne_nil α separator front)
      rw [List.cons_append, split, split, ih, pieced]
      split <;> rfl

theorem split_of_none {text : List α} (none : ∀ item ∈ text, separator item = false) :
    split separator text = [text] := by
  induction text with
  | nil => rfl
  | cons item items ih =>
      rw [split, none item List.mem_cons_self, ih fun other member =>
        none other (List.mem_cons_of_mem _ member)]
      rfl

theorem words_append {item : α} (separates : separator item = true) (front back : List α) :
    words separator (front ++ item :: back) = words separator front ++ words separator back := by
  rw [words, split_append separates, List.filter_append]
  rfl

theorem words_of_word {word : List α} (word_ : Word separator word) :
    words separator word = [word] := by
  rw [words, split_of_none word_.2]
  simp [word_.1]

theorem words_of_blank {gap : List α} (blank : Blank separator gap) : words separator gap = [] := by
  induction gap with
  | nil => rfl
  | cons item gap ih =>
      have rest := ih fun other member => blank other (List.mem_cons_of_mem _ member)
      have appended := words_append (blank item List.mem_cons_self) [] gap
      rwa [List.nil_append, rest] at appended

theorem words_blank_append {gap : List α} (blank : Blank separator gap) (text : List α) :
    words separator (gap ++ text) = words separator text := by
  induction gap with
  | nil => rfl
  | cons item gap ih =>
      have rest := ih fun other member => blank other (List.mem_cons_of_mem _ member)
      have appended := words_append (blank item List.mem_cons_self) [] (gap ++ text)
      rwa [List.nil_append, rest] at appended

theorem words_append_blank {gap : List α} (blank : Blank separator gap) (text : List α) :
    words separator (text ++ gap) = words separator text := by
  cases gap with
  | nil => rw [List.append_nil]
  | cons item gap =>
      rw [words_append (blank item List.mem_cons_self),
        words_of_blank fun other member => blank other (List.mem_cons_of_mem _ member),
        List.append_nil]

theorem blank_takeWhile (text : List α) : Blank separator (text.takeWhile separator) :=
  fun _ => List.mem_takeWhile_imp

/-- Trimming a text leaves its words. -/
theorem words_trim (text : List α) : words separator (trim separator text) =
    words separator text := by
  have behind : Blank separator ((text.dropWhile separator).rtakeWhile separator) :=
    fun _ => List.mem_rtakeWhile_imp
  rw [trim, ← words_append_blank behind, List.rdropWhile_append_rtakeWhile,
    ← words_blank_append (blank_takeWhile text), List.takeWhile_append_dropWhile]

theorem Spaced.words_eq {found : List (List α)} {text : List α}
    (spaced : Spaced separator found text) : words separator text = found := by
  induction spaced with
  | blank blank => exact words_of_blank blank
  | last before word_ behind =>
      rw [words_append_blank behind, words_blank_append before, words_of_word word_]
  | cons before word_ separates _ ih =>
      rw [words_append separates, words_blank_append before, words_of_word word_, ih]
      rfl

/-- One more separator in front widens the first gap. -/
theorem Spaced.separator_cons {found : List (List α)} {text : List α} {item : α}
    (spaced : Spaced separator found text) (separates : separator item = true) :
    Spaced separator found (item :: text) := by
  have wider : ∀ {gap : List α}, Blank separator gap → Blank separator (item :: gap) :=
    fun blank => List.forall_mem_cons.mpr ⟨separates, blank⟩
  cases spaced with
  | blank blank => exact .blank (wider blank)
  | last before word_ behind => exact .last (wider before) word_ behind
  | cons before word_ next spaced => exact .cons (wider before) word_ next spaced

/-- One more item in front lengthens the first word, or is a word of its own. -/
theorem Spaced.item_cons {found : List (List α)} {text : List α} {item : α}
    (spaced : Spaced separator found text) (plain : separator item = false) :
    ∃ longer, Spaced separator longer (item :: text) := by
  have nothing : Blank separator ([] : List α) := by simp [Blank]
  have alone : Word separator [item] := ⟨List.cons_ne_nil _ _, by simpa using plain⟩
  have longer : ∀ {word : List α}, Word separator word → Word separator (item :: word) :=
    fun word_ => ⟨List.cons_ne_nil _ _, List.forall_mem_cons.mpr ⟨plain, word_.2⟩⟩
  cases spaced with
  | blank blank => exact ⟨_, .last nothing alone blank⟩
  | @last gap word rest before word_ behind =>
      cases gap with
      | nil => exact ⟨_, .last nothing (longer word_) behind⟩
      | cons first gap =>
          obtain ⟨separates, blank⟩ := List.forall_mem_cons.mp before
          exact ⟨_, .cons nothing alone separates (.last blank word_ behind)⟩
  | @cons gap word rest words next before word_ separates spaced =>
      cases gap with
      | nil => exact ⟨_, .cons nothing (longer word_) separates spaced⟩
      | cons first gap =>
          obtain ⟨separated, blank⟩ := List.forall_mem_cons.mp before
          exact ⟨_, .cons nothing alone separated (.cons blank word_ separates spaced)⟩

theorem exists_spaced (text : List α) : ∃ found, Spaced separator found text := by
  induction text with
  | nil => exact ⟨[], .blank (by simp [Blank])⟩
  | cons item text ih =>
      obtain ⟨found, spaced⟩ := ih
      cases kind : separator item with
      | true => exact ⟨found, spaced.separator_cons kind⟩
      | false => exact spaced.item_cons kind

/-- Splitting finds the words that a text is laid out as. -/
theorem words_eq_iff {text : List α} {found : List (List α)} :
    words separator text = found ↔ Spaced separator found text := by
  constructor
  · rintro rfl
    obtain ⟨found, spaced⟩ := @exists_spaced α separator text
    rwa [spaced.words_eq]
  · exact Spaced.words_eq

end Words
