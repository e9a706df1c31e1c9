/-!
# Binary search for a cut

`cut` bisects an interval of positions on which a test is false up to some
position and true from there on, and returns that position.
-/

namespace BinarySearch

/-- Bisect `[left, right)`; each turn at least halves it, so `right - left` turns
are enough. -/
def cut (test : Nat → Bool) : (fuel left right : Nat) → Nat
  | 0, left, _ => left
  | fuel + 1, left, right =>
      if left < right then
        let mid := left + (right - left) / 2
        if test mid then cut test fuel left mid else cut test fuel (mid + 1) right
      else left

/-- Where the test has come to hold, it goes on holding. -/
def Rising (test : Nat → Bool) (bound : Nat) : Prop :=
  ∀ i j, i ≤ j → j < bound → test i = true → test j = true

/-- A position that splits the interval into where the test fails and where it
holds. -/
structure IsCut (test : Nat → Bool) (left right position : Nat) : Prop where
  lower : left ≤ position
  upper : position ≤ right
  before : ∀ i, left ≤ i → i < position → test i = false
  after : ∀ i, position ≤ i → i < right → test i = true

/-- The search returns the cut of a rising test. -/
theorem isCut_cut {test : Nat → Bool} {bound fuel left right : Nat}
    (rising : Rising test bound) (within : right ≤ bound) (ordered : left ≤ right)
    (enough : right - left ≤ fuel) : IsCut test left right (cut test fuel left right) := by
  induction fuel generalizing left right with
  | zero =>
      have same : right = left := by omega
      rw [cut, same]
      exact ⟨Nat.le_refl _, Nat.le_refl _, fun i above below => by omega,
        fun i above below => by omega⟩
  | succ fuel ih =>
      rw [cut]
      split
      next nonempty =>
        have inside : left + (right - left) / 2 < right := by omega
        dsimp only
        split
        next holds =>
          -- the cut is at the middle or before it
          have found : IsCut test left (left + (right - left) / 2) _ :=
            ih (by omega) (by omega) (by omega)
          refine ⟨found.lower, by have := found.upper; omega, found.before, fun i above below => ?_⟩
          by_cases early : i < left + (right - left) / 2
          · exact found.after i above early
          · exact rising _ i (by omega) (by omega) holds
        next fails =>
          -- the test fails up to the middle, so the cut is behind it
          have found : IsCut test (left + (right - left) / 2 + 1) right _ :=
            ih within (by omega) (by omega)
          refine ⟨by have := found.lower; omega, found.upper, fun i above below => ?_, found.after⟩
          by_cases late : left + (right - left) / 2 + 1 ≤ i
          · exact found.before i late below
          · cases held : test i with
            | false => rfl
            | true => exact absurd (rising i _ (by omega) (by omega) held) fails
      next empty =>
        exact ⟨Nat.le_refl _, ordered, fun i above below => by omega, fun i above below => by omega⟩

end BinarySearch
