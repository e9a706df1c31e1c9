import Mathlib.Algebra.Order.BigOperators.Group.List
import Mathlib.Algebra.Ring.Nat

/-!
# Cutting a list into pieces of bounded weight

A list is cut greedily: an item joins the piece in hand unless that piece has items
and would grow past a limit.  The pieces are the list again, in order; none is empty,
and only an item that is too heavy by itself makes a piece past the limit.
-/

namespace Pieces

variable {α : Type} (weight : α → Nat) (limit : Nat)

/-- The weight of a piece. -/
def total (piece : List α) : Nat :=
  (piece.map weight).sum

theorem total_cons (item : α) (piece : List α) :
    total weight (item :: piece) = weight item + total weight piece := by
  rw [total, List.map_cons, List.sum_cons]
  rfl

theorem total_append (first second : List α) :
    total weight (first ++ second) = total weight first + total weight second := by
  rw [total, List.map_append, List.sum_append]
  rfl

theorem total_append_singleton (piece : List α) (item : α) :
    total weight (piece ++ [item]) = total weight piece + weight item :=
  total_append weight piece [item]

theorem total_singleton (item : α) : total weight [item] = weight item := by
  rw [total, List.map_singleton, List.sum_singleton]

/-- The pieces of the items still to come, behind the piece in hand. -/
def cut : (items current : List α) → List (List α)
  | [], current => if current.isEmpty then [] else [current]
  | item :: items, current =>
      if total weight current + weight item > limit ∧ ¬current.isEmpty then
        current :: cut items [item]
      else
        cut items (current ++ [item])

/-- A piece that weighs no more than the limit, or is a single item. -/
def Fits (piece : List α) : Prop :=
  piece.length ≤ 1 ∨ total weight piece ≤ limit

variable {weight limit} {items current : List α}

theorem flatten_cut : (cut weight limit items current).flatten = current ++ items := by
  induction items generalizing current with
  | nil =>
      rw [cut]
      split
      next empty => simpa using empty
      next => simp
  | cons item items ih =>
      rw [cut]
      split
      · rw [List.flatten_cons, ih, List.singleton_append]
      · rw [ih, List.append_assoc, List.singleton_append]

/-- What holds of a single item, and is kept where an item joins a piece in which it fits,
holds of every piece; and no piece is empty. -/
theorem of_mem_cut {inv : List α → Prop} (single : ∀ item, inv [item])
    (grow : ∀ current item, inv current →
      (current = [] ∨ total weight current + weight item ≤ limit) → inv (current ++ [item]))
    (initially : inv current) {piece : List α} (member : piece ∈ cut weight limit items current) :
    inv piece ∧ piece ≠ [] := by
  induction items generalizing current with
  | nil =>
      rw [cut] at member
      split at member
      · cases member
      next pending =>
        rw [List.mem_singleton.mp member]
        exact ⟨initially, by simpa using pending⟩
  | cons item items ih =>
      rw [cut] at member
      split at member
      next full =>
        rcases List.mem_cons.mp member with same | later
        · rw [same]
          exact ⟨initially, by simpa using full.2⟩
        · exact ih (single item) later
      next room =>
        refine ih (grow current item initially ?_) member
        by_cases empty : current = []
        · exact .inl empty
        · exact .inr (not_lt.mp fun heavy => room ⟨heavy, by simpa using empty⟩)

theorem ne_nil_of_mem_cut {piece : List α} (member : piece ∈ cut weight limit items current) :
    piece ≠ [] := by
  have kept := @of_mem_cut α weight limit items current (fun _ => True) (fun _ => trivial)
    (fun _ _ _ _ => trivial) trivial piece member
  exact kept.2

theorem fits_of_mem_cut (fits : Fits weight limit current) {piece : List α}
    (member : piece ∈ cut weight limit items current) : Fits weight limit piece := by
  have grow : ∀ current item, Fits weight limit current →
      (current = [] ∨ total weight current + weight item ≤ limit) →
      Fits weight limit (current ++ [item]) := by
    rintro current item - (rfl | small)
    · exact .inl le_rfl
    · apply Or.inr
      rwa [total_append_singleton]
  exact (of_mem_cut (fun _ => .inl le_rfl) grow fits member).1

end Pieces
