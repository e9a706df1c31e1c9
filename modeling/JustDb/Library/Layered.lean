import Mathlib.Order.Basic
import Mathlib.Data.List.Basic

/-!
# Lookup through a stack of layers

A layered store answers a query from the first layer that holds the key.  Each
layer answers with a value, with nothing, or with a failure, and a failure ends
the search.  Answers form a monoid under `orElse`, so a stack may be cut,
regrouped and relabelled without changing what it answers.

For layers that never fail the search is `List.findSome?`, and when newer layers
carry larger ranks the value found is the one of maximal rank.
-/

namespace Layered

universe u v

variable {ε : Type u} {α : Type v} {κ ρ : Type*}

/-- What a layer says about one key. -/
abbrev Answer (ε : Type u) (α : Type v) := Except ε (Option α)

/-- Ask the second layer only when the first one holds nothing. -/
def orElse : Answer ε α → Answer ε α → Answer ε α
  | .ok none, other => other
  | answer, _ => answer

/-- The answer of a stack of layers, searched from its head. -/
def first (answers : List (Answer ε α)) : Answer ε α :=
  answers.foldr orElse (.ok none)

@[simp] theorem none_orElse (answer : Answer ε α) :
    orElse (.ok none) answer = answer := rfl

@[simp] theorem some_orElse (value : α) (answer : Answer ε α) :
    orElse (.ok (some value)) answer = .ok (some value) := rfl

@[simp] theorem error_orElse (failure : ε) (answer : Answer ε α) :
    orElse (.error failure) answer = .error failure := rfl

@[simp] theorem orElse_none (answer : Answer ε α) :
    orElse answer (.ok none) = answer := by
  match answer with
  | .ok none | .ok (some _) | .error _ => rfl

/-- Where nothing fails, answers combine as options do. -/
theorem orElse_ok_ok (top bottom : Option α) :
    orElse (.ok top : Answer ε α) (.ok bottom) = .ok (top.or bottom) := by
  cases top <;> rfl

theorem orElse_assoc (top middle bottom : Answer ε α) :
    orElse (orElse top middle) bottom = orElse top (orElse middle bottom) := by
  match top with
  | .ok none | .ok (some _) | .error _ => rfl

@[simp] theorem first_nil : first ([] : List (Answer ε α)) = .ok none := rfl

@[simp] theorem first_cons (answer : Answer ε α) (rest : List (Answer ε α)) :
    first (answer :: rest) = orElse answer (first rest) := rfl

@[simp] theorem first_append (top bottom : List (Answer ε α)) :
    first (top ++ bottom) = orElse (first top) (first bottom) := by
  induction top with
  | nil => rfl
  | cons answer top ih => simp [ih, orElse_assoc]

/-- What a stack finds, one of its layers holds. -/
theorem mem_of_first {answers : List (Answer ε α)} {value : α}
    (found : first answers = .ok (some value)) : .ok (some value) ∈ answers := by
  induction answers with
  | nil => cases found
  | cons answer answers ih =>
      match answer with
      | .ok none => exact List.mem_cons_of_mem _ (ih found)
      | .ok (some held) =>
          rw [first_cons, some_orElse] at found
          rw [found]
          exact List.mem_cons_self
      | .error failure => cases found

/-- A search fails as one of its layers does. -/
theorem mem_of_first_error {answers : List (Answer ε α)} {failure : ε}
    (failed : first answers = .error failure) : .error failure ∈ answers := by
  induction answers with
  | nil => cases failed
  | cons answer answers ih =>
      match answer with
      | .ok none => exact List.mem_cons_of_mem _ (ih failed)
      | .ok (some _) => cases failed
      | .error held =>
          rw [first_cons, error_orElse] at failed
          rw [failed]
          exact List.mem_cons_self

/-- Layers that never fail are searched by `List.findSome?`. -/
theorem first_map_of_ok {β : Type*} {items : List β} {answer : β → Answer ε α}
    {held : β → Option α} (answers : ∀ item ∈ items, answer item = .ok (held item)) :
    first (items.map answer) = .ok (items.findSome? held) := by
  induction items with
  | nil => rfl
  | cons item items ih =>
      have rest := ih fun other member => answers other (List.mem_cons_of_mem _ member)
      rw [List.map_cons, first_cons, rest, answers item List.mem_cons_self, orElse_ok_ok,
        List.findSome?_cons]
      cases held item <;> rfl

/-- Only what a stack holds matters to a search. -/
theorem findSome?_congr {β : Type*} {items : List β} {held kept : β → Option α}
    (same : ∀ item ∈ items, held item = kept item) :
    items.findSome? held = items.findSome? kept := by
  induction items with
  | nil => rfl
  | cons item items ih =>
      rw [List.findSome?_cons, List.findSome?_cons, same item List.mem_cons_self,
        ih fun other member => same other (List.mem_cons_of_mem _ member)]

/-- Searching stacks one after another is searching them joined. -/
theorem findSome?_flatMap {β γ : Type*} (items : List β) (stack : β → List γ)
    (held : γ → Option α) :
    (items.flatMap stack).findSome? held =
      items.findSome? fun item => (stack item).findSome? held := by
  induction items with
  | nil => rfl
  | cons item items ih =>
      rw [List.flatMap_cons, List.findSome?_append, ih, List.findSome?_cons]
      cases (stack item).findSome? held <;> rfl

/-! ## Ranked layers -/

/-- Every version in a newer layer outranks the versions of the same key in the
layers below it. -/
def Descending [LT ρ] (rank : α → ρ) (layers : List (κ → Option α)) : Prop :=
  layers.Pairwise fun newer older => ∀ key new old,
    newer key = some new → older key = some old → rank old < rank new

/-- The versions of a key, newest layer first. -/
def versions (layers : List (κ → Option α)) (key : κ) : List α :=
  layers.filterMap fun layer => layer key

@[simp] theorem versions_append (top bottom : List (κ → Option α)) (key : κ) :
    versions (top ++ bottom) key = versions top key ++ versions bottom key :=
  List.filterMap_append

theorem mem_versions {layers : List (κ → Option α)} {key : κ} {value : α} :
    value ∈ versions layers key ↔ ∃ layer ∈ layers, layer key = some value := by
  simp [versions]

/-- A search returns the head of the version list. -/
theorem findSome?_eq_head? (layers : List (κ → Option α)) (key : κ) :
    layers.findSome? (fun layer => layer key) = (versions layers key).head? :=
  List.head?_filterMap.symm

theorem Descending.versions_pairwise [LT ρ] {rank : α → ρ}
    {layers : List (κ → Option α)} (descending : Descending rank layers) (key : κ) :
    (versions layers key).Pairwise fun new old => rank old < rank new := by
  refine List.pairwise_filterMap.mpr (descending.imp ?_)
  intro newer older outranks new newHeld old oldHeld
  exact outranks key new old newHeld oldHeld

/-- Versions of one key in ranked layers differ in rank. -/
theorem Descending.eq_of_rank_eq [Preorder ρ] {rank : α → ρ}
    {layers : List (κ → Option α)} (descending : Descending rank layers) {key : κ}
    {left right : α} (leftMem : left ∈ versions layers key)
    (rightMem : right ∈ versions layers key) (same : rank left = rank right) :
    left = right := by
  have sorted := descending.versions_pairwise key
  have apart : (versions layers key).Pairwise fun left right =>
      rank left = rank right → left = right :=
    sorted.imp fun below equal => absurd equal below.ne'
  have flipped : (versions layers key).Pairwise (flip fun left right =>
      rank left = rank right → left = right) :=
    sorted.imp fun below equal => absurd equal below.ne
  exact List.Pairwise.forall_of_forall_of_flip (fun _ _ _ => rfl) apart flipped leftMem
    rightMem same

/-- In ranked layers the value found is exactly the version of maximal rank. -/
theorem Descending.findSome?_eq_some [Preorder ρ] {rank : α → ρ}
    {layers : List (κ → Option α)} (descending : Descending rank layers)
    (key : κ) (value : α) :
    layers.findSome? (fun layer => layer key) = some value ↔
      value ∈ versions layers key ∧
        ∀ other ∈ versions layers key, other = value ∨ rank other < rank value := by
  rw [findSome?_eq_head?]
  have sorted := descending.versions_pairwise key
  cases listed : versions layers key with
  | nil => simp
  | cons newest older =>
      rw [listed] at sorted
      have below := (List.pairwise_cons.mp sorted).1
      constructor
      · intro found
        cases Option.some.inj found
        refine ⟨List.mem_cons_self, fun other member => ?_⟩
        rcases List.mem_cons.mp member with equal | member
        · exact .inl equal
        · exact .inr (below other member)
      · rintro ⟨member, maximal⟩
        rcases List.mem_cons.mp member with equal | member
        · rw [equal, List.head?_cons]
        · rcases maximal newest List.mem_cons_self with equal | lower
          · rw [equal, List.head?_cons]
          · exact absurd (lower.trans (below value member)) (lt_irrefl _)

end Layered
