import JustDb.Library.Runs
import Mathlib.Data.List.Sort
import Mathlib.Data.List.Nodup
import Mathlib.Data.List.Perm.Lattice
import Mathlib.Data.List.Range
import Mathlib.Logic.Function.Basic

/-!
# Items carried by hand

Items come into being one after another and get numbers in that order.  Carriers bring
each of them to a queue and, from its head, to a store, or lose it on the way.  At most
one item is in a carrier's hand.

However the carriers take turns, an item is at one place at a time.  Where none overtakes
another, the store and the queue list the items in the order of their numbers.
-/

namespace Conveyor

variable {Item : Type*}

/-- An item with its number. -/
abbrev Load (Item : Type*) := Nat × Item

/-- The items that ever were, and where they are. -/
structure Belt (Item : Type*) where
  archive : List Item
  hand : Nat → Option (Load Item)
  queue : List (Load Item)
  stored : List (Load Item)
  lost : List (Load Item)

/-- What a carrier does.  A carrier takes up an item or one from the queue with an empty
hand only, and has an item in it otherwise. -/
inductive Event (Item : Type*) where
  | take (carrier : Nat) (item : Item)
  | push (carrier : Nat)
  | pull (carrier : Nat)
  | store (carrier : Nat)
  | lose (carrier : Nat)

/-- Whether an event loses an item. -/
def Event.loses : Event Item → Bool
  | .lose _ => true
  | .take _ _ | .push _ | .pull _ | .store _ => false

/-- Where a load can be. -/
inductive Place where
  | hand (carrier : Nat)
  | queue
  | stored
  | lost
  deriving DecidableEq

namespace Belt

/-- What a carrier has in hand from now on. -/
def give (belt : Belt Item) (carrier : Nat) (load : Option (Load Item)) : Belt Item :=
  { belt with hand := Function.update belt.hand carrier load }

@[simp] theorem archive_give (belt : Belt Item) (carrier : Nat) (load : Option (Load Item)) :
    (belt.give carrier load).archive = belt.archive := rfl

@[simp] theorem hand_give (belt : Belt Item) (carrier : Nat) (load : Option (Load Item)) :
    (belt.give carrier load).hand = Function.update belt.hand carrier load := rfl

@[simp] theorem queue_give (belt : Belt Item) (carrier : Nat) (load : Option (Load Item)) :
    (belt.give carrier load).queue = belt.queue := rfl

@[simp] theorem stored_give (belt : Belt Item) (carrier : Nat) (load : Option (Load Item)) :
    (belt.give carrier load).stored = belt.stored := rfl

@[simp] theorem lost_give (belt : Belt Item) (carrier : Nat) (load : Option (Load Item)) :
    (belt.give carrier load).lost = belt.lost := rfl

def step (belt : Belt Item) : Event Item → Belt Item
  | .take carrier item =>
      match belt.hand carrier with
      | none => { belt.give carrier (some (belt.archive.length, item)) with
          archive := belt.archive ++ [item] }
      | some _ => belt
  | .push carrier =>
      match belt.hand carrier with
      | some load => { belt.give carrier none with queue := belt.queue ++ [load] }
      | none => belt
  | .pull carrier =>
      match belt.hand carrier, belt.queue with
      | none, load :: rest => { belt.give carrier (some load) with queue := rest }
      | _, _ => belt
  | .store carrier =>
      match belt.hand carrier with
      | some load => { belt.give carrier none with stored := belt.stored ++ [load] }
      | none => belt
  | .lose carrier =>
      match belt.hand carrier with
      | some load => { belt.give carrier none with lost := belt.lost ++ [load] }
      | none => belt

section Step

variable {belt : Belt Item} {carrier : Nat} {load : Load Item}

theorem step_take (empty : belt.hand carrier = none) (item : Item) :
    belt.step (.take carrier item) =
      { belt.give carrier (some (belt.archive.length, item)) with
        archive := belt.archive ++ [item] } := by
  simp only [step, empty]

theorem step_push (holding : belt.hand carrier = some load) :
    belt.step (.push carrier) =
      { belt.give carrier none with queue := belt.queue ++ [load] } := by
  simp only [step, holding]

theorem step_pull (empty : belt.hand carrier = none) {rest : List (Load Item)}
    (queued : belt.queue = load :: rest) :
    belt.step (.pull carrier) = { belt.give carrier (some load) with queue := rest } := by
  simp only [step, empty, queued]

theorem step_store (holding : belt.hand carrier = some load) :
    belt.step (.store carrier) =
      { belt.give carrier none with stored := belt.stored ++ [load] } := by
  simp only [step, holding]

theorem step_lose (holding : belt.hand carrier = some load) :
    belt.step (.lose carrier) =
      { belt.give carrier none with lost := belt.lost ++ [load] } := by
  simp only [step, holding]

end Step

@[simp] theorem archive_push (belt : Belt Item) (carrier : Nat) :
    (belt.step (.push carrier)).archive = belt.archive := by
  cases holding : belt.hand carrier <;> simp [step, holding]

@[simp] theorem archive_pull (belt : Belt Item) (carrier : Nat) :
    (belt.step (.pull carrier)).archive = belt.archive := by
  cases holding : belt.hand carrier <;> cases queued : belt.queue <;>
    simp [step, holding, queued]

@[simp] theorem archive_store (belt : Belt Item) (carrier : Nat) :
    (belt.step (.store carrier)).archive = belt.archive := by
  cases holding : belt.hand carrier <;> simp [step, holding]

@[simp] theorem archive_lose (belt : Belt Item) (carrier : Nat) :
    (belt.step (.lose carrier)).archive = belt.archive := by
  cases holding : belt.hand carrier <;> simp [step, holding]

theorem lost_step (belt : Belt Item) {event : Event Item}
    (kept : event.loses = false) : (belt.step event).lost = belt.lost := by
  cases event with
  | take carrier item => cases holding : belt.hand carrier <;> simp [step, holding]
  | push carrier => cases holding : belt.hand carrier <;> simp [step, holding]
  | pull carrier =>
      cases holding : belt.hand carrier <;> cases queued : belt.queue <;>
        simp [step, holding, queued]
  | store carrier => cases holding : belt.hand carrier <;> simp [step, holding]
  | lose carrier => cases kept

/-! ## One place at a time -/

/-- A load is at a place. -/
def At (belt : Belt Item) (load : Load Item) : Place → Prop
  | .hand carrier => belt.hand carrier = some load
  | .queue => load ∈ belt.queue
  | .stored => load ∈ belt.stored
  | .lost => load ∈ belt.lost

@[simp] theorem at_hand {belt : Belt Item} {load : Load Item} {carrier : Nat} :
    belt.At load (.hand carrier) ↔ belt.hand carrier = some load := Iff.rfl

@[simp] theorem at_queue {belt : Belt Item} {load : Load Item} :
    belt.At load .queue ↔ load ∈ belt.queue := Iff.rfl

@[simp] theorem at_stored {belt : Belt Item} {load : Load Item} :
    belt.At load .stored ↔ load ∈ belt.stored := Iff.rfl

@[simp] theorem at_lost {belt : Belt Item} {load : Load Item} :
    belt.At load .lost ↔ load ∈ belt.lost := Iff.rfl

/-- Every item that ever was is at exactly one place and there once, and nothing else is
anywhere. -/
structure Accounted (belt : Belt Item) : Prop where
  once : (belt.queue ++ belt.stored ++ belt.lost).Nodup
  known : ∀ load place, belt.At load place → belt.archive[load.1]? = some load.2
  placed : ∀ number item, belt.archive[number]? = some item →
    ∃ place, belt.At (number, item) place
  apart : ∀ load place other, belt.At load place → belt.At load other → place = other

/-- Items that wait in the queue before the first event. -/
def waiting (items : List Item) : Belt Item where
  archive := items
  hand _ := none
  queue := items.zipIdx.map fun pair => (pair.2, pair.1)
  stored := []
  lost := []

theorem numbers_waiting (items : List Item) :
    (waiting items).queue.map Prod.fst = List.range items.length := by
  simp [waiting, Function.comp_def, List.zipIdx_map_snd, List.range_eq_range']

theorem items_waiting (items : List Item) : (waiting items).queue.map Prod.snd = items := by
  simp [waiting, Function.comp_def, List.zipIdx_map_fst]

theorem mem_waiting {items : List Item} {load : Load Item} :
    load ∈ (waiting items).queue ↔ items[load.1]? = some load.2 := by
  obtain ⟨number, item⟩ := load
  simp [waiting, List.mk_mem_zipIdx_iff_getElem?]

theorem accounted_waiting (items : List Item) : (waiting items).Accounted where
  once := by
    have once : ((waiting items).queue.map Prod.fst).Nodup := by
      rw [numbers_waiting]
      exact List.nodup_range
    simpa [waiting] using once.of_map
  known := by
    intro load place here
    cases place with
    | queue => exact mem_waiting.mp here
    | hand carrier => cases here
    | stored => cases here
    | lost => cases here
  placed := by
    intro number item known
    have member : (number, item) ∈ (waiting items).queue := mem_waiting.mpr known
    exact ⟨.queue, member⟩
  apart := by
    intro load place other here there
    cases place <;> cases other <;> first | rfl | cases here | cases there

/-- An item with a number not used before is nowhere yet. -/
theorem Accounted.fresh {belt : Belt Item} (accounted : belt.Accounted) (item : Item)
    (place : Place) : ¬belt.At (belt.archive.length, item) place := by
  intro here
  have known := accounted.known _ _ here
  rw [List.getElem?_eq_none le_rfl] at known
  cases known

theorem Accounted.take {belt : Belt Item} (accounted : belt.Accounted) {carrier : Nat}
    (empty : belt.hand carrier = none) (item : Item) :
    (belt.step (.take carrier item)).Accounted := by
  rw [step_take empty]
  have hands : ∀ load other, (Function.update belt.hand carrier
      (some (belt.archive.length, item))) other = some load ↔
        (load = (belt.archive.length, item) ∧ other = carrier) ∨ belt.hand other = some load := by
    intro load other
    by_cases same : other = carrier
    · subst same
      rw [Function.update_self, empty]
      simp [eq_comm]
    · rw [Function.update_of_ne same]
      simp [same]
  have somewhere : ∀ load place, ({ belt.give carrier (some (belt.archive.length, item)) with
      archive := belt.archive ++ [item] } : Belt Item).At load place ↔
        (load = (belt.archive.length, item) ∧ place = .hand carrier) ∨ belt.At load place := by
    intro load place
    cases place with
    | hand other => simpa [give] using hands load other
    | queue => simp [give]
    | stored => simp [give]
    | lost => simp [give]
  constructor
  case once => exact accounted.once
  case known =>
    intro load place here
    rcases (somewhere load place).mp here with ⟨rfl, _⟩ | before
    · exact List.getElem?_concat_length
    · have known := accounted.known load place before
      rw [List.getElem?_append_left (List.getElem?_eq_some_iff.mp known).1]
      exact known
  case placed =>
    intro number other known
    by_cases old : number < belt.archive.length
    · rw [List.getElem?_append_left old] at known
      obtain ⟨place, here⟩ := accounted.placed number other known
      exact ⟨place, (somewhere _ _).mpr (.inr here)⟩
    · have last : number = belt.archive.length := by
        have inside := (List.getElem?_eq_some_iff.mp known).1
        simp only [List.length_append, List.length_singleton] at inside
        exact Nat.le_antisymm (Nat.lt_succ_iff.mp inside) (not_lt.mp old)
      subst last
      rw [List.getElem?_concat_length, Option.some.injEq] at known
      subst known
      exact ⟨.hand carrier, (somewhere _ _).mpr (.inl ⟨rfl, rfl⟩)⟩
  case apart =>
    intro load place other here there
    rcases (somewhere load place).mp here with ⟨rfl, rfl⟩ | before
    · rcases (somewhere _ other).mp there with ⟨_, rfl⟩ | before
      · rfl
      · exact absurd before (accounted.fresh item other)
    · rcases (somewhere load other).mp there with ⟨rfl, rfl⟩ | after
      · exact absurd before (accounted.fresh item place)
      · exact accounted.apart load place other before after

/-- A load goes from its place to another one, and nothing else moves. -/
theorem Accounted.moved {belt after : Belt Item} (accounted : belt.Accounted)
    {load : Load Item} (target : Place) (archive : after.archive = belt.archive)
    (once : (after.queue ++ after.stored ++ after.lost).Nodup) {source : Place}
    (here : belt.At load source)
    (there : ∀ other place, after.At other place ↔
      (other = load ∧ place = target) ∨ (other ≠ load ∧ belt.At other place)) :
    after.Accounted where
  once := once
  known := by
    intro other place found
    rw [archive]
    rcases (there other place).mp found with ⟨rfl, _⟩ | ⟨_, before⟩
    · exact accounted.known other source here
    · exact accounted.known other place before
  placed := by
    intro number item known
    by_cases same : (number, item) = load
    · exact ⟨target, (there _ _).mpr (.inl ⟨same, rfl⟩)⟩
    · rw [archive] at known
      obtain ⟨place, before⟩ := accounted.placed number item known
      exact ⟨place, (there _ _).mpr (.inr ⟨same, before⟩)⟩
  apart := by
    intro other place elsewhere first second
    rcases (there other place).mp first with ⟨same, rfl⟩ | ⟨different, before⟩
    · rcases (there other elsewhere).mp second with ⟨_, rfl⟩ | ⟨different, _⟩
      · rfl
      · exact absurd same different
    · rcases (there other elsewhere).mp second with ⟨same, _⟩ | ⟨_, after⟩
      · exact absurd same different
      · exact accounted.apart other place elsewhere before after

/-- Whoever has a load in hand is the only one, and the load is in no list. -/
theorem Accounted.only {belt : Belt Item} (accounted : belt.Accounted) {load : Load Item}
    {place : Place} (here : belt.At load place) {other : Load Item} (elsewhere : Place)
    (there : belt.At other elsewhere) (apart : elsewhere ≠ place) : other ≠ load :=
  fun same => apart (accounted.apart load elsewhere place (same ▸ there) here)

/-- What a carrier puts down goes from its hand to the end of a list. -/
theorem Accounted.putDown {belt after : Belt Item} (accounted : belt.Accounted)
    {carrier : Nat} {load : Load Item} (holding : belt.hand carrier = some load)
    (target : Place) (list : ∀ other, target ≠ .hand other)
    (archive : after.archive = belt.archive)
    (hand : after.hand = Function.update belt.hand carrier none)
    (perm : (after.queue ++ after.stored ++ after.lost).Perm
      (load :: (belt.queue ++ belt.stored ++ belt.lost)))
    (arrived : ∀ other, after.At other target ↔ belt.At other target ∨ other = load)
    (others : ∀ other place, place ≠ target → (∀ carrier, place ≠ .hand carrier) →
      (after.At other place ↔ belt.At other place)) :
    after.Accounted := by
  have here : belt.At load (.hand carrier) := holding
  have outside : load ∉ belt.queue ++ belt.stored ++ belt.lost := by
    simp only [List.mem_append, not_or]
    refine ⟨⟨fun member => ?_, fun member => ?_⟩, fun member => ?_⟩
    · exact accounted.only here .queue member nofun rfl
    · exact accounted.only here .stored member nofun rfl
    · exact accounted.only here .lost member nofun rfl
  have once : (after.queue ++ after.stored ++ after.lost).Nodup :=
    perm.nodup_iff.mpr (List.nodup_cons.mpr ⟨outside, accounted.once⟩)
  have elsewhere : ∀ other place, place ≠ .hand carrier → belt.At other place → other ≠ load :=
    fun other place apart there => accounted.only here place there apart
  refine accounted.moved target archive once here fun other place => ?_
  by_cases same : place = target
  · subst same
    rw [arrived]
    constructor
    · rintro (before | rfl)
      · exact .inr ⟨elsewhere other place (list carrier) before, before⟩
      · exact .inl ⟨rfl, rfl⟩
    · rintro (⟨rfl, _⟩ | ⟨_, before⟩)
      · exact .inr rfl
      · exact .inl before
  · simp only [same, and_false, false_or]
    have kept : (∀ holder, place ≠ .hand holder) →
        (after.At other place ↔ other ≠ load ∧ belt.At other place) := by
      intro listed
      rw [others other place same listed]
      exact ⟨fun before => ⟨elsewhere other place (listed carrier) before, before⟩, And.right⟩
    cases place with
    | hand holder =>
        rw [at_hand, hand]
        by_cases self : holder = carrier
        · subst self
          rw [Function.update_self, at_hand, holding]
          simp [eq_comm]
        · rw [Function.update_of_ne self]
          refine ⟨fun before => ⟨?_, before⟩, And.right⟩
          exact elsewhere other (.hand holder) (by simpa using self) before
    | queue => exact kept nofun
    | stored => exact kept nofun
    | lost => exact kept nofun

theorem Accounted.pull {belt : Belt Item} (accounted : belt.Accounted) {carrier : Nat}
    (empty : belt.hand carrier = none) {load : Load Item} {rest : List (Load Item)}
    (queued : belt.queue = load :: rest) : (belt.step (.pull carrier)).Accounted := by
  rw [step_pull empty queued]
  have here : belt.At load .queue := by
    rw [at_queue, queued]
    exact List.mem_cons_self
  have once := accounted.once
  rw [queued, List.cons_append, List.cons_append, List.nodup_cons] at once
  refine accounted.moved (.hand carrier) rfl once.2 here fun other place => ?_
  have elsewhere : place ≠ .queue → belt.At other place → other ≠ load :=
    fun apart there => accounted.only here place there apart
  cases place with
  | hand holder =>
      by_cases self : holder = carrier
      · subst self
        have nothing : belt.hand holder ≠ some other := by
          rw [empty]
          exact nofun
        simp [give, nothing, eq_comm]
      · simp only [at_hand, give, Function.update_of_ne self, Place.hand.injEq, self, and_false,
          false_or]
        exact ⟨fun before => ⟨elsewhere nofun before, before⟩, And.right⟩
  | queue =>
      have apart : ∀ other ∈ rest, other ≠ load := by
        rintro other member rfl
        exact once.1 (by simp [member])
      simp only [at_queue, queued, List.mem_cons, reduceCtorEq, and_false, false_or]
      constructor
      · exact fun member => ⟨apart other member, .inr member⟩
      · exact fun both => both.2.resolve_left both.1
  | stored =>
      simp only [at_stored, give, reduceCtorEq, and_false, false_or]
      exact ⟨fun before => ⟨elsewhere nofun before, before⟩, And.right⟩
  | lost =>
      simp only [at_lost, give, reduceCtorEq, and_false, false_or]
      exact ⟨fun before => ⟨elsewhere nofun before, before⟩, And.right⟩

/-- Whatever a carrier does, every item stays at one place. -/
theorem Accounted.step {belt : Belt Item} (accounted : belt.Accounted) (event : Event Item) :
    (belt.step event).Accounted := by
  cases event with
  | take carrier item =>
      cases holding : belt.hand carrier with
      | none => exact accounted.take holding item
      | some load => simpa only [Belt.step, holding] using accounted
  | push carrier =>
      cases holding : belt.hand carrier with
      | none => simpa only [Belt.step, holding] using accounted
      | some load =>
          rw [step_push holding]
          refine accounted.putDown holding .queue nofun rfl rfl ?_ (by simp) ?_
          · simp only [List.append_assoc, List.singleton_append]
            exact List.perm_middle
          · intro other place apart _
            cases place <;> simp_all [give]
  | pull carrier =>
      cases holding : belt.hand carrier with
      | some load => simpa only [Belt.step, holding] using accounted
      | none =>
          cases queued : belt.queue with
          | nil => simpa only [Belt.step, holding, queued] using accounted
          | cons load rest => exact accounted.pull holding queued
  | store carrier =>
      cases holding : belt.hand carrier with
      | none => simpa only [Belt.step, holding] using accounted
      | some load =>
          rw [step_store holding]
          refine accounted.putDown holding .stored nofun rfl rfl ?_ (by simp) ?_
          · rw [← List.append_assoc, List.append_assoc _ [load], List.singleton_append]
            exact List.perm_middle
          · intro other place apart _
            cases place <;> simp_all [give]
  | lose carrier =>
      cases holding : belt.hand carrier with
      | none => simpa only [Belt.step, holding] using accounted
      | some load =>
          rw [step_lose holding]
          refine accounted.putDown holding .lost nofun rfl rfl ?_ (by simp) ?_
          · simp only [← List.append_assoc]
            exact List.perm_append_singleton _ _
          · intro other place apart _
            cases place <;> simp_all [give]

/-- Along every run, each item is at one place at a time. -/
theorem Accounted.run {belt : Belt Item} (accounted : belt.Accounted)
    (events : List (Event Item)) : (Runs.run Belt.step belt events).Accounted :=
  (Runs.throughout_of_invariant (fun _ holds => holds) (fun _ event holds => holds.step event)
    accounted events).finally

/-! ## The order of the lists -/

/-- What has come to the queue or beyond, in the order in which it is listed. -/
def listed (belt : Belt Item) : List (Load Item) :=
  belt.stored ++ belt.queue

/-- The lists have the items in the order of their numbers. -/
def InOrder (belt : Belt Item) : Prop :=
  belt.listed.Pairwise fun earlier later => earlier.1 < later.1

instance (belt : Belt Item) : Decidable belt.InOrder :=
  inferInstanceAs (Decidable (List.Pairwise _ _))

/-- The load that a carrier puts down has overtaken none and is overtaken by none. -/
def Follows (belt : Belt Item) : Event Item → Prop
  | .push carrier => ∀ load ∈ belt.hand carrier, ∀ other ∈ belt.listed, other.1 < load.1
  | .store carrier => ∀ load ∈ belt.hand carrier,
      (∀ other ∈ belt.stored, other.1 < load.1) ∧ ∀ other ∈ belt.queue, load.1 < other.1
  | .take _ _ | .pull _ | .lose _ => True

instance (belt : Belt Item) : ∀ event, Decidable (belt.Follows event)
  | .push carrier => inferInstanceAs (Decidable (∀ load ∈ belt.hand carrier, _))
  | .store carrier => inferInstanceAs (Decidable (∀ load ∈ belt.hand carrier, _))
  | .take _ _ | .pull _ | .lose _ => inferInstanceAs (Decidable True)

theorem inOrder_waiting (items : List Item) : (waiting items).InOrder := by
  have ascending : ((waiting items).queue.map Prod.fst).Pairwise (· < ·) := by
    rw [numbers_waiting]
    exact List.pairwise_lt_range
  exact List.pairwise_map.mp ascending

/-- A step keeps the order exactly when its load overtakes none. -/
theorem InOrder.step_iff {belt : Belt Item} (ordered : belt.InOrder) (event : Event Item) :
    (belt.step event).InOrder ↔ belt.Follows event := by
  cases event with
  | take carrier item =>
      refine iff_of_true ?_ trivial
      cases holding : belt.hand carrier with
      | none =>
          rw [step_take holding]
          exact ordered
      | some load => simpa only [Belt.step, holding] using ordered
  | push carrier =>
      cases holding : belt.hand carrier with
      | none => simpa [Belt.step, holding, Follows] using ordered
      | some load =>
          have whole : (belt.step (.push carrier)).listed = belt.listed ++ [load] := by
            rw [step_push holding]
            exact (List.append_assoc ..).symm
          rw [InOrder, whole, List.pairwise_append]
          simp only [Follows, holding, Option.mem_def, Option.some.injEq, forall_eq',
            List.pairwise_singleton, List.mem_singleton, forall_eq, true_and]
          exact and_iff_right ordered
  | pull carrier =>
      refine iff_of_true ?_ trivial
      cases holding : belt.hand carrier with
      | some load => simpa only [Belt.step, holding] using ordered
      | none =>
          cases queued : belt.queue with
          | nil => simpa only [Belt.step, holding, queued] using ordered
          | cons load rest =>
              rw [step_pull holding queued]
              rw [InOrder, listed, queued] at ordered
              exact ordered.sublist ((List.sublist_cons_self load rest).append_left _)
  | store carrier =>
      cases holding : belt.hand carrier with
      | none => simpa [Belt.step, holding, Follows] using ordered
      | some load =>
          have whole : (belt.step (.store carrier)).listed = belt.stored ++ load :: belt.queue := by
            rw [step_store holding]
            exact List.append_assoc ..
          obtain ⟨stored, queue, across⟩ := List.pairwise_append.mp ordered
          rw [InOrder, whole, List.pairwise_append, List.pairwise_cons]
          simp only [Follows, holding, Option.mem_def, Option.some.injEq, forall_eq']
          constructor
          · rintro ⟨_, ⟨behind, _⟩, before⟩
            exact ⟨fun other member => before other member load List.mem_cons_self, behind⟩
          · rintro ⟨before, behind⟩
            refine ⟨stored, ⟨behind, queue⟩, fun first firstMem last lastMem => ?_⟩
            rcases List.mem_cons.mp lastMem with rfl | lastMem
            · exact before first firstMem
            · exact across first firstMem last lastMem
  | lose carrier =>
      refine iff_of_true ?_ trivial
      cases holding : belt.hand carrier with
      | none => simpa only [Belt.step, holding] using ordered
      | some load =>
          rw [step_lose holding]
          exact ordered

/-- Nothing is lost and nothing overtaken by an event. -/
def Orderly (belt : Belt Item) (event : Event Item) : Prop :=
  belt.Follows event ∧ event.loses = false

instance (belt : Belt Item) (event : Event Item) : Decidable (belt.Orderly event) :=
  inferInstanceAs (Decidable (_ ∧ _))

/-- Orderly events keep the lists in order and lose nothing. -/
theorem InOrder.run {belt : Belt Item} (ordered : belt.InOrder) {events : List (Event Item)}
    (orderly : Runs.Guarded Orderly step belt events) :
    (Runs.run step belt events).InOrder ∧ (Runs.run step belt events).lost = belt.lost := by
  have preserved : ∀ (reached : Belt Item) (event : Event Item),
      reached.InOrder ∧ reached.lost = belt.lost → reached.Orderly event →
        (reached.step event).InOrder ∧ (reached.step event).lost = belt.lost :=
    fun reached event holds guarded => ⟨(holds.1.step_iff event).mpr guarded.1,
      (reached.lost_step guarded.2).trans holds.2⟩
  exact orderly.invariant preserved ⟨ordered, rfl⟩

/-! ## Searching from the newest item down -/

/-- What a search passes over may be left out. -/
theorem findSome?_filter {α β : Type*} (items : List α) (kept : α → Bool)
    (held : α → Option β) (nothing : ∀ item ∈ items, kept item = false → held item = none) :
    (items.filter kept).findSome? held = items.findSome? held := by
  induction items with
  | nil => rfl
  | cons item items ih =>
      have rest := ih fun other member => nothing other (List.mem_cons_of_mem _ member)
      cases keep : kept item with
      | true => rw [List.filter_cons_of_pos keep, List.findSome?_cons, List.findSome?_cons, rest]
      | false =>
          rw [List.filter_cons_of_neg (by simp [keep]), List.findSome?_cons,
            nothing item List.mem_cons_self keep, rest]

/-- In order, the lists have what has come to them out of the archive. -/
theorem Accounted.listed_eq {belt : Belt Item} (accounted : belt.Accounted)
    (ordered : belt.InOrder) :
    belt.listed = (waiting belt.archive).queue.filter fun load =>
      load.1 ∈ belt.listed.map Prod.fst := by
  have sorted : ((waiting belt.archive).queue.filter fun load =>
      load.1 ∈ belt.listed.map Prod.fst).Pairwise fun earlier later => earlier.1 < later.1 :=
    (inOrder_waiting belt.archive).filter _
  have known : ∀ load ∈ belt.listed, belt.archive[load.1]? = some load.2 := by
    intro load member
    rcases List.mem_append.mp member with stored | queued
    · exact accounted.known load .stored stored
    · exact accounted.known load .queue queued
  have distinct : ∀ {loads : List (Load Item)},
      (loads.Pairwise fun earlier later => earlier.1 < later.1) → loads.Nodup :=
    fun ascending => ascending.imp fun below equal => below.ne (congrArg Prod.fst equal)
  have same : belt.listed.Perm ((waiting belt.archive).queue.filter fun load =>
      load.1 ∈ belt.listed.map Prod.fst) := by
    refine (List.perm_ext_iff_of_nodup (distinct ordered) (distinct sorted)).mpr fun load => ?_
    rw [List.mem_filter, mem_waiting, decide_eq_true_iff]
    constructor
    · exact fun member => ⟨known load member, List.mem_map_of_mem member⟩
    · rintro ⟨archived, numbered⟩
      obtain ⟨other, member, number⟩ := List.mem_map.mp numbered
      have item := known other member
      rw [number, archived, Option.some.injEq] at item
      rwa [Prod.ext number item.symm] at member
  exact same.eq_of_pairwise (fun _ _ _ _ below above => absurd below (lt_asymm above)) ordered
    sorted

/-- With the lists in order and nothing sought in any hand or lost, a search through the
lists finds what a search through all items finds. -/
theorem Accounted.findSome?_archive {belt : Belt Item} (accounted : belt.Accounted)
    (ordered : belt.InOrder) {β : Type*} (held : Item → Option β)
    (carried : ∀ carrier, ∀ load ∈ belt.hand carrier, held load.2 = none)
    (lost : ∀ load ∈ belt.lost, held load.2 = none) :
    (belt.listed.map Prod.snd).reverse.findSome? held =
      belt.archive.reverse.findSome? held := by
  have missing : ∀ load ∈ (waiting belt.archive).queue.reverse,
      decide (load.1 ∈ belt.listed.map Prod.fst) = false → held load.2 = none := by
    intro load member unlisted
    rw [decide_eq_false_iff_not] at unlisted
    obtain ⟨place, here⟩ :=
      accounted.placed load.1 load.2 (mem_waiting.mp (List.mem_reverse.mp member))
    cases place with
    | hand carrier => exact carried carrier load here
    | lost => exact lost load here
    | queue =>
        exact absurd (List.mem_map_of_mem (List.mem_append_right _ (at_queue.mp here))) unlisted
    | stored =>
        exact absurd (List.mem_map_of_mem (List.mem_append_left _ (at_stored.mp here))) unlisted
  calc (belt.listed.map Prod.snd).reverse.findSome? held
      = belt.listed.reverse.findSome? fun load => held load.2 := by
        rw [← List.map_reverse, List.findSome?_map]
        rfl
    _ = (waiting belt.archive).queue.reverse.findSome? fun load => held load.2 := by
        rw [accounted.listed_eq ordered, ← List.filter_reverse]
        exact findSome?_filter _ _ _ missing
    _ = belt.archive.reverse.findSome? held := by
        conv_rhs => rw [← items_waiting belt.archive, ← List.map_reverse, List.findSome?_map]
        rfl

end Belt

end Conveyor
