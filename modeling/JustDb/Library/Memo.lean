import JustDb.Library.Runs
import Mathlib.Logic.Function.Basic

/-!
# Queries that share a cache

A query asks for answers one after another and goes on with what it is told.  An answer
comes from a cache, or is fetched and then put in the cache.  Tasks that run queries on
one cache take turns between looking an answer up, fetching it and inserting it, and an
insertion may evict anything.

Where requests of one key are fetched alike, a task comes to the result of its query
asked without a cache, whatever the other tasks do in between, and after a number of
turns that only the query decides.
-/

namespace Memo

universe u v w

variable {Request : Type u} {Answer : Type v} {ε α : Type w}

/-- A computation that asks for answers and ends with a result. -/
inductive Query (Request : Type u) (Answer : Type v) (Outcome : Type w) where
  | done (outcome : Outcome)
  | ask (request : Request) (next : Answer → Query Request Answer Outcome)

namespace Query

/-- Go on with the value of a query that ends well. -/
def andThen {β : Type w} : Query Request Answer (Except ε α) →
    (α → Query Request Answer (Except ε β)) → Query Request Answer (Except ε β)
  | .done (.ok value), use => use value
  | .done (.error failure), _ => .done (.error failure)
  | .ask request next, use => .ask request fun answer => (next answer).andThen use

/-- All requests of a query are allowed. -/
def Asks {Outcome : Type w} (allowed : Request → Prop) : Query Request Answer Outcome → Prop
  | .done _ => True
  | .ask request next => allowed request ∧ ∀ answer, (next answer).Asks allowed

theorem Asks.andThen {β : Type w} {allowed : Request → Prop}
    {query : Query Request Answer (Except ε α)} (asks : query.Asks allowed)
    {use : α → Query Request Answer (Except ε β)} (rest : ∀ value, (use value).Asks allowed) :
    (query.andThen use).Asks allowed := by
  induction query with
  | done outcome =>
      cases outcome with
      | ok value => exact rest value
      | error failure => trivial
  | ask request next ih => exact ⟨asks.1, fun answer => ih answer (asks.2 answer)⟩

variable (fetch : Request → Except ε Answer)

/-- The result without a cache: every answer is fetched, and a failure ends the query. -/
def plain : Query Request Answer (Except ε α) → Except ε α
  | .done outcome => outcome
  | .ask request next =>
      match fetch request with
      | .ok answer => (next answer).plain
      | .error failure => .error failure

/-- How many answers a query asks for without a cache. -/
def cost : Query Request Answer (Except ε α) → Nat
  | .done _ => 0
  | .ask request next =>
      match fetch request with
      | .ok answer => (next answer).cost + 1
      | .error _ => 1

theorem cost_andThen_le {β : Type w} {query : Query Request Answer (Except ε α)}
    {use : α → Query Request Answer (Except ε β)} {first second : Nat}
    (before : query.cost fetch ≤ first) (rest : ∀ value, (use value).cost fetch ≤ second) :
    (query.andThen use).cost fetch ≤ first + second := by
  induction query generalizing first with
  | done outcome =>
      cases outcome with
      | ok value => exact Nat.le_trans (rest value) (Nat.le_add_left _ _)
      | error failure => exact Nat.zero_le _
  | ask request next ih =>
      rw [cost] at before
      rw [andThen, cost]
      cases fetched : fetch request with
      | ok answer =>
          simp only [fetched] at before ⊢
          have further := @ih answer (first - 1) (by omega)
          omega
      | error failure =>
          simp only [fetched] at before ⊢
          omega

end Query

/-- What is kept of the answers, by key.  An insertion adds one answer at most, and leaves
no more than a limit. -/
structure Policy (Cache Key : Type*) (Answer : Type v) where
  lookup : Cache → Key → Option Answer
  insert : Cache → Key → Answer → Cache
  size : Cache → Nat
  limit : Nat
  lookup_insert : ∀ {cache key answer other found},
    lookup (insert cache key answer) other = some found →
      (other = key ∧ found = answer) ∨ lookup cache other = some found
  size_insert : ∀ cache key answer, size (insert cache key answer) ≤ limit

variable {Cache Key : Type*}

/-- Where a task stands between its atomic steps. -/
inductive Stage (Request : Type u) (Answer : Type v) (Outcome : Type w) where
  | running (query : Query Request Answer Outcome)
  | missed (request : Request) (next : Answer → Query Request Answer Outcome)
  | fetched (request : Request) (answer : Answer) (next : Answer → Query Request Answer Outcome)

/-- The cache and the tasks on it. -/
structure Shared (Request : Type u) (Answer : Type v) (Outcome : Type w) (Cache : Type*) where
  cache : Cache
  stage : Nat → Stage Request Answer Outcome

section Steps

variable (policy : Policy Cache Key Answer) (key : Request → Key)
  (fetch : Request → Except ε Answer)

/-- The next step of a task: look an answer up, fetch it, or insert it. -/
def advance (cache : Cache) :
    Stage Request Answer (Except ε α) → Cache × Stage Request Answer (Except ε α)
  | .running (.done outcome) => (cache, .running (.done outcome))
  | .running (.ask request next) =>
      match policy.lookup cache (key request) with
      | some answer => (cache, .running (next answer))
      | none => (cache, .missed request next)
  | .missed request next =>
      match fetch request with
      | .ok answer => (cache, .fetched request answer next)
      | .error failure => (cache, .running (.done (.error failure)))
  | .fetched request answer next =>
      (policy.insert cache (key request) answer, .running (next answer))

/-- A task takes its turn. -/
def step (shared : Shared Request Answer (Except ε α) Cache) (task : Nat) :
    Shared Request Answer (Except ε α) Cache where
  cache := (advance policy key fetch shared.cache (shared.stage task)).1
  stage := Function.update shared.stage task
    (advance policy key fetch shared.cache (shared.stage task)).2

/-- The query on its own, with the cache that it leaves. -/
def exec : Query Request Answer (Except ε α) → Cache → Except ε α × Cache
  | .done outcome, cache => (outcome, cache)
  | .ask request next, cache =>
      match policy.lookup cache (key request) with
      | some answer => exec (next answer) cache
      | none =>
          match fetch request with
          | .ok answer => exec (next answer) (policy.insert cache (key request) answer)
          | .error failure => (.error failure, cache)

end Steps

/-- Queries one after another, with the cache that goes from one to the next. -/
theorem exec_andThen {β : Type w} (policy : Policy Cache Key Answer) (key : Request → Key)
    (fetch : Request → Except ε Answer) (query : Query Request Answer (Except ε α))
    (use : α → Query Request Answer (Except ε β)) (cache : Cache) :
    exec policy key fetch (query.andThen use) cache =
      match exec policy key fetch query cache with
      | (.ok value, reached) => exec policy key fetch (use value) reached
      | (.error failure, reached) => (.error failure, reached) := by
  induction query generalizing cache with
  | done outcome => cases outcome <;> rfl
  | ask request next ih =>
      rw [Query.andThen, exec, exec]
      cases policy.lookup cache (key request) with
      | some answer => exact ih answer cache
      | none =>
          cases fetch request with
          | ok answer => exact ih answer _
          | error failure => rfl

/-! ## What the cache says is true -/

variable {policy : Policy Cache Key Answer} {key : Request → Key}
  {fetch : Request → Except ε Answer} {allowed : Request → Prop}

/-- Whatever the cache answers to an allowed request, a fetch answers. -/
def Coherent (policy : Policy Cache Key Answer) (key : Request → Key)
    (fetch : Request → Except ε Answer) (allowed : Request → Prop) (cache : Cache) : Prop :=
  ∀ request, allowed request → ∀ answer, policy.lookup cache (key request) = some answer →
    fetch request = .ok answer

/-- Allowed requests of one key are fetched alike. -/
def Agrees (key : Request → Key) (fetch : Request → Except ε Answer)
    (allowed : Request → Prop) : Prop :=
  ∀ first second, allowed first → allowed second → key first = key second →
    fetch first = fetch second

theorem Coherent.insert (agrees : Agrees key fetch allowed) {cache : Cache}
    (coherent : Coherent policy key fetch allowed cache) {request : Request}
    (asked : allowed request) {answer : Answer} (fetched : fetch request = .ok answer) :
    Coherent policy key fetch allowed (policy.insert cache (key request) answer) := by
  intro other otherAllowed found held
  rcases policy.lookup_insert held with ⟨same, rfl⟩ | before
  · exact (agrees other request otherAllowed asked same).trans fetched
  · exact coherent other otherAllowed found before

/-- A query on its own ends as it would without the cache, which stays coherent. -/
theorem exec_spec (agrees : Agrees key fetch allowed)
    {query : Query Request Answer (Except ε α)} (asks : query.Asks allowed) {cache : Cache}
    (coherent : Coherent policy key fetch allowed cache) :
    (exec policy key fetch query cache).1 = query.plain fetch ∧
      Coherent policy key fetch allowed (exec policy key fetch query cache).2 := by
  induction query generalizing cache with
  | done outcome => exact ⟨rfl, coherent⟩
  | ask request next ih =>
      rw [exec, Query.plain]
      cases held : policy.lookup cache (key request) with
      | some answer =>
          rw [coherent request asks.1 answer held]
          exact ih answer (asks.2 answer) coherent
      | none =>
          cases fetched : fetch request with
          | error failure => exact ⟨rfl, coherent⟩
          | ok answer =>
              exact ih answer (asks.2 answer) (coherent.insert agrees asks.1 fetched)

/-! ## Tasks in turn -/

namespace Stage

/-- What the task comes to without a cache. -/
def plain (fetch : Request → Except ε Answer) : Stage Request Answer (Except ε α) → Except ε α
  | .running query => query.plain fetch
  | .missed request next => (Query.ask request next).plain fetch
  | .fetched _ answer next => (next answer).plain fetch

/-- How many turns a task needs at most. -/
def turns (fetch : Request → Except ε Answer) : Stage Request Answer (Except ε α) → Nat
  | .running query => 3 * query.cost fetch
  | .missed request next => 3 * (Query.ask request next).cost fetch - 1
  | .fetched _ answer next => 3 * (next answer).cost fetch + 1

/-- The task asks allowed requests, and what it has fetched is the answer. -/
def Sound (fetch : Request → Except ε Answer) (allowed : Request → Prop) :
    Stage Request Answer (Except ε α) → Prop
  | .running query => query.Asks allowed
  | .missed request next => (Query.ask request next).Asks allowed
  | .fetched request answer next =>
      fetch request = .ok answer ∧ (Query.ask request next).Asks allowed

theorem done_of_turns {stage : Stage Request Answer (Except ε α)}
    (none : stage.turns fetch = 0) : stage = .running (.done (stage.plain fetch)) := by
  cases stage with
  | running query =>
      cases query with
      | done outcome => rfl
      | ask request next =>
          rw [turns, Query.cost] at none
          split at none <;> omega
  | missed request next =>
      rw [turns, Query.cost] at none
      split at none <;> omega
  | fetched request answer next =>
      rw [turns] at none
      omega

end Stage

/-- A turn of a task keeps the cache coherent and the result that the task comes to, and
brings it nearer. -/
theorem advance_spec (agrees : Agrees key fetch allowed) {cache : Cache}
    (coherent : Coherent policy key fetch allowed cache)
    {stage : Stage Request Answer (Except ε α)} (sound : stage.Sound fetch allowed) :
    Coherent policy key fetch allowed (advance policy key fetch cache stage).1 ∧
      (advance policy key fetch cache stage).2.Sound fetch allowed ∧
      (advance policy key fetch cache stage).2.plain fetch = stage.plain fetch ∧
      (advance policy key fetch cache stage).2.turns fetch ≤ stage.turns fetch - 1 := by
  cases stage with
  | running query =>
      cases query with
      | done outcome => exact ⟨coherent, sound, rfl, Nat.le_refl _⟩
      | ask request next =>
          rw [advance]
          cases held : policy.lookup cache (key request) with
          | none => exact ⟨coherent, sound, rfl, Nat.le_refl _⟩
          | some answer =>
              have fetched := coherent request sound.1 answer held
              refine ⟨coherent, sound.2 answer, ?_, ?_⟩
              · simp only [Stage.plain, Query.plain, fetched]
              · simp only [Stage.turns, Query.cost, fetched]
                omega
  | missed request next =>
      rw [advance]
      cases fetched : fetch request with
      | error failure =>
          refine ⟨coherent, trivial, ?_, Nat.zero_le _⟩
          simp only [Stage.plain, Query.plain, fetched]
      | ok answer =>
          refine ⟨coherent, ⟨fetched, sound⟩, ?_, ?_⟩
          · simp only [Stage.plain, Query.plain, fetched]
          · simp only [Stage.turns, Query.cost, fetched]
            omega
  | fetched request answer next =>
      rw [advance]
      exact ⟨coherent.insert agrees sound.2.1 sound.1, sound.2.2 answer, rfl, Nat.le_refl _⟩

/-- The cache tells the truth and is within its limit, and each task is on its way. -/
structure Sound (policy : Policy Cache Key Answer) (key : Request → Key)
    (fetch : Request → Except ε Answer) (allowed : Request → Prop)
    (shared : Shared Request Answer (Except ε α) Cache) : Prop where
  coherent : Coherent policy key fetch allowed shared.cache
  small : policy.size shared.cache ≤ policy.limit
  stages : ∀ task, (shared.stage task).Sound fetch allowed

/-- A turn leaves the cache within its limit. -/
theorem advance_size {cache : Cache} (small : policy.size cache ≤ policy.limit)
    (stage : Stage Request Answer (Except ε α)) :
    policy.size (advance policy key fetch cache stage).1 ≤ policy.limit := by
  cases stage with
  | running query =>
      cases query with
      | done outcome => exact small
      | ask request next => rw [advance]; split <;> exact small
  | missed request next => rw [advance]; split <;> exact small
  | fetched request answer next => exact policy.size_insert _ _ _

theorem Sound.step (agrees : Agrees key fetch allowed)
    {shared : Shared Request Answer (Except ε α) Cache}
    (sound : Sound policy key fetch allowed shared) (turn : Nat) :
    Sound policy key fetch allowed (step policy key fetch shared turn) := by
  obtain ⟨coherent, stage, -, -⟩ := advance_spec agrees sound.coherent (sound.stages turn)
  refine ⟨coherent, advance_size sound.small _, fun task => ?_⟩
  by_cases own : task = turn
  · subst own
    simpa only [Memo.step, Function.update_self] using stage
  · simpa only [Memo.step, Function.update_of_ne own] using sound.stages task

/-- A turn leaves every task what it comes to, and takes one from the turns that the task
itself still needs. -/
theorem step_stage (agrees : Agrees key fetch allowed)
    {shared : Shared Request Answer (Except ε α) Cache}
    (sound : Sound policy key fetch allowed shared) (turn task : Nat) :
    ((step policy key fetch shared turn).stage task).plain fetch =
        (shared.stage task).plain fetch ∧
      ((step policy key fetch shared turn).stage task).turns fetch ≤
        (shared.stage task).turns fetch - [turn].count task := by
  by_cases own : task = turn
  · subst own
    obtain ⟨-, -, plain, turns⟩ := advance_spec agrees sound.coherent (sound.stages task)
    simpa only [step, Function.update_self, List.count_singleton_self] using And.intro plain turns
  · simp only [step, Function.update_of_ne own, List.count_singleton, beq_iff_eq,
      if_neg (Ne.symm own)]
    exact ⟨trivial, Nat.le_refl _⟩

/-- In any order of turns the cache stays true and small, each task comes to the result
of its query without the cache, and each turn of its own brings it nearer. -/
theorem run_spec (agrees : Agrees key fetch allowed)
    {shared : Shared Request Answer (Except ε α) Cache}
    (sound : Sound policy key fetch allowed shared) (turns : List Nat) :
    Sound policy key fetch allowed (Runs.run (step policy key fetch) shared turns) ∧
      ∀ task, ((Runs.run (step policy key fetch) shared turns).stage task).plain fetch =
          (shared.stage task).plain fetch ∧
        ((Runs.run (step policy key fetch) shared turns).stage task).turns fetch ≤
          (shared.stage task).turns fetch - turns.count task := by
  induction turns generalizing shared with
  | nil => exact ⟨sound, fun task => ⟨rfl, Nat.le_refl _⟩⟩
  | cons turn turns ih =>
      obtain ⟨kept, rest⟩ := ih (sound.step agrees turn)
      refine ⟨kept, fun task => ?_⟩
      obtain ⟨plain, fewer⟩ := rest task
      obtain ⟨same, taken⟩ := step_stage agrees sound turn task
      refine ⟨plain.trans same, ?_⟩
      have split : ([turn] ++ turns).count task = [turn].count task + turns.count task :=
        List.count_append
      rw [List.singleton_append] at split
      rw [Runs.run_cons]
      omega

/-- A task that has had its turns is done, with the result of its query on its own. -/
theorem run_done (agrees : Agrees key fetch allowed)
    {shared : Shared Request Answer (Except ε α) Cache}
    (sound : Sound policy key fetch allowed shared) {turns : List Nat} {task : Nat}
    (enough : (shared.stage task).turns fetch ≤ turns.count task) :
    (Runs.run (step policy key fetch) shared turns).stage task =
      .running (.done ((shared.stage task).plain fetch)) := by
  obtain ⟨plain, fewer⟩ := (run_spec agrees sound turns).2 task
  rw [← plain]
  exact Stage.done_of_turns (by omega)

end Memo
