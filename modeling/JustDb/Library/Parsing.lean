import JustDb.Library.Stateful
import Mathlib.Data.List.Forall2

/-!
# Decoders over a cursor

A decoder reads from a cursor, an abstract position in a sequence of symbols.
`Decodes` says that a decoder consumes exactly a given segment, whatever follows
it, and returns a given value.  The rules below compose such facts along the
binds of a decoder, so that a round trip is proved field by field.

`Consumes` is the converse: whatever a decoder returns, it has consumed a segment that a
grammar allows for it.  Where both hold of a decoder, the grammar is what it accepts.

`Abreast` says that two decoders move alike on every input: one may return what the
other only passes by.
-/

namespace Parsing

variable {ε σ τ α β : Type}

/-- A cursor type: the states at which exactly `pending` is still to be read. -/
structure Cursor (σ τ : Type) where
  reading : σ → List τ → Prop

/-- From every state in front of `segment`, the decoder returns `value` and stops
behind the segment. -/
def Decodes (cursor : Cursor σ τ) (decoder : EStateM ε σ α) (segment : List τ)
    (value : α) : Prop :=
  ∀ state rest, cursor.reading state (segment ++ rest) →
    ∃ next, decoder state = .ok value next ∧ cursor.reading next rest

variable {cursor : Cursor σ τ}

theorem Decodes.pure (value : α) :
    Decodes cursor (Pure.pure value : EStateM ε σ α) [] value :=
  fun state _ at_ => ⟨state, rfl, at_⟩

/-- Consecutive decoders read consecutive segments. -/
theorem Decodes.bind {decoder : EStateM ε σ α} {next : α → EStateM ε σ β}
    {head tail : List τ} {value : α} {result : β}
    (first : Decodes cursor decoder head value)
    (second : Decodes cursor (next value) tail result) :
    Decodes cursor (decoder >>= next) (head ++ tail) result := by
  intro state rest ready
  rw [List.append_assoc] at ready
  obtain ⟨middle, ran, behind⟩ := first state (tail ++ rest) ready
  obtain ⟨final, finished, done⟩ := second middle rest behind
  exact ⟨final, by rw [Stateful.bind_of_ok ran, finished], done⟩

/-- A decoder followed by a pure continuation. -/
theorem Decodes.map {decoder : EStateM ε σ α} {next : α → EStateM ε σ β}
    {segment : List τ} {value : α} {result : β}
    (first : Decodes cursor decoder segment value)
    (second : Decodes cursor (next value) [] result) :
    Decodes cursor (decoder >>= next) segment result := by
  simpa using first.bind second

/-- From every state in front of `segment`, the decoder returns `value`; it may stop
anywhere. -/
def Returns (cursor : Cursor σ τ) (decoder : EStateM ε σ α) (segment : List τ)
    (value : α) : Prop :=
  ∀ state rest, cursor.reading state (segment ++ rest) →
    ∃ next, decoder state = .ok value next

theorem Decodes.returns {decoder : EStateM ε σ α} {segment : List τ} {value : α}
    (decodes : Decodes cursor decoder segment value) :
    Returns cursor decoder segment value := by
  intro state rest ready
  obtain ⟨next, ran, _⟩ := decodes state rest ready
  exact ⟨next, ran⟩

/-- A decoder that returns does so whatever stands behind its segment. -/
theorem Returns.append {decoder : EStateM ε σ α} {segment : List τ} {value : α}
    (returns : Returns cursor decoder segment value) (more : List τ) :
    Returns cursor decoder (segment ++ more) value := by
  intro state rest ready
  rw [List.append_assoc] at ready
  exact returns state (more ++ rest) ready

/-- A consumed segment in front of one on which the continuation returns. -/
theorem Decodes.bindReturns {decoder : EStateM ε σ α} {next : α → EStateM ε σ β}
    {head tail : List τ} {value : α} {result : β}
    (first : Decodes cursor decoder head value)
    (second : Returns cursor (next value) tail result) :
    Returns cursor (decoder >>= next) (head ++ tail) result := by
  intro state rest ready
  rw [List.append_assoc] at ready
  obtain ⟨middle, ran, behind⟩ := first state (tail ++ rest) ready
  obtain ⟨final, finished⟩ := second middle rest behind
  exact ⟨final, by rw [Stateful.bind_of_ok ran, finished]⟩

/-- Decode `count` items in a row. -/
def repeated (item : EStateM ε σ α) : Nat → EStateM ε σ (List α)
  | 0 => Pure.pure []
  | count + 1 => do
      let value ← item
      let values ← repeated item count
      Pure.pure (value :: values)

/-- A run of items decodes the concatenation of their encodings. -/
theorem Decodes.repeated {item : EStateM ε σ α} {encode : α → List τ}
    {values : List α} (each : ∀ value ∈ values, Decodes cursor item (encode value) value) :
    Decodes cursor (repeated item values.length) (values.flatMap encode) values := by
  induction values with
  | nil => exact Decodes.pure []
  | cons value values ih =>
      rw [List.flatMap_cons]
      have rest := ih fun other member => each other (List.mem_cons_of_mem _ member)
      exact (each value List.mem_cons_self).bind (rest.map (Decodes.pure _))

/-- What each item ensures a run of items ensures. -/
theorem ensures_repeated {invariant : σ → Prop} {exit : ε → σ → Prop} {item : EStateM ε σ α}
    (each : Stateful.Ensures invariant exit item) (count : Nat) :
    Stateful.Ensures invariant exit (repeated item count) := by
  induction count with
  | zero => exact Stateful.ensures_pure []
  | succ count ih =>
      rw [repeated]
      exact each.bind fun _ => ih.bind fun _ => Stateful.ensures_pure _

/-! ## What a decoder has read -/

/-- Whenever the decoder returns a value, it has consumed a segment that the grammar has
for this value. -/
def Consumes (cursor : Cursor σ τ) (decoder : EStateM ε σ α) (grammar : α → List τ → Prop) :
    Prop :=
  ∀ state pending value next, cursor.reading state pending → decoder state = .ok value next →
    ∃ segment rest, pending = segment ++ rest ∧ grammar value segment ∧ cursor.reading next rest

theorem Consumes.pure {grammar : α → List τ → Prop} {value : α} (empty : grammar value []) :
    Consumes cursor (Pure.pure value : EStateM ε σ α) grammar := by
  intro state pending returned next ready ran
  cases ran
  exact ⟨[], pending, rfl, empty, ready⟩

/-- A decoder that never returns. -/
theorem consumes_throw {grammar : α → List τ → Prop} (failure : ε) :
    Consumes cursor (throw failure : EStateM ε σ α) grammar := by
  intro state pending value next _ ran
  cases ran

/-- Consecutive decoders have read consecutive segments. -/
theorem Consumes.bind {decoder : EStateM ε σ α} {next : α → EStateM ε σ β}
    {head : α → List τ → Prop} {grammar : β → List τ → Prop}
    (first : Consumes cursor decoder head)
    (second : ∀ value segment, head value segment →
      Consumes cursor (next value) fun result rest => grammar result (segment ++ rest)) :
    Consumes cursor (decoder >>= next) grammar := by
  intro state pending result final ready ran
  obtain ⟨value, middle, read, rest⟩ := Stateful.bind_eq_ok.mp ran
  obtain ⟨segment, tail, rfl, allowed, behind⟩ := first state pending value middle ready read
  obtain ⟨more, left, rfl, whole, done⟩ := second value segment allowed middle tail result final
    behind rest
  exact ⟨segment ++ more, left, (List.append_assoc ..).symm, whole, done⟩

theorem Consumes.mono {decoder : EStateM ε σ α} {grammar weaker : α → List τ → Prop}
    (consumes : Consumes cursor decoder grammar)
    (weaken : ∀ value segment, grammar value segment → weaker value segment) :
    Consumes cursor decoder weaker := by
  intro state pending value next ready ran
  obtain ⟨segment, rest, split, allowed, behind⟩ := consumes state pending value next ready ran
  exact ⟨segment, rest, split, weaken value segment allowed, behind⟩

/-- A run of items has read one segment for each. -/
theorem Consumes.repeated {item : EStateM ε σ α} {grammar : α → List τ → Prop}
    (each : Consumes cursor item grammar) (count : Nat) :
    Consumes cursor (repeated item count) fun values segment =>
      ∃ segments, segment = segments.flatten ∧ values.length = count ∧
        List.Forall₂ grammar values segments := by
  induction count with
  | zero => exact Consumes.pure ⟨[], rfl, rfl, .nil⟩
  | succ count ih =>
      refine each.bind fun value segment allowed => ih.bind fun values rest items => ?_
      obtain ⟨segments, rfl, counted, spelled⟩ := items
      refine Consumes.pure ⟨segment :: segments, ?_, ?_, .cons allowed spelled⟩
      · rw [List.append_nil, List.flatten_cons]
      · rw [List.length_cons, counted]

/-- A run of items that are read from their encodings only. -/
theorem Consumes.repeatedEncoding {item : EStateM ε σ α} {encode : α → List τ}
    {allowed : α → Prop}
    (each : Consumes cursor item fun value segment => segment = encode value ∧ allowed value)
    (count : Nat) :
    Consumes cursor (Parsing.repeated item count) fun values segment =>
      values.length = count ∧ (∀ value ∈ values, allowed value) ∧
        segment = values.flatMap encode := by
  refine (Consumes.repeated each count).mono fun values segment spelled => ?_
  obtain ⟨segments, rfl, counted, items⟩ := spelled
  refine ⟨counted, ?_⟩
  clear counted
  induction items with
  | nil => exact ⟨by simp, rfl⟩
  | cons one _ ih =>
      refine ⟨?_, ?_⟩
      · rw [List.forall_mem_cons]
        exact ⟨one.2, ih.1⟩
      · rw [List.flatten_cons, List.flatMap_cons, one.1, ih.2]

/-- A decoder that reads its grammar, and has read nothing else, accepts just what starts
with a segment of the grammar, and goes on behind it. -/
theorem accepts_iff {decoder : EStateM ε σ α} {grammar : α → List τ → Prop}
    (consumes : Consumes cursor decoder grammar)
    (decodes : ∀ value segment, grammar value segment → Decodes cursor decoder segment value)
    {state : σ} {pending : List τ} (ready : cursor.reading state pending) (value : α) :
    (∃ next, decoder state = .ok value next) ↔ ∃ segment, segment <+: pending ∧
      grammar value segment := by
  constructor
  · rintro ⟨next, ran⟩
    obtain ⟨segment, rest, split, allowed, _⟩ := consumes state pending value next ready ran
    exact ⟨segment, ⟨rest, split.symm⟩, allowed⟩
  · rintro ⟨segment, ⟨rest, rfl⟩, allowed⟩
    obtain ⟨next, ran, _⟩ := decodes value segment allowed state rest ready
    exact ⟨next, ran⟩

/-! ## Decoders that move alike -/

/-- From every state, either decoder reaches a state exactly when the other does. -/
def Abreast (first : EStateM ε σ α) (second : EStateM ε σ β) : Prop :=
  ∀ state next, (∃ value, first state = .ok value next) ↔ ∃ value, second state = .ok value next

namespace Abreast

variable {γ δ : Type} {first : EStateM ε σ α} {second : EStateM ε σ β}

theorem refl (decoder : EStateM ε σ α) : Abreast decoder decoder :=
  fun _ _ => .rfl

/-- Two decoders that go on abreast whatever was read before. -/
theorem bind {first' : α → EStateM ε σ γ} {second' : β → EStateM ε σ δ}
    (heads : Abreast first second) (tails : ∀ left right, Abreast (first' left) (second' right)) :
    Abreast (first >>= first') (second >>= second') := by
  intro state next
  simp only [Stateful.bind_eq_ok]
  constructor
  · rintro ⟨result, value, middle, ran, rest⟩
    obtain ⟨other, otherRan⟩ := (heads state middle).mp ⟨value, ran⟩
    obtain ⟨otherResult, otherRest⟩ := (tails value other middle next).mp ⟨result, rest⟩
    exact ⟨otherResult, other, middle, otherRan, otherRest⟩
  · rintro ⟨result, value, middle, ran, rest⟩
    obtain ⟨other, otherRan⟩ := (heads state middle).mpr ⟨value, ran⟩
    obtain ⟨otherResult, otherRest⟩ := (tails other value middle next).mpr ⟨result, rest⟩
    exact ⟨otherResult, other, middle, otherRan, otherRest⟩

/-- Two decoders that read the same and go on abreast. -/
theorem same_bind (head : EStateM ε σ γ) {first : γ → EStateM ε σ α} {second : γ → EStateM ε σ β}
    (tails : ∀ value, Abreast (first value) (second value)) :
    Abreast (head >>= first) (head >>= second) := by
  intro state next
  cases ran : head state with
  | ok value middle =>
      rw [Stateful.bind_of_ok ran, Stateful.bind_of_ok ran]
      exact tails value middle next
  | error failure middle =>
      rw [Stateful.bind_of_error ran, Stateful.bind_of_error ran]
      simp

/-- What a decoder makes of the value it has read does not move it. -/
theorem bind_pure {make : β → γ} (heads : Abreast first second) :
    Abreast first (second >>= fun value => Pure.pure (make value)) := by
  intro state next
  refine (heads state next).trans ?_
  simp only [Stateful.bind_eq_ok]
  constructor
  · rintro ⟨value, ran⟩
    exact ⟨make value, value, next, ran, rfl⟩
  · rintro ⟨_, value, middle, ran, done⟩
    cases done
    exact ⟨value, ran⟩

theorem trans {third : EStateM ε σ γ} (left : Abreast first second)
    (right : Abreast second third) : Abreast first third :=
  fun state next => (left state next).trans (right state next)

end Abreast

end Parsing
