import Mathlib.Tactic.Common

/-! # Traced computations

A computation over a state that logs events, may be left by an exception and may
run out of a step budget.  The outcome keeps the state and the events of the run
in all three cases, so that a statement about what has happened also covers the
runs that end early.
-/

namespace MyappsCommon.Lib

/-- How a computation ends: with a value, by an exception, or with its step
budget used up. -/
inductive Outcome (α : Type) where
  | ok (value : α)
  | raised
  | unfinished
  deriving DecidableEq, Repr

/-- What a run leaves behind. -/
structure Result (σ ε α : Type) where
  outcome : Outcome α
  state : σ
  trace : List ε

variable {σ τ ε η α β : Type}

/-- Put the events of an earlier run in front. -/
def Result.prepend (events : List ε) (result : Result σ ε α) : Result σ ε α :=
  ⟨result.outcome, result.state, events ++ result.trace⟩

@[simp] theorem Result.prepend_outcome (events : List ε) (result : Result σ ε α) :
    (result.prepend events).outcome = result.outcome := rfl
@[simp] theorem Result.prepend_state (events : List ε) (result : Result σ ε α) :
    (result.prepend events).state = result.state := rfl
@[simp] theorem Result.prepend_trace (events : List ε) (result : Result σ ε α) :
    (result.prepend events).trace = events ++ result.trace := rfl
@[simp] theorem Result.prepend_nil (result : Result σ ε α) : result.prepend [] = result := rfl

theorem Result.eq_of_outcome {result : Result σ ε α} {outcome : Outcome α}
    (ended : result.outcome = outcome) : ∃ state trace, result = ⟨outcome, state, trace⟩ := by
  subst ended
  exact ⟨result.state, result.trace, rfl⟩

/-- Go on from a run that gave a value. -/
def Result.andThen (result : Result σ ε α) (next : α → σ → Result σ ε β) : Result σ ε β :=
  match result with
  | ⟨.ok value, state, events⟩ => (next value state).prepend events
  | ⟨.raised, state, events⟩ => ⟨.raised, state, events⟩
  | ⟨.unfinished, state, events⟩ => ⟨.unfinished, state, events⟩

@[simp] theorem Result.andThen_ok (value : α) (state : σ) (events : List ε)
    (next : α → σ → Result σ ε β) :
    (Result.mk (.ok value) state events).andThen next = (next value state).prepend events := rfl
@[simp] theorem Result.andThen_raised (state : σ) (events : List ε)
    (next : α → σ → Result σ ε β) :
    (Result.mk .raised state events).andThen next = ⟨.raised, state, events⟩ := rfl
@[simp] theorem Result.andThen_unfinished (state : σ) (events : List ε)
    (next : α → σ → Result σ ε β) :
    (Result.mk .unfinished state events).andThen next = ⟨.unfinished, state, events⟩ := rfl

/-- Clean up after a run that has ended; its outcome stands. -/
def Result.settle (result : Result σ ε α) (cleanup : σ → Result σ ε Unit) : Result σ ε α :=
  match result with
  | ⟨.ok value, state, events⟩ =>
    ⟨.ok value, (cleanup state).state, events ++ (cleanup state).trace⟩
  | ⟨.raised, state, events⟩ =>
    ⟨.raised, (cleanup state).state, events ++ (cleanup state).trace⟩
  | ⟨.unfinished, state, events⟩ => ⟨.unfinished, state, events⟩

@[simp] theorem Result.settle_ok (value : α) (state : σ) (events : List ε)
    (cleanup : σ → Result σ ε Unit) :
    (Result.mk (.ok value) state events).settle cleanup =
      ⟨.ok value, (cleanup state).state, events ++ (cleanup state).trace⟩ := rfl
@[simp] theorem Result.settle_raised (state : σ) (events : List ε)
    (cleanup : σ → Result σ ε Unit) :
    (Result.mk .raised state events : Result σ ε α).settle cleanup =
      ⟨.raised, (cleanup state).state, events ++ (cleanup state).trace⟩ := rfl
@[simp] theorem Result.settle_unfinished (state : σ) (events : List ε)
    (cleanup : σ → Result σ ε Unit) :
    (Result.mk .unfinished state events : Result σ ε α).settle cleanup =
      ⟨.unfinished, state, events⟩ := rfl

structure Traced (σ ε α : Type) where
  run : σ → Result σ ε α

namespace Traced

instance : Monad (Traced σ ε) where
  pure value := ⟨fun state => ⟨.ok value, state, []⟩⟩
  bind program next := ⟨fun state => (program.run state).andThen fun value => (next value).run⟩

@[simp] theorem run_pure (value : α) (state : σ) :
    (pure value : Traced σ ε α).run state = ⟨.ok value, state, []⟩ := rfl

@[simp] theorem run_bind (program : Traced σ ε α) (next : α → Traced σ ε β) (state : σ) :
    (program >>= next).run state =
      (program.run state).andThen fun value => (next value).run := rfl

/-! ## Primitives -/

/-- Log one event. -/
def emit (event : ε) : Traced σ ε Unit := ⟨fun state => ⟨.ok (), state, [event]⟩⟩

def modifyState (change : σ → σ) : Traced σ ε Unit := ⟨fun state => ⟨.ok (), change state, []⟩⟩

def getState : Traced σ ε σ := ⟨fun state => ⟨.ok state, state, []⟩⟩

/-- A call that gives a value and changes the state. -/
def act (change : σ → α × σ) : Traced σ ε α :=
  ⟨fun state => ⟨.ok (change state).1, (change state).2, []⟩⟩

/-- Leave by an exception. -/
def raise : Traced σ ε α := ⟨fun state => ⟨.raised, state, []⟩⟩

/-- The step budget is used up. -/
def outOfSteps : Traced σ ε α := ⟨fun state => ⟨.unfinished, state, []⟩⟩

/-- Take over an outcome that was computed elsewhere. -/
def ofOutcome (outcome : Outcome α) : Traced σ ε α := ⟨fun state => ⟨outcome, state, []⟩⟩

@[simp] theorem run_emit (event : ε) (state : σ) :
    (emit event).run state = ⟨.ok (), state, [event]⟩ := rfl
@[simp] theorem run_modifyState (change : σ → σ) (state : σ) :
    (modifyState change : Traced σ ε Unit).run state = ⟨.ok (), change state, []⟩ := rfl
@[simp] theorem run_getState (state : σ) :
    (getState : Traced σ ε σ).run state = ⟨.ok state, state, []⟩ := rfl
@[simp] theorem run_act (change : σ → α × σ) (state : σ) :
    (act change : Traced σ ε α).run state = ⟨.ok (change state).1, (change state).2, []⟩ := rfl
@[simp] theorem run_raise (state : σ) :
    (raise : Traced σ ε α).run state = ⟨.raised, state, []⟩ := rfl
@[simp] theorem run_outOfSteps (state : σ) :
    (outOfSteps : Traced σ ε α).run state = ⟨.unfinished, state, []⟩ := rfl
@[simp] theorem run_ofOutcome (outcome : Outcome α) (state : σ) :
    (ofOutcome outcome : Traced σ ε α).run state = ⟨outcome, state, []⟩ := rfl

theorem ofOutcome_ok_bind (value : α) (next : α → Traced σ ε β) :
    (ofOutcome (.ok value) >>= next : Traced σ ε β) = next value := rfl

theorem ofOutcome_raised_bind (next : α → Traced σ ε β) :
    (ofOutcome .raised >>= next : Traced σ ε β) = raise := rfl

/-- Run a computation on one component of a larger state, with its events tagged,
and log how the call ended. -/
def call (get : τ → σ) (set : σ → τ → τ) (tag : ε → η) (done : Outcome α → List η)
    (program : Traced σ ε α) : Traced τ η α :=
  ⟨fun state =>
    let result := program.run (get state)
    ⟨result.outcome, set result.state state, result.trace.map tag ++ done result.outcome⟩⟩

@[simp] theorem run_call (get : τ → σ) (set : σ → τ → τ) (tag : ε → η)
    (done : Outcome α → List η) (program : Traced σ ε α) (state : τ) :
    (program.call get set tag done).run state =
      ⟨(program.run (get state)).outcome, set (program.run (get state)).state state,
        (program.run (get state)).trace.map tag ++ done (program.run (get state)).outcome⟩ := rfl

/-- Run `cleanup` after `program`, whether `program` gives a value or raises; the outcome
is that of `program`. -/
def ensure (program : Traced σ ε α) (cleanup : Traced σ ε Unit) : Traced σ ε α :=
  ⟨fun state => (program.run state).settle cleanup.run⟩

@[simp] theorem run_ensure (program : Traced σ ε α) (cleanup : Traced σ ε Unit) (state : σ) :
    (program.ensure cleanup).run state = (program.run state).settle cleanup.run := rfl

/-- A loop over a list whose body gives no value. -/
def forEach (body : α → Traced σ ε Unit) : List α → Traced σ ε Unit
  | [] => pure ()
  | item :: items => do
    body item
    forEach body items

/-- The events of a sequence are those of its first part and, where that gives a value,
those of the second. -/
theorem mem_trace_bind_iff {program : Traced σ ε α} {next : α → Traced σ ε β} {state : σ}
    {event : ε} :
    event ∈ ((program >>= next).run state).trace ↔
      event ∈ (program.run state).trace ∨
        ∃ value between events, program.run state = ⟨.ok value, between, events⟩ ∧
          event ∈ ((next value).run between).trace := by
  rw [run_bind]
  cases program.run state with
  | mk outcome left events =>
    cases outcome with
    | ok value => simp
    | raised | unfinished => simp

theorem mem_trace_bind {program : Traced σ ε α} {next : α → Traced σ ε β} {state : σ} {event : ε}
    (member : event ∈ (program.run state).trace) :
    event ∈ ((program >>= next).run state).trace := mem_trace_bind_iff.mpr (.inl member)

/-! ## Inversion of runs that give a value -/

theorem pure_ok_iff {value result : α} {state final : σ} {trace : List ε} :
    (pure value : Traced σ ε α).run state = ⟨.ok result, final, trace⟩ ↔
      value = result ∧ state = final ∧ trace = [] := by
  simp [eq_comm]

/-- A sequence gives a value exactly when both parts do; the traces are appended. -/
theorem bind_ok_iff {program : Traced σ ε α} {next : α → Traced σ ε β} {state final : σ}
    {value : β} {trace : List ε} :
    (program >>= next).run state = ⟨.ok value, final, trace⟩ ↔
      ∃ middle between first second,
        program.run state = ⟨.ok middle, between, first⟩ ∧
        (next middle).run between = ⟨.ok value, final, second⟩ ∧ trace = first ++ second := by
  rw [run_bind]
  constructor
  · intro ran
    match result : program.run state with
    | ⟨.ok middle, between, first⟩ =>
      rw [result, Result.andThen_ok] at ran
      refine ⟨middle, between, first, ((next middle).run between).trace, rfl, ?_, ?_⟩
      · cases after : (next middle).run between
        simp_all [Result.prepend]
      · exact (congrArg Result.trace ran).symm
    | ⟨.raised, _, _⟩ => simp [result] at ran
    | ⟨.unfinished, _, _⟩ => simp [result] at ran
  · rintro ⟨middle, between, first, second, ran, continued, rfl⟩
    rw [ran, Result.andThen_ok, continued]
    rfl

theorem call_ok_iff {get : τ → σ} {set : σ → τ → τ} {tag : ε → η} {done : Outcome α → List η}
    {program : Traced σ ε α} {state final : τ} {value : α} {trace : List η} :
    (program.call get set tag done).run state = ⟨.ok value, final, trace⟩ ↔
      ∃ left events, program.run (get state) = ⟨.ok value, left, events⟩ ∧
        final = set left state ∧ trace = events.map tag ++ done (.ok value) := by
  rw [run_call]
  cases program.run (get state) with
  | mk outcome left events =>
    simp only [Result.mk.injEq]
    constructor
    · rintro ⟨rfl, rfl, rfl⟩
      exact ⟨left, events, ⟨rfl, rfl, rfl⟩, rfl, rfl⟩
    · rintro ⟨left', events', ⟨rfl, rfl, rfl⟩, rfl, rfl⟩
      exact ⟨rfl, rfl, rfl⟩

theorem ensure_ok_iff {program : Traced σ ε α} {cleanup : Traced σ ε Unit} {state final : σ}
    {value : α} {trace : List ε} :
    (program.ensure cleanup).run state = ⟨.ok value, final, trace⟩ ↔
      ∃ left events, program.run state = ⟨.ok value, left, events⟩ ∧
        final = (cleanup.run left).state ∧ trace = events ++ (cleanup.run left).trace := by
  rw [run_ensure]
  cases program.run state with
  | mk outcome left events =>
    cases outcome with
    | ok result =>
      simp only [Result.settle_ok, Result.mk.injEq, Outcome.ok.injEq]
      constructor
      · rintro ⟨rfl, rfl, rfl⟩
        exact ⟨left, events, ⟨rfl, rfl, rfl⟩, rfl, rfl⟩
      · rintro ⟨left', events', ⟨rfl, rfl, rfl⟩, rfl, rfl⟩
        exact ⟨rfl, rfl, rfl⟩
    | raised | unfinished => simp

/-! ## Runs without their events -/

/-- The program gives this value and leaves this state. -/
def Gives (program : Traced σ ε α) (state : σ) (value : α) (final : σ) : Prop :=
  ∃ events, program.run state = ⟨.ok value, final, events⟩

theorem gives_iff {program : Traced σ ε α} {state final : σ} {value : α} :
    Gives program state value final ↔
      (program.run state).outcome = .ok value ∧ (program.run state).state = final := by
  rw [Gives]
  cases program.run state with
  | mk outcome left events => simp

theorem Gives.unique {program : Traced σ ε α} {state final final' : σ} {value value' : α}
    (gives : Gives program state value final) (again : Gives program state value' final') :
    value = value' ∧ final = final' := by
  obtain ⟨outcome, left⟩ := gives_iff.mp gives
  obtain ⟨outcome', left'⟩ := gives_iff.mp again
  exact ⟨Outcome.ok.inj (outcome.symm.trans outcome'), left.symm.trans left'⟩

@[simp] theorem gives_pure_iff {value result : α} {state final : σ} :
    Gives (pure value : Traced σ ε α) state result final ↔ result = value ∧ final = state := by
  simp [Gives, eq_comm]

theorem gives_bind_iff {program : Traced σ ε α} {next : α → Traced σ ε β} {state final : σ}
    {value : β} :
    Gives (program >>= next) state value final ↔
      ∃ middle between, Gives program state middle between ∧
        Gives (next middle) between value final := by
  constructor
  · intro ⟨events, ran⟩
    obtain ⟨middle, between, first, second, ran, continued, -⟩ := bind_ok_iff.mp ran
    exact ⟨middle, between, ⟨first, ran⟩, ⟨second, continued⟩⟩
  · intro ⟨middle, between, ⟨first, ran⟩, ⟨second, continued⟩⟩
    exact ⟨first ++ second, bind_ok_iff.mpr ⟨_, _, _, _, ran, continued, rfl⟩⟩

/-- A sequence whose first part gives no information. -/
theorem gives_seq_iff {program : Traced σ ε Unit} {next : Unit → Traced σ ε β} {state final : σ}
    {value : β} :
    Gives (program >>= next) state value final ↔
      ∃ between, Gives program state () between ∧ Gives (next ()) between value final := by
  rw [gives_bind_iff]
  exact ⟨fun ⟨_, between, both⟩ => ⟨between, both⟩, fun ⟨between, both⟩ => ⟨(), between, both⟩⟩

@[simp] theorem gives_emit_iff {event : ε} {value : Unit} {state final : σ} :
    Gives (emit event) state value final ↔ final = state := by
  simp [Gives, eq_comm]

@[simp] theorem gives_modifyState_iff {change : σ → σ} {value : Unit} {state final : σ} :
    Gives (modifyState change : Traced σ ε Unit) state value final ↔ final = change state := by
  simp [Gives, eq_comm]

@[simp] theorem gives_getState_iff {value state final : σ} :
    Gives (getState : Traced σ ε σ) state value final ↔ value = state ∧ final = state := by
  simp [Gives, eq_comm]

@[simp] theorem gives_ofOutcome_iff {outcome : Outcome α} {value : α} {state final : σ} :
    Gives (ofOutcome outcome : Traced σ ε α) state value final ↔
      outcome = .ok value ∧ final = state := by
  simp [Gives, eq_comm]

@[simp] theorem not_gives_raise {value : α} {state final : σ} :
    ¬ Gives (raise : Traced σ ε α) state value final := by
  simp [Gives]

@[simp] theorem not_gives_outOfSteps {value : α} {state final : σ} :
    ¬ Gives (outOfSteps : Traced σ ε α) state value final := by
  simp [Gives]

/-- A loop that comes to its end has gone through each of its items, and has logged what
happened there. -/
theorem ran_of_forEach {body : α → Traced σ ε Unit} {items : List α} {state final : σ}
    {trace : List ε} (ran : (forEach body items).run state = ⟨.ok (), final, trace⟩) :
    ∀ item ∈ items, ∃ before after events,
      (body item).run before = ⟨.ok (), after, events⟩ ∧ events ⊆ trace := by
  induction items generalizing state trace with
  | nil => exact List.forall_mem_nil _
  | cons item items ih =>
    rw [forEach] at ran
    obtain ⟨_, between, first, second, here, rest, rfl⟩ := bind_ok_iff.mp ran
    refine List.forall_mem_cons.mpr ⟨⟨state, between, first, here, ?_⟩, fun other member => ?_⟩
    · exact List.subset_append_left first second
    · obtain ⟨before, after, events, there, logged⟩ := ih rest other member
      exact ⟨before, after, events, there, fun event inside =>
        List.mem_append_right first (logged inside)⟩

theorem gives_of_forEach {body : α → Traced σ ε Unit} {items : List α} {state final : σ}
    (gives : Gives (forEach body items) state () final) :
    ∀ item ∈ items, ∃ before after, Gives (body item) before () after := by
  intro item member
  obtain ⟨_, ran⟩ := gives
  obtain ⟨before, after, events, ran, -⟩ := ran_of_forEach ran item member
  exact ⟨before, after, events, ran⟩

/-! ## Ways to end without a value -/

inductive Failure where
  | raised | unfinished
  deriving DecidableEq, Repr

def Failure.outcome : Failure → Outcome α
  | raised => .raised
  | unfinished => .unfinished

theorem Failure.ok_ne (failure : Failure) (value : α) : Outcome.ok value ≠ failure.outcome := by
  cases failure with
  | raised | unfinished => exact nofun

/-- No run of `program` ends in this way. -/
def Avoids (failure : Failure) (program : Traced σ ε α) : Prop :=
  ∀ state, (program.run state).outcome ≠ failure.outcome

def NeverRaises (program : Traced σ ε α) : Prop :=
  ∀ state, (program.run state).outcome ≠ .raised

section Avoids

variable {failure : Failure}

theorem avoids_pure (value : α) : Avoids failure (pure value : Traced σ ε α) :=
  fun _ => failure.ok_ne value

theorem avoids_emit (event : ε) : Avoids failure (emit event : Traced σ ε Unit) :=
  fun _ => failure.ok_ne ()

theorem avoids_modifyState (change : σ → σ) :
    Avoids failure (modifyState change : Traced σ ε Unit) := fun _ => failure.ok_ne ()

theorem avoids_getState : Avoids failure (getState : Traced σ ε σ) := fun _ => failure.ok_ne _

theorem avoids_ofOutcome {outcome : Outcome α} (returns : outcome ≠ failure.outcome) :
    Avoids failure (ofOutcome outcome : Traced σ ε α) := fun _ => returns

theorem avoids_raise (other : failure ≠ .raised) :
    Avoids failure (raise : Traced σ ε α) := by
  cases failure with
  | raised => exact absurd rfl other
  | unfinished => exact fun _ => nofun

theorem avoids_outOfSteps (other : failure ≠ .unfinished) :
    Avoids failure (outOfSteps : Traced σ ε α) := by
  cases failure with
  | raised => exact fun _ => nofun
  | unfinished => exact absurd rfl other

theorem avoids_bind {program : Traced σ ε α} {next : α → Traced σ ε β}
    (first : Avoids failure program) (second : ∀ value, Avoids failure (next value)) :
    Avoids failure (program >>= next) := by
  intro state
  have here := first state
  rw [run_bind]
  cases ran : program.run state with
  | mk outcome between events =>
    rw [ran] at here
    cases outcome with
    | ok value => exact second value between
    | raised =>
      cases failure with
      | raised => exact absurd rfl here
      | unfinished => exact nofun
    | unfinished =>
      cases failure with
      | raised => exact nofun
      | unfinished => exact absurd rfl here

theorem avoids_forEach {body : α → Traced σ ε Unit} {items : List α}
    (each : ∀ item ∈ items, Avoids failure (body item)) : Avoids failure (forEach body items) := by
  induction items with
  | nil => exact avoids_pure ()
  | cons item items ih =>
    rw [List.forall_mem_cons] at each
    exact avoids_bind each.1 fun _ => ih each.2

end Avoids

/-! ## Properties of every event of every run -/

/-- Every event of every run of `program` satisfies `P`, also in the runs that do
not give a value. -/
def Emits (P : ε → Prop) (program : Traced σ ε α) : Prop :=
  ∀ state, ∀ event ∈ (program.run state).trace, P event

section Emits

variable {P : ε → Prop}

theorem emits_pure (value : α) : Emits P (pure value : Traced σ ε α) := by
  intro state event member
  simp at member

theorem emits_emit {event : ε} (holds : P event) : Emits P (emit event : Traced σ ε Unit) := by
  intro state logged member
  simp only [run_emit, List.mem_singleton] at member
  exact member ▸ holds

theorem emits_act (change : σ → α × σ) : Emits P (act change : Traced σ ε α) := by
  intro state event member
  simp at member

theorem emits_getState : Emits P (getState : Traced σ ε σ) := by
  intro state event member
  simp at member

theorem emits_modifyState (change : σ → σ) : Emits P (modifyState change : Traced σ ε Unit) := by
  intro state event member
  simp at member

theorem emits_raise : Emits P (raise : Traced σ ε α) := by
  intro state event member
  simp at member

theorem emits_outOfSteps : Emits P (outOfSteps : Traced σ ε α) := by
  intro state event member
  simp at member

theorem emits_ofOutcome (outcome : Outcome α) : Emits P (ofOutcome outcome : Traced σ ε α) := by
  intro state event member
  simp at member

theorem emits_bind {program : Traced σ ε α} {next : α → Traced σ ε β}
    (first : Emits P program) (second : ∀ value, Emits P (next value)) :
    Emits P (program >>= next) := by
  intro state event member
  rcases mem_trace_bind_iff.mp member with member | ⟨value, between, _, _, member⟩
  · exact first state event member
  · exact second value between event member

theorem emits_forEach {body : α → Traced σ ε Unit} (each : ∀ item, Emits P (body item))
    (items : List α) : Emits P (forEach body items) := by
  induction items with
  | nil => exact emits_pure ()
  | cons item items ih => exact emits_bind (each item) fun _ => ih

theorem emits_ensure {program : Traced σ ε α} {cleanup : Traced σ ε Unit}
    (first : Emits P program) (second : Emits P cleanup) : Emits P (program.ensure cleanup) := by
  intro state event member
  rw [run_ensure] at member
  match result : program.run state with
  -- the cleanup runs in both of these cases, and only in these
  | ⟨.ok _, left, events⟩ | ⟨.raised, left, events⟩ =>
    simp only [result, Result.settle, List.mem_append] at member
    rcases member with member | member
    · exact first state event (by rw [result]; exact member)
    · exact second left event member
  | ⟨.unfinished, left, events⟩ =>
    rw [result] at member
    exact first state event (by rw [result]; exact member)

theorem emits_call {Q : η → Prop} {get : τ → σ} {set : σ → τ → τ} {tag : ε → η}
    {done : Outcome α → List η} {program : Traced σ ε α}
    (inner : Emits (fun event => Q (tag event)) program)
    (ended : ∀ outcome, ∀ event ∈ done outcome, Q event) :
    Emits Q (program.call get set tag done) := by
  intro state event member
  rw [run_call, List.mem_append, List.mem_map] at member
  rcases member with ⟨logged, member, rfl⟩ | member
  · exact inner _ logged member
  · exact ended _ event member

end Emits

/-! ## What a run logs of one kind -/

/-- The events of a kind that a run logs satisfy `P`, in their order and however the run ends. -/
def Logs (pick : ε → Option η) (P : List η → Prop) (program : Traced σ ε α) : Prop :=
  ∀ state, P ((program.run state).trace.filterMap pick)

section Logs

variable {pick : ε → Option η} {P Q R : List η → Prop}

theorem Emits.logs {program : Traced σ ε α} (emits : Emits (fun event => pick event = none) program)
    (nothing : P []) : Logs pick P program := by
  intro state
  rw [List.filterMap_eq_nil_iff.mpr (emits state)]
  exact nothing

theorem logs_emit {event : ε} (holds : P (pick event).toList) :
    Logs pick P (emit event : Traced σ ε Unit) := by
  intro state
  rw [run_emit, List.filterMap_cons, List.filterMap_nil]
  cases picked : pick event with
  | none => simpa [picked] using holds
  | some logged => simpa [picked] using holds

/-- The second part may not be reached. -/
theorem logs_bind {program : Traced σ ε α} {next : α → Traced σ ε β} (first : Logs pick P program)
    (second : ∀ value, Logs pick Q (next value)) (nothing : Q [])
    (both : ∀ before after, P before → Q after → R (before ++ after)) :
    Logs pick R (program >>= next) := by
  intro state
  have here := first state
  rw [run_bind]
  cases ran : program.run state with
  | mk outcome between events =>
    rw [ran] at here
    cases outcome with
    | ok value =>
      rw [Result.andThen_ok, Result.prepend_trace, List.filterMap_append]
      exact both _ _ here (second value between)
    | raised | unfinished =>
      have alone := both _ _ here nothing
      rwa [List.append_nil] at alone

theorem logs_bind_right {program : Traced σ ε α} {next : α → Traced σ ε β}
    (first : Emits (fun event => pick event = none) program)
    (second : ∀ value, Logs pick P (next value)) (nothing : P []) :
    Logs pick P (program >>= next) := by
  refine logs_bind (first.logs rfl : Logs pick (· = []) program) second nothing ?_
  rintro before after rfl holds
  exact holds

theorem logs_bind_left {program : Traced σ ε α} {next : α → Traced σ ε β}
    (first : Logs pick P program)
    (second : ∀ value, Emits (fun event => pick event = none) (next value)) :
    Logs pick P (program >>= next) := by
  have silent : ∀ value, Logs pick (· = []) (next value) := fun value => (second value).logs rfl
  refine logs_bind first silent rfl ?_
  rintro before after holds rfl
  rwa [List.append_nil]

end Logs

/-! ## What no run changes -/

/-- No run of `program` changes the part of the state that `view` shows, however it ends. -/
def Keeps {ρ : Type} (view : σ → ρ) (program : Traced σ ε α) : Prop :=
  ∀ state, view (program.run state).state = view state

section Keeps

variable {ρ : Type} {view : σ → ρ}

theorem keeps_pure (value : α) : Keeps view (pure value : Traced σ ε α) := fun _ => rfl

theorem keeps_emit (event : ε) : Keeps view (emit event : Traced σ ε Unit) := fun _ => rfl

theorem keeps_act {change : σ → α × σ} (kept : ∀ state, view (change state).2 = view state) :
    Keeps view (act change : Traced σ ε α) := kept

theorem keeps_bind {program : Traced σ ε α} {next : α → Traced σ ε β}
    (first : Keeps view program) (second : ∀ value, Keeps view (next value)) :
    Keeps view (program >>= next) := by
  intro state
  have kept := first state
  rw [run_bind]
  match result : program.run state with
  | ⟨.ok value, between, _⟩ =>
    rw [result] at kept
    exact (second value between).trans kept
  | ⟨.raised, between, _⟩ | ⟨.unfinished, between, _⟩ =>
    rw [result] at kept
    exact kept

theorem keeps_call {get : τ → σ} {set : σ → τ → τ} {tag : ε → η} {done : Outcome α → List η}
    {shown : τ → ρ} (kept : ∀ left state, shown (set left state) = shown state)
    (program : Traced σ ε α) : Keeps shown (program.call get set tag done) :=
  fun state => kept _ state

theorem keeps_ensure {program : Traced σ ε α} {cleanup : Traced σ ε Unit}
    (first : Keeps view program) (second : Keeps view cleanup) :
    Keeps view (program.ensure cleanup) := by
  intro state
  have kept := first state
  rw [run_ensure]
  match result : program.run state with
  | ⟨.ok _, left, _⟩ | ⟨.raised, left, _⟩ =>
    rw [result] at kept
    exact (second left).trans kept
  | ⟨.unfinished, left, _⟩ =>
    rw [result] at kept
    exact kept

end Keeps

end Traced

end MyappsCommon.Lib
