import MyappsCommon.Lib.Traced

/-! # Programs that run alike

Two programs over different states run alike when, from related states, they end in the same
way, log the same and leave related states.  The rules are those of the programs' parts, so that
a program is carried over from one kind of state to another along its text.
-/

namespace MyappsCommon.Lib

variable {σ τ σ' τ' ε η α β : Type}

/-- Two runs that differ in their states only, and these are related. -/
structure Result.Alike (related : σ → τ → Prop) (first : Result σ ε α) (second : Result τ ε α) :
    Prop where
  outcome : first.outcome = second.outcome
  trace : first.trace = second.trace
  state : related first.state second.state

theorem Result.Alike.mono {related related' : σ → τ → Prop} {first : Result σ ε α}
    {second : Result τ ε α} (alike : first.Alike related second)
    (weaker : ∀ state state', related state state' → related' state state') :
    first.Alike related' second :=
  ⟨alike.outcome, alike.trace, weaker _ _ alike.state⟩

namespace Traced

/-- From related states two programs run alike. -/
def Alike (related : σ → τ → Prop) (program : Traced σ ε α) (other : Traced τ ε α) : Prop :=
  ∀ state state', related state state' →
    (program.run state).Alike related (other.run state')

variable {related : σ → τ → Prop}

theorem alike_pure (value : α) :
    Alike related (pure value : Traced σ ε α) (pure value : Traced τ ε α) :=
  fun _ _ same => ⟨rfl, rfl, same⟩

theorem alike_emit (event : ε) :
    Alike related (emit event : Traced σ ε Unit) (emit event : Traced τ ε Unit) :=
  fun _ _ same => ⟨rfl, rfl, same⟩

theorem alike_modifyState {change : σ → σ} {change' : τ → τ}
    (kept : ∀ state state', related state state' → related (change state) (change' state')) :
    Alike related (modifyState change : Traced σ ε Unit) (modifyState change' : Traced τ ε Unit) :=
  fun state state' same => ⟨rfl, rfl, kept state state' same⟩

/-- Calls that give the same and leave related states. -/
theorem alike_act {change : σ → α × σ} {change' : τ → α × τ}
    (answers : ∀ state state', related state state' →
      (change state).1 = (change' state').1 ∧ related (change state).2 (change' state').2) :
    Alike related (act change : Traced σ ε α) (act change' : Traced τ ε α) :=
  fun state state' same =>
    ⟨congrArg Outcome.ok (answers state state' same).1, rfl, (answers state state' same).2⟩

theorem alike_bind {program : Traced σ ε α} {other : Traced τ ε α} {next : α → Traced σ ε β}
    {next' : α → Traced τ ε β} (first : Alike related program other)
    (rest : ∀ value, Alike related (next value) (next' value)) :
    Alike related (program >>= next) (other >>= next') := by
  intro state state' same
  rw [run_bind, run_bind]
  have alike := first state state' same
  revert alike
  obtain ⟨outcome, left, events⟩ := program.run state
  obtain ⟨outcome', left', events'⟩ := other.run state'
  rintro ⟨rfl, rfl, between⟩
  cases outcome with
  | ok value =>
    obtain ⟨ends, logs, final⟩ := rest value left left' between
    exact ⟨ends, congrArg (events ++ ·) logs, final⟩
  | raised | unfinished => exact ⟨rfl, rfl, between⟩

/-- What is read of the states may differ, but not what is done with it. -/
theorem alike_getState {next : σ → Traced σ ε α} {next' : τ → Traced τ ε α}
    (rest : ∀ state state', related state state' →
      ((next state).run state).Alike related ((next' state').run state')) :
    Alike related (getState >>= next) (getState >>= next') := by
  intro state state' same
  obtain ⟨ends, logs, left⟩ := rest state state' same
  exact ⟨ends, logs, left⟩

theorem alike_ensure {program : Traced σ ε α} {other : Traced τ ε α} {cleanup : Traced σ ε Unit}
    {cleanup' : Traced τ ε Unit} (first : Alike related program other)
    (last : Alike related cleanup cleanup') :
    Alike related (program.ensure cleanup) (other.ensure cleanup') := by
  intro state state' same
  rw [run_ensure, run_ensure]
  have alike := first state state' same
  revert alike
  obtain ⟨outcome, left, events⟩ := program.run state
  obtain ⟨outcome', left', events'⟩ := other.run state'
  rintro ⟨rfl, rfl, between⟩
  obtain ⟨-, logs, final⟩ := last left left' between
  cases outcome with
  | ok value => exact ⟨rfl, congrArg (events ++ ·) logs, final⟩
  | raised => exact ⟨rfl, congrArg (events ++ ·) logs, final⟩
  | unfinished => exact ⟨rfl, rfl, between⟩

/-- A call on one component of larger states that are related when the components are. -/
theorem alike_call {outer : σ' → τ' → Prop} {get : σ' → σ} {get' : τ' → τ} {set : σ → σ' → σ'}
    {set' : τ → τ' → τ'} {tag : ε → η} {done : Outcome α → List η} {program : Traced σ ε α}
    {other : Traced τ ε α} (inner : Alike related program other)
    (reads : ∀ state state', outer state state' → related (get state) (get' state'))
    (writes : ∀ state state' left left', outer state state' → related left left' →
      outer (set left state) (set' left' state')) :
    Alike outer (program.call get set tag done) (other.call get' set' tag done) := by
  intro state state' same
  obtain ⟨ends, logs, left⟩ := inner _ _ (reads state state' same)
  refine ⟨ends, ?_, writes _ _ _ _ same left⟩
  rw [run_call, run_call, ends, logs]

/-- A run that gives a value is alike to one that gives the same value. -/
theorem Alike.gives {program : Traced σ ε α} {other : Traced τ ε α}
    (alike : Alike related program other) {state : σ} {state' final' : τ} {value : α}
    (same : related state state') (gives : Gives other state' value final') :
    ∃ final, Gives program state value final ∧ related final final' := by
  obtain ⟨ends, -, left⟩ := alike state state' same
  obtain ⟨outcome, rfl⟩ := gives_iff.mp gives
  exact ⟨_, gives_iff.mpr ⟨ends.trans outcome, rfl⟩, left⟩

end Traced

end MyappsCommon.Lib
