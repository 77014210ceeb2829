import Mathlib.Tactic.Common

/-! # Componentwise gates

A gate is a Boolean comparison of two records.  `get` presents a record by its
components, indexed by a type `ι` of component names; the order a gate is meant
to decide is the product order of the components.
-/

namespace MyappsCommon.Lib.Gate

variable {V ι κ : Type} [LE κ]

/-- Every component of `first` is at most the same component of `second`. -/
def AtMost (get : V → ι → κ) (first second : V) : Prop :=
  ∀ component, get first component ≤ get second component

/-- The gate decides the product order on this pair. -/
def ExactAt (get : V → ι → κ) (gate : V → V → Bool) (first second : V) : Prop :=
  gate first second = true ↔ AtMost get first second

/-- The gate is the product order, hence a partial order, on the values in use. -/
structure OrderOn (get : V → ι → κ) (gate : V → V → Bool) (inUse : V → Prop) : Prop where
  refl : ∀ a, inUse a → gate a a = true
  trans : ∀ a b c, inUse a → inUse b → inUse c →
    gate a b = true → gate b c = true → gate a c = true
  antisymm : ∀ a b, inUse a → inUse b → gate a b = true → gate b a = true → a = b
  exact : ∀ a b, inUse a → inUse b → ExactAt get gate a b
  refuses : ∀ a b, inUse a → inUse b → (∃ component, ¬ get a component ≤ get b component) →
    gate a b = false

/-- What a compatibility gate owes to a pair of a peer and a local record. -/
structure LawfulAt (get : V → ι → κ) (gate : V → V → Bool) (peer localValue : V) : Prop where
  exact : ExactAt get gate peer localValue
  refuses : (∃ component, ¬ get peer component ≤ get localValue component) →
    gate peer localValue = false
  monotone : ∀ lowered raised, AtMost get lowered peer → AtMost get localValue raised →
    gate peer localValue = true → gate lowered raised = true

variable {get : V → ι → κ} {gate : V → V → Bool}

theorem refuses_of_exactAt {first second : V} (exact : ExactAt get gate first second)
    (above : ∃ component, ¬ get first component ≤ get second component) :
    gate first second = false := by
  obtain ⟨component, above⟩ := above
  rw [← Bool.not_eq_true]
  exact fun accepted => above (exact.mp accepted component)

section PartialOrder

variable [Std.IsPartialOrder κ]

theorem AtMost.refl (value : V) : AtMost get value value := fun _ => Std.le_refl _

theorem AtMost.trans {first second third : V} (left : AtMost get first second)
    (right : AtMost get second third) : AtMost get first third :=
  fun component => Std.le_trans (left component) (right component)

theorem AtMost.antisymm
    (injective : ∀ a b, (∀ component, get a component = get b component) → a = b)
    {first second : V} (left : AtMost get first second) (right : AtMost get second first) :
    first = second :=
  injective _ _ fun component => Std.le_antisymm (left component) (right component)

/-- Exactness on the values in use is the whole of `OrderOn`: the order laws are
those of the product order. -/
theorem orderOn_iff_exact
    (injective : ∀ a b, (∀ component, get a component = get b component) → a = b)
    (inUse : V → Prop) :
    OrderOn get gate inUse ↔ ∀ a b, inUse a → inUse b → ExactAt get gate a b := by
  refine ⟨OrderOn.exact, fun exact => ?_⟩
  constructor
  case refl =>
    intro a ha
    exact (exact a a ha ha).mpr (AtMost.refl a)
  case trans =>
    intro a b c ha hb hc left right
    have leftAtMost := (exact a b ha hb).mp left
    have rightAtMost := (exact b c hb hc).mp right
    exact (exact a c ha hc).mpr (leftAtMost.trans rightAtMost)
  case antisymm =>
    intro a b ha hb left right
    exact AtMost.antisymm injective ((exact a b ha hb).mp left) ((exact b a hb ha).mp right)
  case exact => exact exact
  case refuses =>
    intro a b ha hb above
    exact refuses_of_exactAt (exact a b ha hb) above

/-- A gate that is exact on every pair is lawful on every pair. -/
theorem lawfulAt_of_exact (exact : ∀ a b, ExactAt get gate a b) (peer localValue : V) :
    LawfulAt get gate peer localValue where
  exact := exact peer localValue
  refuses := refuses_of_exactAt (exact peer localValue)
  monotone := by
    intro lowered raised below above accepted
    have between := (exact peer localValue).mp accepted
    exact (exact lowered raised).mpr (below.trans (between.trans above))

end PartialOrder

/-- For a monotone gate only exactness is left to check. -/
theorem lawfulAt_iff_exactAt {peer localValue : V}
    (monotone : ∀ lowered raised, AtMost get lowered peer → AtMost get localValue raised →
      gate peer localValue = true → gate lowered raised = true) :
    LawfulAt get gate peer localValue ↔ ExactAt get gate peer localValue :=
  ⟨LawfulAt.exact, fun exact => ⟨exact, refuses_of_exactAt exact, monotone⟩⟩

end MyappsCommon.Lib.Gate
