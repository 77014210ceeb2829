import Mathlib.Data.Set.Card

/-! # Labelled graphs

A node has at most one edge of each label, so that a list of labels leads from a node to at
most one node.  Where no node can be reached from itself again, what lies beyond a node gets
smaller with every edge.
-/

namespace MyappsCommon.Lib.Graph

variable {ν κ : Type}

/-- The node at the end of the edges with these labels. -/
def follow (step : ν → κ → Option ν) : ν → List κ → Option ν
  | node, [] => some node
  | node, label :: labels => (step node label).bind fun next => follow step next labels

variable {step : ν → κ → Option ν} {root : ν}

@[simp] theorem follow_nil (node : ν) : follow step node [] = some node := rfl

@[simp] theorem follow_cons (node : ν) (label : κ) (labels : List κ) :
    follow step node (label :: labels) =
      (step node label).bind fun next => follow step next labels := rfl

theorem follow_append (node : ν) (first second : List κ) :
    follow step node (first ++ second) =
      (follow step node first).bind fun next => follow step next second := by
  induction first generalizing node with
  | nil => rfl
  | cons label first ih =>
    rw [List.cons_append, follow_cons, follow_cons, Option.bind_assoc]
    exact Option.bind_congr fun next _ => ih next

theorem follow_append_of_eq {first second : List κ} {node : ν}
    (reached : follow step root first = some node) :
    follow step root (first ++ second) = follow step node second := by
  rw [follow_append, reached, Option.bind_some]

theorem follow_concat {path : List κ} {label : κ} {node next : ν}
    (reached : follow step root path = some node) (edge : step node label = some next) :
    follow step root (path ++ [label]) = some next := by
  rw [follow_append_of_eq reached, follow_cons, edge]
  rfl

/-! ## Returns -/

/-- From no node that is reached a way leads back to it. -/
def NoReturn (step : ν → κ → Option ν) (root : ν) : Prop :=
  ∀ path node, follow step root path = some node →
    ∀ way, follow step node way = some node → way = []

/-- What can be reached by one edge or more. -/
def beyond (step : ν → κ → Option ν) (node : ν) : Set ν :=
  {other | ∃ way, way ≠ [] ∧ follow step node way = some other}

theorem mem_beyond_of_edge {label : κ} {node next : ν} (edge : step node label = some next) :
    next ∈ beyond step node := by
  refine ⟨[label], List.cons_ne_nil _ _, ?_⟩
  rw [follow_cons, edge]
  rfl

theorem beyond_of_edge {label : κ} {node next other : ν} (edge : step node label = some next)
    (further : other ∈ beyond step next) : other ∈ beyond step node := by
  obtain ⟨way, -, ends⟩ := further
  refine ⟨label :: way, List.cons_ne_nil _ _, ?_⟩
  rw [follow_cons, edge]
  exact ends

theorem NoReturn.not_mem_beyond (noReturn : NoReturn step root) {path : List κ} {node : ν}
    (reached : follow step root path = some node) : node ∉ beyond step node := by
  rintro ⟨way, nonempty, back⟩
  exact nonempty (noReturn path node reached way back)

/-- The measure of a descent. -/
theorem ncard_beyond_lt [Finite ν] (noReturn : NoReturn step root) {path : List κ} {label : κ}
    {node next : ν} (reached : follow step root path = some node)
    (edge : step node label = some next) :
    (beyond step next).ncard < (beyond step node).ncard := by
  have left := noReturn.not_mem_beyond (follow_concat reached edge)
  exact Set.ncard_lt_ncard
    ⟨fun _ => beyond_of_edge edge, fun all => left (all (mem_beyond_of_edge edge))⟩

/-- A way back can be gone any number of times. -/
theorem exists_long_path {path way : List κ} {node : ν}
    (reached : follow step root path = some node) (back : follow step node way = some node)
    (nonempty : way ≠ []) (length : Nat) :
    ∃ longer, length ≤ longer.length ∧ follow step root longer = some node := by
  induction length with
  | zero => exact ⟨path, Nat.zero_le _, reached⟩
  | succ length ih =>
    obtain ⟨longer, long, arrives⟩ := ih
    refine ⟨longer ++ way, ?_, ?_⟩
    · have positive := List.length_pos_iff.mpr nonempty
      rw [List.length_append]
      omega
    · rw [follow_append_of_eq arrives, back]

theorem noReturn_of_bounded {bound : Nat}
    (bounded : ∀ path node, follow step root path = some node → path.length ≤ bound) :
    NoReturn step root := by
  intro path node reached way back
  by_contra nonempty
  obtain ⟨longer, long, arrives⟩ := exists_long_path reached back nonempty (bound + 1)
  have short := bounded longer node arrives
  omega

/-! ## One way to each node -/

/-- The nodes in question are reached by one path each. -/
def OnePath (step : ν → κ → Option ν) (root : ν) (relevant : ν → Prop) : Prop :=
  ∀ first second node, follow step root first = some node → follow step root second = some node →
    relevant node → first = second

/-- A node with a way back is reached by two paths. -/
theorem noReturn_of_onePath {relevant : ν → Prop} (onePath : OnePath step root relevant)
    (leaves : ∀ node label next, step node label = some next → relevant node) :
    NoReturn step root := by
  intro path node reached way back
  cases way with
  | nil => rfl
  | cons label way =>
    obtain ⟨next, edge, -⟩ := Option.bind_eq_some_iff.mp back
    have again : follow step root (path ++ label :: way) = some node := by
      rw [follow_append_of_eq reached, back]
    have same := onePath _ _ node reached again (leaves node label next edge)
    exact absurd (List.self_eq_append_right.mp same) (List.cons_ne_nil _ _)

end MyappsCommon.Lib.Graph
