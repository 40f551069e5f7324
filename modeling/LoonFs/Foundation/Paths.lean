import Mathlib.Logic.Basic

/-! # Labelled paths -/

namespace LoonFs.Foundation

inductive Path (Step : State → Event → State → Prop) : State → List Event → State → Prop
  | nil : Path Step state [] state
  | cons : Step state event next → Path Step next events last →
      Path Step state (event :: events) last

variable {Step : State → Event → State → Prop}

theorem Path.append_iff : Path Step state (first ++ second) last ↔
    ∃ middle, Path Step state first middle ∧ Path Step middle second last := by
  constructor
  · intro path
    induction first generalizing state with
    | nil => exact ⟨state, .nil, path⟩
    | cons event first induction =>
      cases path with
      | cons step path =>
        rcases induction path with ⟨middle, reaches, leaves⟩
        exact ⟨middle, .cons step reaches, leaves⟩
  · rintro ⟨middle, reaches, leaves⟩
    induction reaches with
    | nil => exact leaves
    | cons step _ induction => exact .cons step (induction leaves)

theorem Path.invariant {holds : State → Prop}
    (kept : ∀ state event next, holds state → Step state event next → holds next)
    (path : Path Step state events last) (initial : holds state) : holds last := by
  induction path with
  | nil => exact initial
  | cons step _ induction => exact induction (kept _ _ _ initial step)

end LoonFs.Foundation
