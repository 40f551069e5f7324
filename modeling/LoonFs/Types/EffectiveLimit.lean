import Mathlib.Tactic.Common

/-! # Page sizes -/

namespace LoonFs

/-- A page size, which is never zero. -/
structure EffectiveLimit where
  value : Nat
  positive : 0 < value

end LoonFs
