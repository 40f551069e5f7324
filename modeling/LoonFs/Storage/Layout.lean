import LoonFs.Format.RowKeys
import LoonFs.Foundation.Outcome
import LoonFs.Foundation.Tiling

/-! # Content layouts -/

namespace LoonFs

open Foundation

/-- Addition of 64-bit numbers that fails where it overflows. -/
def checkedAdd (left right : Nat) : Option Nat :=
  if left + right ≤ u64Max then some (left + right) else none

theorem checkedAdd_eq_some {left right total : Nat} :
    checkedAdd left right = some total ↔ left + right = total ∧ total ≤ u64Max := by
  rw [checkedAdd]
  split
  case isTrue fits =>
    constructor
    · intro eq
      cases eq
      exact ⟨rfl, fits⟩
    · intro ⟨eq, _⟩
      rw [eq]
  case isFalse overflows =>
    constructor
    · intro impossible
      cases impossible
    · intro ⟨eq, fits⟩
      exact absurd (eq ▸ fits) overflows

namespace ContentLayout

def isEmptyChain : List ContentExtent → Bool
  | [extent] => extent.object == .whole && extent.length == 0
  | _ => false

def checkSpan (objectEnd : Nat) : ExtentObject → Except String Unit
  | .whole => .ok ()
  | .span start finish =>
    refuseIf (start ≥ finish ∨ objectEnd > finish - start)
      "extent range must fit within the span"

def checkExtents (sizeBytes length : Nat) : List ContentExtent → Except String Nat
  | [] => .ok length
  | extent :: extents => do
      refuseIf (sizeBytes > 0 ∧ extent.length = 0) "extent lengths must be positive"
      let objectEnd ← orRefuse "extent object range overflows"
        (checkedAdd extent.offset extent.length)
      checkSpan objectEnd extent.object
      let length ← orRefuse "layout length overflows" (checkedAdd length extent.length)
      checkExtents sizeBytes length extents

def validate (layout : ContentLayout) (sizeBytes : Nat) : Except String Unit := do
  refuseIf (sizeBytes = 0 ∧ isEmptyChain layout.extents = false)
    "zero bytes require one whole extent of length zero"
  let length ← checkExtents sizeBytes 0 layout.extents
  refuseIf (length ≠ sizeBytes) "extent lengths must equal the chain size"

def runsFrom (start : Nat) : List ContentExtent → List Foundation.Run
  | [] => []
  | extent :: extents => ⟨start, extent.length⟩ :: runsFrom (start + extent.length) extents

def runs (layout : ContentLayout) : List Foundation.Run := runsFrom 0 layout.extents

theorem runsFrom_tiling (start : Nat) (extents : List ContentExtent) :
    Tiling start (runsFrom start extents) (start + (extents.map ContentExtent.length).sum) := by
  induction extents generalizing start with
  | nil => exact rfl
  | cons extent extents induction =>
    refine ⟨rfl, ?_⟩
    rw [List.map_cons, List.sum_cons, ← Nat.add_assoc]
    exact induction _

theorem runs_tiling (layout : ContentLayout) : Tiling 0 layout.runs layout.sizeBytes := by
  have tiling := runsFrom_tiling 0 layout.extents
  rwa [Nat.zero_add] at tiling

theorem checkExtents_total {sizeBytes length total : Nat} {extents : List ContentExtent}
    (checked : checkExtents sizeBytes length extents = .ok total) :
    total = length + (extents.map ContentExtent.length).sum := by
  induction extents generalizing length with
  | nil =>
    cases checked
    rfl
  | cons extent extents induction =>
    simp only [checkExtents, bind_eq_ok] at checked
    rcases checked with ⟨_, _, _, _, _, _, next, added, checked⟩
    have sum := (checkedAdd_eq_some.mp (orRefuse_eq_ok.mp added)).1
    rw [induction checked, ← sum, List.map_cons, List.sum_cons, Nat.add_assoc]

theorem sizeBytes_of_validate {layout : ContentLayout} {sizeBytes : Nat}
    (isValid : layout.validate sizeBytes = .ok ()) : layout.sizeBytes = sizeBytes := by
  rcases bind_eq_ok.mp isValid with ⟨_, _, isValid⟩
  rcases bind_eq_ok.mp isValid with ⟨total, checked, sameSize⟩
  have eq : total = sizeBytes := not_not.mp (refuseIf_eq_ok.mp sameSize)
  rw [← eq, checkExtents_total checked, Nat.zero_add]
  rfl

end ContentLayout

end LoonFs
