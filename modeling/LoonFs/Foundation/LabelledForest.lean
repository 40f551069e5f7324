import LoonFs.Foundation.ParentForest

/-! # Forests with labelled edges -/

namespace LoonFs.Foundation

variable {Node : Type u} {Label : Type v}

def edgeParent (edge : Node → Option (Node × Label)) (node : Node) : Option Node :=
  (edge node).map Prod.fst

inductive PathOf (edge : Node → Option (Node × Label)) (root : Node) : Node → List Label → Prop
  | root : PathOf edge root root []
  | child {node above label path} : edge node = some (above, label) →
      PathOf edge root above path → PathOf edge root node (path ++ [label])

theorem edgeParent_eq_some {edge : Node → Option (Node × Label)}
    (hangs : edge node = some (above, label)) : edgeParent edge node = some above := by
  simp [edgeParent, hangs]

namespace PathOf

variable {edge : Node → Option (Node × Label)} {root : Node}

theorem atOrBelow (isPath : PathOf edge root node path) :
    AtOrBelow (edgeParent edge) node root := by
  induction isPath with
  | root => exact .refl root
  | child hangs _ induction => exact .head (edgeParent_eq_some hangs) induction

theorem unique (rootTop : edge root = none) (isPath : PathOf edge root node path)
    (isOther : PathOf edge root node other) : path = other := by
  induction isPath generalizing other with
  | root =>
    cases isOther with
    | root => rfl
    | child hangs _ =>
      rw [rootTop] at hangs
      cases hangs
  | child hangs _ induction =>
    cases isOther with
    | root =>
      rw [rootTop] at hangs
      cases hangs
    | child otherHangs rest =>
      rw [hangs] at otherHangs
      cases otherHangs
      rw [induction rest]

end PathOf

theorem exists_pathOf {edge : Node → Option (Node × Label)}
    (below : AtOrBelow (edgeParent edge) node root) : ∃ path, PathOf edge root node path := by
  induction below using Relation.ReflTransGen.head_induction_on with
  | refl => exact ⟨[], .root⟩
  | head pointer _ induction =>
    rcases induction with ⟨path, isPath⟩
    rcases Option.map_eq_some_iff.mp pointer with ⟨⟨above, label⟩, hangs, rfl⟩
    exact ⟨_, .child hangs isPath⟩

section

variable {before after : Node → Option (Node × Label)}

theorem exists_redirected_of_detached (acyclic : Acyclic (edgeParent after))
    (attached : AtOrBelow (edgeParent before) node root)
    (detached : ¬AtOrBelow (edgeParent after) node root) :
    ∃ top, AtOrBelow (edgeParent after) node top ∧
      AtOrBelow (edgeParent before) top root ∧ ¬AtOrBelow (edgeParent after) top root ∧
      before top ≠ after top := by
  rcases acyclic node with ⟨ancestry, chain⟩
  induction chain with
  | @last node top =>
    refine ⟨node, .refl node, attached, detached, ?_⟩
    intro same
    have unplaced : edgeParent before node = none := by rw [← top, edgeParent, same]; rfl
    have isRoot := attached.eq_of_top unplaced
    exact detached (isRoot ▸ .refl node)
  | @step node above rest pointer _ induction =>
    by_cases same : before node = after node
    · have samePointer : edgeParent before node = some above := by
        rw [← pointer, edgeParent, same]
        rfl
      have aboveDetached : ¬AtOrBelow (edgeParent after) above root :=
        fun below => detached (.head pointer below)
      rcases attached.cases with isRoot | ⟨other, otherPointer, aboveAttached⟩
      · exact absurd (isRoot ▸ .refl node) detached
      · rw [samePointer] at otherPointer
        cases otherPointer
        rcases induction aboveAttached aboveDetached with ⟨top, below, differs⟩
        exact ⟨top, .head pointer below, differs⟩
    · exact ⟨node, .refl node, attached, detached, same⟩

theorem exists_redirected_of_path_ne (rootTop : after root = none)
    (isPath : PathOf before root node path) (isOther : PathOf after root node other)
    (differ : path ≠ other) : ∃ top, AtOrBelow (edgeParent before) node top ∧
      AtOrBelow (edgeParent before) top root ∧ AtOrBelow (edgeParent after) top root ∧
      before top ≠ after top := by
  induction isPath generalizing other with
  | root => exact absurd (PathOf.unique rootTop .root isOther) differ
  | @child node above label path hangs rest induction =>
    by_cases same : before node = after node
    · rw [same] at hangs
      cases isOther with
      | root =>
        rw [rootTop] at hangs
        cases hangs
      | @child _ _ _ otherPath otherHangs otherRest =>
        rw [hangs] at otherHangs
        cases otherHangs
        have pathsDiffer : path ≠ otherPath := fun eq => differ (by rw [eq])
        rcases induction otherRest pathsDiffer with ⟨top, below, facts⟩
        exact ⟨top, .head (edgeParent_eq_some (same.trans hangs)) below, facts⟩
    · exact ⟨node, .refl node, (PathOf.child hangs rest).atOrBelow, isOther.atOrBelow, same⟩

end

end LoonFs.Foundation
