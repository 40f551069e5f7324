import LoonFs.Foundation.ParentForest

/-! # Directory trees with recoverable deletions -/

namespace LoonFs.Foundation

open Function

@[ext] structure DirectoryTree (Node : Type u) (Name : Type v) (Stamp : Type w) where
  present : Node → Prop
  directory : Node → Prop
  /-- The slot that holds a node. -/
  place : Node → Option (Node × Name)
  /-- The node in a slot. -/
  occupant : Node × Name → Option Node
  /-- The stamp of a node's own deletion. -/
  deletion : Node → Option Stamp

namespace DirectoryTree

variable {Node : Type u} {Name : Type v} {Stamp : Type w}

section

variable (tree : DirectoryTree Node Name Stamp) (root : Node)

def parent (node : Node) : Option Node := (tree.place node).map Prod.fst

def Covered (node : Node) : Prop :=
  ∃ ancestor, AtOrBelow tree.parent node ancestor ∧ tree.deletion ancestor ≠ none

structure WellFormed : Prop where
  root_directory : tree.directory root
  root_place : tree.place root = none
  root_deletion : tree.deletion root = none
  directory_present : ∀ node, tree.directory node → tree.present node
  occupant_iff : ∀ slot node, tree.occupant slot = some node ↔ tree.place node = some slot
  place_directory : ∀ node slot, tree.place node = some slot → tree.directory slot.1
  place_present : ∀ node slot, tree.place node = some slot → tree.present node
  acyclic : Acyclic tree.parent
  deletion_present : ∀ node, tree.deletion node ≠ none → tree.present node
  deletion_place : ∀ node, tree.deletion node ≠ none → tree.place node = none
  unplaced : ∀ node, tree.present node → node ≠ root → tree.place node = none →
    tree.deletion node ≠ none

end

namespace WellFormed

variable {tree : DirectoryTree Node Name Stamp} {root : Node}

section

variable (wellFormed : tree.WellFormed root)

include wellFormed

theorem parent_present (pointer : tree.parent node = some above) : tree.present above := by
  rcases Option.map_eq_some_iff.mp pointer with ⟨slot, place, eq⟩
  exact eq ▸ wellFormed.directory_present _ (wellFormed.place_directory node slot place)

theorem below_present (isPresent : tree.present node)
    (below : AtOrBelow tree.parent node ancestor) : tree.present ancestor :=
  below.induct isPresent fun _ _ pointer _ => wellFormed.parent_present pointer

theorem exists_top (isPresent : tree.present node) : ∃ top, AtOrBelow tree.parent node top ∧
      (top = root ∨ ∃ stamp, tree.deletion top = some stamp) := by
  rcases wellFormed.acyclic node with ⟨ancestry, chain⟩
  induction chain with
  | @last node top =>
    refine ⟨node, .refl node, ?_⟩
    by_cases isRoot : node = root
    · exact .inl isRoot
    · right
      have unplaced : tree.place node = none := by simpa [parent] using top
      exact Option.ne_none_iff_exists'.mp
        (wellFormed.unplaced node isPresent isRoot unplaced)
  | step pointer _ induction =>
    rcases induction (wellFormed.parent_present pointer) with ⟨top, below, status⟩
    exact ⟨top, .head pointer below, status⟩

theorem parent_root : tree.parent root = none := by simp [parent, wellFormed.root_place]

theorem parent_of_deletion (deleted : tree.deletion node ≠ none) : tree.parent node = none := by
  simp [parent, wellFormed.deletion_place node deleted]

theorem top_unique (leftBelow : AtOrBelow tree.parent node left)
    (leftTop : tree.parent left = none) (rightBelow : AtOrBelow tree.parent node right)
    (rightTop : tree.parent right = none) : left = right := by
  rcases wellFormed.acyclic node with ⟨ancestry, chain⟩
  induction chain with
  | last top => exact (leftBelow.eq_of_top top).symm.trans (rightBelow.eq_of_top top)
  | step pointer _ induction =>
    apply induction
    · rcases leftBelow.cases with eq | ⟨above, otherPointer, rest⟩
      · rw [eq, leftTop] at pointer
        cases pointer
      · rw [pointer] at otherPointer
        cases otherPointer
        exact rest
    · rcases rightBelow.cases with eq | ⟨above, otherPointer, rest⟩
      · rw [eq, rightTop] at pointer
        cases pointer
      · rw [pointer] at otherPointer
        cases otherPointer
        exact rest

theorem not_covered_iff (isPresent : tree.present node) :
    ¬tree.Covered node ↔ AtOrBelow tree.parent node root := by
  constructor
  · intro clear
    rcases wellFormed.exists_top isPresent with ⟨top, below, isRoot | ⟨stamp, deleted⟩⟩
    · exact isRoot ▸ below
    · exact absurd ⟨top, below, by simp [deleted]⟩ clear
  · rintro below ⟨ancestor, belowDeleted, deleted⟩
    have eq := wellFormed.top_unique below wellFormed.parent_root belowDeleted
      (wellFormed.parent_of_deletion deleted)
    exact deleted (eq ▸ wellFormed.root_deletion)

theorem occupant_not_covered (occupies : tree.occupant slot = some node)
    (clear : ¬tree.Covered slot.1) : ¬tree.Covered node := by
  have place := (wellFormed.occupant_iff slot node).mp occupies
  have pointer : tree.parent node = some slot.1 := by simp [parent, place]
  rintro ⟨ancestor, below, deleted⟩
  rcases below.cases with eq | ⟨above, otherPointer, rest⟩
  · subst eq
    rw [wellFormed.parent_of_deletion deleted] at pointer
    cases pointer
  · rw [pointer] at otherPointer
    cases otherPointer
    exact clear ⟨ancestor, rest, deleted⟩

end

end WellFormed

section

variable [DecidableEq Node] [DecidableEq Name]

def relocate (tree : DirectoryTree Node Name Stamp) (node : Node)
    (target : Option (Node × Name)) (stamp : Option Stamp) (isDirectory : Prop) :
    DirectoryTree Node Name Stamp where
  present := fun other => other = node ∨ tree.present other
  directory := fun other => (other = node ∧ isDirectory) ∨ tree.directory other
  place := Function.update tree.place node target
  occupant := fun slot =>
    if target = some slot then some node
    else if tree.place node = some slot then none
    else tree.occupant slot
  deletion := Function.update tree.deletion node stamp

/-- What a move has to respect. -/
structure Relocatable (tree : DirectoryTree Node Name Stamp) (root node : Node)
    (target : Option (Node × Name)) (stamp : Option Stamp) : Prop where
  notRoot : node ≠ root
  placed_or_deleted : target = none ↔ stamp ≠ none
  directory : ∀ slot, target = some slot → tree.directory slot.1
  outside : ∀ slot, target = some slot → ¬AtOrBelow tree.parent slot.1 node
  free : ∀ slot, target = some slot →
    tree.occupant slot = none ∨ tree.occupant slot = some node

variable {tree : DirectoryTree Node Name Stamp}

theorem relocate_parent : (tree.relocate node target stamp isDirectory).parent =
      Function.update tree.parent node (target.map Prod.fst) := by
  funext other
  by_cases same : other = node
  · subst same
    simp [parent, relocate]
  · simp [parent, relocate, same]

theorem relocate_present (isPresent : tree.present node) :
    (tree.relocate node target stamp isDirectory).present = tree.present := by
  funext other
  by_cases same : other = node
  · subst same
    simp [relocate, isPresent]
  · simp [relocate, same]

theorem relocate_directory :
    (tree.relocate node target stamp False).directory = tree.directory := by
  funext other
  simp [relocate]

/-- Only the last of two moves of one node counts, when the first leaves it
outside every slot. -/
theorem relocate_relocate :
    (tree.relocate node none between wasDirectory).relocate node target stamp isDirectory =
      tree.relocate node target stamp (wasDirectory ∨ isDirectory) := by
  apply DirectoryTree.ext
  · funext other
    simp [DirectoryTree.relocate]
  · funext other
    simp only [DirectoryTree.relocate, eq_iff_iff]
    tauto
  · simp [DirectoryTree.relocate]
  · funext slot
    simp [DirectoryTree.relocate]
  · simp [DirectoryTree.relocate]

theorem WellFormed.relocate (wellFormed : tree.WellFormed root)
    (relocatable : tree.Relocatable root node target stamp) :
    (tree.relocate node target stamp isDirectory).WellFormed root where
  root_directory := .inr wellFormed.root_directory
  root_place := (update_of_ne relocatable.notRoot.symm _ _).trans
    wellFormed.root_place
  root_deletion := (update_of_ne relocatable.notRoot.symm _ _).trans
    wellFormed.root_deletion
  directory_present := by
    rintro other (⟨same, _⟩ | isDirectory)
    · exact .inl same
    · exact .inr (wellFormed.directory_present other isDirectory)
  occupant_iff := by
    intro slot other
    have before := wellFormed.occupant_iff slot
    simp only [DirectoryTree.relocate]
    by_cases same : other = node
    · subst same
      rw [update_self]
      by_cases atTarget : target = some slot
      · simp [atTarget]
      · by_cases atOld : tree.place other = some slot
        · simp [atTarget, atOld]
        · simp [atTarget, atOld, before]
    · rw [update_of_ne same]
      by_cases atTarget : target = some slot
      · have notOther : tree.place other ≠ some slot := by
          intro place
          rcases relocatable.free slot atTarget with empty | taken
          · rw [(before other).mpr place] at empty
            cases empty
          · rw [(before other).mpr place] at taken
            exact same (Option.some.inj taken)
        simp [atTarget, notOther, Ne.symm same]
      · by_cases atOld : tree.place node = some slot
        · have notOther : tree.place other ≠ some slot := by
            intro place
            have taken := (before node).mpr atOld
            rw [(before other).mpr place] at taken
            exact same (Option.some.inj taken)
          simp [atTarget, atOld, notOther]
        · simp [atTarget, atOld, before]
  place_directory := by
    intro other slot place
    right
    by_cases same : other = node
    · subst same
      exact relocatable.directory slot (by simpa [DirectoryTree.relocate] using place)
    · exact wellFormed.place_directory other slot
        (by simpa [DirectoryTree.relocate, same] using place)
  place_present := by
    intro other slot place
    by_cases same : other = node
    · exact .inl same
    · exact .inr (wellFormed.place_present other slot
        (by simpa [DirectoryTree.relocate, same] using place))
  acyclic := by
    rw [relocate_parent]
    apply wellFormed.acyclic.update
    intro above pointer
    rcases Option.map_eq_some_iff.mp pointer with ⟨slot, atTarget, eq⟩
    exact eq ▸ relocatable.outside slot atTarget
  deletion_present := by
    intro other deleted
    by_cases same : other = node
    · exact .inl same
    · simp only [DirectoryTree.relocate, update_of_ne same] at deleted
      exact .inr (wellFormed.deletion_present other deleted)
  deletion_place := by
    intro other deleted
    by_cases same : other = node
    · subst same
      simp only [DirectoryTree.relocate, update_self] at deleted ⊢
      exact relocatable.placed_or_deleted.mpr deleted
    · simp only [DirectoryTree.relocate, update_of_ne same] at deleted ⊢
      exact wellFormed.deletion_place other deleted
  unplaced := by
    intro other isPresent notRoot place
    by_cases same : other = node
    · subst same
      simp only [DirectoryTree.relocate, update_self] at place ⊢
      exact relocatable.placed_or_deleted.mp place
    · simp only [DirectoryTree.relocate, update_of_ne same] at place ⊢
      have wasPresent : tree.present other := by
        rcases isPresent with eq | isPresent
        · exact absurd eq same
        · exact isPresent
      exact wellFormed.unplaced other wasPresent notRoot place

end

section

variable {tree : DirectoryTree Node Name Stamp} {root node : Node} {keeps : Stamp → Prop}

theorem relocatable_delete (notRoot : node ≠ root) : tree.Relocatable root node none (some stamp) :=
  ⟨notRoot, by simp, by simp, by simp, by simp⟩

variable [DecidableEq Node] [DecidableEq Name]

inductive Change (root : Node) (keeps : Stamp → Prop) (tree : DirectoryTree Node Name Stamp) :
    DirectoryTree Node Name Stamp → Prop
  | place (node : Node) (slot : Node × Name) (isDirectory : Prop)
      (relocatable : tree.Relocatable root node (some slot) none)
      (reaches : AtOrBelow tree.parent slot.1 root)
      (movable : ¬tree.Covered node ∨ tree.deletion node ≠ none) :
      Change root keeps tree (tree.relocate node (some slot) none isDirectory)
  | delete (node : Node) (stamp : Stamp) (notRoot : node ≠ root) (kept : keeps stamp)
      (clear : ¬tree.Covered node) :
      Change root keeps tree (tree.relocate node none (some stamp) False)

theorem Change.wellFormed (change : Change root keeps tree after)
    (wellFormed : tree.WellFormed root) : after.WellFormed root := by
  cases change with
  | place node slot isDirectory relocatable reaches movable => exact wellFormed.relocate relocatable
  | delete node stamp notRoot kept clear => exact wellFormed.relocate (relocatable_delete notRoot)

end

end DirectoryTree

end LoonFs.Foundation
