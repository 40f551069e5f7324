import LoonFs.Foundation.Outcome
import LoonFs.Foundation.ParentForest
import LoonFs.Metadata.Reads

/-! # Ancestor walks -/

namespace LoonFs

open Foundation List

namespace MetadataVisibilityReads

variable (reads : MetadataVisibilityReads)

def parentOf (inodeId : InodeId) : Option InodeId :=
  (reads.currentParentBindingForChild inodeId).map DirentryBindingRecord.parentInodeId

structure Walkable : Prop where
  acyclic : Acyclic reads.parentOf
  enough : ∀ inodeId ancestry, Chain reads.parentOf inodeId ancestry →
    ancestry.length < reads.walkBudget

def Covered (inodeId : InodeId) : Prop :=
  ∃ ancestor, AtOrBelow reads.parentOf inodeId ancestor ∧
    reads.findHidingSubtreeTombstone ancestor ≠ none

end MetadataVisibilityReads

namespace AncestorWalk

variable {reads : MetadataVisibilityReads}

theorem climb_of_chain (chain : Chain reads.parentOf node ancestry)
    (found : InodeId → Option Answer) :
    ∀ (budget : Nat) (walk : AncestorWalk) (followed : Option DirentryBindingRecord),
      ancestry.length < budget → walk.advance reads = walk.visit node followed →
      (∀ ancestor ∈ ancestry, ancestor ∉ walk.seen) →
      climb reads found budget walk = .ok (ancestry.findSome? found) := by
  induction chain with
  | @last node top =>
    intro budget walk followed enough arrives unseen
    match budget, enough with
    | budget + 2, _ =>
      have notSeen := unseen node (by simp)
      have noBinding : reads.currentParentBindingForChild node = none := by
        simpa [MetadataVisibilityReads.parentOf] using top
      simp only [climb, arrives, visit, notSeen, if_false]
      cases answer : found node <;> simp [answer, advance, noBinding]
  | @step node above rest pointer upper induction =>
    intro budget walk followed enough arrives unseen
    match budget, enough with
    | budget + 1, enough =>
      have notSeen := unseen node (by simp)
      obtain ⟨binding, hasBinding, bindingParent⟩ : ∃ binding,
          reads.currentParentBindingForChild node = some binding ∧
            binding.parentInodeId = above := by
        simpa [MetadataVisibilityReads.parentOf] using pointer
      have distinct := nodup_cons.mp (Chain.step pointer upper).nodup
      cases answer : found node with
      | some value => simp [climb, arrives, visit, notSeen, answer]
      | none =>
        simp only [climb, arrives, visit, notSeen, if_false, answer]
        rw [List.findSome?_cons, answer]
        apply induction budget _ (some binding)
        · simpa using enough
        · simp [advance, hasBinding, bindingParent]
        · intro ancestor mem seen
          rcases mem_cons.mp seen with eq | seen
          · exact distinct.1 (eq ▸ mem)
          · exact unseen ancestor (mem_cons_of_mem _ mem) seen

end AncestorWalk

namespace MetadataVisibilityReads

variable {reads : MetadataVisibilityReads}

section

variable (walkable : reads.Walkable)

include walkable

theorem climbFrom_of_chain (chain : Chain reads.parentOf node ancestry)
    (found : InodeId → Option Answer) :
    reads.climbFrom found node = .ok (ancestry.findSome? found) :=
  AncestorWalk.climb_of_chain chain found _ _ none
    (walkable.enough node ancestry chain) rfl (by simp [AncestorWalk.new])

theorem climbFrom_cases (node : InodeId) (found : InodeId → Option Answer) :
    (reads.climbFrom found node = .ok none ∧
      ∀ ancestor, AtOrBelow reads.parentOf node ancestor → found ancestor = none) ∨
    ∃ answer ancestor, reads.climbFrom found node = .ok (some answer) ∧
      AtOrBelow reads.parentOf node ancestor ∧ found ancestor = some answer := by
  rcases walkable.acyclic node with ⟨ancestry, chain⟩
  rw [climbFrom_of_chain walkable chain]
  cases result : ancestry.findSome? found with
  | none =>
    refine .inl ⟨rfl, fun ancestor below => ?_⟩
    exact List.findSome?_eq_none_iff.mp result ancestor (chain.mem_iff.mpr below)
  | some answer =>
    rcases exists_of_findSome?_eq_some result with ⟨ancestor, mem, answers⟩
    exact .inr ⟨answer, ancestor, rfl, chain.mem_iff.mp mem, answers⟩

theorem coveringSubtreeTombstone_cases (inodeId : InodeId) :
    (reads.coveringSubtreeTombstone inodeId = .ok none ∧ ¬reads.Covered inodeId) ∨
    ∃ tombstone, reads.coveringSubtreeTombstone inodeId = .ok (some tombstone) ∧
      reads.Covered inodeId := by
  rcases climbFrom_cases walkable inodeId reads.findHidingSubtreeTombstone with
    ⟨result, clear⟩ | ⟨tombstone, ancestor, result, below, hides⟩
  · refine .inl ⟨result, ?_⟩
    rintro ⟨ancestor, below, hides⟩
    exact hides (clear ancestor below)
  · exact .inr ⟨tombstone, result, ancestor, below, by simp [hides]⟩

theorem wouldCreateDirectoryCycle_of_walkable (inodeId newParentInodeId : InodeId) :
    (reads.wouldCreateDirectoryCycle inodeId newParentInodeId = .ok true ∧
      AtOrBelow reads.parentOf newParentInodeId inodeId) ∨
    (reads.wouldCreateDirectoryCycle inodeId newParentInodeId = .ok false ∧
      ¬AtOrBelow reads.parentOf newParentInodeId inodeId) := by
  rw [wouldCreateDirectoryCycle]
  rcases climbFrom_cases walkable newParentInodeId
      (fun ancestor => if ancestor = inodeId then some () else none) with
    ⟨result, clear⟩ | ⟨answer, ancestor, result, below, matched⟩
  · refine .inr ⟨by rw [result]; rfl, fun below => ?_⟩
    simpa using clear inodeId below
  · refine .inl ⟨by rw [result]; rfl, ?_⟩
    have eq : ancestor = inodeId := by
      by_contra ne
      simp [ne] at matched
    exact eq ▸ below

end

end MetadataVisibilityReads

namespace MetadataVisibilityReads

variable {reads : MetadataVisibilityReads}

theorem visibleInode_cases (walkable : reads.Walkable) (node : InodeId) :
    (reads.visibleInode node = .ok (reads.findInode node) ∧ ¬reads.Covered node) ∨
    (reads.visibleInode node = .ok none ∧ reads.Covered node) := by
  rw [visibleInode]
  rcases coveringSubtreeTombstone_cases walkable node with
    ⟨result, clear⟩ | ⟨tombstone, result, covered⟩
  · refine .inl ⟨?_, clear⟩
    rw [result]
    cases reads.findInode node <;> rfl
  · refine .inr ⟨?_, covered⟩
    rw [result]
    cases reads.findInode node <;> rfl

theorem visibleInode_eq_some_iff (walkable : reads.Walkable) :
    reads.visibleInode inodeId = .ok (some inode) ↔
      reads.findInode inodeId = some inode ∧ ¬reads.Covered inodeId := by
  rcases visibleInode_cases walkable inodeId with ⟨result, clear⟩ | ⟨result, covered⟩
  · simp [result, clear]
  · simp [result, covered]

theorem visiblePageChild_cases (walkable : reads.Walkable) (direntry : DirentryBindingRecord) :
    (reads.visiblePageChild direntry = .ok (some direntry) ∧
      direntry.isBound = true ∧ ¬reads.Covered direntry.childInodeId) ∨
    (reads.visiblePageChild direntry = .ok none ∧
      ¬(direntry.isBound = true ∧ ¬reads.Covered direntry.childInodeId)) := by
  rw [visiblePageChild]
  by_cases bound : direntry.isBound = true
  · rw [if_pos bound]
    rcases coveringSubtreeTombstone_cases walkable direntry.childInodeId with
      ⟨result, clear⟩ | ⟨tombstone, result, covered⟩
    · exact .inl ⟨by rw [result]; rfl, bound, clear⟩
    · exact .inr ⟨by rw [result]; rfl, fun both => both.2 covered⟩
  · exact .inr ⟨by rw [if_neg bound], fun both => bound both.1⟩

/-- A directory that exists and that no deletion hides. -/
def VisibleDirectory (reads : MetadataVisibilityReads) (inodeId : InodeId) : Prop :=
  (∃ inode, reads.findInode inodeId = some inode ∧ inode.inodeKind = .directory) ∧
    ¬reads.Covered inodeId

def VisibleBinding (reads : MetadataVisibilityReads) (parentInodeId : InodeId)
    (nameKey : NameKey) (child : DirentryBindingRecord) : Prop :=
  reads.VisibleDirectory parentInodeId ∧
    reads.activeChildBinding parentInodeId nameKey = some child ∧
    reads.findInode child.childInodeId ≠ none ∧ ¬reads.Covered child.childInodeId

theorem visibleChild_cases (walkable : reads.Walkable) (parentInodeId : InodeId)
    (nameKey : NameKey) : (∃ child, reads.visibleChild parentInodeId nameKey = .ok (some child) ∧
      reads.VisibleBinding parentInodeId nameKey child) ∨
    (reads.visibleChild parentInodeId nameKey = .ok none ∧
      ∀ child, ¬reads.VisibleBinding parentInodeId nameKey child) := by
  rw [visibleChild]
  rcases visibleInode_cases walkable parentInodeId with
    ⟨parentResult, clear⟩ | ⟨parentResult, covered⟩
  swap
  · exact .inr ⟨by rw [parentResult]; rfl, fun child visible => visible.1.2 covered⟩
  rw [parentResult]
  cases found : reads.findInode parentInodeId with
  | none =>
    refine .inr ⟨rfl, ?_⟩
    rintro child ⟨⟨⟨inode, present, _⟩, _⟩, _⟩
    rw [found] at present
    cases present
  | some parent =>
    by_cases isDirectory : parent.inodeKind ≠ .directory
    · refine .inr ⟨by simp only [ok_bind, if_pos isDirectory]; rfl, ?_⟩
      rintro child ⟨⟨⟨inode, present, kind⟩, _⟩, _⟩
      rw [found] at present
      cases present
      exact isDirectory kind
    have visibleParent : reads.VisibleDirectory parentInodeId :=
      ⟨⟨parent, found, not_not.mp isDirectory⟩, clear⟩
    simp only [ok_bind, if_neg isDirectory]
    cases active : reads.activeChildBinding parentInodeId nameKey with
    | none =>
      refine .inr ⟨rfl, ?_⟩
      rintro child ⟨_, isActive, _⟩
      rw [active] at isActive
      cases isActive
    | some direntry =>
      rcases visibleInode_cases walkable direntry.childInodeId with
        ⟨childResult, childClear⟩ | ⟨childResult, childCovered⟩
      · cases childFound : reads.findInode direntry.childInodeId with
        | none =>
          refine .inr ⟨?_, ?_⟩
          · change (reads.visibleInode _ >>= _) = _
            rw [childResult, childFound]
            rfl
          · rintro child ⟨_, isActive, present, _⟩
            rw [active] at isActive
            cases isActive
            exact present childFound
        | some inode =>
          refine .inl ⟨direntry, ?_, visibleParent, active, by simp [childFound], childClear⟩
          change (reads.visibleInode _ >>= _) = _
          rw [childResult, childFound]
          rfl
      · refine .inr ⟨?_, ?_⟩
        · change (reads.visibleInode _ >>= _) = _
          rw [childResult]
          rfl
        · rintro child ⟨_, isActive, _, notCovered⟩
          rw [active] at isActive
          cases isActive
          exact notCovered childCovered

theorem visibleChild_eq_some_iff (walkable : reads.Walkable) :
    reads.visibleChild parentInodeId nameKey = .ok (some child) ↔
      reads.VisibleBinding parentInodeId nameKey child := by
  rcases visibleChild_cases walkable parentInodeId nameKey with
    ⟨other, result, visible⟩ | ⟨result, hidden⟩
  · rw [result, Except.ok.injEq, Option.some.injEq]
    refine ⟨fun eq => eq ▸ visible, fun isVisible => ?_⟩
    exact Option.some.inj (visible.2.1.symm.trans isVisible.2.1)
  · simp [result, hidden child]

end MetadataVisibilityReads

theorem FamilyRows.readsAt_walkable (rows : FamilyRows) (seq floor : ChangeSeq)
    (acyclic : Acyclic (rows.readsAt seq floor).parentOf) : (rows.readsAt seq floor).Walkable := by
  refine ⟨acyclic, fun node ancestry chain => ?_⟩
  have bounded : ∀ member above, (rows.readsAt seq floor).parentOf member = some above →
      member ∈ rows.direntryChildBinds.map DirentryBindingRecord.childInodeId := by
    intro member above pointer
    simp only [MetadataVisibilityReads.parentOf,
      MetadataVisibilityReads.currentParentBindingForChild] at pointer
    split at pointer
    · cases pointer
    · rename_i notRoot
      simp only [Option.map_eq_some_iff, Option.filter_eq_some_iff] at pointer
      rcases pointer with ⟨binding, ⟨latest, _⟩, _⟩
      change rows.latestParentBindingForChild seq member = some binding at latest
      rw [FamilyRows.latestParentBindingForChild, if_neg notRoot] at latest
      have isRow := (maxByKey_isNewest latest).mem
      simp only [FamilyRows.childRows, mem_filter, decide_eq_true_eq] at isRow
      exact mem_map.mpr ⟨binding, isRow.1, isRow.2.1⟩
  have short := chain.length_le bounded
  rw [length_map] at short
  change ancestry.length < rows.direntryChildBinds.length + 2
  omega

end LoonFs
