import LoonFs.Foundation.LabelledForest
import LoonFs.Metadata.Consistency

/-! # Current paths -/

namespace LoonFs

open Foundation

def AncestorWalk.climbToRoot (reads : MetadataVisibilityReads) :
    Nat → AncestorWalk → List DirentryBindingRecord →
    Except VisiblePathError (Option (List DirentryBindingRecord))
  | 0, _, _ => .error .walkUnfinished
  | budget + 1, walk, climbed =>
    match walk.advance reads with
    | .error error => .error error
    | .ok (none, _) => .ok none
    | .ok (some current, walk) =>
      let climbed := climbed ++ walk.followed.toList
      if current = rootInodeId then .ok (some climbed)
      else climbToRoot reads budget walk climbed

def climbedPath (climbed : List DirentryBindingRecord) : AbsolutePath :=
  climbed.reverse.map fun binding => binding.displayName.getD ""

def ResolvedVisiblePath.ofInode (inodeId : InodeId) (inode : InodeRecord)
    (currentPath : AbsolutePath) (currentBinding : Option DirentryBindingRecord) :
    ResolvedVisiblePath where
  absolutePath := currentPath
  inodeId
  inodeKind := inode.inodeKind
  createdBy := inode.committedBy
  createdAtMs := inode.committedAtMs
  parentInodeId := currentBinding.map DirentryBindingRecord.parentInodeId
  displayName := (currentBinding.map fun binding => binding.displayName.getD "").getD ""
  bindingVersion := currentBinding.map DirentryBindingRecord.bindPosition

namespace MetadataVisibilityReads

variable (reads : MetadataVisibilityReads)

/-- The path through the current parent bindings, if it reaches the root. -/
def currentPath (inodeId : InodeId) : Except VisiblePathError (Option AbsolutePath) :=
  (AncestorWalk.climbToRoot reads reads.walkBudget (AncestorWalk.new inodeId) []).map
    (·.map climbedPath)

def resolveVisibleInode (inodeId : InodeId) :
    Except VisiblePathError (Option ResolvedVisiblePath) := do
  match ← reads.visibleInode inodeId with
  | none => return none
  | some inode =>
    match ← reads.currentPath inodeId with
    | none => return none
    | some path =>
      if inodeId = rootInodeId then return some (.ofInode inodeId inode path none)
      else
        match reads.currentParentBindingForChild inodeId with
        | none => return none
        | some binding => return some (.ofInode inodeId inode path (some binding))

def namedEdge (inodeId : InodeId) : Option (InodeId × DisplayName) :=
  (reads.currentParentBindingForChild inodeId).map fun binding =>
    (binding.parentInodeId, binding.displayName.getD "")

theorem edgeParent_namedEdge : edgeParent reads.namedEdge = reads.parentOf := by
  funext node
  simp [edgeParent, namedEdge, parentOf, Function.comp_def]

theorem currentParentBindingForChild_root :
    reads.currentParentBindingForChild rootInodeId = none := by
  simp [currentParentBindingForChild]

end MetadataVisibilityReads

namespace AncestorWalk

variable {reads : MetadataVisibilityReads}

theorem climbToRoot_of_path (isPath : PathOf reads.namedEdge rootInodeId node path) :
    ∀ (ancestry : List InodeId) (budget : Nat) (walk : AncestorWalk)
      (followed : Option DirentryBindingRecord) (climbed : List DirentryBindingRecord),
      Chain reads.parentOf node ancestry → ancestry.length < budget →
      walk.advance reads = walk.visit node followed →
      (∀ ancestor ∈ ancestry, ancestor ∉ walk.seen) →
      ∃ all, climbToRoot reads budget walk climbed = .ok (some all) ∧
        climbedPath all = path ++ climbedPath (climbed ++ followed.toList) := by
  induction isPath with
  | root =>
    intro ancestry budget walk followed climbed chain enough arrives unseen
    cases budget with
    | zero => cases enough
    | succ budget =>
      have notSeen := unseen rootInodeId chain.head_mem
      exact ⟨climbed ++ followed.toList, by simp [climbToRoot, arrives, visit, notSeen], rfl⟩
  | @child node above name path hangs upper induction =>
    intro ancestry budget walk followed climbed chain enough arrives unseen
    rcases Option.map_eq_some_iff.mp hangs with ⟨binding, hasBinding, eq⟩
    cases eq
    have pointer : reads.parentOf node = some binding.parentInodeId := by
      rw [MetadataVisibilityReads.parentOf, hasBinding]
      rfl
    have notRoot : node ≠ rootInodeId := by
      intro isRoot
      rw [isRoot, reads.currentParentBindingForChild_root] at hasBinding
      cases hasBinding
    have distinct := chain.nodup
    cases chain with
    | last top =>
      rw [top] at pointer
      cases pointer
    | @step _ _ rest otherPointer upperChain =>
      rw [pointer] at otherPointer
      cases otherPointer
      cases budget with
      | zero => cases enough
      | succ budget =>
        have notSeen := unseen node (by simp)
        let next : AncestorWalk :=
          { next := some (.parentOf node), seen := node :: walk.seen, followed }
        have unseenAbove : ∀ ancestor ∈ rest, ancestor ∉ next.seen := by
          intro ancestor mem seen
          rcases List.mem_cons.mp seen with eq | seen
          · exact (List.nodup_cons.mp distinct).1 (eq ▸ mem)
          · exact unseen ancestor (List.mem_cons_of_mem _ mem) seen
        rcases induction rest budget next (some binding) (climbed ++ followed.toList)
            upperChain (by simpa using enough) (by simp [next, advance, hasBinding])
            unseenAbove with ⟨all, result, names⟩
        refine ⟨all, ?_, ?_⟩
        · simpa only [climbToRoot, arrives, visit, notSeen, if_false, notRoot] using result
        · simpa [climbedPath] using names

end AncestorWalk

namespace MetadataVisibilityReads

variable {reads : MetadataVisibilityReads}

theorem currentPath_eq_some (walkable : reads.Walkable)
    (isPath : PathOf reads.namedEdge rootInodeId node path) :
    reads.currentPath node = .ok (some path) := by
  rcases walkable.acyclic node with ⟨ancestry, chain⟩
  rcases AncestorWalk.climbToRoot_of_path isPath ancestry reads.walkBudget
      (AncestorWalk.new node) none [] chain (walkable.enough node ancestry chain) rfl
      (by simp [AncestorWalk.new]) with ⟨all, result, names⟩
  rw [currentPath, result]
  have same : climbedPath all = path := by simpa [climbedPath] using names
  simp [Except.map, same]

theorem resolveVisibleInode_cases (walkable : reads.Walkable)
    (connected : ∀ node, reads.findInode node ≠ none → ¬reads.Covered node →
      AtOrBelow reads.parentOf node rootInodeId) (node : InodeId) :
    (∃ inode path, reads.findInode node = some inode ∧ ¬reads.Covered node ∧
      PathOf reads.namedEdge rootInodeId node path ∧
      reads.resolveVisibleInode node = .ok (some (.ofInode node inode path
        (reads.currentParentBindingForChild node)))) ∨
    ((reads.findInode node = none ∨ reads.Covered node) ∧
      reads.resolveVisibleInode node = .ok none) := by
  rw [resolveVisibleInode]
  rcases visibleInode_cases walkable node with ⟨result, clear⟩ | ⟨result, covered⟩
  swap
  · exact .inr ⟨.inr covered, by rw [result]; rfl⟩
  rw [result]
  cases found : reads.findInode node with
  | none => exact .inr ⟨.inl rfl, rfl⟩
  | some inode =>
    have below := connected node (by simp [found]) clear
    rw [← reads.edgeParent_namedEdge] at below
    rcases exists_pathOf below with ⟨path, isPath⟩
    refine .inl ⟨inode, path, rfl, clear, isPath, ?_⟩
    simp only [ok_bind, currentPath_eq_some walkable isPath]
    by_cases isRoot : node = rootInodeId
    · rw [if_pos isRoot, isRoot, reads.currentParentBindingForChild_root]
      rfl
    · rw [if_neg isRoot]
      cases isPath with
      | root => exact absurd rfl isRoot
      | child hangs _ =>
        rcases Option.map_eq_some_iff.mp hangs with ⟨binding, hasBinding, _⟩
        rw [hasBinding]
        rfl

end MetadataVisibilityReads

namespace Snapshot

variable (snapshot : Snapshot)

def namedEdge (inodeId : InodeId) : Option (InodeId × DisplayName) :=
  (snapshot.binding inodeId).map fun binding => (binding.parentInodeId, binding.displayName.getD "")

theorem edgeParent_namedEdge : edgeParent snapshot.namedEdge = snapshot.parent := by
  funext node
  simp [edgeParent, namedEdge, parent, Function.comp_def]

theorem namedEdge_root : snapshot.namedEdge rootInodeId = none := by simp [namedEdge, binding]

def VisibleAt (inodeId : InodeId) (path : AbsolutePath) : Prop :=
  snapshot.inode inodeId ≠ none ∧ ¬snapshot.Covered inodeId ∧
    PathOf snapshot.namedEdge rootInodeId inodeId path

end Snapshot

theorem Snapshot.Consistent.resolveVisibleInode_cases {rows : FamilyRows}
    (consistent : (rows.snapshotAt seq).Consistent) (floor : ChangeSeq) (inodeId : InodeId) :
    (∃ inode path, (rows.snapshotAt seq).inode inodeId = some inode ∧
      (rows.snapshotAt seq).VisibleAt inodeId path ∧
      (rows.readsAt seq floor).resolveVisibleInode inodeId =
        .ok (some (.ofInode inodeId inode path ((rows.snapshotAt seq).binding inodeId)))) ∨
    (((rows.snapshotAt seq).inode inodeId = none ∨ (rows.snapshotAt seq).Covered inodeId) ∧
      (rows.readsAt seq floor).resolveVisibleInode inodeId = .ok none) := by
  have connected : ∀ inodeId, (rows.readsAt seq floor).findInode inodeId ≠ none →
      ¬(rows.readsAt seq floor).Covered inodeId →
      AtOrBelow (rows.readsAt seq floor).parentOf inodeId rootInodeId := by
    intro inodeId isPresent clear
    have clearTree : ¬(rows.snapshotAt seq).tree.Covered inodeId := by
      rw [Snapshot.tree_covered]
      exact clear
    have below := (consistent.tree.not_covered_iff isPresent).mp clearTree
    rw [Snapshot.tree_parent] at below
    exact below
  rcases MetadataVisibilityReads.resolveVisibleInode_cases (consistent.walkable floor)
      connected inodeId with ⟨inode, path, found, clear, isPath, result⟩ | ⟨hidden, result⟩
  · have isPresent : (rows.snapshotAt seq).inode inodeId = some inode := found
    exact .inl ⟨inode, path, isPresent, ⟨by simp [isPresent], clear, isPath⟩, result⟩
  · exact .inr ⟨hidden, result⟩

end LoonFs
