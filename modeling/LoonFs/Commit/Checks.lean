import LoonFs.Commit.Validate
import LoonFs.Metadata.Consistency

/-! # What the checks decide -/

namespace LoonFs

open Foundation

@[simp] theorem refuse_ne_ok : refuse error ≠ Except.ok result := by simp [refuse]

theorem readVisible_eq_ok {read : Except VisiblePathError α} :
    readVisible read = .ok result ↔ read = .ok result :=
  mapError_eq_ok

namespace MetadataView

variable (view : MetadataView)

/-- What the view's lookups say at its sequence. -/
def snapshot : Snapshot := view.rows.snapshotAt view.visibleSeq

variable {view}

theorem resolveInode_eq_ok :
    view.resolveInode node operand = .ok inode ↔ view.snapshot.inode node = some inode := by
  rw [resolveInode]
  change _ ↔ view.reads.findInode node = some inode
  cases view.reads.findInode node <;> simp

theorem resolveInodeKind_eq_ok : view.resolveInodeKind node expected operand = .ok inode ↔
      view.snapshot.inode node = some inode ∧ inode.inodeKind = expected := by
  rw [resolveInodeKind, bind_eq_ok]
  constructor
  · rintro ⟨found, resolved, kind⟩
    rw [guard_eq_ok fun _ => refuse_ne_ok, pure_eq_ok, not_not] at kind
    rw [← kind.2]
    exact ⟨resolveInode_eq_ok.mp resolved, kind.1⟩
  · rintro ⟨found, kind⟩
    refine ⟨inode, resolveInode_eq_ok.mpr found, ?_⟩
    simp [kind]

theorem ensureNotCoveredByTombstone_eq_ok (walkable : view.reads.Walkable) :
    view.ensureNotCoveredByTombstone inodeId operand = .ok result ↔
      ¬view.snapshot.Covered inodeId := by
  rw [ensureNotCoveredByTombstone, bind_eq_ok]
  change _ ↔ ¬view.reads.Covered inodeId
  rcases view.reads.coveringSubtreeTombstone_cases walkable inodeId with
    ⟨found, clear⟩ | ⟨tombstone, found, covered⟩
  · simp [readVisible_eq_ok, found, clear]
  · simp [readVisible_eq_ok, found, covered]

theorem ensureTargetVisible_eq_ok (walkable : view.reads.Walkable) :
    view.ensureTargetVisible inodeId operand = .ok result ↔
      view.snapshot.inode inodeId ≠ none ∧ ¬view.snapshot.Covered inodeId := by
  rw [ensureTargetVisible, bind_eq_ok]
  change _ ↔ view.reads.findInode inodeId ≠ none ∧ ¬view.reads.Covered inodeId
  rcases view.reads.visibleInode_cases walkable inodeId with ⟨found, clear⟩ | ⟨found, covered⟩
  · cases inode : view.reads.findInode inodeId <;>
      simp [readVisible_eq_ok, found, clear, inode]
  · simp [readVisible_eq_ok, found, covered]

theorem resolveNameAbsent_eq_ok (walkable : view.reads.Walkable) {policy : NamePolicy}
    {parentInodeId : InodeId} {displayName : DisplayName} {rebindingInodeId : Option InodeId}
    {nameKey : NameKey} :
    view.resolveNameAbsent policy parentInodeId displayName rebindingInodeId operand = .ok nameKey ↔
      nameKey = policy.nameKeyForDisplayName displayName ∧
      (∃ inode, view.snapshot.inode parentInodeId = some inode ∧ inode.inodeKind = .directory) ∧
      ∀ existing, view.reads.VisibleBinding parentInodeId nameKey existing →
        rebindingInodeId = some existing.childInodeId := by
  rw [resolveNameAbsent, bind_eq_ok]
  simp only [resolveInodeKind_eq_ok, bind_eq_ok, readVisible_eq_ok]
  constructor
  · rintro ⟨inode, isDirectory, child, shown, passed⟩
    rcases view.reads.visibleChild_cases walkable parentInodeId
        (policy.nameKeyForDisplayName displayName) with
      ⟨existing, result, visible⟩ | ⟨result, hidden⟩
    · rw [result] at shown
      cases shown
      simp only [guard_eq_ok fun _ => refuse_ne_ok, pure_eq_ok, not_not] at passed
      refine ⟨passed.2.symm, ⟨inode, isDirectory⟩, fun other otherVisible => ?_⟩
      rw [← passed.2] at otherVisible
      have same := Option.some.inj (visible.2.1.symm.trans otherVisible.2.1)
      rw [← same, passed.1]
    · rw [result] at shown
      cases shown
      have eq := pure_eq_ok.mp passed
      exact ⟨eq.symm, ⟨inode, isDirectory⟩, fun other otherVisible =>
        absurd (eq ▸ otherVisible) (hidden other)⟩
  · rintro ⟨rfl, ⟨inode, isDirectory⟩, absent⟩
    rcases view.reads.visibleChild_cases walkable parentInodeId
        (policy.nameKeyForDisplayName displayName) with
      ⟨existing, result, visible⟩ | ⟨result, hidden⟩
    · exact ⟨inode, isDirectory, some existing, result, by simp [absent existing visible]⟩
    · exact ⟨inode, isDirectory, none, result, by simp⟩

def SourceBinding (view : MetadataView) (source : ResolvedBinding)
    (existing : DirentryBindingRecord) : Prop :=
  view.reads.VisibleBinding source.parentInodeId source.nameKey existing ∧
    existing.parentInodeId = source.parentInodeId ∧ existing.nameKey = source.nameKey ∧
    existing.childInodeId = source.childInodeId ∧ existing.bindPosition = source.bindPosition

theorem ensureSourceBinding_eq_ok (walkable : view.reads.Walkable) {source : ResolvedBinding} :
    view.ensureSourceBinding source = .ok result ↔
      ∃ existing, view.SourceBinding source existing := by
  rw [ensureSourceBinding, bind_eq_ok]
  simp only [readVisible_eq_ok]
  constructor
  · rintro ⟨child, shown, passed⟩
    rcases view.reads.visibleChild_cases walkable source.parentInodeId source.nameKey with
      ⟨existing, found, visible⟩ | ⟨found, hidden⟩
    · rw [found] at shown
      cases shown
      simp only [guard_eq_ok fun _ => refuse_ne_ok, not_or, not_not] at passed
      exact ⟨existing, visible, passed.1⟩
    · rw [found] at shown
      cases shown
      exact absurd passed refuse_ne_ok
  · rintro ⟨existing, visible, same⟩
    refine ⟨some existing, (view.reads.visibleChild_eq_some_iff walkable).mpr visible, ?_⟩
    simp [same]

theorem ensureFileBaseRevisionIs_eq_ok :
    view.ensureFileBaseRevisionIs node expected operand = .ok result ↔
      (∃ inode, view.snapshot.inode node = some inode ∧ inode.inodeKind = .file) ∧
      (view.snapshot.revision node).map RevisionRecord.revisionNo = some expected := by
  rw [ensureFileBaseRevisionIs, bind_eq_ok]
  simp only [resolveInodeKind_eq_ok, guard_eq_ok fun _ => refuse_ne_ok, pure_eq_ok, not_not]
  change (∃ inode, _ ∧
    (view.snapshot.revision node).map RevisionRecord.revisionNo = some expected ∧ _) ↔ _
  constructor
  · rintro ⟨inode, isFile, newest, _⟩
    exact ⟨⟨inode, isFile⟩, newest⟩
  · rintro ⟨⟨inode, isFile⟩, newest⟩
    exact ⟨inode, isFile, newest, trivial⟩

theorem resolveCurrentBinding_eq_ok : view.resolveCurrentBinding node operand = .ok binding ↔
      view.snapshot.binding node = some binding := by
  rw [resolveCurrentBinding]
  change _ ↔ view.reads.currentParentBindingForChild node = some binding
  cases view.reads.currentParentBindingForChild node <;> simp

theorem ensureRenameDoesNotCycle_eq_ok (walkable : view.reads.Walkable)
    {newParentInodeId : InodeId} :
    view.ensureRenameDoesNotCycle inode newParentInodeId = .ok result ↔
      (inode.inodeKind = .directory →
        ¬AtOrBelow view.snapshot.parent newParentInodeId inode.inodeId) := by
  rw [ensureRenameDoesNotCycle]
  change _ ↔ (_ → ¬AtOrBelow view.reads.parentOf newParentInodeId inode.inodeId)
  by_cases isDirectory : inode.inodeKind = .directory
  · rw [if_pos isDirectory, bind_eq_ok]
    simp only [readVisible_eq_ok]
    rcases view.reads.wouldCreateDirectoryCycle_of_walkable walkable inode.inodeId
        newParentInodeId with ⟨found, below⟩ | ⟨found, outside⟩
    · simp [found, below, isDirectory]
    · simp [found, outside]
  · simp [isDirectory]

theorem ensureInodeAttributesRevisionIs_eq_ok :
    view.ensureInodeAttributesRevisionIs node expected = .ok result ↔
      view.attributesRevisionNo node = expected := by
  rw [ensureInodeAttributesRevisionIs, guard_eq_ok fun _ => refuse_ne_ok]
  simp

theorem ensureInodeAccessRevisionIs_eq_ok :
    view.ensureInodeAccessRevisionIs node expected = .ok result ↔
      view.accessRevisionNo node = expected := by
  rw [ensureInodeAccessRevisionIs, guard_eq_ok fun _ => refuse_ne_ok]
  simp

theorem resolveRevisionSummary_eq_ok :
    view.resolveRevisionSummary inode = .ok summary ↔ view.snapshot.SummaryOf inode summary := by
  have reads : view.rows.latestRevisionRecord view.visibleSeq inode.inodeId =
      view.snapshot.revision inode.inodeId := rfl
  rw [resolveRevisionSummary, Snapshot.SummaryOf, reads]
  cases kind : inode.inodeKind with
  | directory => simp [eq_comm]
  | file => cases view.snapshot.revision inode.inodeId <;> simp [eq_comm, RevisionRecord.summary]

theorem resolveRecoverableDeletion_eq_ok :
    view.resolveRecoverableDeletion node deletionSeq = .ok deletion ↔
      view.snapshot.deletion node = some deletion ∧
      deletion.committedSeq = deletionSeq ∧ view.retentionFloorSeq < deletionSeq ∧
      deletionSeq < view.visibleSeq := by
  have reads : view.recoverableDeletion node = (view.snapshot.deletion node).filter
      fun tombstone => tombstone.committedSeq > view.retentionFloorSeq := rfl
  rw [resolveRecoverableDeletion, guard_eq_ok fun _ => refuse_ne_ok, reads]
  cases found : view.snapshot.deletion node with
  | none => simp
  | some tombstone =>
    by_cases recoverable : view.retentionFloorSeq < tombstone.committedSeq
    · simp only [Option.filter_some, recoverable, decide_true, if_true,
        guard_eq_ok fun _ => refuse_ne_ok, Except.ok.injEq, Option.some.injEq]
      constructor
      · rintro ⟨above, past, same, rfl⟩
        rw [not_not] at same
        exact ⟨rfl, same, not_le.mp above, same ▸ not_le.mp past⟩
      · rintro ⟨rfl, same, above, past⟩
        exact ⟨not_le.mpr above, not_le.mpr (same ▸ past), not_not.mpr same, rfl⟩
    · simp only [Option.filter_some, recoverable, decide_false, Option.some.injEq]
      constructor
      · rintro ⟨_, refused⟩
        exact absurd refused refuse_ne_ok
      · rintro ⟨rfl, same, above, _⟩
        exact absurd (same ▸ above) recoverable

end MetadataView

end LoonFs
