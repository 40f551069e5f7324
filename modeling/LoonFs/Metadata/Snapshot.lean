import LoonFs.Metadata.Ancestry

/-! # Snapshots -/

namespace LoonFs

open Foundation

def DirentryBindingRecord.slot (record : DirentryBindingRecord) : InodeId × NameKey :=
  (record.parentInodeId, record.nameKey)

@[ext] structure Snapshot where
  inode : InodeId → Option InodeRecord
  slot : InodeId × NameKey → Option DirentryBindingRecord
  /-- The newest bind or unbind of a slot, without summary rows. -/
  slotEvent : InodeId × NameKey → Option DirentryBindingRecord
  edge : DirectoryEdge → Option DirentryBindingRecord
  child : InodeId → Option DirentryBindingRecord
  tombstone : InodeId → Option SubtreeTombstoneRecord
  revision : InodeId → Option RevisionRecord
  attributes : InodeId → Option AttributesRevisionRecord
  access : InodeId → Option AccessRevisionRecord

def FamilyRows.snapshotAt (rows : FamilyRows) (seq : ChangeSeq) : Snapshot where
  inode := rows.inodeAtSeq seq
  slot := fun slot => rows.latestSlotBinding seq slot.1 slot.2
  slotEvent := newestOf DirentryBindingRecord.position DirentryBindingRecord.slot
    ((rows.direntryBinds.filter DirentryBindingRecord.isBindingEvent).filter fun record =>
      record.committedSeq ≤ seq)
  edge := newestOf DirentryBindingRecord.position DirentryBindingRecord.edge
    (rows.direntryBinds.filter fun record => record.committedSeq ≤ seq)
  child := rows.latestParentBindingForChild seq
  tombstone := rows.newestSubtreeTombstone seq
  revision := rows.latestRevisionRecord seq
  attributes := rows.latestAttributesRevision seq
  access := rows.latestAccessRevision seq

def MetadataState.snapshotAt (state : MetadataState) (seq : ChangeSeq) : Snapshot :=
  state.familyRows.snapshotAt seq

namespace Snapshot

variable (snapshot : Snapshot)

def binding (inodeId : InodeId) : Option DirentryBindingRecord :=
  if inodeId = rootInodeId then none
  else (snapshot.child inodeId).filter DirentryBindingRecord.isBound

def parent (inodeId : InodeId) : Option InodeId :=
  (snapshot.binding inodeId).map DirentryBindingRecord.parentInodeId

def occupant (slot : InodeId × NameKey) : Option DirentryBindingRecord :=
  (snapshot.slot slot).filter DirentryBindingRecord.isBound

def deletion (inodeId : InodeId) : Option SubtreeTombstoneRecord :=
  (snapshot.tombstone inodeId).filter fun tombstone => tombstone.action.hidesSubtree

def Covered (inodeId : InodeId) : Prop :=
  ∃ ancestor, AtOrBelow snapshot.parent inodeId ancestor ∧
    snapshot.deletion ancestor ≠ none

def addRows (rows : MetadataState) : Snapshot where
  inode := putAll InodeRecord.inodeId snapshot.inode rows.inodes
  slot := putAll DirentryBindingRecord.slot snapshot.slot rows.direntryBinds
  slotEvent := putAll DirentryBindingRecord.slot snapshot.slotEvent
    (rows.direntryBinds.filter DirentryBindingRecord.isBindingEvent)
  edge := putAll DirentryBindingRecord.edge snapshot.edge rows.direntryBinds
  child := putAll DirentryBindingRecord.childInodeId snapshot.child
    (rows.direntryBinds.filter fun record =>
      record.isBindingEvent && record.childInodeId != rootInodeId)
  tombstone := putAll SubtreeTombstoneRecord.rootInodeId snapshot.tombstone
    rows.subtreeTombstones
  revision := putAll RevisionRecord.inodeId snapshot.revision rows.revisions
  attributes := putAll AttributesRevisionRecord.inodeId snapshot.attributes
    rows.attributesRevisions
  access := putAll AccessRevisionRecord.inodeId snapshot.access rows.accessRevisions

end Snapshot

namespace FamilyRows

variable (rows : FamilyRows) (seq : ChangeSeq)

theorem mem_of_inode {rows : FamilyRows} {seq : ChangeSeq}
    (found : (rows.snapshotAt seq).inode node = some record) :
    record ∈ rows.inodes ∧ record.inodeId = node ∧ record.committedSeq ≤ seq := by
  change rows.inodes.find? _ = some record at found
  have matched := List.find?_some found
  rw [decide_eq_true_eq] at matched
  exact ⟨List.mem_of_find?_eq_some found, matched⟩

theorem snapshotAt_slot : (rows.snapshotAt seq).slot = newestOf (·.position) (·.slot)
        (rows.direntryBinds.filter fun record => record.committedSeq ≤ seq) := by
  funext slot
  simp [snapshotAt, latestSlotBinding, slotRows, newestOf_filter,
    DirentryBindingRecord.slot, Prod.ext_iff, Bool.and_assoc]

theorem snapshotAt_slotEvent : (rows.snapshotAt seq).slotEvent = newestOf (·.position) (·.slot)
        ((rows.direntryBinds.filter (·.isBindingEvent)).filter
          fun record => record.committedSeq ≤ seq) := rfl

theorem snapshotAt_edge : (rows.snapshotAt seq).edge = newestOf (·.position) (·.edge)
        (rows.direntryBinds.filter fun record => record.committedSeq ≤ seq) := rfl

theorem snapshotAt_child : (rows.snapshotAt seq).child = newestOf (·.position) (·.childInodeId)
        ((rows.direntryChildBinds.filter fun record =>
          record.childInodeId ≠ rootInodeId).filter fun record => record.committedSeq ≤ seq) := by
  funext childInodeId
  simp only [snapshotAt, latestParentBindingForChild]
  split
  · rename_i isRoot
    symm
    rw [newestOf_eq_none_iff]
    intro record mem eq
    simp [eq, isRoot] at mem
  · rename_i notRoot
    rw [childRows, newestOf_filter, List.filter_filter]
    congr 1
    apply List.filter_congr
    intro record _
    by_cases same : record.childInodeId = childInodeId
    · simp [same, notRoot]
    · simp [same]

theorem snapshotAt_tombstone :
    (rows.snapshotAt seq).tombstone = newestOf (·.position) (·.rootInodeId)
        (rows.tombstones.filter fun record => record.committedSeq ≤ seq) := by
  funext rootInodeId
  simp [snapshotAt, newestSubtreeTombstone, tombstoneRows, newestOf_filter]

theorem snapshotAt_revision : (rows.snapshotAt seq).revision = newestOf (·.orderKey) (·.inodeId)
        (rows.revisions.filter fun record => record.committedSeq ≤ seq) := by
  funext node
  simp [snapshotAt, latestRevisionRecord, newestOf_filter]

theorem snapshotAt_attributes : (rows.snapshotAt seq).attributes = newestOf (·.orderKey) (·.inodeId)
        (rows.attributes.filter fun record => record.committedSeq ≤ seq) := by
  funext node
  simp [snapshotAt, latestAttributesRevision, newestOf_filter]

theorem snapshotAt_access : (rows.snapshotAt seq).access = newestOf (·.orderKey) (·.inodeId)
        (rows.access.filter fun record => record.committedSeq ≤ seq) := by
  funext node
  simp [snapshotAt, latestAccessRevision, newestOf_filter]

end FamilyRows

end LoonFs
