import LoonFs.Foundation.GroupedScan
import LoonFs.Foundation.Newest
import LoonFs.Metadata.State
import LoonFs.Metadata.Visibility

/-! # Lookups over stored rows -/

namespace LoonFs

open Foundation

abbrev RevisionOrderKey := Nat ×ₗ DeltaPosition

def RevisionRecord.orderKey (record : RevisionRecord) : RevisionOrderKey :=
  toLex (record.revisionNo, record.position)

def AttributesRevisionRecord.orderKey (record : AttributesRevisionRecord) : RevisionOrderKey :=
  toLex (record.attributesRevisionNo, ⟨record.committedSeq, record.deltaIndex⟩)

def AccessRevisionRecord.orderKey (record : AccessRevisionRecord) : RevisionOrderKey :=
  toLex (record.accessRevisionNo, ⟨record.committedSeq, record.deltaIndex⟩)

/-! ## Row keys of the binding indexes

An edge's rows follow each other in both indexes, the newest position first. -/

structure DirectoryEdge where
  parentInodeId : InodeId
  nameKey : NameKey
  childInodeId : InodeId
deriving DecidableEq

def DirentryBindingRecord.edge (record : DirentryBindingRecord) : DirectoryEdge :=
  ⟨record.parentInodeId, record.nameKey, record.childInodeId⟩

abbrev SlotEdgeKey := InodeId ×ₗ NameKey ×ₗ InodeId

def DirentryBindingRecord.slotEdgeKey (record : DirentryBindingRecord) : SlotEdgeKey :=
  toLex (record.parentInodeId, toLex (record.nameKey, record.childInodeId))

namespace FamilyRows

variable (rows : FamilyRows)

def inodeAtSeq (seq : ChangeSeq) (inodeId : InodeId) : Option InodeRecord :=
  rows.inodes.find? fun record => record.inodeId = inodeId ∧ record.committedSeq ≤ seq

def slotRows (seq : ChangeSeq) (parentInodeId : InodeId) (nameKey : NameKey) :
    List DirentryBindingRecord :=
  rows.direntryBinds.filter fun record =>
    record.parentInodeId = parentInodeId ∧ record.nameKey = nameKey ∧
      record.committedSeq ≤ seq

def childRows (seq : ChangeSeq) (childInodeId : InodeId) : List DirentryBindingRecord :=
  rows.direntryChildBinds.filter fun record =>
    record.childInodeId = childInodeId ∧ record.committedSeq ≤ seq

def tombstoneRows (seq : ChangeSeq) (rootInodeId : InodeId) : List SubtreeTombstoneRecord :=
  rows.tombstones.filter fun record => record.rootInodeId = rootInodeId ∧ record.committedSeq ≤ seq

def latestSlotBinding (seq : ChangeSeq) (parentInodeId : InodeId) (nameKey : NameKey) :
    Option DirentryBindingRecord :=
  maxByKey DirentryBindingRecord.position (rows.slotRows seq parentInodeId nameKey)

def latestParentBindingForChild (seq : ChangeSeq) (childInodeId : InodeId) :
    Option DirentryBindingRecord :=
  if childInodeId = rootInodeId then none
  else maxByKey DirentryBindingRecord.position (rows.childRows seq childInodeId)

def newestSubtreeTombstone (seq : ChangeSeq) (rootInodeId : InodeId) :
    Option SubtreeTombstoneRecord :=
  maxByKey SubtreeTombstoneRecord.position (rows.tombstoneRows seq rootInodeId)

/-- The newest event of the root speaks for it, without consulting the target
of a revoke. -/
def hidingSubtreeTombstone (seq : ChangeSeq) (rootInodeId : InodeId) :
    Option SubtreeTombstoneRecord :=
  (rows.newestSubtreeTombstone seq rootInodeId).filter fun tombstone =>
    tombstone.action.hidesSubtree

def latestRevisionRecord (seq : ChangeSeq) (inodeId : InodeId) : Option RevisionRecord :=
  maxByKey RevisionRecord.orderKey (rows.revisions.filter fun record =>
    record.inodeId = inodeId ∧ record.committedSeq ≤ seq)

def revisionByInodeNo (seq : ChangeSeq) (inodeId : InodeId) (revisionNo : RevisionNo) :
    Option RevisionRecord :=
  maxByKey RevisionRecord.orderKey (rows.revisions.filter fun record =>
    record.inodeId = inodeId ∧ record.revisionNo = revisionNo ∧
      record.committedSeq ≤ seq)

def latestAttributesRevision (seq : ChangeSeq) (inodeId : InodeId) :
    Option AttributesRevisionRecord :=
  maxByKey AttributesRevisionRecord.orderKey (rows.attributes.filter fun record =>
    record.inodeId = inodeId ∧ record.committedSeq ≤ seq)

def latestAccessRevision (seq : ChangeSeq) (inodeId : InodeId) : Option AccessRevisionRecord :=
  maxByKey AccessRevisionRecord.orderKey (rows.access.filter fun record =>
    record.inodeId = inodeId ∧ record.committedSeq ≤ seq)

/-- The rows' lookups at one sequence, whose walks end. -/
def readsAt (seq retentionFloorSeq : ChangeSeq) : MetadataVisibilityReads where
  retentionFloorSeq
  findInode := rows.inodeAtSeq seq
  findLatestSlotBinding := rows.latestSlotBinding seq
  findLatestParentBindingForChild := rows.latestParentBindingForChild seq
  findHidingSubtreeTombstone := rows.hidingSubtreeTombstone seq
  findAccessRow := rows.latestAccessRevision seq
  walkBudget := rows.direntryChildBinds.length + 2

/-! ## Directory listings -/

/-- Takes each edge's first slot row at or below the sequence, in key order. -/
def edgeValues (seq : ChangeSeq) (unread : List DirentryBindingRecord) :
    List DirentryBindingRecord :=
  firstSelected (fun record => record.committedSeq ≤ seq)
    DirentryBindingRecord.slotEdgeKey none unread

def directoryRows (parentInodeId : InodeId) : List DirentryBindingRecord :=
  inKeyOrder DirentryBindingRecord.slotEdgeKey DirentryBindingRecord.position
    (rows.direntryBinds.filter fun record => record.parentInodeId = parentInodeId)

def takeVisible (reads : MetadataVisibilityReads) :
    Nat → List DirentryBindingRecord → Except VisiblePathError (List DirentryBindingRecord)
  | 0, _ => .ok []
  | _, [] => .ok []
  | limit + 1, binding :: rest => do
      match ← reads.visiblePageChild binding with
      | none => takeVisible reads (limit + 1) rest
      | some active => return active :: (← takeVisible reads limit rest)

def visibleChildrenPageByNameKey (seq retentionFloorSeq : ChangeSeq)
    (parentInodeId : InodeId) (startAfterNameKey : Option NameKey) (limit : Nat) :
    Except VisiblePathError (List DirentryBindingRecord) := do
  let reads := rows.readsAt seq retentionFloorSeq
  match ← reads.visibleInode parentInodeId with
  | none => return []
  | some parent =>
    if parent.inodeKind ≠ .directory then return []
    else
      let unread := (rows.directoryRows parentInodeId).filter fun record =>
        startAfterNameKey.all fun nameKey => nameKey < record.nameKey
      takeVisible reads limit
        ((edgeValues seq unread).filter DirentryBindingRecord.isBound)

def hasVisibleChildren (seq retentionFloorSeq : ChangeSeq) (parentInodeId : InodeId) :
    Except VisiblePathError Bool :=
  (rows.visibleChildrenPageByNameKey seq retentionFloorSeq parentInodeId none 1).map
    (!·.isEmpty)

end FamilyRows

/-- An in-memory state has no manifest, so its floor is 0. -/
def MetadataState.readsAtSeq (state : MetadataState) (seq : ChangeSeq) : MetadataVisibilityReads :=
  state.familyRows.readsAt seq 0

end LoonFs
