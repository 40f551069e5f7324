import LoonFs.Metadata.Reads

/-! # Commit operations -/

namespace LoonFs

/-- The binding that planning observed for an operation's source. -/
structure ResolvedBinding where
  parentInodeId : InodeId
  nameKey : NameKey
  displayName : DisplayName
  childInodeId : InodeId
  bindPosition : DeltaPosition
deriving DecidableEq

inductive NewChild where
  | directory
  | file (contentRef : ContentRef)
deriving DecidableEq

inductive CommitOperation where
  | createDirectory (childInodeId parentInodeId : InodeId) (displayName : DisplayName)
  | createFile (childInodeId parentInodeId : InodeId) (displayName : DisplayName)
      (contentRef : ContentRef)
  | replaceFile (inodeId : InodeId) (baseRevisionNo : RevisionNo) (contentRef : ContentRef)
      (appendOffset : Option Nat)
  | restoreRevision (inodeId : InodeId) (sourceRevisionNo baseRevisionNo : RevisionNo)
  | deleteFile (inodeId : InodeId) (sourceBinding : ResolvedBinding)
  | rename (inodeId : InodeId) (sourceBinding : ResolvedBinding)
      (newParentInodeId : InodeId) (newDisplayName : DisplayName)
  | deleteSubtree (rootInodeId : InodeId) (sourceBinding : ResolvedBinding)
      (requireEmpty : Bool)
  | undelete (inodeId : InodeId) (deletionSeq : ChangeSeq) (parentInodeId : InodeId)
      (displayName : DisplayName)
  | updateAttributes (inodeId : InodeId) (baseAttributesRevisionNo : AttributesRevisionNo)
      (attributes : Attributes)
  | updateAccess (inodeId : InodeId) (baseAccessRevisionNo : AccessRevisionNo)
      (boundary : Bool) (grants : AccessGrants)
deriving DecidableEq

inductive CommitOperand where
  | createParent
  | renameSource
  | renameTargetParent
  | replaceTarget
  | restoreTarget
  | deleteTarget
  | subtreeRoot
  | attributeTarget
  | accessTarget
  | undeleteTarget
  | emptyDirectoryTarget
deriving DecidableEq

inductive CommitValidationError where
  | inodeMissing (operand : CommitOperand) (inodeId : InodeId)
  | inodeWrongKind (operand : CommitOperand) (inodeId : InodeId)
      (expected actual : InodeKind)
  | nameTaken (operand : CommitOperand) (parentInodeId : InodeId) (nameKey : NameKey)
      (childInodeId : InodeId)
  | targetUnderSubtreeTombstone (operand : CommitOperand) (inodeId : InodeId)
      (rootInodeId : InodeId) (tombstoneSeq : ChangeSeq)
  | baseRevisionMismatch (inodeId : InodeId) (expected : RevisionNo)
      (actual : Option RevisionNo)
  | bindingPreconditionMissing (parentInodeId : InodeId) (nameKey : NameKey)
  | bindingPreconditionMismatch (nameKey : NameKey) (parentInodeId : InodeId)
      (expectedInodeId actualInodeId : Option InodeId)
  | directoryNotEmpty (inodeId : InodeId)
  | restoreRevisionSourceRevisionMissing (inodeId : InodeId)
      (sourceRevisionNo : RevisionNo)
  | renameWouldCycleDirectory (inodeId newParentInodeId : InodeId)
  | undeleteTargetNotDeleted (inodeId : InodeId)
  | undeleteTargetsCurrentCommit (inodeId : InodeId)
  | undeleteSequenceMismatch (inodeId : InodeId) (requestedSeq activeSeq : ChangeSeq)
  | revisionOverflow (inodeId : InodeId) (baseRevisionNo : RevisionNo)
  | updateAttributesBaseRevisionMismatch (inodeId : InodeId)
      (expected : AttributesRevisionNo) (actual : Option AttributesRevisionNo)
  | updateAttributesRevisionOverflow (inodeId : InodeId)
      (baseAttributesRevisionNo : AttributesRevisionNo)
  | updateAccessBaseRevisionMismatch (inodeId : InodeId)
      (expected : AccessRevisionNo) (actual : Option AccessRevisionNo)
  | updateAccessRevisionOverflow (inodeId : InodeId)
      (baseAccessRevisionNo : AccessRevisionNo)
  | operationIndexOverflow
  | deltaIndexOverflow
deriving DecidableEq

/-- What a validation returns instead of deltas. -/
inductive CommitError where
  | validation (error : CommitValidationError)
  | visiblePath (error : VisiblePathError)
  | bindsBoundInode (childInodeId : InodeId) (nameKey : NameKey) (parentInodeId : InodeId)
  | fileWithoutRevision (inodeId : InodeId)
deriving DecidableEq

structure MetadataView where
  base : FamilyRows
  batchAccepted : MetadataState
  overlay : MetadataState
  visibleSeq : ChangeSeq
  retentionFloorSeq : ChangeSeq

namespace MetadataView

variable (view : MetadataView)

def rows : FamilyRows := view.overlay.familyRows ++ view.batchAccepted.familyRows ++ view.base

def reads : MetadataVisibilityReads := view.rows.readsAt view.visibleSeq view.retentionFloorSeq

def recoverableDeletion (rootInodeId : InodeId) : Option SubtreeTombstoneRecord :=
  (view.rows.hidingSubtreeTombstone view.visibleSeq rootInodeId).filter fun tombstone =>
    tombstone.committedSeq > view.retentionFloorSeq

def attributesRevisionNo (inodeId : InodeId) : AttributesRevisionNo :=
  ((view.rows.latestAttributesRevision view.visibleSeq inodeId).map
    AttributesRevisionRecord.attributesRevisionNo).getD 0

def accessRevisionNo (inodeId : InodeId) : AccessRevisionNo :=
  ((view.rows.latestAccessRevision view.visibleSeq inodeId).map
    AccessRevisionRecord.accessRevisionNo).getD 0

end MetadataView

end LoonFs
