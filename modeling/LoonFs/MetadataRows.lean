import Mathlib.Algebra.GroupWithZero.Nat
import Mathlib.Data.Prod.Lex
import Mathlib.Data.String.Basic

/-! # Metadata rows -/

namespace LoonFs

abbrev InodeId := Nat
abbrev ChangeSeq := Nat
abbrev RevisionNo := Nat
abbrev AttributesRevisionNo := Nat
abbrev AccessRevisionNo := Nat
abbrev NameKey := String
abbrev DisplayName := String
abbrev ActorId := String
abbrev CommitId := String
abbrev ContentId := String
abbrev NamespaceId := String
abbrev PrincipalId := String

def rootInodeId : InodeId := 0

/-- The largest ordinal that the API exposes, `2^53 - 1`. -/
def maxPublicInteger : Nat := 9007199254740991

def nextPublicOrdinal (current : Nat) : Option Nat :=
  if current + 1 ≤ maxPublicInteger then some (current + 1) else none

inductive InodeKind where
  | file
  | directory
deriving DecidableEq

/-- Identifies one delta within the committed history. -/
structure DeltaPosition where
  seq : ChangeSeq
  deltaIndex : Nat
deriving DecidableEq

namespace DeltaPosition

private def toLexPair (position : DeltaPosition) : Nat ×ₗ Nat :=
  toLex (position.seq, position.deltaIndex)

private theorem toLexPair_injective : Function.Injective toLexPair := by
  rintro ⟨leftSeq, leftIndex⟩ ⟨rightSeq, rightIndex⟩ eq
  simpa [toLexPair] using eq

instance : LinearOrder DeltaPosition := LinearOrder.lift' toLexPair toLexPair_injective

theorem lt_iff (left right : DeltaPosition) : left < right ↔ left.seq < right.seq ∨
      left.seq = right.seq ∧ left.deltaIndex < right.deltaIndex :=
  Prod.Lex.lt_iff (x := toLexPair left) (y := toLexPair right)

theorem le_iff (left right : DeltaPosition) : left ≤ right ↔ left.seq < right.seq ∨
      left.seq = right.seq ∧ left.deltaIndex ≤ right.deltaIndex :=
  Prod.Lex.le_iff (x := toLexPair left) (y := toLexPair right)

theorem seq_le_of_le {left right : DeltaPosition} (le : left ≤ right) : left.seq ≤ right.seq := by
  rcases (le_iff left right).mp le with less | ⟨eq, _⟩
  · exact less.le
  · exact eq.le

end DeltaPosition

/-! ## Content -/

structure Checksum where
  algorithm : String
  value : String
deriving DecidableEq

/-- A reference to a prefix of one chain. The format defines the single kind
`blob_v1`. -/
structure ContentRef where
  contentId : ContentId
  sizeBytes : Nat
  checksum : Checksum
deriving DecidableEq

inductive ExtentObject where
  | whole
  | span (start finish : Nat)
deriving DecidableEq

structure ContentExtent where
  contentId : ContentId
  object : ExtentObject
  offset : Nat
  length : Nat
deriving DecidableEq

structure ContentLayout where
  creatorNamespaceId : NamespaceId
  extents : List ContentExtent
deriving DecidableEq

def ContentLayout.sizeBytes (layout : ContentLayout) : Nat :=
  (layout.extents.map ContentExtent.length).sum

abbrev Attributes := List (String × String)
/-- Direct grants, each with the bit set of its rights. -/
abbrev AccessGrants := List (PrincipalId × UInt8)

/-! ## Stored records -/

structure InodeRecord where
  inodeId : InodeId
  inodeKind : InodeKind
  committedSeq : ChangeSeq
  commitId : CommitId
  committedBy : ActorId
  committedAtMs : Nat
deriving DecidableEq

/-- The fields of a file's current revision that a listing reports. -/
structure RevisionSummary where
  revisionNo : RevisionNo
  sizeBytes : Nat
  revisionCommittedBy : ActorId
  revisionCommittedAtMs : Nat
deriving DecidableEq

inductive DirentryBindingState where
  | bound (displayName : DisplayName) (revision : Option RevisionSummary)
  | unbound
deriving DecidableEq

/-- One value of a directory edge: a binding event or a revision summary. -/
structure DirentryBindingRecord where
  parentInodeId : InodeId
  nameKey : NameKey
  childInodeId : InodeId
  childKind : InodeKind
  childCreatedBy : ActorId
  childCreatedAtMs : Nat
  committedSeq : ChangeSeq
  deltaIndex : Nat
  commitId : CommitId
  committedBy : ActorId
  committedAtMs : Nat
  /-- Position of the bind that established the binding, or that an unbind removes. -/
  bindPosition : DeltaPosition
  state : DirentryBindingState
deriving DecidableEq

namespace DirentryBindingRecord

def position (record : DirentryBindingRecord) : DeltaPosition :=
  ⟨record.committedSeq, record.deltaIndex⟩

def displayName (record : DirentryBindingRecord) : Option DisplayName :=
  match record.state with
  | .bound displayName _ => some displayName
  | .unbound => none

def revision (record : DirentryBindingRecord) : Option RevisionSummary :=
  match record.state with
  | .bound _ revision => revision
  | .unbound => none

def isBound (record : DirentryBindingRecord) : Bool :=
  match record.state with
  | .bound _ _ => true
  | .unbound => false

/-- Whether a bind or unbind delta wrote the row, rather than a revision delta. -/
def isBindingEvent (record : DirentryBindingRecord) : Bool :=
  !record.isBound || record.position == record.bindPosition

end DirentryBindingRecord

structure RevisionRecord where
  inodeId : InodeId
  revisionNo : RevisionNo
  committedSeq : ChangeSeq
  commitId : CommitId
  committedBy : ActorId
  committedAtMs : Nat
  deltaIndex : Nat
  contentRef : ContentRef
deriving DecidableEq

def RevisionRecord.position (record : RevisionRecord) : DeltaPosition :=
  ⟨record.committedSeq, record.deltaIndex⟩

structure DeletedBinding where
  parentInodeId : InodeId
  nameKey : NameKey
  displayName : DisplayName
deriving DecidableEq

inductive TombstoneRowAction where
  | set (rootKind : InodeKind) (deletedBinding : DeletedBinding)
  | revoke (target : DeltaPosition)
deriving DecidableEq

def TombstoneRowAction.hidesSubtree : TombstoneRowAction → Bool
  | .set _ _ => true
  | .revoke _ => false

structure SubtreeTombstoneRecord where
  rootInodeId : InodeId
  committedSeq : ChangeSeq
  deltaIndex : Nat
  commitId : CommitId
  action : TombstoneRowAction
  committedBy : ActorId
  committedAtMs : Nat
deriving DecidableEq

def SubtreeTombstoneRecord.position (record : SubtreeTombstoneRecord) : DeltaPosition :=
  ⟨record.committedSeq, record.deltaIndex⟩

inductive ActiveDeletionRowAction where
  | listed (inodeKind : InodeKind) (deletedAtMs : Nat) (deletedBy : ActorId)
      (deletedBinding : DeletedBinding)
  | removed (removedSeq : ChangeSeq)
deriving DecidableEq

structure ActiveDeletionRecord where
  rootInodeId : InodeId
  deletionSeq : ChangeSeq
  action : ActiveDeletionRowAction
deriving DecidableEq

structure ContentLayoutRecord where
  contentId : ContentId
  committedSeq : ChangeSeq
  sizeBytes : Nat
  layout : ContentLayout
deriving DecidableEq

structure CommitReceiptRecord where
  commitId : CommitId
  committedSeq : ChangeSeq
deriving DecidableEq

structure AttributesRevisionRecord where
  inodeId : InodeId
  attributesRevisionNo : AttributesRevisionNo
  committedSeq : ChangeSeq
  commitId : CommitId
  deltaIndex : Nat
  committedBy : ActorId
  committedAtMs : Nat
  attributes : Attributes
deriving DecidableEq

structure AccessRevisionRecord where
  inodeId : InodeId
  accessRevisionNo : AccessRevisionNo
  committedSeq : ChangeSeq
  commitId : CommitId
  deltaIndex : Nat
  committedBy : ActorId
  committedAtMs : Nat
  boundary : Bool
  grants : AccessGrants
deriving DecidableEq

/-! ## Write-ahead-log deltas -/

inductive WalDelta where
  | createInode (deltaIndex : Nat) (inodeId : InodeId) (inodeKind : InodeKind)
  | bindDirentry (deltaIndex : Nat) (parentInodeId : InodeId) (nameKey : NameKey)
      (displayName : DisplayName) (childInodeId : InodeId) (childKind : InodeKind)
      (childCreatedBy : ActorId) (childCreatedAtMs : Nat)
      (revision : Option RevisionSummary)
  | unbindDirentry (deltaIndex : Nat) (parentInodeId : InodeId) (nameKey : NameKey)
      (displayName : DisplayName) (childInodeId : InodeId) (childKind : InodeKind)
      (childCreatedBy : ActorId) (childCreatedAtMs : Nat) (target : DeltaPosition)
  | appendFileRevision (deltaIndex : Nat) (inodeId : InodeId) (parentInodeId : InodeId)
      (nameKey : NameKey) (displayName : DisplayName) (bindPosition : DeltaPosition)
      (childCreatedBy : ActorId) (childCreatedAtMs : Nat) (revisionNo : RevisionNo)
      (contentRef : ContentRef) (layout : Option ContentLayout)
      (appendOffset : Option Nat)
  | tombstoneSubtree (deltaIndex : Nat) (rootInodeId : InodeId) (rootKind : InodeKind)
      (deletedBinding : DeletedBinding)
  | revokeSubtreeTombstone (deltaIndex : Nat) (rootInodeId : InodeId)
      (target : DeltaPosition)
  | appendAttributesRevision (deltaIndex : Nat) (inodeId : InodeId)
      (attributesRevisionNo : AttributesRevisionNo) (attributes : Attributes)
  | appendAccessRevision (deltaIndex : Nat) (inodeId : InodeId)
      (accessRevisionNo : AccessRevisionNo) (boundary : Bool) (grants : AccessGrants)
deriving DecidableEq

structure WalCommitDelta where
  semanticOperationIndex : Nat
  delta : WalDelta
deriving DecidableEq

structure MergeRecord where
  sourceNamespaceId : NamespaceId
  sourceAfterSeq : ChangeSeq
  sourceThroughSeq : ChangeSeq
deriving DecidableEq

/-- One accepted commit as its log record describes it, without inline bytes. -/
structure WalCommitPayload where
  committedSeq : ChangeSeq
  commitId : CommitId
  committedBy : ActorId
  semanticCommitFingerprint : String
  committedAtMs : Nat
  message : Option String
  merge : Option MergeRecord
  deltas : List WalCommitDelta
deriving DecidableEq

structure MergeIndexRecord where
  sourceNamespaceId : NamespaceId
  committedSeq : ChangeSeq
  sourceAfterSeq : ChangeSeq
  sourceThroughSeq : ChangeSeq
deriving DecidableEq

def MergeIndexRecord.fromCommit (commit : WalCommitPayload) : Option MergeIndexRecord :=
  commit.merge.map fun merge =>
    { sourceNamespaceId := merge.sourceNamespaceId
      committedSeq := commit.committedSeq
      sourceAfterSeq := merge.sourceAfterSeq
      sourceThroughSeq := merge.sourceThroughSeq }

/-! ## Rows and families -/

/-- The families that a run stores, each in an order of its own. -/
inductive MetadataRowFamily where
  | inodes
  | direntryBinds
  | direntryChildBinds
  | revisions
  | tombstones
  | activeDeletions
  | commitReceipts
  | commits
  | contentLayouts
  | attributes
  | access
  | merges
deriving DecidableEq

inductive MetadataRow where
  | inode (record : InodeRecord)
  | direntryBinding (record : DirentryBindingRecord)
  | fileRevision (record : RevisionRecord)
  | tombstone (record : SubtreeTombstoneRecord)
  | activeDeletion (record : ActiveDeletionRecord)
  | commitReceipt (record : CommitReceiptRecord)
  | commit (record : WalCommitPayload)
  | merge (record : MergeIndexRecord)
  | contentLayout (record : ContentLayoutRecord)
  | attributesRevision (record : AttributesRevisionRecord)
  | accessRevision (record : AccessRevisionRecord)
deriving DecidableEq

end LoonFs
