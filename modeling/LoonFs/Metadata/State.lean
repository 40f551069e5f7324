import LoonFs.MetadataRows

/-! # Metadata state and replay -/

namespace LoonFs

def genesisCommitId : CommitId := "c_00000000000000000000000000000000"

structure MetadataState where
  inodes : List InodeRecord := []
  direntryBinds : List DirentryBindingRecord := []
  revisions : List RevisionRecord := []
  subtreeTombstones : List SubtreeTombstoneRecord := []
  commitReceipts : List CommitReceiptRecord := []
  commits : List WalCommitPayload := []
  contentLayouts : List ContentLayoutRecord := []
  attributesRevisions : List AttributesRevisionRecord := []
  accessRevisions : List AccessRevisionRecord := []
deriving DecidableEq

/-- The fields of a commit that its rows copy. -/
structure CommitHeader where
  committedSeq : ChangeSeq
  commitId : CommitId
  actorId : ActorId
  committedAtMs : Nat
deriving DecidableEq

def WalCommitPayload.header (record : WalCommitPayload) : CommitHeader where
  committedSeq := record.committedSeq
  commitId := record.commitId
  actorId := record.committedBy
  committedAtMs := record.committedAtMs

namespace MetadataState

def append (left right : MetadataState) : MetadataState where
  inodes := left.inodes ++ right.inodes
  direntryBinds := left.direntryBinds ++ right.direntryBinds
  revisions := left.revisions ++ right.revisions
  subtreeTombstones := left.subtreeTombstones ++ right.subtreeTombstones
  commitReceipts := left.commitReceipts ++ right.commitReceipts
  commits := left.commits ++ right.commits
  contentLayouts := left.contentLayouts ++ right.contentLayouts
  attributesRevisions := left.attributesRevisions ++ right.attributesRevisions
  accessRevisions := left.accessRevisions ++ right.accessRevisions

instance : Append MetadataState := ⟨append⟩

section

variable (left right : MetadataState)

include left right

@[simp] theorem append_inodes : (left ++ right).inodes = left.inodes ++ right.inodes := rfl

@[simp] theorem append_direntryBinds :
    (left ++ right).direntryBinds = left.direntryBinds ++ right.direntryBinds := rfl

@[simp] theorem append_revisions :
    (left ++ right).revisions = left.revisions ++ right.revisions := rfl

@[simp] theorem append_subtreeTombstones :
    (left ++ right).subtreeTombstones = left.subtreeTombstones ++ right.subtreeTombstones := rfl

@[simp] theorem append_commitReceipts :
    (left ++ right).commitReceipts = left.commitReceipts ++ right.commitReceipts := rfl

@[simp] theorem append_commits : (left ++ right).commits = left.commits ++ right.commits := rfl

@[simp] theorem append_contentLayouts :
    (left ++ right).contentLayouts = left.contentLayouts ++ right.contentLayouts := rfl

@[simp] theorem append_attributesRevisions : (left ++ right).attributesRevisions =
      left.attributesRevisions ++ right.attributesRevisions := rfl

@[simp] theorem append_accessRevisions :
    (left ++ right).accessRevisions = left.accessRevisions ++ right.accessRevisions := rfl

end

theorem append_assoc (left middle right : MetadataState) :
    left ++ middle ++ right = left ++ (middle ++ right) := by
  change append (append left middle) right = append left (append middle right)
  simp only [append, List.append_assoc]

@[simp] theorem append_empty (state : MetadataState) : state ++ ({} : MetadataState) = state := by
  change append state {} = state
  simp [append]

@[simp] theorem empty_append (state : MetadataState) : ({} : MetadataState) ++ state = state := rfl

def deltaRows (header : CommitHeader) : WalDelta → MetadataState
  | .createInode _ inodeId inodeKind =>
    { inodes := [
        { inodeId, inodeKind
          committedSeq := header.committedSeq
          commitId := header.commitId
          committedBy := header.actorId
          committedAtMs := header.committedAtMs }] }
  | .bindDirentry deltaIndex parentInodeId nameKey displayName childInodeId childKind
        childCreatedBy childCreatedAtMs revision =>
      { direntryBinds := [
          { parentInodeId, nameKey, childInodeId, childKind, childCreatedBy
            childCreatedAtMs, deltaIndex
            committedSeq := header.committedSeq
            commitId := header.commitId
            committedBy := header.actorId
            committedAtMs := header.committedAtMs
            bindPosition := ⟨header.committedSeq, deltaIndex⟩
            state := .bound displayName revision }] }
  | .unbindDirentry deltaIndex parentInodeId nameKey _ childInodeId childKind
        childCreatedBy childCreatedAtMs target =>
      { direntryBinds := [
          { parentInodeId, nameKey, childInodeId, childKind, childCreatedBy
            childCreatedAtMs, deltaIndex
            committedSeq := header.committedSeq
            commitId := header.commitId
            committedBy := header.actorId
            committedAtMs := header.committedAtMs
            bindPosition := target
            state := .unbound }] }
  | .appendFileRevision deltaIndex inodeId parentInodeId nameKey displayName bindPosition
        childCreatedBy childCreatedAtMs revisionNo contentRef layout _ =>
      { contentLayouts := layout.toList.map fun layout =>
          { contentId := contentRef.contentId
            committedSeq := header.committedSeq
            sizeBytes := layout.sizeBytes
            layout }
        revisions := [
          { inodeId, revisionNo, deltaIndex, contentRef
            committedSeq := header.committedSeq
            commitId := header.commitId
            committedBy := header.actorId
            committedAtMs := header.committedAtMs }]
        -- The summary row of the file's edge.
        direntryBinds := [
          { parentInodeId, nameKey, childCreatedBy, childCreatedAtMs, deltaIndex
            bindPosition
            childInodeId := inodeId
            childKind := .file
            committedSeq := header.committedSeq
            commitId := header.commitId
            committedBy := header.actorId
            committedAtMs := header.committedAtMs
            state := .bound displayName (some
              { revisionNo
                sizeBytes := contentRef.sizeBytes
                revisionCommittedBy := header.actorId
                revisionCommittedAtMs := header.committedAtMs }) }] }
  | .tombstoneSubtree deltaIndex rootInodeId rootKind deletedBinding =>
    { subtreeTombstones := [
        { rootInodeId, deltaIndex
          committedSeq := header.committedSeq
          commitId := header.commitId
          committedBy := header.actorId
          committedAtMs := header.committedAtMs
          action := .set rootKind deletedBinding }] }
  | .revokeSubtreeTombstone deltaIndex rootInodeId target =>
    { subtreeTombstones := [
        { rootInodeId, deltaIndex
          committedSeq := header.committedSeq
          commitId := header.commitId
          committedBy := header.actorId
          committedAtMs := header.committedAtMs
          action := .revoke target }] }
  | .appendAttributesRevision deltaIndex inodeId attributesRevisionNo attributes =>
    { attributesRevisions := [
        { inodeId, attributesRevisionNo, deltaIndex, attributes
          committedSeq := header.committedSeq
          commitId := header.commitId
          committedBy := header.actorId
          committedAtMs := header.committedAtMs }] }
  | .appendAccessRevision deltaIndex inodeId accessRevisionNo boundary grants =>
    { accessRevisions := [
        { inodeId, accessRevisionNo, deltaIndex, boundary, grants
          committedSeq := header.committedSeq
          commitId := header.commitId
          committedBy := header.actorId
          committedAtMs := header.committedAtMs }] }

def applyCommittedWalDelta (state : MetadataState) (header : CommitHeader)
    (delta : WalDelta) : MetadataState :=
  state ++ deltaRows header delta

def applyCommittedWalDeltas (state : MetadataState) (header : CommitHeader)
    (deltas : List WalDelta) : MetadataState :=
  deltas.foldl (fun state delta => state.applyCommittedWalDelta header delta) state

def applyCommittedWalRecord (state : MetadataState) (record : WalCommitPayload) : MetadataState :=
  state.applyCommittedWalDeltas record.header (record.deltas.map WalCommitDelta.delta) ++
    { commits := [record]
      commitReceipts := [
        { commitId := record.commitId, committedSeq := record.committedSeq }] }

def bootstrap (createdAtMs : Nat) (rootGrants : AccessGrants) : MetadataState where
  inodes := [
    { inodeId := rootInodeId
      inodeKind := .directory
      committedSeq := 0
      commitId := genesisCommitId
      committedBy := "loonfs"
      committedAtMs := createdAtMs }]
  accessRevisions :=
    if rootGrants.isEmpty then [] else [
      { inodeId := rootInodeId
        accessRevisionNo := 0
        committedSeq := 0
        commitId := genesisCommitId
        deltaIndex := 0
        committedBy := "loonfs"
        committedAtMs := createdAtMs
        boundary := false
        grants := rootGrants }]

end MetadataState

structure FamilyRows where
  inodes : List InodeRecord := []
  direntryBinds : List DirentryBindingRecord := []
  direntryChildBinds : List DirentryBindingRecord := []
  revisions : List RevisionRecord := []
  tombstones : List SubtreeTombstoneRecord := []
  activeDeletions : List ActiveDeletionRecord := []
  commitReceipts : List CommitReceiptRecord := []
  commits : List WalCommitPayload := []
  contentLayouts : List ContentLayoutRecord := []
  attributes : List AttributesRevisionRecord := []
  access : List AccessRevisionRecord := []
  merges : List MergeIndexRecord := []
deriving DecidableEq

def activeDeletionFromTombstone (tombstone : SubtreeTombstoneRecord) : ActiveDeletionRecord :=
  match tombstone.action with
  | .set rootKind deletedBinding =>
    { rootInodeId := tombstone.rootInodeId
      deletionSeq := tombstone.committedSeq
      action := .listed rootKind tombstone.committedAtMs tombstone.committedBy
        deletedBinding }
  | .revoke target =>
    { rootInodeId := tombstone.rootInodeId
      deletionSeq := target.seq
      action := .removed tombstone.committedSeq }

namespace FamilyRows

def append (left right : FamilyRows) : FamilyRows where
  inodes := left.inodes ++ right.inodes
  direntryBinds := left.direntryBinds ++ right.direntryBinds
  direntryChildBinds := left.direntryChildBinds ++ right.direntryChildBinds
  revisions := left.revisions ++ right.revisions
  tombstones := left.tombstones ++ right.tombstones
  activeDeletions := left.activeDeletions ++ right.activeDeletions
  commitReceipts := left.commitReceipts ++ right.commitReceipts
  commits := left.commits ++ right.commits
  contentLayouts := left.contentLayouts ++ right.contentLayouts
  attributes := left.attributes ++ right.attributes
  access := left.access ++ right.access
  merges := left.merges ++ right.merges

instance : Append FamilyRows := ⟨append⟩

end FamilyRows

/-- The rows that a fold of the state stores in each family. -/
def MetadataState.familyRows (state : MetadataState) : FamilyRows where
  inodes := state.inodes
  direntryBinds := state.direntryBinds
  direntryChildBinds := state.direntryBinds.filter DirentryBindingRecord.isBindingEvent
  revisions := state.revisions
  tombstones := state.subtreeTombstones
  activeDeletions := state.subtreeTombstones.map activeDeletionFromTombstone
  commitReceipts := state.commitReceipts
  commits := state.commits
  contentLayouts := state.contentLayouts
  attributes := state.attributesRevisions
  access := state.accessRevisions
  merges := state.commits.filterMap MergeIndexRecord.fromCommit

theorem MetadataState.familyRows_append (left right : MetadataState) :
    (left ++ right).familyRows = left.familyRows ++ right.familyRows := by
  change (left ++ right).familyRows = left.familyRows.append right.familyRows
  simp [familyRows, FamilyRows.append]

end LoonFs
