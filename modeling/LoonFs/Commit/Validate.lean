import LoonFs.Commit.Operations

/-! # Commit validation -/

namespace LoonFs

structure CommitNumbering where
  nextOpIndex : Nat := 0
  nextDeltaIndex : Nat := 0
deriving DecidableEq

namespace CommitNumbering

def reserveOpIndex (numbering : CommitNumbering) : Except CommitError (Nat × CommitNumbering) :=
  if numbering.nextOpIndex + 1 < 2 ^ 32 then
    .ok (numbering.nextOpIndex,
      { numbering with nextOpIndex := numbering.nextOpIndex + 1 })
  else .error (.validation .operationIndexOverflow)

def reserveDeltaIndex (numbering : CommitNumbering) : Except CommitError (Nat × CommitNumbering) :=
  if numbering.nextDeltaIndex + 1 < 2 ^ 32 then
    .ok (numbering.nextDeltaIndex,
      { numbering with nextDeltaIndex := numbering.nextDeltaIndex + 1 })
  else .error (.validation .deltaIndexOverflow)

end CommitNumbering

def readVisible (read : Except VisiblePathError α) : Except CommitError α :=
  read.mapError .visiblePath

def refuse (error : CommitValidationError) : Except CommitError α := .error (.validation error)

namespace MetadataView

variable (view : MetadataView)

/-! ## State checks -/

/-- The deletion that `deletionSeq` identifies: the root's latest tombstone event, above the
floor and of an earlier commit. -/
def resolveRecoverableDeletion (inodeId : InodeId) (deletionSeq : ChangeSeq) :
    Except CommitError SubtreeTombstoneRecord :=
  if deletionSeq ≤ view.retentionFloorSeq then
    refuse (.undeleteTargetNotDeleted inodeId)
  else
    match view.recoverableDeletion inodeId with
    | none => refuse (.undeleteTargetNotDeleted inodeId)
    | some deletion =>
      if deletion.committedSeq ≥ view.visibleSeq then
        refuse (.undeleteTargetsCurrentCommit inodeId)
      else if deletion.committedSeq ≠ deletionSeq then
        refuse (.undeleteSequenceMismatch inodeId deletionSeq deletion.committedSeq)
      else .ok deletion

def ensureTargetVisible (inodeId : InodeId) (operand : CommitOperand) :
    Except CommitError Unit := do
  match ← readVisible (view.reads.visibleInode inodeId) with
  | none => refuse (.inodeMissing operand inodeId)
  | some _ => return ()

def ensureInodeAttributesRevisionIs (inodeId : InodeId) (expected : AttributesRevisionNo) :
    Except CommitError Unit :=
  if view.attributesRevisionNo inodeId ≠ expected then
    refuse (.updateAttributesBaseRevisionMismatch inodeId expected
      (some (view.attributesRevisionNo inodeId)))
  else .ok ()

def ensureInodeAccessRevisionIs (inodeId : InodeId) (expected : AccessRevisionNo) :
    Except CommitError Unit :=
  if view.accessRevisionNo inodeId ≠ expected then
    refuse (.updateAccessBaseRevisionMismatch inodeId expected
      (some (view.accessRevisionNo inodeId)))
  else .ok ()

def resolveInode (inodeId : InodeId) (operand : CommitOperand) : Except CommitError InodeRecord :=
  match view.reads.findInode inodeId with
  | none => refuse (.inodeMissing operand inodeId)
  | some inode => .ok inode

def resolveInodeKind (inodeId : InodeId) (expected : InodeKind) (operand : CommitOperand) :
    Except CommitError InodeRecord := do
  let inode ← view.resolveInode inodeId operand
  if inode.inodeKind ≠ expected then
    refuse (.inodeWrongKind operand inodeId expected inode.inodeKind)
  else return inode

def ensureNotCoveredByTombstone (inodeId : InodeId) (operand : CommitOperand) :
    Except CommitError Unit := do
  match ← readVisible (view.reads.coveringSubtreeTombstone inodeId) with
  | some tombstone =>
    refuse (.targetUnderSubtreeTombstone operand inodeId tombstone.rootInodeId
      tombstone.committedSeq)
  | none => return ()

def resolveNameAbsent (policy : NamePolicy) (parentInodeId : InodeId)
    (displayName : DisplayName) (rebindingInodeId : Option InodeId)
    (operand : CommitOperand) : Except CommitError NameKey := do
  let _ ← view.resolveInodeKind parentInodeId .directory operand
  let nameKey := policy.nameKeyForDisplayName displayName
  match ← readVisible (view.reads.visibleChild parentInodeId nameKey) with
  | none => return nameKey
  | some existing =>
    if rebindingInodeId ≠ some existing.childInodeId then
      refuse (.nameTaken operand parentInodeId nameKey existing.childInodeId)
    else return nameKey

def ensureChildUnbound (childInodeId : InodeId) (unbinding : Option DeltaPosition) :
    Except CommitError Unit :=
  match view.reads.currentParentBindingForChild childInodeId with
  | none => .ok ()
  | some current =>
    if some current.bindPosition ≠ unbinding then
      .error (.bindsBoundInode childInodeId current.nameKey current.parentInodeId)
    else .ok ()

def ensureSourceBinding (expected : ResolvedBinding) : Except CommitError Unit := do
  match ← readVisible (view.reads.visibleChild expected.parentInodeId expected.nameKey) with
  | none => refuse (.bindingPreconditionMissing expected.parentInodeId expected.nameKey)
  | some existing =>
    if existing.parentInodeId ≠ expected.parentInodeId ∨
        existing.nameKey ≠ expected.nameKey ∨
        existing.childInodeId ≠ expected.childInodeId ∨
        existing.bindPosition ≠ expected.bindPosition then
      refuse (.bindingPreconditionMismatch expected.nameKey expected.parentInodeId
        (some expected.childInodeId) (some existing.childInodeId))
    else return ()

def ensureFileBaseRevisionIs (inodeId : InodeId) (expected : RevisionNo)
    (operand : CommitOperand) : Except CommitError Unit := do
  let _ ← view.resolveInodeKind inodeId .file operand
  let actual := (view.rows.latestRevisionRecord view.visibleSeq inodeId).map
    RevisionRecord.revisionNo
  if actual ≠ some expected then
    refuse (.baseRevisionMismatch inodeId expected actual)
  else return ()

def resolveCurrentBinding (inodeId : InodeId) (operand : CommitOperand) :
    Except CommitError DirentryBindingRecord :=
  match view.reads.currentParentBindingForChild inodeId with
  | none => refuse (.inodeMissing operand inodeId)
  | some binding => .ok binding

/-- The summary that a bind of the inode copies into the new edge. -/
def resolveRevisionSummary (inode : InodeRecord) : Except CommitError (Option RevisionSummary) :=
  if inode.inodeKind = .directory then .ok none
  else
    match view.rows.latestRevisionRecord view.visibleSeq inode.inodeId with
    | none => .error (.fileWithoutRevision inode.inodeId)
    | some revision =>
      .ok (some
        { revisionNo := revision.revisionNo
          sizeBytes := revision.contentRef.sizeBytes
          revisionCommittedBy := revision.committedBy
          revisionCommittedAtMs := revision.committedAtMs })

/-- The revision that a restore copies, which at or below the floor is the newest there. -/
def resolveRestoreSourceRevision (inodeId : InodeId) (sourceRevisionNo : RevisionNo) :
    Except CommitError RevisionRecord :=
  let missing := CommitValidationError.restoreRevisionSourceRevisionMissing inodeId
    sourceRevisionNo
  match view.rows.revisionByInodeNo view.visibleSeq inodeId sourceRevisionNo with
  | none => refuse missing
  | some revision =>
    if revision.committedSeq ≤ view.retentionFloorSeq then
      let newestAtFloor := view.rows.latestRevisionRecord view.retentionFloorSeq inodeId
      if newestAtFloor.map RevisionRecord.revisionNo ≠ some revision.revisionNo then
        refuse missing
      else .ok revision
    else .ok revision

def occupiedWhenRequired (requireEmpty : Bool) (inodeId : InodeId) : Except CommitError Bool :=
  if requireEmpty then
    readVisible (view.rows.hasVisibleChildren view.visibleSeq view.retentionFloorSeq inodeId)
  else .ok false

def ensureRenameDoesNotCycle (inode : InodeRecord) (newParentInodeId : InodeId) :
    Except CommitError Unit :=
  if inode.inodeKind = .directory then do
    let cycle ← readVisible
      (view.reads.wouldCreateDirectoryCycle inode.inodeId newParentInodeId)
    if cycle then refuse (.renameWouldCycleDirectory inode.inodeId newParentInodeId)
    else return ()
  else .ok ()

end MetadataView

/-! ## Deltas -/

def nextOrdinal (base : Nat) (overflow : CommitValidationError) : Except CommitError Nat :=
  match nextPublicOrdinal base with
  | some next => .ok next
  | none => refuse overflow

def revisionDelta (numbering : CommitNumbering) (edge : DirentryBindingRecord)
    (revisionNo : RevisionNo) (contentRef : ContentRef) (appendOffset : Option Nat) :
    Except CommitError (WalDelta × CommitNumbering) := do
  let (deltaIndex, numbering) ← numbering.reserveDeltaIndex
  return (.appendFileRevision deltaIndex edge.childInodeId edge.parentInodeId edge.nameKey
    (edge.displayName.getD "") edge.bindPosition edge.childCreatedBy edge.childCreatedAtMs
    revisionNo contentRef none appendOffset, numbering)

def unbindDelta (numbering : CommitNumbering) (binding : ResolvedBinding)
    (inode : InodeRecord) : Except CommitError (WalDelta × CommitNumbering) := do
  let (deltaIndex, numbering) ← numbering.reserveDeltaIndex
  return (.unbindDirentry deltaIndex binding.parentInodeId binding.nameKey
    binding.displayName binding.childInodeId inode.inodeKind inode.committedBy
    inode.committedAtMs binding.bindPosition, numbering)

def deleteDeltas (numbering : CommitNumbering) (inode : InodeRecord)
    (binding : ResolvedBinding) : Except CommitError (List WalDelta × CommitNumbering) := do
  let (unbind, numbering) ← unbindDelta numbering binding inode
  let (deltaIndex, numbering) ← numbering.reserveDeltaIndex
  return ([unbind, .tombstoneSubtree deltaIndex inode.inodeId inode.inodeKind
    { parentInodeId := binding.parentInodeId
      nameKey := binding.nameKey
      displayName := binding.displayName }], numbering)

def bindDelta (numbering : CommitNumbering) (parentInodeId : InodeId) (nameKey : NameKey)
    (displayName : DisplayName) (inode : InodeRecord) (revision : Option RevisionSummary) :
    Except CommitError (WalDelta × CommitNumbering) := do
  let (deltaIndex, numbering) ← numbering.reserveDeltaIndex
  return (.bindDirentry deltaIndex parentInodeId nameKey displayName inode.inodeId
    inode.inodeKind inode.committedBy inode.committedAtMs revision, numbering)

def createDeltas (numbering : CommitNumbering) (header : CommitHeader)
    (childInodeId parentInodeId : InodeId) (nameKey : NameKey) (displayName : DisplayName)
    (child : NewChild) : Except CommitError (List WalDelta × CommitNumbering) := do
  let (createIndex, numbering) ← numbering.reserveDeltaIndex
  let (bindIndex, numbering) ← numbering.reserveDeltaIndex
  match child with
  | .directory =>
    return ([
      .createInode createIndex childInodeId .directory,
      .bindDirentry bindIndex parentInodeId nameKey displayName childInodeId .directory
        header.actorId header.committedAtMs none], numbering)
  | .file contentRef =>
    let (revisionIndex, numbering) ← numbering.reserveDeltaIndex
    return ([
      .createInode createIndex childInodeId .file,
      .bindDirentry bindIndex parentInodeId nameKey displayName childInodeId .file
        header.actorId header.committedAtMs (some
          { revisionNo := 1
            sizeBytes := contentRef.sizeBytes
            revisionCommittedBy := header.actorId
            revisionCommittedAtMs := header.committedAtMs }),
      .appendFileRevision revisionIndex childInodeId parentInodeId nameKey displayName
        ⟨header.committedSeq, bindIndex⟩ header.actorId header.committedAtMs 1 contentRef
        none none], numbering)

def renameDeltas (numbering : CommitNumbering) (inode : InodeRecord)
    (binding : ResolvedBinding) (parentInodeId : InodeId) (nameKey : NameKey)
    (displayName : DisplayName) (revision : Option RevisionSummary) :
    Except CommitError (List WalDelta × CommitNumbering) := do
  let (unbind, numbering) ← unbindDelta numbering binding inode
  let (bind, numbering) ← bindDelta numbering parentInodeId nameKey displayName inode
    revision
  return ([unbind, bind], numbering)

def undeleteDeltas (numbering : CommitNumbering) (inode : InodeRecord)
    (deletion : DeltaPosition) (parentInodeId : InodeId) (nameKey : NameKey)
    (displayName : DisplayName) (revision : Option RevisionSummary) :
    Except CommitError (List WalDelta × CommitNumbering) := do
  let (revokeIndex, numbering) ← numbering.reserveDeltaIndex
  let (bind, numbering) ← bindDelta numbering parentInodeId nameKey displayName inode
    revision
  return ([.revokeSubtreeTombstone revokeIndex inode.inodeId deletion, bind], numbering)

/-! ## Operation validators -/

namespace MetadataView

variable (view : MetadataView) (policy : NamePolicy) (header : CommitHeader)
  (numbering : CommitNumbering)

def validateCreate (childInodeId parentInodeId : InodeId) (displayName : DisplayName)
    (child : NewChild) : Except CommitError (List WalDelta × CommitNumbering) := do
  let nameKey ← view.resolveNameAbsent policy parentInodeId displayName none .createParent
  view.ensureChildUnbound childInodeId none
  view.ensureNotCoveredByTombstone parentInodeId .createParent
  createDeltas numbering header childInodeId parentInodeId nameKey displayName child

def validateReplaceFile (inodeId : InodeId) (baseRevisionNo : RevisionNo)
    (contentRef : ContentRef) (appendOffset : Option Nat) :
    Except CommitError (List WalDelta × CommitNumbering) := do
  view.ensureFileBaseRevisionIs inodeId baseRevisionNo .replaceTarget
  let revisionNo ← nextOrdinal baseRevisionNo (.revisionOverflow inodeId baseRevisionNo)
  view.ensureNotCoveredByTombstone inodeId .replaceTarget
  let edge ← view.resolveCurrentBinding inodeId .replaceTarget
  let (delta, numbering) ← revisionDelta numbering edge revisionNo contentRef appendOffset
  return ([delta], numbering)

def validateRestoreRevision (inodeId : InodeId)
    (sourceRevisionNo baseRevisionNo : RevisionNo) :
    Except CommitError (List WalDelta × CommitNumbering) := do
  view.ensureFileBaseRevisionIs inodeId baseRevisionNo .restoreTarget
  let source ← view.resolveRestoreSourceRevision inodeId sourceRevisionNo
  let revisionNo ← nextOrdinal baseRevisionNo (.revisionOverflow inodeId baseRevisionNo)
  view.ensureNotCoveredByTombstone inodeId .restoreTarget
  let edge ← view.resolveCurrentBinding inodeId .restoreTarget
  let (delta, numbering) ← revisionDelta numbering edge revisionNo source.contentRef none
  return ([delta], numbering)

def validateDeleteFile (inodeId : InodeId) (sourceBinding : ResolvedBinding) :
    Except CommitError (List WalDelta × CommitNumbering) := do
  view.ensureSourceBinding sourceBinding
  let inode ← view.resolveInodeKind inodeId .file .deleteTarget
  view.ensureNotCoveredByTombstone inodeId .deleteTarget
  deleteDeltas numbering inode sourceBinding

def validateRename (inodeId : InodeId) (sourceBinding : ResolvedBinding)
    (newParentInodeId : InodeId) (newDisplayName : DisplayName) :
    Except CommitError (List WalDelta × CommitNumbering) := do
  view.ensureSourceBinding sourceBinding
  let inode ← view.resolveInode inodeId .renameSource
  let newNameKey ← view.resolveNameAbsent policy newParentInodeId newDisplayName
    (some inodeId) .renameTargetParent
  view.ensureChildUnbound inodeId (some sourceBinding.bindPosition)
  view.ensureRenameDoesNotCycle inode newParentInodeId
  view.ensureNotCoveredByTombstone inodeId .renameSource
  view.ensureNotCoveredByTombstone newParentInodeId .renameTargetParent
  let revision ← view.resolveRevisionSummary inode
  renameDeltas numbering inode sourceBinding newParentInodeId newNameKey newDisplayName
    revision

def validateDeleteSubtree (rootInodeId : InodeId) (sourceBinding : ResolvedBinding)
    (requireEmpty : Bool) : Except CommitError (List WalDelta × CommitNumbering) := do
  view.ensureSourceBinding sourceBinding
  let operand := if requireEmpty then CommitOperand.emptyDirectoryTarget else .subtreeRoot
  let inode ← view.resolveInodeKind rootInodeId .directory operand
  let occupied ← view.occupiedWhenRequired requireEmpty rootInodeId
  if occupied then refuse (.directoryNotEmpty rootInodeId)
  else
    view.ensureNotCoveredByTombstone rootInodeId .subtreeRoot
    deleteDeltas numbering inode sourceBinding

def validateUndelete (inodeId : InodeId) (deletionSeq : ChangeSeq)
    (parentInodeId : InodeId) (displayName : DisplayName) :
    Except CommitError (List WalDelta × CommitNumbering) := do
  let inode ← view.resolveInode inodeId .undeleteTarget
  let deletion ← view.resolveRecoverableDeletion inodeId deletionSeq
  let nameKey ← view.resolveNameAbsent policy parentInodeId displayName none .undeleteTarget
  view.ensureChildUnbound inodeId none
  view.ensureNotCoveredByTombstone parentInodeId .undeleteTarget
  let revision ← view.resolveRevisionSummary inode
  undeleteDeltas numbering inode deletion.position parentInodeId nameKey displayName revision

def validateUpdateAttributes (inodeId : InodeId) (baseNo : AttributesRevisionNo)
    (attributes : Attributes) : Except CommitError (List WalDelta × CommitNumbering) := do
  view.ensureTargetVisible inodeId .attributeTarget
  view.ensureInodeAttributesRevisionIs inodeId baseNo
  let revisionNo ← nextOrdinal baseNo (.updateAttributesRevisionOverflow inodeId baseNo)
  let (deltaIndex, numbering) ← numbering.reserveDeltaIndex
  return ([.appendAttributesRevision deltaIndex inodeId revisionNo attributes], numbering)

def validateUpdateAccess (inodeId : InodeId) (baseNo : AccessRevisionNo)
    (boundary : Bool) (grants : AccessGrants) :
    Except CommitError (List WalDelta × CommitNumbering) := do
  view.ensureTargetVisible inodeId .accessTarget
  view.ensureInodeAccessRevisionIs inodeId baseNo
  let revisionNo ← nextOrdinal baseNo (.updateAccessRevisionOverflow inodeId baseNo)
  let (deltaIndex, numbering) ← numbering.reserveDeltaIndex
  return ([.appendAccessRevision deltaIndex inodeId revisionNo boundary grants], numbering)

def validateOperation : CommitOperation → Except CommitError (List WalDelta × CommitNumbering)
  | .createDirectory childInodeId parentInodeId displayName =>
    view.validateCreate policy header numbering childInodeId parentInodeId displayName
      .directory
  | .createFile childInodeId parentInodeId displayName contentRef =>
    view.validateCreate policy header numbering childInodeId parentInodeId displayName
      (.file contentRef)
  | .replaceFile inodeId baseRevisionNo contentRef appendOffset =>
    view.validateReplaceFile numbering inodeId baseRevisionNo contentRef appendOffset
  | .restoreRevision inodeId sourceRevisionNo baseRevisionNo =>
    view.validateRestoreRevision numbering inodeId sourceRevisionNo baseRevisionNo
  | .deleteFile inodeId sourceBinding => view.validateDeleteFile numbering inodeId sourceBinding
  | .rename inodeId sourceBinding newParentInodeId newDisplayName =>
    view.validateRename policy numbering inodeId sourceBinding newParentInodeId
      newDisplayName
  | .deleteSubtree rootInodeId sourceBinding requireEmpty =>
    view.validateDeleteSubtree numbering rootInodeId sourceBinding requireEmpty
  | .undelete inodeId deletionSeq parentInodeId displayName =>
    view.validateUndelete policy numbering inodeId deletionSeq parentInodeId displayName
  | .updateAttributes inodeId baseNo attributes =>
    view.validateUpdateAttributes numbering inodeId baseNo attributes
  | .updateAccess inodeId baseNo boundary grants =>
    view.validateUpdateAccess numbering inodeId baseNo boundary grants

end MetadataView

def WalDelta.withLayout (revisionLayout : ContentRef → Option ContentLayout) : WalDelta → WalDelta
  | .appendFileRevision deltaIndex inodeId parentInodeId nameKey displayName bindPosition
        createdBy createdAtMs revisionNo contentRef layout appendOffset =>
      .appendFileRevision deltaIndex inodeId parentInodeId nameKey displayName bindPosition
        createdBy createdAtMs revisionNo contentRef
        ((revisionLayout contentRef).or layout) appendOffset
  | delta => delta

structure CommitValidationSession where
  base : FamilyRows
  batchAccepted : MetadataState
  retentionFloorSeq : ChangeSeq
  header : CommitHeader
  overlay : MetadataState := {}
  numbering : CommitNumbering := {}

namespace CommitValidationSession

def view (session : CommitValidationSession) : MetadataView where
  base := session.base
  batchAccepted := session.batchAccepted
  overlay := session.overlay
  visibleSeq := session.header.committedSeq
  retentionFloorSeq := session.retentionFloorSeq

def validateNext (policy : NamePolicy) (revisionLayout : ContentRef → Option ContentLayout)
    (session : CommitValidationSession) (op : CommitOperation) :
    Except CommitError (List WalCommitDelta × CommitValidationSession) := do
  let (opIndex, numbering) ← session.numbering.reserveOpIndex
  let (deltas, numbering) ← session.view.validateOperation policy session.header numbering op
  let deltas := deltas.map (WalDelta.withLayout revisionLayout)
  return (deltas.map fun delta => { semanticOperationIndex := opIndex, delta },
    { session with
      overlay := session.overlay.applyCommittedWalDeltas session.header deltas
      numbering })

/-- Validates operations in order, each against what its predecessors did. -/
def validate (policy : NamePolicy) (revisionLayout : ContentRef → Option ContentLayout) :
    CommitValidationSession → List CommitOperation →
    Except CommitError (List WalCommitDelta × CommitValidationSession)
  | session, [] => .ok ([], session)
  | session, op :: ops => do
      let (deltas, session) ← session.validateNext policy revisionLayout op
      let (rest, session) ← session.validate policy revisionLayout ops
      return (deltas ++ rest, session)

end CommitValidationSession

end LoonFs
