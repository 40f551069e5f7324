import LoonFs.Metadata.State
import LoonFs.Wal.Object

/-! # Namespace manifests -/

namespace LoonFs

open Foundation

abbrev ManifestNo := Nat
abbrev RunNo := Nat
abbrev CompactorEpoch := Nat
abbrev PinId := String
abbrev WriterId := String
/-- The identity of a generated object: a metadata segment, an extension segment
or a pin. -/
abbrev ObjectId := String

theorem nextPublicOrdinal_eq_some : nextPublicOrdinal current = some next ↔
      next = current + 1 ∧ current + 1 ≤ maxPublicInteger := by
  rw [nextPublicOrdinal]
  split <;> simp_all [eq_comm]

structure WriterBlock where
  writerId : WriterId
  acquiredAtMs : Nat
deriving DecidableEq

inductive NamespaceStatus where
  | active
  | deleted (deletedAtMs : Nat)
deriving DecidableEq

def NamespaceStatus.isDeleted : NamespaceStatus → Bool
  | .active => false
  | .deleted _ => true

structure ManifestRef where
  ownerNamespaceId : NamespaceId
  manifestNo : ManifestNo
  headSeq : ChangeSeq
  payloadChecksum : PayloadChecksum
deriving DecidableEq

structure RebasedFrom where
  sourceNamespaceId : NamespaceId
  resumeAfterSeq : ChangeSeq
deriving DecidableEq

structure ForkBasis where
  manifest : ManifestRef
  sourcePinId : PinId
  rebasedFrom : Option RebasedFrom
deriving DecidableEq

inductive NamespaceAccess where
  | unrestricted
  | acl (principalScope : String) (rootGrants : AccessGrants)
deriving DecidableEq

structure ManifestActivity where
  contentBytes : Nat := 0
  fileRevisions : Nat := 0
  mutations : Nat := 0
deriving DecidableEq

def activityCounterAdd (counter value : Nat) : Option Nat :=
  if counter + value ≤ maxPublicInteger then some (counter + value) else none

def ManifestActivity.checkedAdd (activity other : ManifestActivity) : Option ManifestActivity := do
  let contentBytes ← activityCounterAdd activity.contentBytes other.contentBytes
  let fileRevisions ← activityCounterAdd activity.fileRevisions other.fileRevisions
  let mutations ← activityCounterAdd activity.mutations other.mutations
  return { contentBytes, fileRevisions, mutations }

inductive RunTier where
  | delta
  | base
deriving DecidableEq

/-- A reference to an immutable segment object, named by its checksums. -/
structure MetadataSegmentRef where
  /-- The namespace that stores the segment, which may be a fork source. -/
  ownerNamespaceId : NamespaceId
  segmentId : ObjectId
  family : MetadataRowFamily
  rowCount : Nat
  /-- The stored length that the block handles imply. -/
  objectBytes : Nat
  rows : List MetadataRow
deriving DecidableEq

structure MetadataRunRef where
  runNo : RunNo
  runSeq : ChangeSeq
  tier : RunTier
  segments : List MetadataSegmentRef
deriving DecidableEq

structure ExtensionSegmentRef where
  segmentId : ObjectId
deriving DecidableEq

structure ExtensionRunRef where
  runNo : RunNo
  level : Nat
  segments : List ExtensionSegmentRef
deriving DecidableEq

structure ExtensionEntry where
  version : Nat
  runs : List ExtensionRunRef
  state : List (String × String)
deriving DecidableEq

structure NamespaceManifestPayload where
  namespaceId : NamespaceId
  createdAtMs : Nat
  createdBy : ActorId
  access : NamespaceAccess
  retentionWindowMs : Option Nat
  forkBasis : Option ForkBasis
  familyRootId : NamespaceId
  status : NamespaceStatus
  writer : Option WriterBlock
  foldedWalNo : WalNo
  manifestNo : ManifestNo
  compactorEpoch : CompactorEpoch
  headSeq : ChangeSeq
  activity : ManifestActivity
  writerEpoch : WriterEpoch
  nextRunNo : RunNo
  retentionFloorSeq : ChangeSeq
  runs : List MetadataRunRef
  extensions : List (String × ExtensionEntry)
deriving DecidableEq

structure ManifestChainError where
  field : String
deriving DecidableEq

namespace NamespaceManifestPayload

def initial (namespaceId : NamespaceId) (createdAtMs : Nat) (createdBy : ActorId)
    (access : NamespaceAccess) : NamespaceManifestPayload where
  namespaceId
  createdAtMs
  createdBy
  access
  retentionWindowMs := none
  forkBasis := none
  familyRootId := namespaceId
  status := .active
  writer := none
  foldedWalNo := 0
  manifestNo := 1
  compactorEpoch := 0
  headSeq := 0
  activity := {}
  writerEpoch := 0
  nextRunNo := 0
  retentionFloorSeq := 0
  runs := []
  extensions := []

def initialFork (namespaceId : NamespaceId) (createdAtMs : Nat) (createdBy : ActorId)
    (forkBasis : ForkBasis) (source : NamespaceManifestPayload) : NamespaceManifestPayload :=
  { initial namespaceId createdAtMs createdBy source.access with
    retentionWindowMs := source.retentionWindowMs
    forkBasis := some forkBasis
    familyRootId := source.familyRootId
    headSeq := source.headSeq
    nextRunNo := source.nextRunNo
    retentionFloorSeq := forkBasis.manifest.headSeq
    runs := source.runs
    extensions := source.extensions }

def successor (manifest : NamespaceManifestPayload) (runs : List MetadataRunRef) :
    Option NamespaceManifestPayload :=
  (nextPublicOrdinal manifest.manifestNo).map fun manifestNo => { manifest with manifestNo, runs }

def invalid (field : String) : ManifestChainError := ⟨field⟩

def ensureFirstManifest (manifest : NamespaceManifestPayload) : Except ManifestChainError Unit := do
  refuseIf (manifest.manifestNo ≠ 1) (invalid "manifest_no")
  refuseIf manifest.status.isDeleted (invalid "status")
  refuseIf manifest.writer.isSome (invalid "writer")
  refuseIf (manifest.activity ≠ {}) (invalid "activity")
  match manifest.forkBasis with
  | some basis =>
    refuseIf (basis.manifest.headSeq ≠ manifest.headSeq ∨
      manifest.retentionFloorSeq ≠ manifest.headSeq) (invalid "head_seq")
  | none => do
      refuseIf (manifest.runs ≠ []) (invalid "runs")
      refuseIf (manifest.extensions ≠ []) (invalid "extensions")
      refuseIf (manifest.headSeq ≠ 0 ∨ manifest.retentionFloorSeq ≠ 0) (invalid "head_seq")
      refuseIf (manifest.nextRunNo ≠ 0) (invalid "next_run_no")

def ensureFollowedBy (manifest successor : NamespaceManifestPayload) (next : Bool) :
    Except ManifestChainError Unit := do
  refuseIf (successor.namespaceId ≠ manifest.namespaceId) (invalid "namespace_id")
  let numbered : Bool :=
    if next then nextPublicOrdinal manifest.manifestNo = some successor.manifestNo
    else manifest.manifestNo < successor.manifestNo
  refuseIf (numbered = false) (invalid "manifest_no")
  refuseIf (successor.foldedWalNo < manifest.foldedWalNo) (invalid "folded_wal_no")
  refuseIf (successor.writerEpoch < manifest.writerEpoch) (invalid "writer_epoch")
  refuseIf (successor.compactorEpoch < manifest.compactorEpoch) (invalid "compactor_epoch")
  refuseIf (successor.headSeq < manifest.headSeq) (invalid "head_seq")
  refuseIf (successor.retentionFloorSeq < manifest.retentionFloorSeq)
    (invalid "retention_floor_seq")
  refuseIf (successor.nextRunNo < manifest.nextRunNo) (invalid "next_run_no")
  refuseIf (successor.createdAtMs ≠ manifest.createdAtMs) (invalid "created_at_ms")
  refuseIf (successor.createdBy ≠ manifest.createdBy) (invalid "created_by")
  refuseIf (successor.access ≠ manifest.access) (invalid "access")
  refuseIf (successor.forkBasis ≠ manifest.forkBasis) (invalid "fork_basis")
  refuseIf (successor.familyRootId ≠ manifest.familyRootId) (invalid "family_root_id")
  refuseIf manifest.status.isDeleted (invalid "status")
  -- Activity only grows, and only when the head folds new commits.
  refuseIf
    (successor.activity.contentBytes < manifest.activity.contentBytes ∨
      successor.activity.fileRevisions < manifest.activity.fileRevisions ∨
      successor.activity.mutations < manifest.activity.mutations ∨
      (successor.headSeq = manifest.headSeq ∧ successor.activity ≠ manifest.activity))
    (invalid "activity")

def ensureSuccessor (manifest successor : NamespaceManifestPayload) :
    Except ManifestChainError Unit :=
  manifest.ensureFollowedBy successor true

def ensureLater (manifest later : NamespaceManifestPayload) : Except ManifestChainError Unit :=
  manifest.ensureFollowedBy later false

/-- What the rules ask of a later manifest, its number aside. -/
structure Follows (manifest later : NamespaceManifestPayload) : Prop where
  namespaceId : later.namespaceId = manifest.namespaceId
  foldedWalNo : manifest.foldedWalNo ≤ later.foldedWalNo
  writerEpoch : manifest.writerEpoch ≤ later.writerEpoch
  compactorEpoch : manifest.compactorEpoch ≤ later.compactorEpoch
  headSeq : manifest.headSeq ≤ later.headSeq
  retentionFloorSeq : manifest.retentionFloorSeq ≤ later.retentionFloorSeq
  nextRunNo : manifest.nextRunNo ≤ later.nextRunNo
  createdAtMs : later.createdAtMs = manifest.createdAtMs
  createdBy : later.createdBy = manifest.createdBy
  access : later.access = manifest.access
  forkBasis : later.forkBasis = manifest.forkBasis
  familyRootId : later.familyRootId = manifest.familyRootId
  active : manifest.status.isDeleted = false
  contentBytes : manifest.activity.contentBytes ≤ later.activity.contentBytes
  fileRevisions : manifest.activity.fileRevisions ≤ later.activity.fileRevisions
  mutations : manifest.activity.mutations ≤ later.activity.mutations
  activity : later.headSeq = manifest.headSeq → later.activity = manifest.activity

variable {manifest : NamespaceManifestPayload}

theorem ensureFollowedBy_eq_ok :
    manifest.ensureFollowedBy later next = .ok () ↔ manifest.Follows later ∧
        (if next then nextPublicOrdinal manifest.manifestNo = some later.manifestNo
          else manifest.manifestNo < later.manifestNo) := by
  simp only [ensureFollowedBy, bind_eq_ok, refuseIf_eq_ok, exists_const, not_or, not_lt,
    not_and, ne_eq, not_not, Bool.not_eq_true, Bool.not_eq_false]
  constructor
  · rintro ⟨space, numbered, foldedWalNo, writerEpoch, compactorEpoch, headSeq,
      retentionFloorSeq, nextRunNo, createdAtMs, createdBy, access, forkBasis, familyRootId,
      active, contentBytes, fileRevisions, mutations, activity⟩
    refine ⟨⟨space, foldedWalNo, writerEpoch, compactorEpoch, headSeq,
      retentionFloorSeq, nextRunNo, createdAtMs, createdBy, access, forkBasis, familyRootId,
      active, contentBytes, fileRevisions, mutations, activity⟩, ?_⟩
    cases next <;> simpa using numbered
  · rintro ⟨follows, numbered⟩
    refine ⟨follows.namespaceId, ?_, follows.foldedWalNo, follows.writerEpoch,
      follows.compactorEpoch, follows.headSeq, follows.retentionFloorSeq, follows.nextRunNo,
      follows.createdAtMs, follows.createdBy, follows.access, follows.forkBasis,
      follows.familyRootId, follows.active, follows.contentBytes, follows.fileRevisions,
      follows.mutations, follows.activity⟩
    cases next <;> simpa using numbered

theorem Follows.trans {first : NamespaceManifestPayload} (lower : first.Follows second)
    (upper : second.Follows third) : first.Follows third where
  namespaceId := upper.namespaceId.trans lower.namespaceId
  foldedWalNo := Nat.le_trans lower.foldedWalNo upper.foldedWalNo
  writerEpoch := Nat.le_trans lower.writerEpoch upper.writerEpoch
  compactorEpoch := Nat.le_trans lower.compactorEpoch upper.compactorEpoch
  headSeq := Nat.le_trans lower.headSeq upper.headSeq
  retentionFloorSeq := Nat.le_trans lower.retentionFloorSeq upper.retentionFloorSeq
  nextRunNo := Nat.le_trans lower.nextRunNo upper.nextRunNo
  createdAtMs := upper.createdAtMs.trans lower.createdAtMs
  createdBy := upper.createdBy.trans lower.createdBy
  access := upper.access.trans lower.access
  forkBasis := upper.forkBasis.trans lower.forkBasis
  familyRootId := upper.familyRootId.trans lower.familyRootId
  active := lower.active
  contentBytes := Nat.le_trans lower.contentBytes upper.contentBytes
  fileRevisions := Nat.le_trans lower.fileRevisions upper.fileRevisions
  mutations := Nat.le_trans lower.mutations upper.mutations
  activity := by
    intro same
    have heads : second.headSeq = first.headSeq :=
      Nat.le_antisymm (same ▸ upper.headSeq) lower.headSeq
    exact (upper.activity (same.trans heads.symm)).trans (lower.activity heads)

theorem ensureSuccessor_eq_ok : manifest.ensureSuccessor next = .ok () ↔
      manifest.Follows next ∧ nextPublicOrdinal manifest.manifestNo = some next.manifestNo := by
  simp [ensureSuccessor, ensureFollowedBy_eq_ok]

theorem ensureLater_eq_ok : manifest.ensureLater later = .ok () ↔
      manifest.Follows later ∧ manifest.manifestNo < later.manifestNo := by
  simp [ensureLater, ensureFollowedBy_eq_ok]

end NamespaceManifestPayload

end LoonFs
