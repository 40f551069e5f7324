import LoonFs.Changes.CommitScan
import LoonFs.Manifest.Payload
import LoonFs.Metadata.CurrentPath
import Mathlib.Data.List.Dedup

/-! # The diff -/

namespace LoonFs

open Foundation

inductive DiffEntryKind where
  | created
  | undeleted
  | deleted
  | moved
  | changed
deriving DecidableEq

structure DiffEntry where
  inodeId : InodeId
  inodeKind : InodeKind
  kind : DiffEntryKind
  /-- The bind position and the namespace that the token encodes. -/
  bindingVersion : Option (DeltaPosition × NamespaceId)
  path : Option AbsolutePath
  previousPath : Option AbsolutePath
  revisionNo : Option RevisionNo
  attributesRevisionNo : Option AttributesRevisionNo
  accessRevisionNo : Option AccessRevisionNo
deriving DecidableEq

structure DiffOptions where
  path : AbsolutePath
  toSeq : Option ChangeSeq
  afterSeq : Option ChangeSeq
  eventIndex : Nat
  limit : EffectiveLimit
  commitSplitting : CommitSplitting

structure DiffResponse where
  namespaceId : NamespaceId
  fromSeq : ChangeSeq
  toSeq : ChangeSeq
  afterSeq : ChangeSeq
  nextAfterSeq : Option ChangeSeq
  nextEventIndex : Option Nat
  retentionFloorSeq : ChangeSeq
  entries : List DiffEntry
deriving DecidableEq

structure LoadedMetadataView where
  namespaceId : NamespaceId
  status : NamespaceStatus
  headSeq : ChangeSeq
  retentionFloorSeq : ChangeSeq
  rows : FamilyRows

/-! ## Touched inodes -/

/-- The inode whose own state a delta changes. A bind does not change the
state of the parent. -/
def WalDelta.touchedInode : WalDelta → InodeId
  | .createInode _ inodeId _ | .appendFileRevision _ inodeId ..
  | .appendAttributesRevision _ inodeId .. | .appendAccessRevision _ inodeId .. => inodeId
  | .bindDirentry _ _ _ _ childInodeId .. | .unbindDirentry _ _ _ _ childInodeId .. => childInodeId
  | .tombstoneSubtree _ rootInodeId .. | .revokeSubtreeTombstone _ rootInodeId _ => rootInodeId

def touchedInodes (deltas : List WalCommitDelta) : List InodeId :=
  (deltas.map fun delta => delta.delta.touchedInode).dedup.insertionSort (· ≤ ·)

theorem mem_touchedInodes {deltas : List WalCommitDelta} {inodeId : InodeId} :
    inodeId ∈ touchedInodes deltas ↔ ∃ delta ∈ deltas, delta.delta.touchedInode = inodeId := by
  simp [touchedInodes, List.mem_insertionSort]

theorem touchedInodes_nodup (deltas : List WalCommitDelta) : (touchedInodes deltas).Nodup :=
  (List.perm_insertionSort _ _).nodup_iff.mpr (List.nodup_dedup _)

def semanticOperationGroups (deltas : List WalCommitDelta) : List (List WalCommitDelta) :=
  deltas.splitBy fun left right => left.semanticOperationIndex == right.semanticOperationIndex

/-! ## The two ends -/

/-- The revision numbers of one inode at one sequence, 0 without a row. -/
structure Revisions where
  revisionNo : Option RevisionNo
  attributesRevisionNo : AttributesRevisionNo
  accessRevisionNo : AccessRevisionNo
deriving DecidableEq

structure TouchedInode where
  lastTouchSeq : Option ChangeSeq
  revisions : Option Revisions

inductive DiffState where
  | absent
  | hidden
  | visible (resolved : ResolvedVisiblePath)
deriving DecidableEq

def DiffState.visible? : DiffState → Option ResolvedVisiblePath
  | .absent | .hidden => none
  | .visible resolved => some resolved

/-- The greatest of the sequences that there are. -/
def newestSeq (seqs : List (Option ChangeSeq)) : Option ChangeSeq := (seqs.filterMap id).max?

namespace FamilyRows

variable (rows : FamilyRows) (seq : ChangeSeq) (inodeId : InodeId)

def revisionsAt (inodeKind : InodeKind) : Revisions × Option ChangeSeq :=
  let revision := match inodeKind with
    | .file => rows.latestRevisionRecord seq inodeId
    | .directory => none
  let attributes := rows.latestAttributesRevision seq inodeId
  let access := rows.latestAccessRevision seq inodeId
  ({ revisionNo := revision.map RevisionRecord.revisionNo
     attributesRevisionNo := (attributes.map AttributesRevisionRecord.attributesRevisionNo).getD 0
     accessRevisionNo := (access.map AccessRevisionRecord.accessRevisionNo).getD 0 },
   newestSeq [
     revision.map RevisionRecord.committedSeq,
     attributes.map AttributesRevisionRecord.committedSeq,
     access.map AccessRevisionRecord.committedSeq])

def touchedInodeAt : TouchedInode :=
  let binding := rows.latestParentBindingForChild seq inodeId
  let tombstone := rows.newestSubtreeTombstone seq inodeId
  let revisions := (rows.inodeAtSeq seq inodeId).map fun inode =>
    rows.revisionsAt seq inodeId inode.inodeKind
  { lastTouchSeq := newestSeq [
      binding.map DirentryBindingRecord.committedSeq,
      tombstone.map SubtreeTombstoneRecord.committedSeq,
      revisions.bind Prod.snd]
    revisions := revisions.map Prod.fst }

end FamilyRows

def MetadataVisibilityReads.diffState (reads : MetadataVisibilityReads) (inodeId : InodeId) :
    Except VisiblePathError DiffState :=
  match reads.findInode inodeId with
  | none => .ok .absent
  | some _ => do
      match ← reads.resolveVisibleInode inodeId with
      | some resolved => return .visible resolved
      | none => return .hidden

/-! ## Entries -/

def ResolvedVisiblePath.edge (resolved : ResolvedVisiblePath) : Option InodeId × String :=
  (resolved.parentInodeId, resolved.displayName)

namespace NamePolicy

variable (policy : NamePolicy)

def nameKeys (path : AbsolutePath) : List NameKey := path.map policy.nameKeyForDisplayName

def isAtOrBelow (path : AbsolutePath) (subtree : List NameKey) : Bool :=
  decide (path.length ≥ subtree.length) && subtree.isPrefixOf (policy.nameKeys path)

def isAbove (path : AbsolutePath) (subtree : List NameKey) : Bool :=
  decide (path.length < subtree.length) && (policy.nameKeys path).isPrefixOf subtree

end NamePolicy

/-- The work of one diff: the two ends that it compares, and the subtree that
it reports. -/
structure Diff where
  policy : NamePolicy
  namespaceId : NamespaceId
  subtree : List NameKey
  rows : FamilyRows
  retentionFloorSeq : ChangeSeq
  fromSeq : ChangeSeq
  toSeq : ChangeSeq

namespace Diff

variable (diff : Diff)

def fromReads : MetadataVisibilityReads := diff.rows.readsAt diff.fromSeq diff.retentionFloorSeq

def toReads : MetadataVisibilityReads := diff.rows.readsAt diff.toSeq diff.retentionFloorSeq

def classify (atOrBelow : Bool) (fromRevisions : InodeKind → Revisions)
    (toRevisions : Option Revisions) :
    DiffState → DiffState → Option (DiffEntryKind × Option Revisions)
  | .absent, .visible _ => if atOrBelow then some (.created, none) else none
  | .hidden, .visible _ => some (.undeleted, none)
  | .visible _, .absent | .visible _, .hidden => some (.deleted, none)
  | .visible fromPath, .visible toPath =>
    if atOrBelow ∨ fromPath.edge ≠ toPath.edge then
      let revisions := fromRevisions fromPath.inodeKind
      if fromPath.edge ≠ toPath.edge then some (.moved, some revisions)
      else if some revisions ≠ toRevisions then some (.changed, some revisions)
      else none
    else none
  | .absent, .absent | .absent, .hidden | .hidden, .absent | .hidden, .hidden => none

/-- A file's revision when it appears, and what differs while the inode stays visible. -/
def reportedRevisions (kind : DiffEntryKind) :
    Option Revisions → Option Revisions →
    Option RevisionNo × Option AttributesRevisionNo × Option AccessRevisionNo
  | none, some toRevisions =>
    if kind ≠ .deleted then (toRevisions.revisionNo, none, none) else (none, none, none)
  | some fromRevisions, some toRevisions =>
    (toRevisions.revisionNo.filter fun _ => fromRevisions.revisionNo ≠ toRevisions.revisionNo,
      if fromRevisions.attributesRevisionNo ≠ toRevisions.attributesRevisionNo then
        some toRevisions.attributesRevisionNo else none,
      if fromRevisions.accessRevisionNo ≠ toRevisions.accessRevisionNo then
        some toRevisions.accessRevisionNo else none)
  | _, none => (none, none, none)

def buildEntry (inodeId : InodeId) (kind : DiffEntryKind)
    (fromRevisions toRevisions : Option Revisions)
    (fromPath toPath : Option ResolvedVisiblePath) : Option DiffEntry :=
  let reported := reportedRevisions kind fromRevisions toRevisions
  (toPath <|> fromPath).map fun shown =>
    { inodeId
      inodeKind := shown.inodeKind
      kind
      bindingVersion := (toPath.bind ResolvedVisiblePath.bindingVersion).map fun position =>
        (position, diff.namespaceId)
      path := toPath.map ResolvedVisiblePath.absolutePath
      previousPath := (fromPath.filter fun _ => kind = .moved ∨ kind = .deleted).map
        ResolvedVisiblePath.absolutePath
      revisionNo := reported.1
      attributesRevisionNo := reported.2.1
      accessRevisionNo := reported.2.2 }

def showsAtOrBelow (ends : List ResolvedVisiblePath) : Bool :=
  ends.any fun resolved => diff.policy.isAtOrBelow resolved.absolutePath diff.subtree

def showsAbove (ends : List ResolvedVisiblePath) : Bool :=
  ends.any fun resolved =>
    resolved.inodeKind = .directory ∧ diff.policy.isAbove resolved.absolutePath diff.subtree

def entryOf (inodeId : InodeId) (touched : TouchedInode) (fromState toState : DiffState) :
    Option DiffEntry :=
  let ends := [fromState, toState].filterMap DiffState.visible?
  let atOrBelow := diff.showsAtOrBelow ends
  if !atOrBelow && !diff.showsAbove ends then none
  else
    (classify atOrBelow (fun kind => (diff.rows.revisionsAt diff.fromSeq inodeId kind).1)
      touched.revisions fromState toState).bind fun classified =>
        diff.buildEntry inodeId classified.1 classified.2 touched.revisions fromState.visible?
          toState.visible?

def entry (inodeId : InodeId) (touched : TouchedInode) :
    Except VisiblePathError (Option DiffEntry) := do
  let fromState ← diff.fromReads.diffState inodeId
  let toState ← diff.toReads.diffState inodeId
  return diff.entryOf inodeId touched fromState toState

/-! ## Commits -/

def touchedEntries (committedSeq : ChangeSeq) :
    List InodeId → Except VisiblePathError (List DiffEntry)
  | [] => .ok []
  | inodeId :: rest => do
      let touched := diff.rows.touchedInodeAt diff.toSeq inodeId
      if touched.lastTouchSeq.any fun seq => committedSeq < seq then
        touchedEntries committedSeq rest
      else
        let found ← diff.entry inodeId touched
        let entries ← touchedEntries committedSeq rest
        return found.toList ++ entries

def commitEntries (record : WalCommitPayload) : Except VisiblePathError (List DiffEntry) :=
  diff.touchedEntries record.committedSeq (touchedInodes record.deltas)

structure CommitPartEntries where
  entries : List DiffEntry
  nextEventIndex : Option Nat
  touches : Nat

def partEntries (record : WalCommitPayload) (maxTouches : Nat) :
    List InodeId → Nat → List (List WalCommitDelta) →
    Except VisiblePathError CommitPartEntries
  | examined, _, [] => .ok { entries := [], nextEventIndex := none, touches := examined.length }
  | examined, index, group :: groups => do
      let unexamined := (touchedInodes group).filter (· ∉ examined)
      let entries ← diff.touchedEntries record.committedSeq unexamined
      let examined := examined ++ unexamined
      if examined.length ≥ maxTouches ∧ groups ≠ [] then
        return { entries, nextEventIndex := some (index + 1), touches := examined.length }
      else
        let part ← partEntries record maxTouches examined (index + 1) groups
        return { part with entries := entries ++ part.entries }

def commitPartEntries (record : WalCommitPayload) (firstEventIndex maxTouches : Nat) :
    Except ChangeReadError CommitPartEntries :=
  let groups := semanticOperationGroups record.deltas
  if firstEventIndex ≥ groups.length then
    .error (.invalidEventIndex ("commit `" ++ toString record.committedSeq ++
      "` has no event at index " ++ toString firstEventIndex))
  else
    (diff.partEntries record maxTouches [] firstEventIndex (groups.drop firstEventIndex)).mapError
      .visibility

/-! ## One page -/

structure HeapBytes where
  record : WalCommitPayload → Nat
  entries : List DiffEntry → Nat

structure Page where
  scan : CommitScan
  touchesExamined : Nat
  entries : List DiffEntry

variable (heapBytes : HeapBytes) (maxTouches : Nat)

def Page.bounded (page : Page) : Page :=
  if page.touchesExamined ≥ maxTouches then { page with scan := page.scan.endPage } else page

def offer (splitting : CommitSplitting) (page : Page) (scanned : ScannedCommit) :
    Except ChangeReadError Page :=
  let record := scanned.record
  if splitting = .atPageBudget ∧
      (scanned.firstEventIndex > 0 ∨ (touchedInodes record.deltas).length > maxTouches) then
    if page.scan.commits ≠ 0 then .ok { page with scan := page.scan.endPage }
    else do
      let part ← diff.commitPartEntries record scanned.firstEventIndex maxTouches
      let bytes := heapBytes.entries part.entries
      let scan := match part.nextEventIndex with
        | some nextEventIndex => page.scan.admitPart record.committedSeq bytes nextEventIndex
        | none => (page.scan.admitCommit record.committedSeq bytes).2
      return Page.bounded maxTouches
        { scan
          touchesExamined := page.touchesExamined + part.touches
          entries := page.entries ++ part.entries }
  else do
    let commitEntries ← (diff.commitEntries record).mapError .visibility
    let touchesExamined := page.touchesExamined + (touchedInodes record.deltas).length
    match page.scan.admitCommit record.committedSeq (heapBytes.entries commitEntries) with
    | (false, scan) => return { page with scan, touchesExamined }
    | (true, scan) =>
      return Page.bounded maxTouches
        { scan, touchesExamined, entries := page.entries ++ commitEntries }

def fillPage (splitting : CommitSplitting) : Nat → Page → Except ChangeReadError Page
  | 0, _ => .error .pageUnfinished
  | budget + 1, page => do
      match ← page.scan.next diff.rows heapBytes.record with
      | (none, scan) => return { page with scan }
      | (some scanned, scan) =>
        fillPage splitting budget
          (← diff.offer heapBytes maxTouches splitting { page with scan } scanned)

end Diff

def outOfRange (param message : String) : ChangeReadError := .invalidDiffRange param message

def diffPageWithin (policy : NamePolicy) (heapBytes : Diff.HeapBytes)
    (view : LoadedMetadataView) (fromSeq : ChangeSeq) (options : DiffOptions)
    (maxTouches : Nat) : Except ChangeReadError DiffResponse := do
  if view.status.isDeleted then .error (.namespaceDeleted view.namespaceId)
  let retentionFloorSeq := view.retentionFloorSeq
  if fromSeq < retentionFloorSeq then
    .error (.rebootstrapRequired (.diffStart fromSeq) retentionFloorSeq)
  let toSeq := options.toSeq.getD view.headSeq
  if toSeq > view.headSeq then
    .error (outOfRange "to_seq" ("`" ++ toString toSeq ++ "` is ahead of namespace head `" ++
      toString view.headSeq ++ "`"))
  if fromSeq > toSeq then
    .error (outOfRange "from_seq" ("`" ++ toString fromSeq ++ "` is after `to_seq` `" ++
      toString toSeq ++ "`"))
  let afterSeq := options.afterSeq.getD fromSeq
  if ¬(fromSeq ≤ afterSeq ∧ afterSeq ≤ toSeq) then
    .error (outOfRange "after_seq" ("`" ++ toString afterSeq ++ "` is outside `from_seq` `" ++
      toString fromSeq ++ "` through `to_seq` `" ++ toString toSeq ++ "`"))
  ensureEventIndexAllowed options.eventIndex options.commitSplitting
  if options.eventIndex > 0 ∧ afterSeq = fromSeq then
    .error (.invalidEventIndex ("a position inside a commit resumes the commit at " ++
      "`after_seq`, which has to be after `from_seq` `" ++ toString fromSeq ++ "`"))
  let diff : Diff :=
    { policy
      namespaceId := view.namespaceId
      subtree := policy.nameKeys options.path
      rows := view.rows
      retentionFloorSeq
      fromSeq
      toSeq }
  let scan := CommitScan.new toSeq afterSeq options.eventIndex options.limit
    options.commitSplitting changeFeedPageBytes
  -- A step takes a commit or ends the page, and the step after that sees it.
  let page ← diff.fillPage heapBytes maxTouches options.commitSplitting
    (view.rows.commits.length + 2) { scan, touchesExamined := 0, entries := [] }
  return {
    namespaceId := view.namespaceId
    fromSeq
    toSeq
    afterSeq
    nextAfterSeq := page.scan.nextAfterSeq
    nextEventIndex := page.scan.nextEventIndex
    retentionFloorSeq
    entries := page.entries }

end LoonFs
