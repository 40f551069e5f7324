import LoonFs.Changes.Events
import LoonFs.Changes.LayeredCommits

/-! # The change feed -/

namespace LoonFs

structure ChangeFeedPosition where
  afterSeq : ChangeSeq
  eventIndex : Nat
deriving DecidableEq

/-- A commit as the feed reports it, with its events or a page's part of them. -/
structure CommittedChange where
  namespaceId : NamespaceId
  committedSeq : ChangeSeq
  commitId : CommitId
  committedBy : ActorId
  committedAtMs : Nat
  message : Option String
  merge : Option MergeRecord
  events : List FilesystemEvent
deriving DecidableEq

structure ListChangesResponse where
  namespaceId : NamespaceId
  afterSeq : ChangeSeq
  headSeq : ChangeSeq
  nextAfterSeq : Option ChangeSeq
  nextEventIndex : Option Nat
  changes : List CommittedChange
deriving DecidableEq

structure ChangeFeedView where
  namespaceId : NamespaceId
  status : NamespaceStatus
  headSeq : ChangeSeq
  retentionFloorSeq : ChangeSeq
  commits : CommitLayers

def committedChangeWithEvents (namespaceId : NamespaceId) (record : WalCommitPayload)
    (events : List FilesystemEvent) : CommittedChange where
  namespaceId
  committedSeq := record.committedSeq
  commitId := record.commitId
  committedBy := record.committedBy
  committedAtMs := record.committedAtMs
  message := record.message
  merge := record.merge
  events

/-- The bytes of events that the next commit can bring to the page, if bounded. -/
def CommitScan.eventBudget (scan : CommitScan) : Option Nat :=
  if scan.commits = 0 ∧ scan.splitting = .whole then none
  else some (scan.maxPageBytes - scan.pageBytes)

structure FeedPage where
  scan : CommitScan
  changes : List CommittedChange

section

variable (rendering : EventRendering) (heapBytes : WalCommitPayload → Nat)
  (view : ChangeFeedView)

def FeedPage.offer (page : FeedPage) (scanned : ScannedCommit) :
    Except ChangeFeedError FeedPage := do
  let record := scanned.record
  let built ← eventsFromWalDeltasWithin rendering record.committedSeq record.deltas
    scanned.firstEventIndex page.scan.eventBudget
  let change := committedChangeWithEvents view.namespaceId record built.events
  let bytes := rendering.eventsBytes change.events
  match built.nextEventIndex with
  | none =>
    match page.scan.admitCommit change.committedSeq bytes with
    | (true, scan) => pure { scan, changes := page.changes ++ [change] }
    | (false, scan) => pure { page with scan }
  | some nextEventIndex =>
    if page.scan.commits = 0 then
      if page.scan.splitting = .atPageBudget then
        pure
          { scan := page.scan.admitPart change.committedSeq bytes nextEventIndex
            changes := page.changes ++ [change] }
      else
        .error (.panicked ("only a page that splits commits returns part of a commit, " ++
          "and only by itself"))
    else pure { page with scan := page.scan.endPage }

def FeedPage.fill : Nat → FeedPage → Except ChangeFeedError FeedPage
  | 0, _ => .error (.read .pageUnfinished)
  | budget + 1, page => do
      match ← (page.scan.nextIn view.commits heapBytes).mapError .read with
      | (none, scan) => pure { page with scan }
      | (some scanned, scan) =>
        (← FeedPage.offer rendering view { page with scan } scanned).fill budget

def listChangesWithin (position : ChangeFeedPosition) (limit : EffectiveLimit)
    (splitting : CommitSplitting) (maxPageBytes : Nat) :
    Except ChangeFeedError ListChangesResponse := do
  let headSeq := view.headSeq
  let retentionFloorSeq := view.retentionFloorSeq
  if view.status.isDeleted then .error (.read (.namespaceDeleted view.namespaceId))
  let afterSeq := position.afterSeq
  -- A position inside a commit starts with that commit, which has to be retained.
  if afterSeq < retentionFloorSeq ∨
      position.eventIndex > 0 ∧ afterSeq = retentionFloorSeq then
    .error (.rebootstrapRequired afterSeq retentionFloorSeq)
  if afterSeq > headSeq then
    .error (.invalidCursor ("change feed sequence `" ++ toString afterSeq ++
      "` is ahead of namespace head `" ++ toString headSeq ++ "`"))
  (ensureEventIndexAllowed position.eventIndex splitting).mapError .read
  if afterSeq = headSeq ∧ position.eventIndex = 0 then
    pure
      { namespaceId := view.namespaceId
        afterSeq
        headSeq
        nextAfterSeq := none
        nextEventIndex := none
        changes := [] }
  else
    let scan := CommitScan.new headSeq afterSeq position.eventIndex limit splitting maxPageBytes
    -- A step takes a commit or ends the page, and the step after that sees it.
    let page ← FeedPage.fill rendering heapBytes view (limit.value + 2) { scan, changes := [] }
    pure
      { namespaceId := view.namespaceId
        afterSeq
        headSeq
        nextAfterSeq := page.scan.nextAfterSeq
        nextEventIndex := page.scan.nextEventIndex
        changes := page.changes }

def listChangesAfter (position : ChangeFeedPosition) (limit : EffectiveLimit)
    (splitting : CommitSplitting) : Except ChangeFeedError ListChangesResponse :=
  listChangesWithin rendering heapBytes view position limit splitting changeFeedPageBytes

def followChanges (limits : Nat → EffectiveLimit) (splitting : CommitSplitting)
    (maxPageBytes : Nat) : Nat → Nat → ChangeFeedPosition →
      Except ChangeFeedError (List ListChangesResponse)
  | 0, _, _ => .error (.read .pageUnfinished)
  | steps + 1, number, position => do
      let page ← listChangesWithin rendering heapBytes view position (limits number) splitting
        maxPageBytes
      match page.nextAfterSeq with
      | none => pure [page]
      | some afterSeq =>
        let rest ← followChanges limits splitting maxPageBytes steps (number + 1)
          { afterSeq, eventIndex := page.nextEventIndex.getD 0 }
        pure (page :: rest)

end

end LoonFs
