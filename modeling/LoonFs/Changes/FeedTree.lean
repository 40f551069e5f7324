import LoonFs.Changes.FeedExact
import LoonFs.Diff.Entries

/-! # The tree that a consumer of the feed keeps -/

namespace LoonFs

open Foundation List MetadataState

/-! ## Consumers -/

/-- A plain tree with the newest values of its nodes. -/
@[ext] structure FeedTree where
  place : InodeId → Option (InodeId × DisplayName)
  content : InodeId → Option (RevisionNo × ContentRef)
  attributes : InodeId → Option (AttributesRevisionNo × Attributes)
  access : InodeId → Option (AccessRevisionNo × Bool × AccessGrants)

namespace FeedTree

def root (access : Option (AccessRevisionNo × Bool × AccessGrants)) : FeedTree where
  place _ := none
  content _ := none
  attributes _ := none
  access := Function.update (fun _ => none) rootInodeId access

variable (tree : FeedTree) (inodeId : InodeId)

def put (place : Option (InodeId × DisplayName)) : FeedTree :=
  { tree with place := Function.update tree.place inodeId place }

def write (content : RevisionNo × ContentRef) : FeedTree :=
  { tree with content := Function.update tree.content inodeId (some content) }

def writeAttributes (attributes : AttributesRevisionNo × Attributes) : FeedTree :=
  { tree with attributes := Function.update tree.attributes inodeId (some attributes) }

def writeAccess (access : AccessRevisionNo × Bool × AccessGrants) : FeedTree :=
  { tree with access := Function.update tree.access inodeId (some access) }

/-- A deleted inode is taken out of its place; what is below it stays below it. -/
def apply : FilesystemEvent → FeedTree
  | .directoryCreated inodeId parent displayName _ => tree.put inodeId (some (parent, displayName))
  | .fileCreated inodeId parent displayName _ revisionNo contentRef =>
    (tree.put inodeId (some (parent, displayName))).write inodeId (revisionNo, contentRef)
  | .contentChanged inodeId revisionNo contentRef _ => tree.write inodeId (revisionNo, contentRef)
  | .moved inodeId _ _ parent displayName _ => tree.put inodeId (some (parent, displayName))
  | .deleted inodeId _ => tree.put inodeId none
  | .undeleted inodeId parent displayName _ => tree.put inodeId (some (parent, displayName))
  | .attributesChanged inodeId revisionNo attributes =>
    tree.writeAttributes inodeId (revisionNo, attributes)
  | .accessChanged inodeId revisionNo boundary grants =>
    tree.writeAccess inodeId (revisionNo, boundary, grants)

def applyDelta : WalDelta → FeedTree
  | .bindDirentry _ parent _ displayName child _ _ _ _ =>
    tree.put child (some (parent, displayName))
  | .unbindDirentry _ _ _ _ child _ _ _ _ => tree.put child none
  | .appendFileRevision _ inodeId _ _ _ _ _ _ revisionNo contentRef _ _ =>
    tree.write inodeId (revisionNo, contentRef)
  | .appendAttributesRevision _ inodeId revisionNo attributes =>
    tree.writeAttributes inodeId (revisionNo, attributes)
  | .appendAccessRevision _ inodeId revisionNo boundary grants =>
    tree.writeAccess inodeId (revisionNo, boundary, grants)
  | .createInode .. | .tombstoneSubtree .. | .revokeSubtreeTombstone .. => tree

def Attached : Prop := AtOrBelow (edgeParent tree.place) inodeId rootInodeId

private theorem guard_ok [Decidable condition]
    (isEvent : (if condition then .ok built else noPattern committedSeq deltas) = .ok event) :
    condition ∧ built = event := by
  split at isEvent
  next holds => exact ⟨holds, Except.ok.inj isEvent⟩
  next => cases isEvent

theorem apply_eq_foldl (isEvent : eventFromOpDeltas rendering committedSeq deltas = .ok event) :
    tree.apply event = deltas.foldl applyDelta tree := by
  unfold eventFromOpDeltas at isEvent
  split at isEvent
  -- A directory, a file and a restore place their inode once.
  case h_1 | h_6 =>
    rcases guard_ok isEvent with ⟨rfl, rfl⟩
    rfl
  case h_2 =>
    rcases guard_ok isEvent with ⟨⟨rfl, rfl⟩, rfl⟩
    rfl
  -- A move and a deletion take their inode out of its place first.
  case h_4 =>
    rcases guard_ok isEvent with ⟨rfl, rfl⟩
    simp [apply, applyDelta, put]
  case h_5 =>
    rcases guard_ok isEvent with ⟨rfl, rfl⟩
    rfl
  case h_3 | h_7 | h_8 =>
    cases isEvent
    rfl
  case h_9 => cases isEvent

end FeedTree

/-! ## What a snapshot stores, as a consumer keeps it -/

namespace Snapshot

variable (snapshot : Snapshot)

def feedTree : FeedTree where
  place := snapshot.namedEdge
  content := Option.map (fun row => (row.revisionNo, row.contentRef)) ∘ snapshot.revision
  attributes :=
    Option.map (fun row => (row.attributesRevisionNo, row.attributes)) ∘ snapshot.attributes
  access :=
    Option.map (fun row => (row.accessRevisionNo, row.boundary, row.grants)) ∘ snapshot.access

variable {record : DirentryBindingRecord}

private theorem feedTree_putBinding (event : record.isBindingEvent = true)
    (notRoot : record.childInodeId ≠ rootInodeId) :
    (snapshot.putBinding record).feedTree = snapshot.feedTree.put record.childInodeId
        ((if record.isBound then some record else none).map fun edge =>
          (edge.parentInodeId, edge.displayName.getD "")) := by
  apply FeedTree.ext
  case place =>
    funext inodeId
    simp only [feedTree, namedEdge, snapshot.binding_putBinding event notRoot, FeedTree.put]
    by_cases same : inodeId = record.childInodeId
    · subst same
      simp
    · simp [same, namedEdge]
  all_goals rfl

theorem feedTree_putRevision (revision : RevisionRecord) (summary : record.isBindingEvent = false) :
    ((snapshot.putRevision revision).putBinding record).feedTree =
      snapshot.feedTree.write revision.inodeId (revision.revisionNo, revision.contentRef) := by
  apply FeedTree.ext
  case place =>
    funext inodeId
    simp only [feedTree, namedEdge, binding_putBinding_summary _ summary, FeedTree.write]
    rfl
  case content =>
    change Option.map _ ∘ Function.update snapshot.revision revision.inodeId (some revision) = _
    rw [Function.comp_update]
    rfl
  all_goals rfl

theorem feedTree_addRows (notRoot : ∀ row ∈ (MetadataState.deltaRows header delta).direntryBinds,
      row.childInodeId ≠ rootInodeId) (summary : delta.WritesSummary header) :
    (snapshot.addRows (MetadataState.deltaRows header delta)).feedTree =
      snapshot.feedTree.applyDelta delta := by
  cases delta with
  | createInode | tombstoneSubtree | revokeSubtreeTombstone => rfl
  | bindDirentry =>
    rw [MetadataState.deltaRows, addRows_binding, feedTree_putBinding]
    · rfl
    · simp [DirentryBindingRecord.isBindingEvent, DirentryBindingRecord.position]
    · exact notRoot _ mem_cons_self
  | unbindDirentry =>
    rw [MetadataState.deltaRows, addRows_binding, feedTree_putBinding]
    · rfl
    · rfl
    · exact notRoot _ mem_cons_self
  | appendFileRevision =>
    rw [MetadataState.deltaRows, addRows_revision, feedTree_putRevision]
    · rfl
    · exact DirentryBindingRecord.isBindingEvent_eq_false rfl (Ne.symm summary)
  | appendAttributesRevision =>
    apply FeedTree.ext
    case attributes =>
      change Option.map _ ∘ Function.update snapshot.attributes _ _ = _
      rw [Function.comp_update]
      rfl
    all_goals rfl
  | appendAccessRevision =>
    apply FeedTree.ext
    case access =>
      change Option.map _ ∘ Function.update snapshot.access _ _ = _
      rw [Function.comp_update]
      rfl
    all_goals rfl

theorem feedTree_addDeltas
    (notRoot : ∀ delta ∈ deltas, ∀ row ∈ (MetadataState.deltaRows header delta).direntryBinds,
      row.childInodeId ≠ rootInodeId) (summaries : ∀ delta ∈ deltas, delta.WritesSummary header) :
    (snapshot.addDeltas header deltas).feedTree =
      deltas.foldl FeedTree.applyDelta snapshot.feedTree := by
  induction deltas generalizing snapshot with
  | nil => rfl
  | cons delta deltas induction =>
    rw [forall_mem_cons] at notRoot summaries
    rw [foldl_cons, ← snapshot.feedTree_addRows notRoot.1 summaries.1]
    exact induction _ notRoot.2 summaries.2

end Snapshot

/-! ## One commit -/

variable {revisionLayout : ContentRef → Option ContentLayout} {older : MetadataState}

theorem CommitValidationSession.Emits.feedTree {session : CommitValidationSession}
    (emits : session.Emits policy revisionLayout ops groups) (rendering : EventRendering) :
    ∀ {before : List WalDelta}, Reaches older start session before →
      session.Planned policy revisionLayout ops →
      ∃ events, Renders rendering session.header.committedSeq groups events ∧
        ((start.applyCommittedWalDeltas session.header
          (before ++ groups.flatten.map WalCommitDelta.delta)).snapshotAt
            session.header.committedSeq).feedTree =
          events.foldl FeedTree.apply ((start.applyCommittedWalDeltas session.header
            before).snapshotAt session.header.committedSeq).feedTree := by
  induction emits with
  | nil =>
    intro before _ _
    exact ⟨[], .nil, by simp⟩
  | @cons session next op ops deltas groups accepted _ induction =>
    intro before reaches planned
    rcases reaches.next planned.1 accepted with ⟨effect, sameHeader, reachesNext⟩
    have nextPlanned := planned.2
    rw [accepted] at nextPlanned
    rcases induction reachesNext nextPlanned with ⟨events, renders, eq⟩
    rw [sameHeader] at renders eq
    rcases effect.event rendering session.header.committedSeq with ⟨event, isEvent⟩
    have ready := reaches.steps.ready reaches.ready
    refine ⟨event :: events, .cons isEvent renders, ?_⟩
    rw [List.flatten_cons, List.map_append, ← List.append_assoc, eq, List.foldl_cons,
      FeedTree.apply_eq_foldl _ isEvent, MetadataState.applyCommittedWalDeltas_append,
      (ready.effect effect).2, Snapshot.feedTree_addDeltas]
    · exact effect.root_unbound ready.consistent
    · exact effect.writesSummary ready.consistent ready.below

variable {record : WalCommitPayload}

theorem semanticOperationGroups_emitted {floor : ChangeSeq} {ops : List CommitOperation}
    {final : CommitValidationSession} (ready : Ready record.header (older ++ batch) 0) :
    let session : CommitValidationSession :=
      { base := older.familyRows
        batchAccepted := batch
        retentionFloorSeq := floor
        header := record.header }
    session.Planned policy revisionLayout ops →
    session.validate policy revisionLayout ops = .ok (record.deltas, final) →
    session.Emits policy revisionLayout ops (semanticOperationGroups record.deltas) := by
  intro session planned validated
  rcases CommitValidationSession.validate_groups
    ⟨rfl, append_empty _, rfl, ready, .start⟩ planned validated with
    ⟨groups, isDeltas, grouped, emits⟩
  rw [isDeltas, grouped.semanticOperationGroups]
  exact emits

theorem Accepted.feedTree (accepted : Accepted policy state record)
    (ready : Ready record.header state 0) (rendering : EventRendering) :
    ((state.applyCommittedWalRecord record).snapshotAt record.committedSeq).feedTree =
      (commitEvents rendering record).foldl FeedTree.apply
        (state.snapshotAt record.committedSeq).feedTree := by
  rcases accepted with ⟨older, batch, floor, revisionLayout, ops, final, rfl, planned, validated⟩
  have emits := semanticOperationGroups_emitted ready planned validated
  rcases emits.feedTree rendering
    ⟨rfl, append_empty _, rfl, ready, .start⟩ planned with ⟨events, renders, eq⟩
  have rendered : eventsFromWalDeltas rendering record.committedSeq record.deltas = .ok events :=
    eventsFromWalDeltas_eq_ok_iff.mpr renders
  rw [semanticOperationGroups, flatten_splitBy, nil_append] at eq
  rw [commitEvents, rendered, MetadataState.applyCommittedWalRecord, snapshotAt_appendCommit]
  exact eq

/-! ## Whole histories -/

theorem bootstrap_feedTree (createdAtMs : Nat) (rootGrants : AccessGrants) (seq : ChangeSeq) :
    let snapshot := (MetadataState.bootstrap createdAtMs rootGrants).snapshotAt seq
    snapshot.feedTree = FeedTree.root (snapshot.feedTree.access rootInodeId) := by
  intro snapshot
  apply FeedTree.ext
  case place =>
    funext inodeId
    have unbound : snapshot.child inodeId = none := by
      simp only [snapshot, MetadataState.snapshotAt, FamilyRows.snapshotAt_child]
      rfl
    simp [Snapshot.feedTree, Snapshot.namedEdge, Snapshot.binding, FeedTree.root, unbound]
  case access =>
    funext inodeId
    by_cases isRoot : inodeId = rootInodeId
    · simp [isRoot, FeedTree.root]
    · have noRow : snapshot.access inodeId = none := by
        simp only [snapshot, MetadataState.snapshotAt, FamilyRows.snapshotAt_access]
        rw [newestOf_eq_none_iff]
        intro row mem
        simp only [MetadataState.familyRows, MetadataState.bootstrap] at mem
        split at mem
        · simp at mem
        · have isRow := mem_singleton.mp (mem_of_mem_filter mem)
          rw [isRow]
          exact Ne.symm isRoot
      simp [Snapshot.feedTree, FeedTree.root, noRow, isRoot]
  all_goals rfl

theorem Reachable.feedTree (reachable : Reachable policy history state)
    (rendering : EventRendering) (seq : ChangeSeq) : (state.snapshotAt seq).feedTree =
      ((history.filter fun record => record.committedSeq ≤ seq).flatMap
        (commitEvents rendering)).foldl FeedTree.apply
        (.root ((state.snapshotAt 0).feedTree.access rootInodeId)) := by
  induction reachable generalizing seq with
  | genesis createdAtMs rootGrants =>
    have settled := bootstrap_settled createdAtMs rootGrants
    rw [settled.snapshotAt_eq (Nat.zero_le seq)]
    exact bootstrap_feedTree createdAtMs rootGrants 0
  | @commit history state record before numbered accepted induction =>
    have kept : ∀ seq < record.committedSeq,
        (state.applyCommittedWalRecord record).snapshotAt seq = state.snapshotAt seq := by
      intro seq past
      rw [MetadataState.applyCommittedWalRecord, snapshotAt_appendCommit]
      exact state.snapshotAt_applyDeltas_earlier _ past
    have after : history.length ≤ record.committedSeq := numbered ▸ Nat.le_succ _
    rw [kept 0 (numbered ▸ Nat.succ_pos _), filter_append, flatMap_append, foldl_append,
      ← induction]
    rcases Nat.lt_or_ge seq record.committedSeq with past | reached
    · rw [kept seq past, filter_cons_of_neg (by simpa using past)]
      rfl
    · have settled := (before.commit numbered accepted).settled
      rw [length_append, length_singleton, ← numbered] at settled
      have same : state.snapshotAt seq = state.snapshotAt record.committedSeq := by
        rw [before.settled.snapshotAt_eq (after.trans reached), before.settled.snapshotAt_eq after]
      rw [settled.snapshotAt_eq reached,
        accepted.feedTree (before.settled.ready numbered) rendering,
        filter_cons_of_pos (by simpa using reached), same]
      simp

/-- The tree has what the reads of a namespace find at a sequence. -/
structure FeedTree.Shows (tree : FeedTree) (rows : FamilyRows) (seq : ChangeSeq) : Prop where
  attached : ∀ floor inodeId, tree.Attached inodeId ↔
    ∃ inode, (rows.readsAt seq floor).visibleInode inodeId = .ok (some inode)
  place : ∀ floor inodeId, tree.place inodeId = (rows.readsAt seq floor).namedEdge inodeId
  content : ∀ inodeId, tree.content inodeId =
    (rows.latestRevisionRecord seq inodeId).map fun row => (row.revisionNo, row.contentRef)
  attributes : ∀ inodeId, tree.attributes inodeId =
    (rows.latestAttributesRevision seq inodeId).map fun row =>
      (row.attributesRevisionNo, row.attributes)
  access : ∀ inodeId, tree.access inodeId =
    (rows.latestAccessRevision seq inodeId).map fun row =>
      (row.accessRevisionNo, row.boundary, row.grants)

theorem Snapshot.Consistent.shows {rows : FamilyRows}
    (consistent : (rows.snapshotAt seq).Consistent) :
    (rows.snapshotAt seq).feedTree.Shows rows seq where
  attached floor inodeId := by
    rw [FeedTree.Attached, Snapshot.feedTree, ← consistent.visible_iff_attached]
    simp only [MetadataVisibilityReads.visibleInode_eq_some_iff (consistent.walkable floor)]
    rw [exists_and_right]
    exact and_congr_left fun _ => Option.ne_none_iff_exists'
  place _ _ := rfl
  content _ := rfl
  attributes _ := rfl
  access _ := rfl

theorem Renders.eventsFromWalDeltasWithin
    (renders : Renders rendering committedSeq (semanticOperationGroups deltas) events)
    (isEvent : events[index]? = some event) (maxHeapBytes : Option Nat) :
    ∃ rest next, LoonFs.eventsFromWalDeltasWithin rendering committedSeq deltas index
      maxHeapBytes = .ok ⟨event :: rest, next⟩ := by
  rcases List.getElem?_eq_some_iff.mp isEvent with ⟨inside, isEvent⟩
  have remaining : events.drop index = event :: events.drop (index + 1) := by
    rw [drop_eq_getElem_cons inside, isEvent]
  rcases (renders.drop index).buildEvents maxHeapBytes [] 0 index with
    ⟨count, _, isBuilt, _, atLeastOne⟩
  have positive := atLeastOne rfl (by simp [remaining])
  rw [LoonFs.eventsFromWalDeltasWithin, if_neg, isBuilt, remaining]
  · obtain ⟨count, rfl⟩ := Nat.exists_eq_succ_of_ne_zero positive.ne'
    exact ⟨_, _, rfl⟩
  · rw [List.Forall₂.length_eq renders]
    omega

/-- Every commit has one event for each operation, and from the root alone the events through
any sequence lead to what the namespace shows at it. -/
theorem change_feed_rebuilds_namespace (reachable : Reachable policy history state)
    (rendering : EventRendering) :
    (∀ (record : WalCommitPayload) (older batch : MetadataState) (floor : ChangeSeq)
      (revisionLayout : ContentRef → Option ContentLayout) (ops : List CommitOperation)
      (final : CommitValidationSession),
      let session : CommitValidationSession :=
        { base := older.familyRows
          batchAccepted := batch
          retentionFloorSeq := floor
          header := record.header }
      record.committedSeq = history.length + 1 → state = older ++ batch →
      session.Planned policy revisionLayout ops →
      session.validate policy revisionLayout ops = .ok (record.deltas, final) →
      session.Emits policy revisionLayout ops (semanticOperationGroups record.deltas)) ∧
    (∀ record ∈ history,
      Renders rendering record.committedSeq (semanticOperationGroups record.deltas)
        (commitEvents rendering record) ∧
      eventsFromWalDeltas rendering record.committedSeq record.deltas =
        .ok (commitEvents rendering record) ∧
      ∀ index event, (commitEvents rendering record)[index]? = some event →
        ∀ maxHeapBytes, ∃ rest next,
          eventsFromWalDeltasWithin rendering record.committedSeq record.deltas index
            maxHeapBytes = .ok ⟨event :: rest, next⟩) ∧
    ∀ seq, FeedTree.Shows
      (((history.filter fun record => record.committedSeq ≤ seq).flatMap
        (commitEvents rendering)).foldl FeedTree.apply
        (.root ((state.familyRows.latestAccessRevision 0 rootInodeId).map fun row =>
          (row.accessRevisionNo, row.boundary, row.grants)))) state.familyRows seq := by
  refine ⟨?_, ?_, ?_⟩
  · rintro record older batch floor revisionLayout ops final session numbered rfl planned
      validated
    exact semanticOperationGroups_emitted (reachable.settled.ready numbered) planned validated
  · intro record member
    have events := reachable.eventsFromWalDeltas rendering record member
    have renders := eventsFromWalDeltas_eq_ok_iff.mp events
    exact ⟨renders, events, fun index event isEvent => renders.eventsFromWalDeltasWithin isEvent⟩
  · intro seq
    have shows := (reachable.consistentAt seq).shows
    rwa [← MetadataState.snapshotAt, reachable.feedTree rendering seq] at shows

theorem change_feed_rebuilds_sample :
    Reachable .plain sampleRun.history sampleRun.state ∧
    ∀ seq, FeedTree.Shows
      (((sampleRun.history.filter fun record => record.committedSeq ≤ seq).flatMap
        (commitEvents sampleRendering)).foldl FeedTree.apply
        (.root ((sampleRun.state.familyRows.latestAccessRevision 0 rootInodeId).map fun row =>
          (row.accessRevisionNo, row.boundary, row.grants)))) sampleRun.state.familyRows seq :=
  ⟨sampleRun_reachable,
    (change_feed_rebuilds_namespace sampleRun_reachable sampleRendering).2.2⟩

end LoonFs
