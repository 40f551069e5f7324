import LoonFs.Changes.FeedWalk
import LoonFs.Commit.OperationGroups
import LoonFs.Diff.Touches
import LoonFs.Execution

/-! # The feed of a history

Every commit of a history has its events.
-/

namespace LoonFs

open Foundation List

/-! ## Every commit has its events -/

theorem Effect.event (effect : Effect snapshot header first deltas) (rendering : EventRendering)
    (committedSeq : ChangeSeq) :
    ∃ event, eventFromOpDeltas rendering committedSeq deltas = .ok event := by
  cases effect with
  | createDirectory | createFile | revise | restore | attributes | access =>
    simp [eventFromOpDeltas]
  | move inode source parent nameKey displayName summary detached =>
    simp [eventFromOpDeltas, detached.child]
  | remove inode source detached => simp [eventFromOpDeltas, detached.child]

theorem OperationGroups.renders (grouped : OperationGroups header first groups)
    (rendering : EventRendering) (committedSeq : ChangeSeq) :
    ∃ events, Renders rendering committedSeq (groups.map OperationGroup.marked) events := by
  have effects := grouped.effects
  clear grouped
  induction groups with
  | nil => exact ⟨[], .nil⟩
  | cons group groups induction =>
    rcases effects group mem_cons_self with ⟨snapshot, firstDelta, effect⟩
    rcases effect.event rendering committedSeq with ⟨event, isEvent⟩
    rcases induction fun other mem => effects other (mem_cons_of_mem _ mem) with
      ⟨events, renders⟩
    refine ⟨event :: events, .cons ?_ renders⟩
    have unmarked : group.marked.map WalCommitDelta.delta = group.deltas := by
      rw [OperationGroup.marked, map_map]
      exact map_id _
    rw [eventFromGroup, unmarked, isEvent]

def commitEvents (rendering : EventRendering) (record : WalCommitPayload) : List FilesystemEvent :=
  (eventsFromWalDeltas rendering record.committedSeq record.deltas).toOption.getD []

theorem Reachable.eventsFromWalDeltas (reachable : Reachable policy history state)
    (rendering : EventRendering) :
    ∀ record ∈ history, LoonFs.eventsFromWalDeltas rendering record.committedSeq record.deltas =
        .ok (commitEvents rendering record) := by
  induction reachable with
  | genesis => simp
  | @commit history state record before numbered accepted induction =>
    intro other mem
    rcases mem_append.mp mem with past | isLast
    · exact induction other past
    · rw [mem_singleton] at isLast
      subst isLast
      rcases accepted.groups (before.settled.ready numbered) with ⟨groups, isDeltas, grouped⟩
      rcases grouped.renders rendering other.committedSeq with ⟨events, renders⟩
      rw [← grouped.semanticOperationGroups, ← isDeltas, ← eventsFromWalDeltas_eq_ok_iff] at renders
      rw [commitEvents, renders]
      rfl

theorem Reachable.history_ordered (reachable : Reachable policy history state) :
    history.Pairwise fun left right => left.committedSeq < right.committedSeq := by
  have ordered : state.commits.Pairwise fun left right =>
      left.committedSeq < right.committedSeq := reachable.commits_ordered
  rwa [reachable.commits_eq] at ordered

/-! ## Exact paging -/

/-- The view is read at the history's head, and holds its commits above the floor. -/
structure ChangeFeedView.Serves (view : ChangeFeedView) (policy : NamePolicy)
    (history : List WalCommitPayload) (state : MetadataState) : Prop where
  reachable : Reachable policy history state
  isLive : view.status.isDeleted = false
  isHead : view.headSeq = history.length
  retained : ∀ record, view.retentionFloorSeq < record.committedSeq →
    (record ∈ view.commits.flat.commits ↔ record ∈ history)

section

variable {policy : NamePolicy} {history : List WalCommitPayload} {state : MetadataState}
  {view : ChangeFeedView}

theorem ChangeFeedView.Serves.renders (serves : view.Serves policy history state)
    (rendering : EventRendering) : view.RendersRetained rendering (commitEvents rendering) := by
  intro record mem above
  exact eventsFromWalDeltas_eq_ok_iff.mp
    (serves.reachable.eventsFromWalDeltas rendering record
      ((serves.retained record above).mp mem))

/-- What the view reads between a retained sequence and its head is what the
history has there. -/
theorem ChangeFeedView.Serves.commitsBetween (serves : view.Serves policy history state)
    (atFloor : view.retentionFloorSeq ≤ start) :
    view.commits.flat.commitsBetween start view.headSeq =
      history.filter fun record => start < record.committedSeq := by
  have historyOrdered := serves.reachable.history_ordered
  have viewOrdered : (view.commits.flat.commitsBetween start view.headSeq).Pairwise
      fun left right => left.committedSeq < right.committedSeq := by
    rw [view.commits.flat_ordered.commitsBetween]
    exact view.commits.flat_ordered.filter _
  have distinct : ∀ {commits : List WalCommitPayload},
      commits.Pairwise (fun left right => left.committedSeq < right.committedSeq) →
      commits.Nodup := by
    intro commits ordered
    apply ordered.imp
    rintro left _ less rfl
    exact lt_irrefl _ less
  have perm : (view.commits.flat.commitsBetween start view.headSeq).Perm
      (history.filter fun record => start < record.committedSeq) := by
    apply (perm_ext_iff_of_nodup (distinct viewOrdered) (distinct (historyOrdered.filter _))).mpr
    intro record
    rw [FamilyRows.mem_commitsBetween, mem_filter, decide_eq_true_eq]
    constructor
    · rintro ⟨mem, after, _⟩
      exact ⟨(serves.retained record (atFloor.trans_lt after)).mp mem, after⟩
    · rintro ⟨mem, after⟩
      exact ⟨(serves.retained record (atFloor.trans_lt after)).mpr mem, after,
        serves.isHead ▸ (serves.reachable.commit_seq mem).2⟩
  apply perm.eq_of_pairwise _ viewOrdered (historyOrdered.filter _)
  intro first second _ _ less greater
  exact absurd less (not_lt.mpr greater.le)

/-- Following the feed, with any limits, reports exactly the retained commits and ends. -/
theorem change_feed_exact (serves : view.Serves policy history state)
    (rendering : EventRendering) (heapBytes : WalCommitPayload → Nat)
    (limits : Nat → EffectiveLimit) (splitting : CommitSplitting) {maxPageBytes : Nat}
    (someBytes : 0 < maxPageBytes) {start : ChangeSeq}
    (atFloor : view.retentionFloorSeq ≤ start) (atHead : start ≤ view.headSeq) :
    (∀ record ∈ history,
      eventsFromWalDeltas rendering record.committedSeq record.deltas =
        .ok (commitEvents rendering record)) ∧
    ∃ pages enough,
      (∀ steps > enough, followChanges rendering heapBytes view limits splitting maxPageBytes
        steps 0 ⟨start, 0⟩ = .ok pages) ∧
      FeedReports view (commitEvents rendering) splitting
        ((history.filter fun record => start < record.committedSeq).map PendingCommit.whole)
        pages := by
  refine ⟨serves.reachable.eventsFromWalDeltas rendering, ?_⟩
  have valid : ChangeFeedPosition.Valid ⟨start, 0⟩ view (commitEvents rendering) splitting :=
    ⟨atFloor, atHead, fun inside => absurd inside (lt_irrefl 0)⟩
  have isPending : view.pendingFrom ⟨start, 0⟩ =
      (history.filter fun record => start < record.committedSeq).map PendingCommit.whole := by
    rw [← serves.commitsBetween atFloor]
    rfl
  rcases (serves.renders rendering).followChanges serves.isLive heapBytes someBytes limits _ 0
    ⟨start, 0⟩ valid le_rfl with ⟨pages, follows, reports⟩
  exact ⟨pages, _, follows, isPending ▸ reports⟩

end

/-! ## A budget of no bytes -/

theorem listChangesWithin_no_bytes (rendering : EventRendering)
    (heapBytes : WalCommitPayload → Nat) {view : ChangeFeedView}
    (isLive : view.status.isDeleted = false) (unfolded : view.commits.manifestRuns = [])
    (limit : EffectiveLimit) (splitting : CommitSplitting)
    (atFloor : view.retentionFloorSeq ≤ start) (before : start < view.headSeq) :
    listChangesWithin rendering heapBytes view ⟨start, 0⟩ limit splitting 0 =
      .ok { namespaceId := view.namespaceId
            afterSeq := start
            headSeq := view.headSeq
            nextAfterSeq := none
            nextEventIndex := none
            changes := [] } := by
  have positive := Nat.pos_iff_ne_zero.mp limit.positive
  have nothing : view.commits.commitsAfter heapBytes view.headSeq start limit.value 0 = [] := by
    simp [CommitLayers.commitsAfter, CommitLayers.commitsAfterPage, unfolded, sortedCommits,
      scannedPage]
  have isNext : (CommitScan.new view.headSeq start 0 limit splitting 0).nextIn view.commits
      heapBytes = .ok (none, { CommitScan.new view.headSeq start 0 limit splitting 0 with
        throughSeq := view.headSeq }) := by
    simp [CommitScan.nextIn, CommitScan.nextFrom, CommitScan.new, CommitScan.refill, nothing,
      positive, not_le.mpr before]
  have filled : FeedPage.fill rendering heapBytes view (limit.value + 2)
      ⟨CommitScan.new view.headSeq start 0 limit splitting 0, []⟩ =
      .ok ⟨{ CommitScan.new view.headSeq start 0 limit splitting 0 with
        throughSeq := view.headSeq }, []⟩ := by
    rw [FeedPage.fill]
    simp only [isNext, mapError_ok, bind, Except.bind, pure, Except.pure]
  rw [listChangesWithin]
  simp only [isLive, not_lt.mpr atFloor, not_lt.mpr before.le, before.ne, ensureEventIndexAllowed,
    filled, mapError_ok, bind, Except.bind, pure, Except.pure, gt_iff_lt, lt_irrefl,
    Bool.false_eq_true, false_and, or_self, if_false]
  simp [CommitScan.nextAfterSeq, CommitScan.new]

/-! ## A sample feed -/

theorem Reachable.sequences_nodup (reachable : Reachable policy history state) :
    (history.map WalCommitPayload.committedSeq).Nodup := by
  rw [reachable.sequences]
  exact nodup_range'

def sampleFeedView : ChangeFeedView where
  namespaceId := "sample"
  status := .active
  headSeq := sampleRun.history.length
  retentionFloorSeq := 0
  commits :=
    { manifestRuns := []
      rowStates := [sampleRun.history]
      basisHeadSeq := 0
      folded := by simp
      unfolded := by
        intro record member
        rw [List.flatten_singleton] at member
        exact (sampleRun_reachable.commit_seq member).1
      runsDistinct := by simp
      statesDistinct := by
        rw [List.flatten_singleton]
        exact sampleRun_reachable.sequences_nodup }

theorem sampleFeedView_serves : sampleFeedView.Serves .plain sampleRun.history sampleRun.state where
  reachable := sampleRun_reachable
  isLive := rfl
  isHead := rfl
  retained record _ := by
    rw [CommitLayers.mem_flat]
    simp [sampleFeedView]

def sampleRendering : EventRendering where
  bindingVersion position := toString position.seq ++ "." ++ toString position.deltaIndex
  eventBytes _ := 1
  eventsBytes events := events.length

theorem sampleRun_has_commits : 0 < sampleRun.history.length := by decide +kernel

/-- With no bytes for a page, the sample feed ends without its commits. -/
theorem change_feed_skips_without_bytes :
    sampleFeedView.Serves .plain sampleRun.history sampleRun.state ∧
    (∃ record ∈ sampleRun.history, 0 < record.committedSeq ∧
      record.committedSeq ≤ sampleFeedView.headSeq) ∧
    ∃ page, followChanges sampleRendering (fun _ => 1) sampleFeedView
        (fun _ => ⟨1, Nat.one_pos⟩) .whole 0 1 0 ⟨0, 0⟩ = .ok [page] ∧
      page.nextAfterSeq = none ∧ page.changes = [] := by
  refine ⟨sampleFeedView_serves, ?_, ?_⟩
  · rcases sampleRun_reachable.exists_commit Nat.one_pos sampleRun_has_commits with
      ⟨record, member, isFirst⟩
    exact ⟨record, member, (sampleRun_reachable.commit_seq member).1,
      (sampleRun_reachable.commit_seq member).2⟩
  · exact ⟨_, followChanges_last (listChangesWithin_no_bytes _ _ rfl rfl _ _ le_rfl
      sampleRun_has_commits) rfl, rfl, rfl⟩

/-- The sample feed with its first commits folded, each in a run of its own. -/
def foldedFeedView : ChangeFeedView :=
  { sampleFeedView with
    commits :=
      { manifestRuns := [sampleRun.history.take 1, (sampleRun.history.take 2).drop 1]
        rowStates := [sampleRun.history.drop 2]
        basisHeadSeq := 2
        folded := by decide +kernel
        unfolded := by decide +kernel
        runsDistinct := by decide +kernel
        statesDistinct := by decide +kernel } }

theorem foldedFeedView_serves : foldedFeedView.Serves .plain sampleRun.history sampleRun.state where
  reachable := sampleRun_reachable
  isLive := rfl
  isHead := rfl
  retained record _ := by
    have layers : sampleRun.history = sampleRun.history.take 1 ++
        (sampleRun.history.take 2).drop 1 ++ sampleRun.history.drop 2 := by decide +kernel
    rw [CommitLayers.mem_flat]
    conv_rhs => rw [layers]
    simp only [foldedFeedView, List.flatten_cons, List.flatten_nil, List.append_nil,
      List.mem_append]

/-- Pages of three commits, the first of them over two runs and the tail. -/
theorem change_feed_exact_sample :
    foldedFeedView.commits.manifestRuns.map List.length = [1, 1] ∧
    foldedFeedView.commits.rowStates.flatten ≠ [] ∧
    ∃ pages enough,
      (∀ steps > enough, followChanges sampleRendering (fun _ => 1) foldedFeedView
        (fun _ => ⟨3, Nat.succ_pos 2⟩) .atPageBudget 4 steps 0 ⟨0, 0⟩ = .ok pages) ∧
      FeedReports foldedFeedView (commitEvents sampleRendering) .atPageBudget
        ((sampleRun.history.filter fun record => 0 < record.committedSeq).map
          PendingCommit.whole) pages :=
  ⟨by decide +kernel, by decide +kernel,
    (change_feed_exact foldedFeedView_serves sampleRendering (fun _ => 1)
      (fun _ => ⟨3, Nat.succ_pos 2⟩) .atPageBudget (Nat.succ_pos 3) le_rfl (Nat.zero_le _)).2⟩

end LoonFs
