import LoonFs.Changes.FeedExact
import LoonFs.Grep.IncrementalIndexing

/-! # Indexing a namespace's feed

The steps of the index read their pages from the change feed of a namespace.
-/

namespace LoonFs

open List hiding after

namespace ChangeFeedResume

variable (resume : ChangeFeedResume)

theorem afterSeq_le : resume.afterSeq ≤ resume.builtThroughSeq := by
  rw [afterSeq]
  split
  · exact Nat.le_refl _
  · exact Nat.sub_le _ _

theorem le_afterSeq (above : seq < resume.builtThroughSeq) : seq ≤ resume.afterSeq := by
  rw [afterSeq]
  split
  · exact above.le
  · exact Nat.le_sub_one_of_lt above

end ChangeFeedResume

section

variable {policy : NamePolicy} {history : List WalCommitPayload} {state : MetadataState}
  {view : ChangeFeedView}

/-- The whole history as the feed reports it. -/
def ChangeFeedView.Serves.indexedFeed (serves : view.Serves policy history state)
    (rendering : EventRendering)
    (addressable : ∀ record ∈ history, (commitEvents rendering record).length ≤ u32Max + 1) :
    IndexedFeed where
  changes := history.map fun record =>
    (PendingCommit.whole record).change view (commitEvents rendering)
  ascending := pairwise_map.mpr serves.reachable.history_ordered
  positive := by
    intro change mem
    obtain ⟨record, isRecord, rfl⟩ := mem_map.mp mem
    exact (serves.reachable.commit_seq isRecord).1
  addressable := by
    intro change mem
    obtain ⟨record, isRecord, rfl⟩ := mem_map.mp mem
    exact addressable record isRecord

variable (serves : view.Serves policy history state) (rendering : EventRendering)
  (addressable : ∀ record ∈ history, (commitEvents rendering record).length ≤ u32Max + 1)
  (heapBytes : WalCommitPayload → Nat)

/-- The page that a step reads is a front part of what its watermark leaves unread, and it is
empty at the head alone. -/
theorem ChangeFeedView.Serves.listChangesAfter (limit : EffectiveLimit) {resume : ChangeFeedResume}
    (retained : view.retentionFloorSeq ≤ resume.afterSeq)
    (visible : resume.afterSeq ≤ view.headSeq) :
    ∃ response, LoonFs.listChangesAfter rendering heapBytes view ⟨resume.afterSeq, 0⟩ limit
        .whole = .ok response ∧
      response.changes <+: (serves.indexedFeed rendering addressable).after resume ∧
      (response.changes = [] → (serves.indexedFeed rendering addressable).after resume = []) := by
  have isAfter : (serves.indexedFeed rendering addressable).after resume =
      (view.pendingFrom ⟨resume.afterSeq, 0⟩).map fun pending =>
        pending.change view (commitEvents rendering) := by
    rw [ChangeFeedView.pendingFrom, if_pos rfl, serves.commitsBetween retained, map_map,
      IndexedFeed.after, ChangeFeedView.Serves.indexedFeed, filter_map]
    rfl
  obtain ⟨response, isResponse, step⟩ := (serves.renders rendering).listChangesWithin
    serves.isLive heapBytes (show 0 < changeFeedPageBytes by decide) limit
    (show ChangeFeedPosition.Valid ⟨resume.afterSeq, 0⟩ _ _ .whole from
      ⟨retained, visible, fun inside => absurd inside (Nat.lt_irrefl 0)⟩)
  refine ⟨response, isResponse, ?_⟩
  rw [isAfter]
  cases step with
  | part _ _ _ _ splits => cases splits
  | whole taken rest isPending changes _ progress ends _ =>
    rw [changes, isPending, map_append]
    refine ⟨prefix_append _ _, fun noChanges => ?_⟩
    have nothing := map_eq_nil_iff.mp noChanges
    rw [nothing, ends (progress nothing)]
    rfl

def GramIndexBuildPolicy.pageLimit (policy : GramIndexBuildPolicy) : EffectiveLimit :=
  ⟨policy.maxFilesPerStep, policy.someFiles⟩

/-- The steps of a worker that reads the feed until it is up to date. -/
inductive FeedIndexing (rendering : EventRendering) (heapBytes : WalCommitPayload → Nat)
    (view : ChangeFeedView) (policy : GramIndexBuildPolicy) :
    ChangeFeedResume → List PendingRevisionContent → ChangeFeedResume → Prop
  | upToDate {resume : ChangeFeedResume} {response : ListChangesResponse}
      (read : listChangesAfter rendering heapBytes view ⟨resume.afterSeq, 0⟩ policy.pageLimit
        .whole = .ok response)
      (planned : planIncrementalUnit policy response.changes resume = .ok (.upToDate resume)) :
      FeedIndexing rendering heapBytes view policy resume [] resume
  | unit {resume next last : ChangeFeedResume} {response : ListChangesResponse}
      {pending more : List PendingRevisionContent}
      (read : listChangesAfter rendering heapBytes view ⟨resume.afterSeq, 0⟩ policy.pageLimit
        .whole = .ok response)
      (planned : planIncrementalUnit policy response.changes resume = .ok (.unit pending next))
      (rest : FeedIndexing rendering heapBytes view policy next more last) :
      FeedIndexing rendering heapBytes view policy resume (pending ++ more) last

/-- From a retained watermark, steps of any size end at the head, with every revision that the
later events publish planned once and in order. -/
theorem ChangeFeedView.Serves.indexes_to_head (indexing : GramIndexBuildPolicy)
    {resume : ChangeFeedResume}
    (consistent : (serves.indexedFeed rendering addressable).Consistent resume)
    (retained : view.retentionFloorSeq ≤ resume.afterSeq)
    (visible : resume.afterSeq ≤ view.headSeq) :
    ∃ last, (serves.indexedFeed rendering addressable).after last = [] ∧
      FeedIndexing rendering heapBytes view indexing resume
        ((serves.indexedFeed rendering addressable).revisionsAfter resume) last := by
  -- A step that plans a unit leaves a shorter backlog.
  induction backlog : (serves.indexedFeed rendering addressable).backlog resume using
    Nat.strong_induction_on generalizing resume with
  | _ size induction =>
  subst backlog
  obtain ⟨response, read, isPage, ends⟩ := serves.listChangesAfter rendering addressable heapBytes
    indexing.pageLimit retained visible
  by_cases noChanges : response.changes = []
  · have nothing := ends noChanges
    refine ⟨resume, nothing, ?_⟩
    rw [IndexedFeed.revisionsAfter_eq, IndexedFeed.unread, nothing, map_nil, flatMap_nil]
    exact .upToDate read (by rw [planIncrementalUnit, if_pos noChanges])
  · obtain ⟨pending, next, planned, revisions, less, nextConsistent, _, change, inPage, built⟩ :=
      planIncrementalUnit_progress consistent indexing isPage noChanges
    have inFeed := mem_filter.mp (isPage.subset inPage)
    obtain ⟨record, isRecord, rfl⟩ := mem_map.mp inFeed.1
    have above : resume.afterSeq < next.builtThroughSeq := by
      rw [built]
      exact of_decide_eq_true inFeed.2
    have below : next.builtThroughSeq ≤ view.headSeq := by
      rw [built, serves.isHead]
      exact (serves.reachable.commit_seq isRecord).2
    obtain ⟨last, atEnd, rest⟩ := induction _ less nextConsistent
      (retained.trans (next.le_afterSeq above)) (next.afterSeq_le.trans below) rfl
    refine ⟨last, atEnd, ?_⟩
    rw [← revisions]
    exact .unit read planned rest

end

end LoonFs
