import LoonFs.Changes.FeedPages

/-! # Following the feed -/

namespace LoonFs

open List hiding count

variable {view : ChangeFeedView} {events : WalCommitPayload → List FilesystemEvent}
  {splitting : CommitSplitting}

structure PendingCommit.ReportedBy (item : PendingCommit) (view : ChangeFeedView)
    (events : WalCommitPayload → List FilesystemEvent) (changes : List CommittedChange) :
    Prop where
  some : changes ≠ []
  ofCommit : ∀ change ∈ changes, ∃ shown,
    change = committedChangeWithEvents view.namespaceId item.record shown
  inOrder : changes.flatMap CommittedChange.events = item.remaining events

structure FeedReports (view : ChangeFeedView)
    (events : WalCommitPayload → List FilesystemEvent) (splitting : CommitSplitting)
    (pending : List PendingCommit) (pages : List ListChangesResponse) : Prop where
  /-- Each commit in order, in one change or in several neighbouring ones. -/
  commits : ∃ parts : List (List CommittedChange),
    pages.flatMap ListChangesResponse.changes = parts.flatten ∧
      List.Forall₂ (fun item part => item.ReportedBy view events part) pending parts
  undivided : splitting = .whole →
    pages.flatMap ListChangesResponse.changes = pending.map fun item => item.change view events
  nonempty : ∀ page ∈ pages, page.nextAfterSeq ≠ none → page.changes ≠ []
  /-- A page that ends inside a commit has nothing else. -/
  alone : ∀ page ∈ pages, page.nextEventIndex ≠ none →
    splitting = .atPageBudget ∧ page.changes.length = 1
  /-- Only the first change of a page can be part of a commit. -/
  complete : ∀ page ∈ pages, ∀ change ∈ page.changes.tail,
    ∃ item ∈ pending, item.firstEventIndex = 0 ∧ change = item.change view events
  ends : ∃ earlier last, pages = earlier ++ [last] ∧ last.nextAfterSeq = none ∧
    last.nextEventIndex = none ∧ ∀ page ∈ earlier, page.nextAfterSeq ≠ none

theorem PendingCommit.change_reports (item : PendingCommit) (view : ChangeFeedView)
    (events : WalCommitPayload → List FilesystemEvent) :
    item.ReportedBy view events [item.change view events] := by
  refine ⟨by simp, ?_, ?_⟩
  · intro change mem
    rw [mem_singleton] at mem
    exact ⟨item.remaining events, mem⟩
  · simp [change, committedChangeWithEvents]

theorem PendingCommit.changes_report (items : List PendingCommit) (view : ChangeFeedView)
    (events : WalCommitPayload → List FilesystemEvent) :
    List.Forall₂ (fun item part => item.ReportedBy view events part) items
      (items.map fun item => [item.change view events]) := by
  induction items with
  | nil => exact .nil
  | cons item items induction => exact .cons (item.change_reports view events) induction

theorem flatten_map_singleton {α β : Type} (f : α → β) (items : List α) :
    (items.map fun item => [f item]).flatten = items.map f := by
  induction items with
  | nil => rfl
  | cons item items induction => simp [induction]

def StartsInside (pending : List PendingCommit) : Prop :=
  ∀ item ∈ pending.tail, item.firstEventIndex = 0

theorem ChangeFeedView.pendingFrom_startsInside (position : ChangeFeedPosition) :
    StartsInside (view.pendingFrom position) := by
  have later : ∀ item ∈ (view.commits.flat.commitsBetween position.afterSeq view.headSeq).map
      PendingCommit.whole, item.firstEventIndex = 0 := by
    intro item mem
    rcases mem_map.mp mem with ⟨record, _, rfl⟩
    rfl
  intro item mem
  unfold pendingFrom at mem
  dsimp only at mem
  split at mem
  · exact later item (mem_of_mem_tail mem)
  · split at mem
    · exact later item (mem_of_mem_tail mem)
    · exact later item mem

section

variable {page : ListChangesResponse}

theorem StartsInside.complete (starts : StartsInside (taken ++ rest))
    (changes : page.changes = taken.map fun item => item.change view events) :
    ∀ change ∈ page.changes.tail, ∃ item ∈ taken ++ rest,
      item.firstEventIndex = 0 ∧ change = item.change view events := by
  intro change mem
  rw [changes] at mem
  cases taken with
  | nil => simp at mem
  | cons first taken =>
    rw [map_cons, tail_cons] at mem
    rcases mem_map.mp mem with ⟨item, isTaken, rfl⟩
    have isLater : item ∈ (first :: taken ++ rest).tail := by simp [isTaken]
    exact ⟨item, mem_of_mem_tail isLater, starts item isLater, rfl⟩

theorem FeedReports.last (starts : StartsInside taken)
    (changes : page.changes = taken.map fun item => item.change view events)
    (between : page.nextEventIndex = none) (isLast : page.nextAfterSeq = none) :
    FeedReports view events splitting taken [page] where
  commits := ⟨taken.map fun item => [item.change view events],
    by simp [changes, flatten_map_singleton], PendingCommit.changes_report taken view events⟩
  undivided _ := by simp [changes]
  nonempty := by simp [isLast]
  alone := by simp [between]
  complete := by
    have whole : StartsInside (taken ++ []) := by simpa using starts
    simpa using whole.complete changes
  ends := ⟨[], page, rfl, isLast, between, by simp⟩

theorem FeedReports.ends_cons (reports : FeedReports view events splitting rest pages)
    (continues : page.nextAfterSeq ≠ none) :
    ∃ past last, page :: pages = past ++ [last] ∧ last.nextAfterSeq = none ∧
      last.nextEventIndex = none ∧ ∀ other ∈ past, other.nextAfterSeq ≠ none := by
  rcases reports.ends with ⟨past, last, isSplit, isLast, between, continued⟩
  exact ⟨page :: past, last, by simp [isSplit], isLast, between,
    forall_mem_cons.mpr ⟨continues, continued⟩⟩

theorem FeedReports.whole (reports : FeedReports view events splitting rest pages)
    (starts : StartsInside (taken ++ rest)) (some : taken ≠ [])
    (changes : page.changes = taken.map fun item => item.change view events)
    (between : page.nextEventIndex = none) (continues : page.nextAfterSeq ≠ none) :
    FeedReports view events splitting (taken ++ rest) (page :: pages) where
  commits := by
    rcases reports.commits with ⟨parts, isFlat, reported⟩
    refine ⟨(taken.map fun item => [item.change view events]) ++ parts, ?_,
      rel_append (PendingCommit.changes_report taken view events) reported⟩
    rw [flatMap_cons, flatten_append, flatten_map_singleton, changes, isFlat]
  undivided isWhole := by rw [flatMap_cons, reports.undivided isWhole, changes, map_append]
  nonempty := by
    refine forall_mem_cons.mpr ⟨fun _ => ?_, reports.nonempty⟩
    simpa [changes] using some
  alone := forall_mem_cons.mpr ⟨fun inside => absurd between inside, reports.alone⟩
  complete := by
    refine forall_mem_cons.mpr ⟨starts.complete changes, ?_⟩
    intro other mem change isLater
    rcases reports.complete other mem change isLater with ⟨item, isRest, whole⟩
    exact ⟨item, mem_append_right _ isRest, whole⟩
  ends := reports.ends_cons continues

theorem FeedReports.part {item : PendingCommit} (reports : FeedReports view events splitting
      (⟨item.record, item.firstEventIndex + count⟩ :: rest) pages)
    (splits : splitting = .atPageBudget) (positive : 0 < count)
    (changes : page.changes = [item.partChange view events count])
    (continues : page.nextAfterSeq ≠ none) :
    FeedReports view events splitting (item :: rest) (page :: pages) where
  commits := by
    rcases reports.commits with ⟨parts, isFlat, reported⟩
    cases reported with
    | cons first others =>
      rename_i part parts
      refine ⟨(item.partChange view events count :: part) :: parts, ?_, .cons ?_ others⟩
      · simp [flatMap_cons, changes, isFlat]
      · refine ⟨by simp, forall_mem_cons.mpr ⟨⟨_, rfl⟩, first.ofCommit⟩, ?_⟩
        rw [flatMap_cons, first.inOrder]
        simp [PendingCommit.partChange, committedChangeWithEvents, PendingCommit.remaining,
          ← drop_drop]
  undivided isWhole := by simp [isWhole] at splits
  nonempty := forall_mem_cons.mpr ⟨by simp [changes], reports.nonempty⟩
  alone := forall_mem_cons.mpr ⟨fun _ => ⟨splits, by simp [changes]⟩, reports.alone⟩
  complete := by
    refine forall_mem_cons.mpr ⟨by simp [changes], ?_⟩
    intro other mem change isLater
    rcases reports.complete other mem change isLater with ⟨found, isFound, isWhole, same⟩
    rcases mem_cons.mp isFound with rfl | isRest
    · exact absurd isWhole (by simp; omega)
    · exact ⟨found, mem_cons_of_mem _ isRest, isWhole, same⟩
  ends := reports.ends_cons continues

end

/-- How many events and ends of commits are left to report. -/
def pendingSize (events : WalCommitPayload → List FilesystemEvent)
    (pending : List PendingCommit) : Nat :=
  (pending.map fun item => (item.remaining events).length + 1).sum

theorem pendingSize_append_lt (some : taken ≠ []) :
    pendingSize events rest < pendingSize events (taken ++ rest) := by
  cases taken with
  | nil => exact absurd rfl some
  | cons item taken =>
    simp only [pendingSize, cons_append, map_cons, map_append, sum_cons, sum_append]
    omega

section

theorem followChanges_last
    (isPage : listChangesWithin rendering heapBytes view position (limits number) splitting
      maxPageBytes = .ok page) (isLast : page.nextAfterSeq = none) :
    followChanges rendering heapBytes view limits splitting maxPageBytes (steps + 1) number
      position = .ok [page] := by
  simp [followChanges, isPage, isLast, bind, Except.bind, pure, Except.pure]

theorem followChanges_cons
    (isPage : listChangesWithin rendering heapBytes view position (limits number) splitting
      maxPageBytes = .ok page) (next : page.nextAfterSeq = some afterSeq)
    (isRest : followChanges rendering heapBytes view limits splitting maxPageBytes steps
      (number + 1) ⟨afterSeq, page.nextEventIndex.getD 0⟩ = .ok pages) :
    followChanges rendering heapBytes view limits splitting maxPageBytes (steps + 1) number
      position = .ok (page :: pages) := by
  simp [followChanges, isPage, next, isRest, bind, Except.bind, pure, Except.pure]

end

theorem ChangeFeedView.RendersRetained.followChanges
    (renders : view.RendersRetained rendering events) (isLive : view.status.isDeleted = false)
    (heapBytes : WalCommitPayload → Nat) (bytes : 0 < maxPageBytes)
    (limits : Nat → EffectiveLimit) :
    ∀ (size number : Nat) (position : ChangeFeedPosition), position.Valid view events splitting →
      pendingSize events (view.pendingFrom position) ≤ size →
      ∃ pages, (∀ steps > size, LoonFs.followChanges rendering heapBytes view limits splitting
          maxPageBytes steps number position = .ok pages) ∧
        FeedReports view events splitting (view.pendingFrom position) pages := by
  intro size
  induction size using Nat.strong_induction_on with
  | _ size induction =>
  intro number position valid bounded
  have starts := view.pendingFrom_startsInside position
  rcases renders.listChangesWithin isLive heapBytes bytes (limits number) valid with
    ⟨page, isPage, step⟩
  cases step with
  | whole taken rest isPending changes between progress ends next =>
    rw [isPending] at starts bounded ⊢
    cases isNext : page.nextAfterSeq with
    | none =>
      rw [ends isNext, append_nil] at starts ⊢
      refine ⟨[page], ?_, .last starts changes between isNext⟩
      intro steps enough
      rw [← Nat.succ_pred_eq_of_pos (Nat.zero_lt_of_lt enough)]
      exact followChanges_last isPage isNext
    | some afterSeq =>
      have some : taken ≠ [] := by
        intro nothing
        simp [progress nothing] at isNext
      rcases next afterSeq isNext with ⟨nextValid, nextPending⟩
      have smaller := (pendingSize_append_lt some).trans_le bounded
      rcases induction _ smaller (number + 1) ⟨afterSeq, 0⟩ nextValid
        (by rw [nextPending]) with ⟨pages, isRest, reports⟩
      rw [nextPending] at reports
      refine ⟨page :: pages, ?_, reports.whole starts some changes between (by simp [isNext])⟩
      intro steps enough
      rw [← Nat.succ_pred_eq_of_pos (Nat.zero_lt_of_lt enough)]
      apply followChanges_cons isPage isNext
      rw [between]
      exact isRest _ (smaller.trans_le (Nat.le_pred_of_lt enough))
  | part item rest count isPending splits positive fewer changes inside through nextValid
      nextPending =>
      rw [isPending] at bounded ⊢
      have smaller : pendingSize events (⟨item.record, item.firstEventIndex + count⟩ :: rest) <
          size := by
        apply lt_of_lt_of_le _ bounded
        simp only [pendingSize, PendingCommit.remaining, length_drop, map_cons, sum_cons] at fewer ⊢
        omega
      rcases induction _ smaller (number + 1) _ nextValid (by rw [nextPending]) with
        ⟨pages, isRest, reports⟩
      rw [nextPending] at reports
      refine ⟨page :: pages, ?_, reports.part splits positive changes (by simp [through])⟩
      intro steps enough
      rw [← Nat.succ_pred_eq_of_pos (Nat.zero_lt_of_lt enough)]
      apply followChanges_cons isPage through
      rw [inside]
      exact isRest _ (smaller.trans_le (Nat.le_pred_of_lt enough))

end LoonFs
