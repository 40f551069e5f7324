import LoonFs.Changes.Feed

/-! # What a page of the feed reads -/

namespace LoonFs

open List FamilyRows CommitScan

structure PendingCommit where
  record : WalCommitPayload
  firstEventIndex : Nat

namespace PendingCommit

def whole (record : WalCommitPayload) : PendingCommit := ⟨record, 0⟩

variable (view : ChangeFeedView) (events : WalCommitPayload → List FilesystemEvent)
  (pending : PendingCommit)

def remaining : List FilesystemEvent := (events pending.record).drop pending.firstEventIndex

def change : CommittedChange :=
  committedChangeWithEvents view.namespaceId pending.record (pending.remaining events)

def partChange (count : Nat) : CommittedChange :=
  committedChangeWithEvents view.namespaceId pending.record
    ((pending.remaining events).take count)

structure Resumes (rendering : EventRendering) : Prop where
  renders : Renders rendering pending.record.committedSeq
    (semanticOperationGroups pending.record.deltas) (events pending.record)
  inside : 0 < pending.firstEventIndex →
    pending.firstEventIndex < (events pending.record).length

end PendingCommit

variable {rendering : EventRendering} {view : ChangeFeedView}
  {events : WalCommitPayload → List FilesystemEvent}

/-! ## One commit -/

variable {pending : PendingCommit}

theorem PendingCommit.Resumes.built (resumes : pending.Resumes events rendering)
    (maxHeapBytes : Option Nat) : ∃ count ≤ (pending.remaining events).length,
      eventsFromWalDeltasWithin rendering pending.record.committedSeq pending.record.deltas
          pending.firstEventIndex maxHeapBytes =
        .ok { events := (pending.remaining events).take count
              nextEventIndex := if count < (pending.remaining events).length then
                some (pending.firstEventIndex + count) else none } ∧
      (maxHeapBytes = none → count = (pending.remaining events).length) ∧
      (pending.remaining events ≠ [] → 0 < count) := by
  have notPast : ¬(pending.firstEventIndex > 0 ∧
      (semanticOperationGroups pending.record.deltas).length ≤ pending.firstEventIndex) := by
    rw [resumes.renders.length_eq]
    exact fun ⟨positive, past⟩ => absurd (resumes.inside positive) (not_lt.mpr past)
  rw [eventsFromWalDeltasWithin, if_neg notPast]
  rcases (resumes.renders.drop pending.firstEventIndex).buildEvents maxHeapBytes [] 0
    pending.firstEventIndex with ⟨count, le, isBuilt, all, some⟩
  exact ⟨count, le, isBuilt, all, some rfl⟩

inductive CommitOffered (view : ChangeFeedView) (events : WalCommitPayload → List FilesystemEvent)
    (rendering : EventRendering) (page : FeedPage) (pending : PendingCommit) :
    FeedPage → Prop
  /-- The page takes all that is left of the commit. -/
  | taken (scan : CommitScan) (fits : page.scan.admitCommit pending.record.committedSeq
        (rendering.eventsBytes (pending.remaining events)) = (true, scan)) :
      CommitOffered view events rendering page pending
        { scan, changes := page.changes ++ [pending.change view events] }
  /-- The commit is left for the next page. -/
  | left (some : page.scan.commits ≠ 0) :
      CommitOffered view events rendering page pending { page with scan := page.scan.endPage }
  /-- The page takes some events of a commit that starts it. -/
  | part (bytes count : Nat) (starts : page.scan.commits = 0)
      (splits : page.scan.splitting = .atPageBudget) (positive : 0 < count)
      (fewer : count < (pending.remaining events).length) :
      CommitOffered view events rendering page pending
        { scan := page.scan.admitPart pending.record.committedSeq bytes
            (pending.firstEventIndex + count)
          changes := page.changes ++ [pending.partChange view events count] }

theorem PendingCommit.Resumes.offer (resumes : pending.Resumes events rendering)
    (view : ChangeFeedView) (page : FeedPage) :
    ∃ next, page.offer rendering view ⟨pending.record, pending.firstEventIndex⟩ = .ok next ∧
      CommitOffered view events rendering page pending next := by
  rcases resumes.built page.scan.eventBudget with ⟨count, le, isBuilt, all, some⟩
  rw [FeedPage.offer]
  simp only [isBuilt, bind, Except.bind]
  by_cases fewer : count < (pending.remaining events).length
  · simp only [if_pos fewer]
    by_cases starts : page.scan.commits = 0
    · have splits : page.scan.splitting = .atPageBudget := by
        cases splitting : page.scan.splitting with
        | atPageBudget => rfl
        | whole =>
          have unbounded := all (by simp [CommitScan.eventBudget, starts, splitting])
          exact absurd fewer (unbounded ▸ lt_irrefl _)
      simp only [if_pos starts, if_pos splits]
      have nonempty : pending.remaining events ≠ [] := by
        intro empty
        simp [empty] at fewer
      exact ⟨_, rfl, .part _ count starts splits (some nonempty) fewer⟩
    · simp only [if_neg starts]
      exact ⟨_, rfl, .left starts⟩
  · have whole := take_of_length_le (not_lt.mp fewer)
    simp only [if_neg fewer, whole]
    cases admitted : page.scan.admitCommit pending.record.committedSeq
        (rendering.eventsBytes (pending.remaining events)) with
    | mk fits scan =>
      cases fits with
      | true =>
        simp only [committedChangeWithEvents, admitted]
        exact ⟨_, rfl, .taken scan admitted⟩
      | false =>
        simp only [committedChangeWithEvents, admitted]
        rw [CommitScan.admitCommit] at admitted
        split at admitted
        next refused =>
          cases admitted
          exact ⟨_, rfl, .left (Nat.pos_iff_ne_zero.mp refused.1)⟩
        next => cases admitted

theorem CommitScan.admitCommit_counts {scan : CommitScan}
    (fits : scan.admitCommit committedSeq bytes = (true, taken)) :
    taken.commits = scan.commits + 1 ∧ taken.limit = scan.limit := by
  rw [admitCommit] at fits
  split at fits <;> cases fits
  exact ⟨rfl, rfl⟩

/-! ## A page that has a commit -/

structure FeedPage.Reads (page : FeedPage) (rendering : EventRendering) (view : ChangeFeedView)
    (events : WalCommitPayload → List FilesystemEvent) (unread : List WalCommitPayload) :
    Prop where
  reading : page.scan.Reading view.commits.flat unread
  atHead : page.scan.visibleSeq = view.headSeq
  renders : ∀ record ∈ unread, (PendingCommit.whole record).Resumes events rendering

theorem FeedPage.Reads.fill (heapBytes : WalCommitPayload → Nat) :
    ∀ {budget : Nat} {page : FeedPage} {unread : List WalCommitPayload},
    page.Reads rendering view events unread → page.scan.commits ≠ 0 →
    (page.scan.full = true ∧ 0 < budget ∨ page.scan.limit.value - page.scan.commits + 2 ≤ budget) →
    ∃ final taken rest, FeedPage.fill rendering heapBytes view budget page = .ok final ∧
      unread = taken ++ rest ∧ final.changes = page.changes ++
        taken.map (fun record => (PendingCommit.whole record).change view events) ∧
      final.Reads rendering view events rest ∧ page.scan.throughSeq ≤ final.scan.throughSeq := by
  intro budget
  induction budget with
  | zero =>
    intro page unread _ _ enough
    omega
  | succ budget induction =>
    intro page unread reads some enough
    rw [FeedPage.fill, reads.reading.nextIn_eq]
    by_cases ended : page.scan.Ended unread
    · rcases reads.reading.next_of_ended heapBytes ended with
        ⟨last, isNext, reading, visible, through⟩
      rw [isNext]
      exact ⟨{ page with scan := last }, [], unread, rfl, rfl, by simp,
        ⟨reading, visible.trans reads.atHead, reads.renders⟩, through⟩
    · rcases reads.reading.next_of_continues heapBytes ended with
        ⟨record, rest, fetched, isUnread, starts, isNext⟩
      subst isUnread
      simp only [CommitScan.Ended, not_or, not_le] at ended
      have room := enough.resolve_left fun full => ended.1 full.1
      have fewer := ended.2.1
      rcases (reads.renders record mem_cons_self).offer view
        { page with scan := { page.scan with fetched } } with ⟨next, isOffered, offered⟩
      have isStep : FeedPage.offer rendering view
          { page with scan := { page.scan with fetched } } ⟨record, 0⟩ = .ok next := isOffered
      simp only [isNext, Foundation.mapError_ok, bind, Except.bind, isStep]
      cases offered with
      | taken scan fits =>
        rcases reads.reading.taken view.commits.flat_ordered starts fits with
          ⟨reading, through, visible⟩
        have counts := admitCommit_counts fits
        have later : page.scan.throughSeq < record.committedSeq := by
          have mem : record ∈ view.commits.flat.commitsBetween page.scan.throughSeq
              page.scan.visibleSeq := by
            simp [reads.reading.rest]
          exact (mem_commitsBetween _).mp mem |>.2.1
        have nextReads : FeedPage.Reads ⟨scan, page.changes ++
            [(PendingCommit.whole record).change view events]⟩ rendering view events rest :=
          ⟨reading, visible.trans reads.atHead, fun other mem =>
            reads.renders other (mem_cons_of_mem _ mem)⟩
        rcases induction nextReads (by simp [counts.1]) (.inr (by
            simp only [counts.1, counts.2]
            omega)) with ⟨final, taken, remaining, isFilled, isRest, changes, read, ge⟩
        refine ⟨final, record :: taken, remaining, isFilled, by simp [isRest], ?_, read, ?_⟩
        · simp [changes]
        · exact (later.le.trans through.ge).trans ge
      | left =>
        have nextReads : FeedPage.Reads ⟨{ page.scan with fetched }.endPage, page.changes⟩
            rendering view events (record :: rest) := by
          refine ⟨⟨reads.reading.notResuming, reads.reading.notSplit, reads.reading.rest,
            ?_, ?_⟩, reads.atHead, reads.renders⟩
          · simp [CommitScan.endPage]
          · simp [CommitScan.endPage]
        exact induction nextReads some (.inl ⟨rfl, by omega⟩)
      | part bytes count isFirst => exact absurd isFirst some

/-! ## The first commit of a page -/

inductive PageReads (rendering : EventRendering) (view : ChangeFeedView)
    (events : WalCommitPayload → List FilesystemEvent) (splitting : CommitSplitting)
    (pending : List PendingCommit) (page : FeedPage) : Prop
  | whole (taken : List PendingCommit) (rest : List WalCommitPayload)
      (isPending : pending = taken ++ rest.map .whole)
      (changes : page.changes = taken.map fun item => item.change view events)
      (reads : page.Reads rendering view events rest)
      (progress : taken = [] → view.headSeq ≤ page.scan.throughSeq)
  | part (item : PendingCommit) (rest : List WalCommitPayload) (count : Nat)
      (isPending : pending = item :: rest.map .whole)
      (splits : splitting = .atPageBudget) (positive : 0 < count)
      (fewer : count < (item.remaining events).length)
      (changes : page.changes = [item.partChange view events count])
      (through : page.scan.throughSeq = item.record.committedSeq)
      (inside : page.scan.nextEventIndex = some (item.firstEventIndex + count))

variable {rest : List WalCommitPayload} {item : PendingCommit}

theorem PendingCommit.Resumes.startPage (heapBytes : WalCommitPayload → Nat)
    (resumes : item.Resumes events rendering) (scan : CommitScan) (starts : scan.commits = 0)
    (notResuming : scan.resumeEventIndex = none) (atHead : scan.visibleSeq = view.headSeq)
    (admits : ∀ bytes taken, scan.admitCommit item.record.committedSeq bytes = (true, taken) →
      taken.Reading view.commits.flat rest ∧ taken.throughSeq = item.record.committedSeq ∧
      taken.visibleSeq = scan.visibleSeq)
    (renders : ∀ record ∈ rest, (PendingCommit.whole record).Resumes events rendering) :
    ∃ page final, FeedPage.offer rendering view ⟨scan, []⟩
          ⟨item.record, item.firstEventIndex⟩ = .ok page ∧
      page.fill rendering heapBytes view (scan.limit.value + 1) = .ok final ∧
      PageReads rendering view events scan.splitting (item :: rest.map .whole) final ∧
      item.record.committedSeq ≤ final.scan.throughSeq := by
  rcases resumes.offer view ⟨scan, []⟩ with ⟨page, isOffered, offered⟩
  refine ⟨page, ?_⟩
  cases offered with
  | taken admitted fits =>
    rcases admits _ _ fits with ⟨reading, through, visible⟩
    have counts : admitted.commits = 1 ∧ admitted.limit = scan.limit := by
      simpa [starts] using admitCommit_counts fits
    have reads : FeedPage.Reads ⟨admitted, [item.change view events]⟩ rendering view events
        rest := ⟨reading, visible.trans atHead, renders⟩
    have positive := scan.limit.positive
    have enough : admitted.limit.value - admitted.commits + 2 ≤ scan.limit.value + 1 := by
      rw [counts.1, counts.2]
      omega
    rcases FeedPage.Reads.fill heapBytes reads (by simp [counts.1]) (.inr enough) with
      ⟨final, taken, remaining, isFilled, isRest, changes, read, later⟩
    refine ⟨final, isOffered, isFilled, ?_, through ▸ later⟩
    refine .whole (item :: taken.map .whole) remaining (by simp [isRest]) ?_ read (by simp)
    simp [changes]
  | left some => exact absurd starts some
  | part bytes count _ splits positive fewer =>
    refine ⟨⟨scan.admitPart item.record.committedSeq bytes (item.firstEventIndex + count),
      [item.partChange view events count]⟩, isOffered, ?_,
      .part item rest count rfl splits positive fewer rfl rfl rfl, le_rfl⟩
    simp [FeedPage.fill, CommitScan.nextIn, CommitScan.nextFrom, CommitScan.admitPart, notResuming,
      Foundation.mapError_ok, bind, Except.bind, pure, Except.pure]

/-! ## A page from a position -/

def ChangeFeedView.pendingFrom (view : ChangeFeedView) (position : ChangeFeedPosition) :
    List PendingCommit :=
  let later := (view.commits.flat.commitsBetween position.afterSeq view.headSeq).map .whole
  if position.eventIndex = 0 then later
  else
    match view.commits.commitAtSeq view.headSeq position.afterSeq with
    | none => later
    | some record => ⟨record, position.eventIndex⟩ :: later

def ChangeFeedView.RendersRetained (view : ChangeFeedView) (rendering : EventRendering)
    (events : WalCommitPayload → List FilesystemEvent) : Prop :=
  ∀ record ∈ view.commits.flat.commits, view.retentionFloorSeq < record.committedSeq →
    Renders rendering record.committedSeq (semanticOperationGroups record.deltas)
      (events record)

structure ChangeFeedPosition.Valid (position : ChangeFeedPosition) (view : ChangeFeedView)
    (events : WalCommitPayload → List FilesystemEvent) (splitting : CommitSplitting) :
    Prop where
  retained : view.retentionFloorSeq ≤ position.afterSeq
  visible : position.afterSeq ≤ view.headSeq
  inside : 0 < position.eventIndex → splitting = .atPageBudget ∧
    view.retentionFloorSeq < position.afterSeq ∧
    ∃ record ∈ view.commits.flat.commits, record.committedSeq = position.afterSeq ∧
      position.eventIndex < (events record).length

variable {afterSeq : ChangeSeq}

theorem ChangeFeedView.RendersRetained.resumes (renders : view.RendersRetained rendering events)
    (retained : view.retentionFloorSeq ≤ afterSeq) :
    ∀ record ∈ view.commits.flat.commitsBetween afterSeq view.headSeq,
      (PendingCommit.whole record).Resumes events rendering := by
  intro record mem
  rcases (mem_commitsBetween _).mp mem with ⟨isCommit, later, _⟩
  exact ⟨renders record isCommit (retained.trans_lt later), fun positive => absurd positive
    (lt_irrefl 0)⟩

variable {splitting : CommitSplitting} {maxPageBytes : Nat}

theorem CommitScan.new_reading (layers : CommitLayers) (seq afterSeq : ChangeSeq)
    (limit : EffectiveLimit) (splitting : CommitSplitting) (bytes : 0 < maxPageBytes) :
    (CommitScan.new seq afterSeq 0 limit splitting maxPageBytes).Reading layers.flat
      (layers.flat.commitsBetween afterSeq seq) :=
  ⟨rfl, rfl, rfl, fun _ => nil_prefix, fun _ => bytes⟩

theorem ChangeFeedView.RendersRetained.fill (renders : view.RendersRetained rendering events)
    (heapBytes : WalCommitPayload → Nat) (bytes : 0 < maxPageBytes) (limit : EffectiveLimit)
    (retained : view.retentionFloorSeq ≤ afterSeq) (before : afterSeq < view.headSeq) :
    ∃ final, FeedPage.fill rendering heapBytes view (limit.value + 2)
        ⟨.new view.headSeq afterSeq 0 limit splitting maxPageBytes, []⟩ = .ok final ∧
      PageReads rendering view events splitting (view.pendingFrom ⟨afterSeq, 0⟩) final ∧
      afterSeq ≤ final.scan.throughSeq := by
  have reading := new_reading view.commits view.headSeq afterSeq limit splitting bytes
  have resumes := renders.resumes retained
  have isPending : view.pendingFrom ⟨afterSeq, 0⟩ =
      (view.commits.flat.commitsBetween afterSeq view.headSeq).map .whole := rfl
  have positive := limit.positive
  rw [isPending, FeedPage.fill, reading.nextIn_eq]
  cases unread : view.commits.flat.commitsBetween afterSeq view.headSeq with
  | nil =>
    rw [unread] at reading
    refine ⟨⟨{ CommitScan.new view.headSeq afterSeq 0 limit splitting maxPageBytes with
        throughSeq := view.headSeq }, []⟩, ?_,
      .whole [] [] rfl rfl ⟨⟨rfl, rfl, ?_, fun _ => nil_prefix, fun _ => bytes⟩, rfl,
        by simp⟩ fun _ => le_rfl, before.le⟩
    · have nothing : view.commits.flat.commitsAfter heapBytes view.headSeq afterSeq limit.value
          maxPageBytes = [] := by
        rw [FamilyRows.commitsAfter, unread]
        cases limit.value <;> rfl
      simp [CommitScan.next, CommitScan.nextFrom, CommitScan.new, CommitScan.refill, nothing,
        not_le.mpr before, Nat.pos_iff_ne_zero.mp positive, Foundation.mapError_ok, bind,
        Except.bind, pure, Except.pure]
    · refine eq_nil_iff_forall_not_mem.mpr fun record mem => ?_
      rcases (mem_commitsBetween _).mp mem with ⟨_, later, visible⟩
      exact absurd visible (not_le.mpr later)
  | cons record rest =>
    rw [unread] at reading resumes
    have continues : ¬(CommitScan.new view.headSeq afterSeq 0 limit splitting
        maxPageBytes).Ended (record :: rest) := by
      simpa [CommitScan.Ended, CommitScan.new] using Nat.pos_iff_ne_zero.mp positive
    rcases reading.next_of_continues heapBytes continues with
      ⟨first, others, fetched, isUnread, starts, isNext⟩
    cases isUnread
    have later : afterSeq < record.committedSeq := by
      have mem : record ∈ view.commits.flat.commitsBetween afterSeq view.headSeq := by
        simp [unread]
      exact ((mem_commitsBetween _).mp mem).2.1
    rcases PendingCommit.Resumes.startPage heapBytes (resumes record mem_cons_self)
        { CommitScan.new view.headSeq afterSeq 0 limit splitting maxPageBytes with fetched }
        rfl rfl rfl
        (fun _ _ fits => reading.taken view.commits.flat_ordered starts fits)
        (fun other mem => resumes other (mem_cons_of_mem _ mem)) with
      ⟨page, final, isOffered, isFilled, read, through⟩
    refine ⟨final, ?_, read, later.le.trans through⟩
    have isStep : FeedPage.offer rendering view ⟨{ CommitScan.new view.headSeq afterSeq 0 limit
        splitting maxPageBytes with fetched }, []⟩ ⟨record, 0⟩ = .ok page := isOffered
    simp only [isNext, Foundation.mapError_ok, bind, Except.bind, isStep]
    exact isFilled

variable {position : ChangeFeedPosition}

theorem ChangeFeedView.RendersRetained.fillInside
    (renders : view.RendersRetained rendering events) (heapBytes : WalCommitPayload → Nat)
    (limit : EffectiveLimit) (valid : position.Valid view events splitting)
    (inside : 0 < position.eventIndex) :
    ∃ final, FeedPage.fill rendering heapBytes view (limit.value + 2)
        ⟨.new view.headSeq position.afterSeq position.eventIndex limit splitting maxPageBytes,
          []⟩ = .ok final ∧
      PageReads rendering view events splitting (view.pendingFrom position) final ∧
      position.afterSeq ≤ final.scan.throughSeq := by
  rcases valid.inside inside with ⟨_, above, record, isCommit, isAt, fewer⟩
  have found : view.commits.commitAtSeq view.headSeq position.afterSeq = some record := by
    rw [← isAt]
    exact view.commits.commitAtSeq_of_mem isCommit (isAt ▸ valid.visible)
  have isPending : view.pendingFrom position = ⟨record, position.eventIndex⟩ ::
      (view.commits.flat.commitsBetween position.afterSeq view.headSeq).map .whole := by
    simp [ChangeFeedView.pendingFrom, Nat.pos_iff_ne_zero.mp inside, found]
  have resumes : PendingCommit.Resumes events ⟨record, position.eventIndex⟩ rendering :=
    ⟨renders record isCommit (isAt ▸ above), fun _ => fewer⟩
  have admits : ∀ bytes taken,
      { CommitScan.new view.headSeq position.afterSeq position.eventIndex limit splitting
          maxPageBytes with resumeEventIndex := none }.admitCommit record.committedSeq bytes =
        (true, taken) →
      taken.Reading view.commits.flat
          (view.commits.flat.commitsBetween position.afterSeq view.headSeq) ∧
        taken.throughSeq = record.committedSeq ∧ taken.visibleSeq = view.headSeq := by
    intro bytes taken fits
    rw [CommitScan.admitCommit] at fits
    split at fits <;> cases fits
    refine ⟨⟨rfl, rfl, ?_, fun _ => nil_prefix, by simp⟩, rfl, rfl⟩
    exact congrArg (view.commits.flat.commitsBetween · view.headSeq) isAt
  rcases PendingCommit.Resumes.startPage heapBytes resumes
      { CommitScan.new view.headSeq position.afterSeq position.eventIndex limit splitting
          maxPageBytes with resumeEventIndex := none } rfl rfl rfl admits
      (renders.resumes valid.retained) with ⟨page, final, isOffered, isFilled, read, through⟩
  refine ⟨final, ?_, isPending ▸ read, isAt ▸ through⟩
  rw [FeedPage.fill, CommitScan.nextIn, CommitScan.nextFrom]
  simp only [CommitScan.new, gt_iff_lt, inside, if_true, found, Foundation.mapError_ok, bind,
    Except.bind] at isOffered ⊢
  rw [isOffered]
  exact isFilled

/-! ## A response and the next position -/

inductive FeedStep (view : ChangeFeedView) (events : WalCommitPayload → List FilesystemEvent)
    (splitting : CommitSplitting) (pending : List PendingCommit)
    (page : ListChangesResponse) : Prop
  | whole (taken rest : List PendingCommit) (isPending : pending = taken ++ rest)
      (changes : page.changes = taken.map fun item => item.change view events)
      (between : page.nextEventIndex = none)
      (progress : taken = [] → page.nextAfterSeq = none)
      (ends : page.nextAfterSeq = none → rest = [])
      (next : ∀ afterSeq, page.nextAfterSeq = some afterSeq →
        ChangeFeedPosition.Valid ⟨afterSeq, 0⟩ view events splitting ∧
          view.pendingFrom ⟨afterSeq, 0⟩ = rest)
  | part (item : PendingCommit) (rest : List PendingCommit) (count : Nat)
      (isPending : pending = item :: rest) (splits : splitting = .atPageBudget)
      (positive : 0 < count) (fewer : count < (item.remaining events).length)
      (changes : page.changes = [item.partChange view events count])
      (inside : page.nextEventIndex = some (item.firstEventIndex + count))
      (through : page.nextAfterSeq = some item.record.committedSeq)
      (valid : ChangeFeedPosition.Valid ⟨item.record.committedSeq, item.firstEventIndex + count⟩
        view events splitting)
      (next : view.pendingFrom ⟨item.record.committedSeq, item.firstEventIndex + count⟩ =
        ⟨item.record, item.firstEventIndex + count⟩ :: rest)

theorem ChangeFeedPosition.Valid.ofPending (valid : position.Valid view events splitting)
    (isPending : view.pendingFrom position = item :: rest.map .whole) :
    item.record ∈ view.commits.flat.commits ∧ view.retentionFloorSeq < item.record.committedSeq ∧
      item.record.committedSeq ≤ view.headSeq ∧
      view.commits.flat.commitsBetween item.record.committedSeq view.headSeq = rest := by
  have wholeInjective : Function.Injective PendingCommit.whole :=
    fun _ _ same => congrArg PendingCommit.record same
  by_cases between : position.eventIndex = 0
  · simp only [ChangeFeedView.pendingFrom, if_pos between] at isPending
    cases unread : view.commits.flat.commitsBetween position.afterSeq view.headSeq with
    | nil => simp [unread] at isPending
    | cons record others =>
      rw [unread, map_cons, List.cons.injEq] at isPending
      have same := map_injective_iff.mpr wholeInjective isPending.2
      have mem : record ∈ view.commits.flat.commitsBetween position.afterSeq
          view.headSeq := by simp [unread]
      rcases (mem_commitsBetween _).mp mem with ⟨isCommit, later, visible⟩
      rw [← isPending.1]
      exact ⟨isCommit, valid.retained.trans_lt later, visible,
        (view.commits.flat_ordered.commitsBetween_rest unread).trans same⟩
  · rcases valid.inside (Nat.pos_iff_ne_zero.mpr between) with ⟨_, above, record, isCommit, isAt, _⟩
    have found : view.commits.commitAtSeq view.headSeq position.afterSeq = some record := by
      rw [← isAt]
      exact view.commits.commitAtSeq_of_mem isCommit (isAt ▸ valid.visible)
    simp only [ChangeFeedView.pendingFrom, if_neg between, found, List.cons.injEq] at isPending
    rw [← isPending.1]
    refine ⟨isCommit, isAt ▸ above, isAt ▸ valid.visible, ?_⟩
    rw [isAt]
    exact map_injective_iff.mpr wholeInjective isPending.2

theorem PageReads.step (valid : position.Valid view events splitting)
    (read : PageReads rendering view events splitting (view.pendingFrom position) page)
    (later : position.afterSeq ≤ page.scan.throughSeq) {response : ListChangesResponse}
    (next : response.nextAfterSeq = page.scan.nextAfterSeq)
    (nextEvent : response.nextEventIndex = page.scan.nextEventIndex)
    (changes : response.changes = page.changes) :
    FeedStep view events splitting (view.pendingFrom position) response := by
  cases read with
  | whole taken rest isPending taking reads progress =>
    have between := reads.reading.notSplit
    have isNext : response.nextAfterSeq =
        if page.scan.throughSeq < view.headSeq then some page.scan.throughSeq else none := by
      rw [next, CommitScan.nextAfterSeq, between, reads.atHead]
      simp
    refine .whole taken (rest.map .whole) isPending (changes.trans taking)
      (nextEvent.trans between) ?_ ?_ ?_
    · intro nothing
      rw [isNext, if_neg (not_lt.mpr (progress nothing))]
    · intro ends
      rw [isNext] at ends
      have reached : ¬page.scan.throughSeq < view.headSeq := by
        intro before
        simp [before] at ends
      have isRest := reads.reading.rest
      rw [reads.atHead] at isRest
      rw [← isRest, map_eq_nil_iff]
      refine eq_nil_iff_forall_not_mem.mpr fun record mem => ?_
      rcases (mem_commitsBetween _).mp mem with ⟨_, above, visible⟩
      exact reached (above.trans_le visible)
    · intro afterSeq isSome
      rw [isNext] at isSome
      split at isSome
      next before =>
        cases isSome
        refine ⟨⟨valid.retained.trans later, before.le, fun positive => absurd positive
          (lt_irrefl 0)⟩, ?_⟩
        have isRest := reads.reading.rest
        rw [reads.atHead] at isRest
        rw [← isRest]
        rfl
      next => cases isSome
  | part item rest count isPending splits positive fewer taking through inside =>
    rcases valid.ofPending isPending with ⟨isCommit, above, visible, isRest⟩
    have found := view.commits.commitAtSeq_of_mem isCommit visible
    have resumed : item.firstEventIndex + count ≠ 0 := by omega
    refine .part item (rest.map .whole) count isPending splits positive fewer
      (changes.trans taking) (nextEvent.trans inside) ?_ ⟨above.le, visible, ?_⟩ ?_
    · rw [next, CommitScan.nextAfterSeq, inside, through]
      simp
    · intro _
      refine ⟨splits, above, item.record, isCommit, rfl, ?_⟩
      rw [PendingCommit.remaining, length_drop] at fewer
      exact Nat.add_lt_of_lt_sub' fewer
    · simp only [ChangeFeedView.pendingFrom, if_neg resumed, found, isRest]

theorem ChangeFeedView.RendersRetained.listChangesWithin
    (renders : view.RendersRetained rendering events) (isLive : view.status.isDeleted = false)
    (heapBytes : WalCommitPayload → Nat) (bytes : 0 < maxPageBytes) (limit : EffectiveLimit)
    (valid : position.Valid view events splitting) :
    ∃ response, LoonFs.listChangesWithin rendering heapBytes view position limit splitting
        maxPageBytes = .ok response ∧
      FeedStep view events splitting (view.pendingFrom position) response := by
  have accepted : ¬(position.afterSeq < view.retentionFloorSeq ∨
      position.eventIndex > 0 ∧ position.afterSeq = view.retentionFloorSeq) := by
    rintro (below | ⟨inside, atFloor⟩)
    · exact absurd valid.retained (not_le.mpr below)
    · exact absurd (valid.inside inside).2.1 (atFloor ▸ lt_irrefl _)
  have allowed : ensureEventIndexAllowed position.eventIndex splitting = .ok () := by
    rw [ensureEventIndexAllowed, if_neg]
    rintro ⟨inside, isWhole⟩
    have splits := (valid.inside inside).1
    simp [isWhole] at splits
  rw [LoonFs.listChangesWithin]
  simp only [isLive, Bool.false_eq_true, if_false, if_neg accepted,
    if_neg (not_lt.mpr valid.visible), allowed, Foundation.mapError_ok, bind, Except.bind, pure,
    Except.pure]
  by_cases atHead : position.afterSeq = view.headSeq ∧ position.eventIndex = 0
  · rw [if_pos atHead]
    have nothing : view.pendingFrom position = [] := by
      simp only [ChangeFeedView.pendingFrom, if_pos atHead.2, map_eq_nil_iff]
      refine eq_nil_iff_forall_not_mem.mpr fun record mem => ?_
      rcases (mem_commitsBetween _).mp mem with ⟨_, above, visible⟩
      exact absurd visible (not_le.mpr (atHead.1 ▸ above))
    exact ⟨_, rfl, .whole [] [] nothing rfl rfl (fun _ => rfl) (fun _ => rfl)
      fun _ isSome => by cases isSome⟩
  · rw [if_neg atHead]
    have filled : ∃ final, FeedPage.fill rendering heapBytes view (limit.value + 2)
          ⟨.new view.headSeq position.afterSeq position.eventIndex limit splitting maxPageBytes,
            []⟩ = .ok final ∧
        PageReads rendering view events splitting (view.pendingFrom position) final ∧
        position.afterSeq ≤ final.scan.throughSeq := by
      rcases Nat.eq_zero_or_pos position.eventIndex with between | inside
      · have before := lt_of_le_of_ne valid.visible fun same => atHead ⟨same, between⟩
        cases position
        cases between
        exact renders.fill heapBytes bytes limit valid.retained before
      · exact renders.fillInside heapBytes limit valid inside
    rcases filled with ⟨final, isFilled, read, later⟩
    rw [isFilled]
    exact ⟨_, rfl, read.step valid later rfl rfl rfl⟩

end LoonFs
