import LoonFs.Diff.Entries
import LoonFs.Execution

/-! # The diff is complete and minimal -/

namespace LoonFs

open Foundation List

namespace Diff

variable {diff : Diff} {built : WalCommitPayload → List DiffEntry}

/-! ## Pages of whole commits -/

section

structure Filling (diff : Diff) (page : Page) (unread : List WalCommitPayload) : Prop where
  reading : page.scan.Reading diff.rows unread
  atEnd : page.scan.visibleSeq = diff.toSeq

theorem Filling.bounded (filling : diff.Filling page unread) (maxTouches : Nat) :
    diff.Filling (page.bounded maxTouches) unread ∧
      (page.bounded maxTouches).entries = page.entries ∧
      (page.bounded maxTouches).scan.throughSeq = page.scan.throughSeq := by
  rw [Page.bounded]
  split
  · exact ⟨⟨filling.reading.endPage, filling.atEnd⟩, rfl, rfl⟩
  · exact ⟨filling, rfl, rfl⟩

theorem Filling.offer (heapBytes : HeapBytes) (maxTouches : Nat)
    (ordered : diff.rows.CommitsOrdered) {fetched : List WalCommitPayload}
    (reads : diff.commitEntries record = .ok (built record))
    (filling : diff.Filling page (record :: rest)) (starts : fetched.IsPrefix rest) :
    ∃ next : Page, diff.offer heapBytes maxTouches .whole
        { page with scan := { page.scan with fetched } } { record, firstEventIndex := 0 } =
          .ok next ∧
      (diff.Filling next rest ∧ next.entries = page.entries ++ built record ∧
          next.scan.throughSeq = record.committedSeq ∨
        diff.Filling next (record :: rest) ∧ next.entries = page.entries ∧
          next.scan.throughSeq = page.scan.throughSeq ∧ next.scan.full = true ∧
          page.scan.commits > 0) := by
  simp only [Diff.offer, reads, mapError_ok, reduceCtorEq, false_and, if_false, ok_bind]
  cases fits : { page.scan with fetched }.admitCommit record.committedSeq
      (heapBytes.entries (built record)) with
  | mk taken scan =>
    cases taken with
    | false =>
      refine ⟨_, rfl, .inr ?_⟩
      rw [CommitScan.admitCommit] at fits
      split at fits
      · rename_i overfull
        cases fits
        have reading := filling.reading
        exact ⟨⟨⟨reading.notResuming, reading.notSplit, reading.rest, by simp, by simp⟩,
          filling.atEnd⟩, rfl, rfl, rfl, overfull.1⟩
      · cases fits
    | true =>
      rcases filling.reading.taken ordered starts fits with ⟨reading, through, visible⟩
      have next : diff.Filling
          { scan
            touchesExamined := page.touchesExamined + (touchedInodes record.deltas).length
            entries := page.entries ++ built record } rest :=
        ⟨reading, visible.trans filling.atEnd⟩
      rcases next.bounded maxTouches with ⟨bounded, entries, sameThrough⟩
      exact ⟨_, rfl, .inl ⟨bounded, entries, sameThrough.trans through⟩⟩

theorem Filling.first_mem (filling : diff.Filling page (record :: rest)) :
    record ∈ diff.rows.commits ∧ page.scan.throughSeq < record.committedSeq := by
  have mem : record ∈ diff.rows.commitsBetween page.scan.throughSeq page.scan.visibleSeq := by
    simp [filling.reading.rest]
  have facts := diff.rows.mem_commitsBetween.mp mem
  exact ⟨facts.1, facts.2.1⟩

theorem Filling.fillPage (heapBytes : HeapBytes) (maxTouches : Nat)
    (ordered : diff.rows.CommitsOrdered)
    (reads : ∀ record ∈ diff.rows.commits, diff.commitEntries record = .ok (built record)) :
    ∀ (budget : Nat) (page : Page) (unread : List WalCommitPayload), diff.Filling page unread →
      (page.scan.Ended unread ∧ 0 < budget ∨ unread.length + 2 ≤ budget) →
      ∃ (final : Page) (rest : List WalCommitPayload),
        diff.fillPage heapBytes maxTouches .whole budget page = .ok final ∧
        diff.Filling final rest ∧
        page.entries ++ unread.flatMap built = final.entries ++ rest.flatMap built ∧
        page.scan.throughSeq ≤ final.scan.throughSeq ∧
        (¬page.scan.Ended unread → page.scan.commits = 0 →
          page.scan.throughSeq < final.scan.throughSeq) := by
  intro budget
  induction budget with
  | zero =>
    intro page unread _ enough
    omega
  | succ budget induction =>
    intro page unread filling enough
    rw [Diff.fillPage]
    by_cases ended : page.scan.Ended unread
    · rcases filling.reading.next_of_ended heapBytes.record ended with
        ⟨final, result, reading, visible, le⟩
      rw [result]
      exact ⟨{ page with scan := final }, unread, rfl, ⟨reading, visible.trans filling.atEnd⟩,
        rfl, le, fun continues => absurd ended continues⟩
    · have room : unread.length + 2 ≤ budget + 1 := by
        rcases enough with finished | room
        · exact absurd finished.1 ended
        · exact room
      rcases filling.reading.next_of_continues heapBytes.record ended with
        ⟨record, rest, fetched, rfl, starts, result⟩
      rcases filling.first_mem with ⟨isCommit, above⟩
      rcases filling.offer heapBytes maxTouches ordered (reads record isCommit) starts with
        ⟨next, offered, outcome⟩
      simp only [result, ok_bind, offered]
      rw [length_cons] at room
      rcases outcome with ⟨taken, entries, through⟩ | ⟨refused, entries, through, full, hasCommit⟩
      · rcases induction next rest taken (.inr (by omega)) with
          ⟨final, left, filled, finalFilling, same, le, _⟩
        rw [through] at le
        refine ⟨final, left, filled, finalFilling, ?_, (above.trans_le le).le,
          fun _ _ => above.trans_le le⟩
        rw [← same, entries, flatMap_cons, append_assoc]
      · rcases induction next (record :: rest) refused (.inl ⟨.inl full, by omega⟩) with
          ⟨final, left, filled, finalFilling, same, le, _⟩
        rw [through] at le
        refine ⟨final, left, filled, finalFilling, ?_, le, fun _ isFirst => ?_⟩
        · rw [← same, entries]
        · omega

end

end Diff

def wholeCommits (path : AbsolutePath) (toSeq afterSeq : ChangeSeq) (limit : EffectiveLimit) :
    DiffOptions where
  path
  toSeq := some toSeq
  afterSeq := some afterSeq
  eventIndex := 0
  limit
  commitSplitting := .whole

def LoadedMetadataView.diff (view : LoadedMetadataView) (policy : NamePolicy)
    (path : AbsolutePath) (fromSeq toSeq : ChangeSeq) : Diff where
  policy
  namespaceId := view.namespaceId
  subtree := policy.nameKeys path
  rows := view.rows
  retentionFloorSeq := view.retentionFloorSeq
  fromSeq
  toSeq

section

variable {policy : NamePolicy} {view : LoadedMetadataView} {path : AbsolutePath}
  {fromSeq toSeq : ChangeSeq}

theorem diffPageWithin_eq (heapBytes : Diff.HeapBytes) (limit : EffectiveLimit)
    (maxTouches : Nat) (isLive : view.status.isDeleted = false)
    (retained : view.retentionFloorSeq ≤ fromSeq) (fromLe : fromSeq ≤ afterSeq)
    (afterLe : afterSeq ≤ toSeq) (toLe : toSeq ≤ view.headSeq) :
    diffPageWithin policy heapBytes view fromSeq (wholeCommits path toSeq afterSeq limit)
        maxTouches = do
      let page ← (view.diff policy path fromSeq toSeq).fillPage heapBytes maxTouches .whole
        (view.rows.commits.length + 2)
        { scan := CommitScan.new toSeq afterSeq 0 limit .whole changeFeedPageBytes
          touchesExamined := 0
          entries := [] }
      return {
        namespaceId := view.namespaceId
        fromSeq
        toSeq
        afterSeq
        nextAfterSeq := page.scan.nextAfterSeq
        nextEventIndex := page.scan.nextEventIndex
        retentionFloorSeq := view.retentionFloorSeq
        entries := page.entries } := by
  have range : fromSeq ≤ afterSeq ∧ afterSeq ≤ toSeq := ⟨fromLe, afterLe⟩
  simp only [diffPageWithin, wholeCommits, isLive, Option.getD_some,
    if_neg (not_lt.mpr retained), gt_iff_lt, if_neg (not_lt.mpr toLe),
    if_neg (not_lt.mpr (fromLe.trans afterLe)), range]
  rfl

structure DiffReads (view : LoadedMetadataView) (policy : NamePolicy) (path : AbsolutePath)
    (fromSeq toSeq : ChangeSeq) (built : WalCommitPayload → List DiffEntry) : Prop where
  isLive : view.status.isDeleted = false
  retained : view.retentionFloorSeq ≤ fromSeq
  toLe : toSeq ≤ view.headSeq
  ordered : view.rows.CommitsOrdered
  dense : ∀ seq < toSeq, view.rows.commitsBetween seq toSeq ≠ []
  reads : ∀ record ∈ view.rows.commits,
    (view.diff policy path fromSeq toSeq).commitEntries record = .ok (built record)

variable {built : WalCommitPayload → List DiffEntry}

theorem DiffReads.page (reads : DiffReads view policy path fromSeq toSeq built)
    (heapBytes : Diff.HeapBytes) (limit : EffectiveLimit) (maxTouches : Nat)
    (fromLe : fromSeq ≤ afterSeq) (afterLe : afterSeq ≤ toSeq) :
    ∃ response,
      diffPageWithin policy heapBytes view fromSeq (wholeCommits path toSeq afterSeq limit)
        maxTouches = .ok response ∧
      match response.nextAfterSeq with
      | none => response.entries = (view.rows.commitsBetween afterSeq toSeq).flatMap built
      | some next => afterSeq < next ∧ next ≤ toSeq ∧
          response.entries ++ (view.rows.commitsBetween next toSeq).flatMap built =
            (view.rows.commitsBetween afterSeq toSeq).flatMap built := by
  set scan := CommitScan.new toSeq afterSeq 0 limit .whole changeFeedPageBytes with isScan
  set start : Diff.Page := { scan, touchesExamined := 0, entries := [] } with isStart
  set unread := view.rows.commitsBetween afterSeq toSeq with isUnread
  have filling : (view.diff policy path fromSeq toSeq).Filling start unread :=
    ⟨⟨rfl, rfl, rfl, fun _ => nil_prefix, fun _ => by simp [isStart, isScan,
      CommitScan.new, changeFeedPageBytes]⟩, rfl⟩
  have short : unread.length ≤ view.rows.commits.length := by
    rw [isUnread, reads.ordered.commitsBetween]
    exact length_filter_le _ _
  rcases Diff.Filling.fillPage heapBytes maxTouches reads.ordered reads.reads
      (view.rows.commits.length + 2) start unread filling (.inr (by omega)) with
    ⟨final, rest, filled, finalFilling, same, le, progress⟩
  refine ⟨_, by
    rw [diffPageWithin_eq heapBytes limit maxTouches reads.isLive reads.retained fromLe afterLe
      reads.toLe, ← isScan, ← isStart, filled]
    rfl, ?_⟩
  have atEnd : final.scan.visibleSeq = toSeq := finalFilling.atEnd
  have isRest := finalFilling.reading.rest
  rw [atEnd] at isRest
  simp only [CommitScan.nextAfterSeq, finalFilling.reading.notSplit, atEnd, Option.isSome_none,
    Bool.false_eq_true, false_or]
  by_cases more : final.scan.throughSeq < toSeq
  · rw [if_pos more]
    have unreadSome : unread ≠ [] := reads.dense afterSeq (lt_of_le_of_lt le more)
    have continues : ¬start.scan.Ended unread := by
      have limited := limit.positive
      simp [CommitScan.Ended, isStart, isScan, CommitScan.new, unreadSome]
      omega
    have isRest' : view.rows.commitsBetween final.scan.throughSeq toSeq = rest := isRest
    refine ⟨progress continues rfl, more.le, ?_⟩
    rw [isRest', ← same]
    rfl
  · rw [if_neg more]
    have nothing : rest = [] := by
      rw [← isRest]
      refine eq_nil_iff_forall_not_mem.mpr fun record mem => ?_
      have bounds := (FamilyRows.mem_commitsBetween _).mp mem
      exact more (bounds.2.1.trans_le bounds.2.2)
    rw [nothing] at same
    simpa [isStart] using same.symm

end

/-! ## All pages -/

def readDiff (policy : NamePolicy) (heapBytes : Diff.HeapBytes) (view : LoadedMetadataView)
    (path : AbsolutePath) (fromSeq toSeq : ChangeSeq) (limits : Nat → EffectiveLimit)
    (maxTouches : Nat → Nat) :
    Nat → Nat → ChangeSeq → Except ChangeReadError (List DiffEntry)
  | 0, _, _ => .error .pageUnfinished
  | budget + 1, index, afterSeq => do
      let response ← diffPageWithin policy heapBytes view fromSeq
        (wholeCommits path toSeq afterSeq (limits index)) (maxTouches index)
      match response.nextAfterSeq with
      | none => return response.entries
      | some next =>
        let later ← readDiff policy heapBytes view path fromSeq toSeq limits maxTouches budget
          (index + 1) next
        return response.entries ++ later

theorem DiffReads.readDiff {built : WalCommitPayload → List DiffEntry}
    (reads : DiffReads view policy path fromSeq toSeq built) (heapBytes : Diff.HeapBytes)
    (limits : Nat → EffectiveLimit) (maxTouches : Nat → Nat) :
    ∀ (budget index : Nat) (afterSeq : ChangeSeq), fromSeq ≤ afterSeq → afterSeq ≤ toSeq →
      toSeq - afterSeq < budget →
      LoonFs.readDiff policy heapBytes view path fromSeq toSeq limits maxTouches budget index
        afterSeq = .ok ((view.rows.commitsBetween afterSeq toSeq).flatMap built) := by
  intro budget
  induction budget with
  | zero =>
    intro index afterSeq _ _ enough
    exact absurd enough (Nat.not_lt_zero _)
  | succ budget induction =>
    intro index afterSeq fromLe afterLe enough
    rcases reads.page heapBytes (limits index) (maxTouches index) fromLe afterLe with
      ⟨response, result, outcome⟩
    rw [LoonFs.readDiff, result, ok_bind]
    cases next : response.nextAfterSeq with
    | none =>
      rw [next] at outcome
      exact congrArg Except.ok outcome
    | some after =>
      rw [next] at outcome
      rcases outcome with ⟨above, below, entries⟩
      have shorter : toSeq - after < budget :=
        (Nat.sub_lt_sub_left (above.trans_le below) above).trans_le
          (Nat.lt_succ_iff.mp enough)
      simp only [induction (index + 1) after (fromLe.trans above.le) below shorter, ok_bind]
      exact congrArg Except.ok entries

/-! ## The entries of a commit -/

namespace Diff

variable {diff : Diff} {before after : Snapshot} {inodeId : InodeId}

def foundEntry (diff : Diff) (inodeId : InodeId) : Option DiffEntry :=
  (diff.entry inodeId (diff.rows.touchedInodeAt diff.toSeq inodeId)).toOption.join

def touchedAfter (diff : Diff) (committedSeq : ChangeSeq) (inodeId : InodeId) : Bool :=
  (diff.rows.touchedInodeAt diff.toSeq inodeId).lastTouchSeq.any fun seq => committedSeq < seq

def builtEntries (diff : Diff) (record : WalCommitPayload) : List DiffEntry :=
  (touchedInodes record.deltas).filterMap fun inodeId =>
    if diff.touchedAfter record.committedSeq inodeId then none else diff.foundEntry inodeId

section

variable (compares : diff.Compares before after)

include compares

/-- The states at the two ends can be read, and they decide the entry, under
every path alike. -/
theorem Compares.entry (inodeId : InodeId) :
    ∃ fromState toState, before.Shows inodeId fromState ∧ after.Shows inodeId toState ∧
      ∀ subtree, { diff with subtree }.entry inodeId (diff.rows.touchedInodeAt diff.toSeq inodeId) =
        .ok ({ diff with subtree }.entryOf inodeId
          (diff.rows.touchedInodeAt diff.toSeq inodeId) fromState toState) := by
  have fromConsistent := compares.fromConsistent
  have toConsistent := compares.toConsistent
  rw [← compares.fromSnapshot] at fromConsistent
  rw [← compares.toSnapshot] at toConsistent
  rcases fromConsistent.diffState diff.retentionFloorSeq inodeId with
    ⟨fromState, fromResult, fromShows⟩
  rcases toConsistent.diffState diff.retentionFloorSeq inodeId with ⟨toState, toResult, toShows⟩
  rw [compares.fromSnapshot] at fromShows
  rw [compares.toSnapshot] at toShows
  refine ⟨fromState, toState, fromShows, toShows, fun subtree => ?_⟩
  simp only [Diff.entry, fromReads, toReads, fromResult, toResult, ok_bind]
  rfl

theorem Compares.foundEntry_eq (inodeId : InodeId) :
    ∃ fromState toState, before.Shows inodeId fromState ∧ after.Shows inodeId toState ∧
      ∀ subtree, { diff with subtree }.foundEntry inodeId =
        { diff with subtree }.entryOf inodeId (diff.rows.touchedInodeAt diff.toSeq inodeId)
          fromState toState := by
  rcases compares.entry inodeId with ⟨fromState, toState, fromShows, toShows, result⟩
  refine ⟨fromState, toState, fromShows, toShows, fun subtree => ?_⟩
  rw [Diff.foundEntry, result subtree]
  rfl

theorem Compares.foundEntry (inodeId : InodeId) :
    diff.entry inodeId (diff.rows.touchedInodeAt diff.toSeq inodeId) =
      .ok (diff.foundEntry inodeId) := by
  rcases compares.entry inodeId with ⟨fromState, toState, _, _, result⟩
  rw [Diff.foundEntry, result diff.subtree]
  rfl

theorem Compares.touchedEntries (committedSeq : ChangeSeq) (touched : List InodeId) :
    diff.touchedEntries committedSeq touched = .ok (touched.filterMap fun inodeId =>
        if diff.touchedAfter committedSeq inodeId then none else diff.foundEntry inodeId) := by
  induction touched with
  | nil => rfl
  | cons inodeId rest induction =>
    rw [Diff.touchedEntries, induction, compares.foundEntry]
    cases later : diff.touchedAfter committedSeq inodeId with
    | true =>
      have isLater := later
      rw [touchedAfter] at isLater
      simp [isLater, later]
    | false =>
      have notLater := later
      rw [touchedAfter] at notLater
      cases found : diff.foundEntry inodeId <;> simp [notLater, later, found]

theorem Compares.commitEntries (record : WalCommitPayload) :
    diff.commitEntries record = .ok (diff.builtEntries record) :=
  compares.touchedEntries record.committedSeq (touchedInodes record.deltas)

end

variable {entry : DiffEntry}

theorem entryOf_inodeId (found : diff.entryOf inodeId touched fromState toState = some entry) :
    entry.inodeId = inodeId := by
  simp only [entryOf] at found
  split at found
  · cases found
  · rcases Option.bind_eq_some_iff.mp found with ⟨classified, _, built⟩
    rcases Option.map_eq_some_iff.mp built with ⟨shown, _, rfl⟩
    rfl

theorem Compares.foundEntry_inodeId (compares : diff.Compares before after)
    (found : diff.foundEntry inodeId = some entry) : entry.inodeId = inodeId := by
  rcases compares.foundEntry_eq inodeId with ⟨fromState, toState, _, _, result⟩
  exact entryOf_inodeId ((result diff.subtree).symm.trans found)

end Diff

/-! ## The entries of a range -/

structure Diff.Over (diff : Diff) (policy : NamePolicy) (history : List WalCommitPayload)
    (state : MetadataState) : Prop where
  reachable : Reachable policy history state
  rows : diff.rows = state.familyRows
  fromLe : diff.fromSeq ≤ diff.toSeq
  toLe : diff.toSeq ≤ history.length

namespace Diff.Over

variable {diff : Diff} {policy : NamePolicy} {state : MetadataState}

theorem compares (covers : diff.Over policy history state) :
    diff.Compares (state.snapshotAt diff.fromSeq) (state.snapshotAt diff.toSeq) := by
  have settled := covers.reachable.settled
  constructor
  case fromSnapshot => rw [covers.rows]; rfl
  case toSnapshot => rw [covers.rows]; rfl
  case fromConsistent => exact settled.consistent _ (covers.fromLe.trans covers.toLe)
  case toConsistent => exact settled.consistent _ covers.toLe

section

variable (covers : diff.Over policy history state)

include covers

theorem mem_commits : record ∈ diff.rows.commitsBetween diff.fromSeq diff.toSeq ↔
      record ∈ history ∧ diff.fromSeq < record.committedSeq ∧ record.committedSeq ≤ diff.toSeq := by
  rw [FamilyRows.mem_commitsBetween, covers.rows]
  change record ∈ state.commits ∧ _ ↔ _
  rw [covers.reachable.commits_eq]

theorem commits_ordered : diff.rows.CommitsOrdered := by
  rw [covers.rows]
  exact covers.reachable.commits_ordered

theorem lastTouch (isCommit : record ∈ history) (le : record.committedSeq ≤ diff.toSeq)
    (touches : inodeId ∈ touchedInodes record.deltas) :
    ∃ last ∈ history, inodeId ∈ touchedInodes last.deltas ∧ last.committedSeq ≤ diff.toSeq ∧
      (∀ other ∈ history, other.committedSeq ≤ diff.toSeq →
        inodeId ∈ touchedInodes other.deltas → other.committedSeq ≤ last.committedSeq) ∧
      ∀ seq, diff.touchedAfter seq inodeId = decide (seq < last.committedSeq) := by
  have positive := (covers.reachable.commit_seq isCommit).1
  rcases covers.reachable.exists_lastTouch covers.toLe
      ⟨record, isCommit, positive, le, touches⟩ with
    ⟨last, isLast, lastTouches, touchedAt, newest, latest⟩
  have isNewest := newestSeq_eq_some_iff.mpr ⟨touchedAt, newest⟩
  have lastTouch := FamilyRows.lastTouchSeq_eq
    (covers.reachable.settled.consistent _ covers.toLe)
    (covers.reachable.ownersPresent _ covers.toLe) inodeId
  refine ⟨last, isLast, lastTouches, touchedAt.le, latest, ?_⟩
  intro seq
  rw [touchedAfter, covers.rows, lastTouch]
  change (newestSeq ((state.snapshotAt diff.toSeq).ownSeqs inodeId)).any _ = _
  rw [isNewest]
  rfl

end

variable {entry : DiffEntry}

section

variable (covers : diff.Over policy history state)

include covers

theorem mem_builtEntries (isCommit : record ∈ history) (le : record.committedSeq ≤ diff.toSeq) :
    entry ∈ diff.builtEntries record ↔ entry.inodeId ∈ touchedInodes record.deltas ∧
        diff.foundEntry entry.inodeId = some entry ∧
        ∀ other ∈ history, other.committedSeq ≤ diff.toSeq →
          entry.inodeId ∈ touchedInodes other.deltas →
          other.committedSeq ≤ record.committedSeq := by
  rw [builtEntries, mem_filterMap]
  constructor
  · intro ⟨inodeId, touches, found⟩
    split at found
    · cases found
    · rename_i notLater
      cases covers.compares.foundEntry_inodeId found
      rcases covers.lastTouch isCommit le touches with ⟨last, _, _, _, latest, after⟩
      rw [after, decide_eq_true_eq] at notLater
      exact ⟨touches, found, fun other isOther otherLe otherTouches =>
        (latest other isOther otherLe otherTouches).trans (not_lt.mp notLater)⟩
  · intro ⟨touches, found, latest⟩
    refine ⟨entry.inodeId, touches, ?_⟩
    rcases covers.lastTouch isCommit le touches with ⟨last, isLast, lastTouches, lastLe, _, after⟩
    have notLater := not_lt.mpr (latest last isLast lastLe lastTouches)
    rw [after, if_neg (by simpa using notLater), found]

theorem mem_entries :
    entry ∈ (diff.rows.commitsBetween diff.fromSeq diff.toSeq).flatMap diff.builtEntries ↔
      TouchedBetween history diff.fromSeq diff.toSeq entry.inodeId ∧
        diff.foundEntry entry.inodeId = some entry := by
  rw [mem_flatMap]
  constructor
  · intro ⟨record, mem, isEntry⟩
    rcases covers.mem_commits.mp mem with ⟨isCommit, above, le⟩
    rcases (covers.mem_builtEntries isCommit le).mp isEntry with ⟨touches, found, _⟩
    exact ⟨⟨record, isCommit, above, le, touches⟩, found⟩
  · intro ⟨⟨record, isCommit, above, le, touches⟩, found⟩
    rcases covers.lastTouch isCommit le touches with ⟨last, isLast, lastTouches, lastLe, latest, _⟩
    have recordLe := latest record isCommit le touches
    exact ⟨last, covers.mem_commits.mpr ⟨isLast, above.trans_le recordLe, lastLe⟩,
      (covers.mem_builtEntries isLast lastLe).mpr ⟨lastTouches, found, latest⟩⟩

theorem builtEntries_nodup (record : WalCommitPayload) :
    ((diff.builtEntries record).map DiffEntry.inodeId).Nodup := by
  have named : (diff.builtEntries record).map DiffEntry.inodeId =
      (touchedInodes record.deltas).filter fun inodeId =>
        !diff.touchedAfter record.committedSeq inodeId && (diff.foundEntry inodeId).isSome := by
    rw [builtEntries]
    induction touchedInodes record.deltas with
    | nil => rfl
    | cons inodeId rest induction =>
      cases later : diff.touchedAfter record.committedSeq inodeId with
      | true => simp [later, induction]
      | false =>
        cases found : diff.foundEntry inodeId with
        | none => simp [later, found, induction]
        | some entry => simp [later, found, induction, covers.compares.foundEntry_inodeId found]
  rw [named]
  exact (touchedInodes_nodup record.deltas).filter _

theorem entries_nodup :
    (((diff.rows.commitsBetween diff.fromSeq diff.toSeq).flatMap diff.builtEntries).map
      DiffEntry.inodeId).Nodup := by
  rw [map_flatMap, nodup_flatMap]
  refine ⟨fun record _ => covers.builtEntries_nodup record, ?_⟩
  have ordered : (diff.rows.commitsBetween diff.fromSeq diff.toSeq).Pairwise
      fun left right => left.committedSeq < right.committedSeq := by
    rw [covers.commits_ordered.commitsBetween]
    exact covers.commits_ordered.filter _
  refine ordered.imp_of_mem ?_
  intro past later earlierMem laterMem less inodeId inEarlier inLater
  rcases covers.mem_commits.mp earlierMem with ⟨isEarlier, _, earlierLe⟩
  rcases covers.mem_commits.mp laterMem with ⟨isLater, _, laterLe⟩
  rcases mem_map.mp inEarlier with ⟨first, isFirst, rfl⟩
  rcases mem_map.mp inLater with ⟨second, isSecond, same⟩
  have latest := ((covers.mem_builtEntries isEarlier earlierLe).mp isFirst).2.2
  have touches := ((covers.mem_builtEntries isLater laterLe).mp isSecond).1
  exact absurd (latest later isLater laterLe (same ▸ touches)) (not_le.mpr less)

end

/-! ### Over the root and under a path -/

section

variable (covers : diff.Over policy history state)

include covers

theorem foundEntry_root (isRoot : diff.subtree = []) (inodeId : InodeId) :
    (∃ entry, diff.foundEntry inodeId = some entry ∧ entry.inodeId = inodeId ∧
      (state.snapshotAt diff.fromSeq).Differs (state.snapshotAt diff.toSeq) inodeId entry.kind) ∨
    (diff.foundEntry inodeId = none ∧ ∀ kind,
      ¬(state.snapshotAt diff.fromSeq).Differs (state.snapshotAt diff.toSeq) inodeId kind) := by
  rcases covers.compares.foundEntry_eq inodeId with ⟨fromState, toState, fromShows, toShows, result⟩
  rw [show diff.foundEntry inodeId = _ from result diff.subtree]
  exact entryOf_root_cases covers.compares isRoot fromShows toShows

theorem exists_entry (isRoot : diff.subtree = [])
    (touched : TouchedBetween history diff.fromSeq diff.toSeq inodeId)
    (differs : (state.snapshotAt diff.fromSeq).Differs (state.snapshotAt diff.toSeq) inodeId kind) :
    ∃ entry ∈ (diff.rows.commitsBetween diff.fromSeq diff.toSeq).flatMap diff.builtEntries,
      entry.inodeId = inodeId ∧ entry.kind = kind := by
  rcases covers.foundEntry_root isRoot inodeId with ⟨entry, found, rfl, entryDiffers⟩ | ⟨_, same⟩
  · exact ⟨entry, covers.mem_entries.mpr ⟨touched, found⟩, rfl, entryDiffers.unique differs⟩
  · exact absurd differs (same kind)

theorem reported_iff (isRoot : diff.subtree = []) (inodeId : InodeId) :
    inodeId ∈ ((diff.rows.commitsBetween diff.fromSeq diff.toSeq).flatMap
        diff.builtEntries).map DiffEntry.inodeId ↔
      TouchedBetween history diff.fromSeq diff.toSeq inodeId ∧ ∃ kind,
        (state.snapshotAt diff.fromSeq).Differs (state.snapshotAt diff.toSeq) inodeId kind := by
  rw [mem_map]
  constructor
  · intro ⟨entry, mem, same⟩
    rcases covers.mem_entries.mp mem with ⟨touched, found⟩
    rw [same] at touched found
    rcases covers.foundEntry_root isRoot inodeId with ⟨other, _, _, differs⟩ | ⟨absent, _⟩
    · exact ⟨touched, _, differs⟩
    · rw [absent] at found
      cases found
  · intro ⟨touched, kind, differs⟩
    rcases covers.exists_entry isRoot touched differs with ⟨entry, mem, same, _⟩
    exact ⟨entry, mem, same⟩

theorem inode_same (isLeft : (state.snapshotAt leftSeq).inode inodeId = some left)
    (isRight : (state.snapshotAt rightSeq).inode inodeId = some right) : left = right := by
  rcases FamilyRows.mem_of_inode isLeft with ⟨leftMem, leftId, _⟩
  rcases FamilyRows.mem_of_inode isRight with ⟨rightMem, rightId, _⟩
  exact covers.reachable.settled.ordered.inodes_distinct left leftMem right rightMem
    (leftId.trans rightId.symm)

end

end Diff.Over

/-- What a path keeps of the diff over the root: the entries at or below the path, and the
moved, deleted and undeleted directories above it. -/
def DiffEntry.InScope (entry : DiffEntry) (policy : NamePolicy) (before after : Snapshot)
    (path : AbsolutePath) : Prop :=
  (∃ shown, (before.VisibleAt entry.inodeId shown ∨ after.VisibleAt entry.inodeId shown) ∧
    policy.isAtOrBelow shown (policy.nameKeys path) = true) ∨
  Diff.AppliesBelow entry.kind ∧ entry.inodeKind = .directory ∧
    ∃ shown, (before.VisibleAt entry.inodeId shown ∨ after.VisibleAt entry.inodeId shown) ∧
      policy.isAbove shown (policy.nameKeys path) = true

namespace Diff.Over

variable {diff : Diff} {policy : NamePolicy}

theorem overRoot (covers : diff.Over policy history state) :
    diff.overRoot.Over policy history state :=
  ⟨covers.reachable, covers.rows, covers.fromLe, covers.toLe⟩

theorem exists_end_iff {before after : Snapshot} (fromShows : before.Shows inodeId fromState)
    (toShows : after.Shows inodeId toState) (holds : AbsolutePath → Prop) :
    (∃ resolved ∈ [fromState, toState].filterMap DiffState.visible?, holds resolved.absolutePath) ↔
      ∃ shown, (before.VisibleAt inodeId shown ∨ after.VisibleAt inodeId shown) ∧ holds shown := by
  constructor
  · intro ⟨resolved, mem, held⟩
    rcases mem_filterMap.mp mem with ⟨shown, isEnd, isResolved⟩
    refine ⟨resolved.absolutePath, ?_, held⟩
    rcases mem_pair.mp isEnd with rfl | rfl
    · exact .inl (fromShows.visible? isResolved).1
    · exact .inr (toShows.visible? isResolved).1
  · intro ⟨shown, isVisible, held⟩
    rcases isVisible with isVisible | isVisible
    · rcases fromShows.of_visibleAt isVisible with ⟨resolved, isResolved, rfl⟩
      exact ⟨resolved, mem_filterMap.mpr ⟨fromState, by simp, isResolved⟩, held⟩
    · rcases toShows.of_visibleAt isVisible with ⟨resolved, isResolved, rfl⟩
      exact ⟨resolved, mem_filterMap.mpr ⟨toState, by simp, isResolved⟩, held⟩

variable {entry : DiffEntry}

theorem entryOf_inodeKind (covers : diff.Over policy history state)
    (fromShows : (state.snapshotAt diff.fromSeq).Shows inodeId fromState)
    (toShows : (state.snapshotAt diff.toSeq).Shows inodeId toState)
    (found : diff.entryOf inodeId touched fromState toState = some entry) :
    ∀ resolved ∈ [fromState, toState].filterMap DiffState.visible?,
      resolved.inodeKind = entry.inodeKind := by
  have kindOf : ∀ resolved ∈ [fromState, toState].filterMap DiffState.visible?, ∃ seq inode,
      (state.snapshotAt seq).inode inodeId = some inode ∧ resolved.inodeKind = inode.inodeKind := by
    intro resolved mem
    rcases mem_filterMap.mp mem with ⟨shown, isEnd, isResolved⟩
    rcases mem_pair.mp isEnd with rfl | rfl
    · exact ⟨_, (fromShows.visible? isResolved).2⟩
    · exact ⟨_, (toShows.visible? isResolved).2⟩
  simp only [entryOf] at found
  split at found
  · cases found
  · rcases Option.bind_eq_some_iff.mp found with ⟨classified, _, built⟩
    rcases Option.map_eq_some_iff.mp built with ⟨shown, isShown, rfl⟩
    have isEnd : shown ∈ [fromState, toState].filterMap DiffState.visible? := by
      cases isTo : toState.visible? with
      | some resolved =>
        rw [isTo] at isShown
        cases isShown
        exact mem_filterMap.mpr ⟨toState, by simp, isTo⟩
      | none =>
        rw [isTo] at isShown
        exact mem_filterMap.mpr ⟨fromState, by simp, isShown⟩
    intro resolved mem
    rcases kindOf resolved mem with ⟨_, inode, isInode, kind⟩
    rcases kindOf shown isEnd with ⟨_, other, isOther, otherKind⟩
    rw [kind, covers.inode_same isInode isOther]
    exact otherKind.symm

theorem foundEntry_under (covers : diff.Over policy history state)
    (isPolicy : diff.policy = policy) (isSubtree : diff.subtree = policy.nameKeys path) :
    diff.foundEntry entry.inodeId = some entry ↔
      diff.overRoot.foundEntry entry.inodeId = some entry ∧
        entry.InScope policy (state.snapshotAt diff.fromSeq) (state.snapshotAt diff.toSeq)
          path := by
  rcases covers.compares.foundEntry_eq entry.inodeId with
    ⟨fromState, toState, fromShows, toShows, result⟩
  rw [show diff.foundEntry entry.inodeId = _ from result diff.subtree,
    show diff.overRoot.foundEntry entry.inodeId = _ from result []]
  change diff.entryOf _ _ _ _ = _ ↔ diff.overRoot.entryOf _ _ _ _ = _ ∧ _
  rw [entryOf_eq_filter, Option.filter_eq_some_iff, decide_eq_true_eq]
  refine and_congr_right fun found => ?_
  have kinds := covers.overRoot.entryOf_inodeKind fromShows toShows found
  have atOrBelow : diff.showsAtOrBelow ([fromState, toState].filterMap DiffState.visible?) =
      true ↔ ∃ shown, ((state.snapshotAt diff.fromSeq).VisibleAt entry.inodeId shown ∨
        (state.snapshotAt diff.toSeq).VisibleAt entry.inodeId shown) ∧
        policy.isAtOrBelow shown (policy.nameKeys path) = true := by
    rw [showsAtOrBelow, any_eq_true, isPolicy, isSubtree]
    exact exists_end_iff fromShows toShows fun shown =>
      policy.isAtOrBelow shown (policy.nameKeys path) = true
  have above : diff.showsAbove ([fromState, toState].filterMap DiffState.visible?) = true ↔
      entry.inodeKind = .directory ∧
      ∃ shown, ((state.snapshotAt diff.fromSeq).VisibleAt entry.inodeId shown ∨
        (state.snapshotAt diff.toSeq).VisibleAt entry.inodeId shown) ∧
        policy.isAbove shown (policy.nameKeys path) = true := by
    rw [showsAbove, any_eq_true, isPolicy, isSubtree, ← exists_end_iff fromShows toShows
      fun shown => policy.isAbove shown (policy.nameKeys path) = true]
    constructor
    · rintro ⟨resolved, mem, held⟩
      rw [decide_eq_true_eq, kinds resolved mem] at held
      exact ⟨held.1, resolved, mem, held.2⟩
    · rintro ⟨isDirectory, resolved, mem, held⟩
      exact ⟨resolved, mem, by simp [kinds resolved mem, isDirectory, held]⟩
  rw [Keeps, DiffEntry.InScope, atOrBelow, above]
  exact or_congr_right and_comm

end Diff.Over

/-! ## The result -/

section

variable {policy : NamePolicy} {history : List WalCommitPayload} {state : MetadataState}
  {view : LoadedMetadataView} {fromSeq toSeq : ChangeSeq}

structure LoadedMetadataView.Loads (view : LoadedMetadataView) (policy : NamePolicy)
    (history : List WalCommitPayload) (state : MetadataState) : Prop where
  reachable : Reachable policy history state
  isLive : view.status.isDeleted = false
  isHead : view.headSeq = history.length
  rows : view.rows = state.familyRows

theorem LoadedMetadataView.Loads.diffOver (loads : view.Loads policy history state)
    (ordered : fromSeq ≤ toSeq) (toLe : toSeq ≤ view.headSeq) (path : AbsolutePath) :
    (view.diff policy path fromSeq toSeq).Over policy history state :=
  ⟨loads.reachable, loads.rows, ordered, loads.isHead ▸ toLe⟩

theorem LoadedMetadataView.Loads.readDiff (loads : view.Loads policy history state)
    (retained : view.retentionFloorSeq ≤ fromSeq) (ordered : fromSeq ≤ toSeq)
    (toLe : toSeq ≤ view.headSeq) (path : AbsolutePath) (heapBytes : Diff.HeapBytes)
    (limits : Nat → EffectiveLimit) (maxTouches : Nat → Nat) :
    LoonFs.readDiff policy heapBytes view path fromSeq toSeq limits maxTouches
        (toSeq - fromSeq + 1) 0 fromSeq = .ok ((view.rows.commitsBetween fromSeq toSeq).flatMap
        (view.diff policy path fromSeq toSeq).builtEntries) := by
  have covers := loads.diffOver ordered toLe path
  have dense : ∀ seq < toSeq, view.rows.commitsBetween seq toSeq ≠ [] := by
    intro seq less
    rcases loads.reachable.exists_commit (Nat.succ_pos seq)
        (Nat.succ_le_of_lt (less.trans_le (loads.isHead ▸ toLe))) with ⟨record, mem, isNext⟩
    refine ne_nil_of_mem (a := record) (view.rows.mem_commitsBetween.mpr ⟨?_, ?_, ?_⟩)
    · rw [loads.rows]
      change record ∈ state.commits
      rwa [loads.reachable.commits_eq]
    · exact isNext ▸ Nat.lt_succ_self seq
    · exact isNext ▸ Nat.succ_le_of_lt less
  have reads : DiffReads view policy path fromSeq toSeq
      (view.diff policy path fromSeq toSeq).builtEntries :=
    ⟨loads.isLive, retained, toLe, covers.commits_ordered, dense,
      fun record _ => covers.compares.commitEntries record⟩
  exact reads.readDiff heapBytes limits maxTouches _ 0 fromSeq le_rfl ordered
    (Nat.lt_succ_self _)

/-- The pages over the root hold exactly the inodes that the range touches and whose states
differ, each once. Any other inode that differs is below one that they report, and the pages
under a path are the entries in its scope. -/
theorem diff_complete_and_minimal (loads : view.Loads policy history state)
    (retained : view.retentionFloorSeq ≤ fromSeq) (ordered : fromSeq ≤ toSeq)
    (toLe : toSeq ≤ view.headSeq) :
    ∃ entries : List DiffEntry,
      (∀ heapBytes limits maxTouches,
        readDiff policy heapBytes view [] fromSeq toSeq limits maxTouches
          (toSeq - fromSeq + 1) 0 fromSeq = .ok entries) ∧
      (entries.map DiffEntry.inodeId).Nodup ∧
      (∀ inodeId, inodeId ∈ entries.map DiffEntry.inodeId ↔
        TouchedBetween history fromSeq toSeq inodeId ∧
        (state.snapshotAt fromSeq).status inodeId ≠ (state.snapshotAt toSeq).status inodeId ∧
        ((state.snapshotAt fromSeq).Visible inodeId ∨
          (state.snapshotAt toSeq).Visible inodeId)) ∧
      (∀ inodeId path, ¬((state.snapshotAt fromSeq).VisibleAt inodeId path ↔
          (state.snapshotAt toSeq).VisibleAt inodeId path) →
        inodeId ∈ entries.map DiffEntry.inodeId ∨
        ∃ entry ∈ entries,
          (AtOrBelow (state.snapshotAt fromSeq).parent inodeId entry.inodeId ∨
            AtOrBelow (state.snapshotAt toSeq).parent inodeId entry.inodeId) ∧
          (entry.kind = .moved ∨ entry.kind = .deleted ∨ entry.kind = .undeleted)) ∧
      ∀ path, ∃ under : List DiffEntry,
        (∀ heapBytes limits maxTouches,
          readDiff policy heapBytes view path fromSeq toSeq limits maxTouches
            (toSeq - fromSeq + 1) 0 fromSeq = .ok under) ∧
        (under.map DiffEntry.inodeId).Nodup ∧
        ∀ entry, entry ∈ under ↔ entry ∈ entries ∧
          entry.InScope policy (state.snapshotAt fromSeq) (state.snapshotAt toSeq) path := by
  have overRoot := loads.diffOver ordered toLe []
  have isRoot : (view.diff policy [] fromSeq toSeq).subtree = [] := rfl
  refine ⟨_, loads.readDiff retained ordered toLe [], overRoot.entries_nodup, ?_, ?_, ?_⟩
  · intro inodeId
    rw [← Snapshot.exists_differs_iff]
    exact overRoot.reported_iff isRoot inodeId
  · intro inodeId path differ
    have atHead := loads.isHead ▸ toLe
    rcases Snapshot.exists_differs_above overRoot.compares.fromConsistent
        overRoot.compares.toConsistent differ with ⟨top, kind, differs, changed, above⟩
    -- An inode whose own rows differ was touched in between.
    have touched : TouchedBetween history fromSeq toSeq top := by
      by_contra untouched
      exact changed (loads.reachable.sameOwn_of_untouched ordered atHead untouched)
    rcases overRoot.exists_entry isRoot touched differs with ⟨entry, member, isTop, isKind⟩
    rcases above with itself | ⟨below, applies⟩
    · exact .inl (mem_map.mpr ⟨entry, member, isTop.trans itself⟩)
    · exact .inr ⟨entry, member, isTop ▸ below, isKind ▸ applies⟩
  · intro path
    have covers := loads.diffOver ordered toLe path
    refine ⟨_, loads.readDiff retained ordered toLe path, covers.entries_nodup, fun entry => ?_⟩
    exact covers.mem_entries.trans ((and_congr_right fun _ => covers.foundEntry_under rfl rfl).trans
      (and_assoc.symm.trans (and_congr_left fun _ => overRoot.mem_entries.symm)))

def sampleView : LoadedMetadataView where
  namespaceId := "ns"
  status := .active
  headSeq := 4
  retentionFloorSeq := 0
  rows := sampleRun.state.familyRows

/-- The file moved and the directory was recovered in place, so only the file is reported. -/
theorem diff_complete_and_minimal_sample :
    ∃ entries : List DiffEntry,
      (∀ heapBytes limits maxTouches,
        readDiff .plain heapBytes sampleView [] 1 4 limits maxTouches 4 0 1 = .ok entries) ∧
      entries.map (fun entry => (entry.inodeId, entry.kind)) = [(2, .moved)] := by
  have loads : sampleView.Loads .plain sampleRun.history sampleRun.state :=
    ⟨sampleRun_reachable, rfl, by decide +kernel, rfl⟩
  have retained : sampleView.retentionFloorSeq ≤ 1 := by decide
  have toLe : 4 ≤ sampleView.headSeq := by decide
  rcases diff_complete_and_minimal loads retained (by decide) toLe with ⟨entries, pages, _⟩
  refine ⟨entries, pages, ?_⟩
  have ran : (readDiff .plain ⟨fun _ => 0, fun _ => 0⟩ sampleView [] 1 4
      (fun _ => ⟨2, by decide⟩) (fun _ => 1) 4 0 1).toOption.map
        (List.map fun entry => (entry.inodeId, entry.kind)) = some [(2, .moved)] := by
    decide +kernel
  rw [pages] at ran
  exact Option.some.inj ran

end

end LoonFs
