import LoonFs.Changes.Feed

/-! # Incremental indexing -/

namespace LoonFs

open Foundation
open List hiding after not_lt set tail

/-! ## Watermarks -/

structure ChangeFeedResume where
  builtThroughSeq : ChangeSeq
  nextEventIndex : Nat
deriving DecidableEq

namespace ChangeFeedResume

variable (resume : ChangeFeedResume)

def afterSeq : ChangeSeq :=
  if resume.nextEventIndex = 0 then resume.builtThroughSeq else resume.builtThroughSeq - 1

def startEventIndex (changeSeq : ChangeSeq) : Nat :=
  if changeSeq = resume.builtThroughSeq then resume.nextEventIndex else 0

end ChangeFeedResume

inductive GrepIndexStatus where
  | backfilling (capturedSeq : ChangeSeq) (cursorInodeId : Option InodeId) (pinId : String)
  | active (capturedSeq : ChangeSeq) (watermark : ChangeFeedResume)
  | disabled
deriving DecidableEq

/-- The rule that a published entry's status has to keep. -/
def GrepIndexStatus.isFollowedBy : GrepIndexStatus → GrepIndexStatus → Bool
  | .active beforeBuild before, .active afterBuild after =>
    afterBuild = beforeBuild ∧ after.builtThroughSeq ≥ before.builtThroughSeq ∧
      ¬(after.builtThroughSeq = before.builtThroughSeq ∧ before.nextEventIndex = 0 ∧
        after.nextEventIndex ≠ 0) ∧
      ¬(after.builtThroughSeq = before.builtThroughSeq ∧ after.nextEventIndex ≠ 0 ∧
        after.nextEventIndex < before.nextEventIndex)
  | .backfilling capturedSeq cursor pinId, .backfilling nextTarget nextCursor nextPinId =>
    nextTarget ≥ capturedSeq ∧
      (nextPinId ≠ pinId ∨ nextTarget = capturedSeq ∧
        -- An absent cursor is below every inode.
        cursor.all fun inodeId => nextCursor.any fun next => inodeId ≤ next)
  | .backfilling capturedSeq _ _, .active build after =>
    build = capturedSeq ∧ after.builtThroughSeq ≥ capturedSeq
  | .active _ before, .backfilling capturedSeq _ _ => capturedSeq ≥ before.builtThroughSeq
  | _, _ => true

/-! ## Planning a step -/

structure GramIndexBuildPolicy where
  maxFilesPerStep : Nat
  maxContentBytesPerStep : Nat
  someFiles : 0 < maxFilesPerStep
  someBytes : 0 < maxContentBytesPerStep

inductive GrepBuildError where
  | namespaceCorrupt (message : String)
  | indexCorrupt (message : String)
deriving DecidableEq

structure PendingRevisionContent where
  inodeId : InodeId
  revisionNo : RevisionNo
  committedSeq : ChangeSeq
  contentRef : ContentRef
deriving DecidableEq

inductive IncrementalWork where
  | unit (pending : List PendingRevisionContent) (progress : ChangeFeedResume)
  | upToDate (resume : ChangeFeedResume)

def publishedRevision : FilesystemEvent → Option (InodeId × RevisionNo × ContentRef)
  | .fileCreated inodeId _ _ _ revisionNo contentRef => some (inodeId, revisionNo, contentRef)
  | .contentChanged inodeId revisionNo contentRef _ => some (inodeId, revisionNo, contentRef)
  | _ => none

def maxIndexGramsFileBytes : Nat := 8 * 1024 * 1024

def ChangeFeedResume.stopAt (cursor : ChangeFeedResume) (changeSeq : ChangeSeq)
    (eventIndex eventCount : Nat) (afterEvent : Bool) : Except GrepBuildError ChangeFeedResume :=
  if afterEvent = false ∧ eventIndex = 0 then .ok cursor
  else
    let nextIndex := eventIndex + afterEvent.toNat
    if nextIndex < eventCount then
      if nextIndex ≤ u32Max then .ok ⟨changeSeq, nextIndex⟩
      else .error (.namespaceCorrupt ("commit " ++ toString changeSeq ++ " records " ++
        toString eventCount ++ " events, more than a grep cursor can address"))
    else .ok ⟨changeSeq, 0⟩

/-- A step under way. -/
structure IncrementalPlan where
  cursor : ChangeFeedResume
  pending : List PendingRevisionContent := []
  plannedContentBytes : Nat := 0
  examinedFiles : Nat := 0

section

variable (policy : GramIndexBuildPolicy) (change : CommittedChange)

def pendingRevision (event : FilesystemEvent) : Option PendingRevisionContent :=
  (publishedRevision event).map fun (inodeId, revisionNo, contentRef) =>
    { inodeId, revisionNo, committedSeq := change.committedSeq, contentRef }

namespace IncrementalPlan

def Full (plan : IncrementalPlan) (contentBytes : Nat) : Prop :=
  plan.examinedFiles ≥ policy.maxFilesPerStep ∨
    plan.plannedContentBytes > 0 ∧
      min (plan.plannedContentBytes + contentBytes) u64Max > policy.maxContentBytesPerStep

instance (plan : IncrementalPlan) (contentBytes : Nat) :
    Decidable (plan.Full policy contentBytes) :=
  inferInstanceAs (Decidable (_ ∨ _))

def takeEvents : Nat → List FilesystemEvent → IncrementalPlan →
    Except GrepBuildError (Bool × IncrementalPlan)
  | _, [], plan => .ok (false, plan)
  | eventIndex, event :: events, plan =>
    match pendingRevision change event with
    | none => takeEvents (eventIndex + 1) events plan
    | some revision =>
      let sizeBytes := revision.contentRef.sizeBytes
      let contentBytes := if sizeBytes ≤ maxIndexGramsFileBytes then sizeBytes else 0
      if plan.Full policy contentBytes then do
        let cursor ← plan.cursor.stopAt change.committedSeq eventIndex change.events.length false
        return (true, { plan with cursor })
      else
        let plan := { plan with
          examinedFiles := plan.examinedFiles + 1
          plannedContentBytes := plan.plannedContentBytes + contentBytes
          pending := plan.pending ++ [revision] }
        if plan.examinedFiles ≥ policy.maxFilesPerStep ∨
            plan.plannedContentBytes ≥ policy.maxContentBytesPerStep then do
          let cursor ← plan.cursor.stopAt change.committedSeq eventIndex change.events.length true
          return (true, { plan with cursor })
        else takeEvents (eventIndex + 1) events plan

def takeChanges (resume : ChangeFeedResume) :
    List CommittedChange → IncrementalPlan → Except GrepBuildError IncrementalPlan
  | [], plan => .ok plan
  | change :: changes, plan =>
    let startEventIndex := resume.startEventIndex change.committedSeq
    if startEventIndex > change.events.length then
      .error (.indexCorrupt ("grep event cursor `" ++ toString resume.nextEventIndex ++
        "` exceeds commit `" ++ toString change.committedSeq ++ "` length `" ++
        toString change.events.length ++ "`"))
    else do
      let (stopped, plan) ← takeEvents policy change startEventIndex
        (change.events.drop startEventIndex) plan
      if stopped then return plan
      -- The whole commit is planned.
      takeChanges resume changes { plan with cursor := ⟨change.committedSeq, 0⟩ }

end IncrementalPlan

def planIncrementalUnit (page : List CommittedChange) (resume : ChangeFeedResume) :
    Except GrepBuildError IncrementalWork :=
  if page = [] then .ok (.upToDate resume)
  else do
    let plan ← IncrementalPlan.takeChanges policy resume page { cursor := resume }
    if plan.cursor = resume then return .upToDate resume
    return .unit plan.pending plan.cursor

end

/-! ## What a watermark leaves unread -/

/-- A feed's commits in order, with 32-bit delta numbers. -/
structure IndexedFeed where
  changes : List CommittedChange
  ascending : changes.Pairwise fun left right => left.committedSeq < right.committedSeq
  positive : ∀ change ∈ changes, 0 < change.committedSeq
  addressable : ∀ change ∈ changes, change.events.length ≤ u32Max + 1

def revisionsFrom (change : CommittedChange) (eventIndex : Nat) : List PendingRevisionContent :=
  (change.events.drop eventIndex).filterMap (pendingRevision change)

namespace IndexedFeed

variable (feed : IndexedFeed) (resume : ChangeFeedResume)

def after : List CommittedChange :=
  feed.changes.filter fun change => resume.afterSeq < change.committedSeq

def unread : List (CommittedChange × Nat) :=
  (feed.after resume).map fun change => (change, resume.startEventIndex change.committedSeq)

def backlog : Nat :=
  ((feed.unread resume).map fun (change, eventIndex) => change.events.length - eventIndex + 1).sum

def revisionsAfter : List PendingRevisionContent :=
  feed.changes.flatMap fun change =>
    if resume.builtThroughSeq < change.committedSeq then revisionsFrom change 0
    else if change.committedSeq = resume.builtThroughSeq ∧ resume.nextEventIndex ≠ 0 then
      revisionsFrom change resume.nextEventIndex
    else []

def Consistent : Prop :=
  resume.nextEventIndex = 0 ∨ ∃ change ∈ feed.changes,
    change.committedSeq = resume.builtThroughSeq ∧ resume.nextEventIndex ≤ change.events.length

end IndexedFeed

/-! ## Positions -/

/-- The watermark of a step that stops before an event of a commit, or at its end. -/
def CommittedChange.boundary (change : CommittedChange) (eventIndex : Nat) : ChangeFeedResume :=
  ⟨change.committedSeq, if eventIndex < change.events.length then eventIndex else 0⟩

section

variable {feed : IndexedFeed}

theorem IndexedFeed.eq_of_seq (feed : IndexedFeed) (isLeft : left ∈ feed.changes)
    (isRight : right ∈ feed.changes) (same : left.committedSeq = right.committedSeq) :
    left = right := by
  have distinct : (feed.changes.map CommittedChange.committedSeq).Nodup :=
    (pairwise_map.mpr feed.ascending).imp ne_of_lt
  exact inj_on_of_nodup_map distinct isLeft isRight same

theorem IndexedFeed.filter_after (isAfter : feed.after cursor = change :: tail)
    (atLeast : cursor.afterSeq ≤ seq) :
    feed.changes.filter (fun other => seq < other.committedSeq) =
      (change :: tail).filter fun other => seq < other.committedSeq := by
  rw [← isAfter, after, filter_filter]
  apply filter_congr
  intro other _
  by_cases above : seq < other.committedSeq
  · simp [above, atLeast.trans_lt above]
  · simp [above]

theorem IndexedFeed.unread_boundary (isAfter : feed.after cursor = change :: tail)
    (moved : eventIndex ≠ 0 ∨ change.events.length ≤ eventIndex) :
    feed.unread (change.boundary eventIndex) =
      (if eventIndex < change.events.length then [(change, eventIndex)] else []) ++
        tail.map fun other => (other, 0) := by
  have above : cursor.afterSeq < change.committedSeq := by
    have mem : change ∈ feed.after cursor := by simp [isAfter]
    simpa using (mem_filter.mp mem).2
  have ordered : (change :: tail).Pairwise fun left right =>
      left.committedSeq < right.committedSeq := isAfter ▸ feed.ascending.filter _
  rw [pairwise_cons] at ordered
  have starts : tail.map (fun other =>
      (other, (change.boundary eventIndex).startEventIndex other.committedSeq)) =
      tail.map fun other => (other, 0) := by
    apply map_congr_left
    intro other mem
    exact congrArg (other, ·) (if_neg (ordered.1 other mem).ne')
  by_cases inside : eventIndex < change.events.length
  · have nonzero : eventIndex ≠ 0 := moved.resolve_right (not_le.mpr inside)
    have isAll : feed.after (change.boundary eventIndex) = change :: tail := by
      rw [after, ChangeFeedResume.afterSeq, CommittedChange.boundary]
      simp only [inside, if_true, nonzero, if_false]
      rw [filter_after isAfter (Nat.le_sub_one_of_lt above), filter_eq_self]
      intro other mem
      rcases mem_cons.mp mem with rfl | later
      · exact decide_eq_true (Nat.sub_one_lt (Nat.ne_zero_of_lt above))
      · exact decide_eq_true ((Nat.sub_le _ _).trans_lt (ordered.1 other later))
    rw [unread, isAll, map_cons, starts, if_pos inside]
    simp [ChangeFeedResume.startEventIndex, CommittedChange.boundary, inside]
  · have isTail : feed.after (change.boundary eventIndex) = tail := by
      rw [after, ChangeFeedResume.afterSeq, CommittedChange.boundary]
      simp only [inside, if_false, if_true]
      rw [filter_after isAfter above.le, filter_cons_of_neg (by simp), filter_eq_self]
      simpa using ordered.1
    rw [unread, isTail, starts, if_neg inside, nil_append]

theorem IndexedFeed.backlog_boundary (isAfter : feed.after cursor = change :: tail)
    (moved : eventIndex ≠ 0 ∨ change.events.length ≤ eventIndex) :
    feed.backlog (change.boundary eventIndex) =
      (if eventIndex < change.events.length then change.events.length - eventIndex + 1 else 0) +
        (tail.map fun other => other.events.length + 1).sum := by
  rw [backlog, unread_boundary isAfter moved]
  split <;> simp [Function.comp_def]

theorem ChangeFeedResume.afterSeq_lt_iff (resume : ChangeFeedResume) (positive : 0 < seq) :
    resume.afterSeq < seq ↔
      resume.builtThroughSeq < seq ∨ seq = resume.builtThroughSeq ∧ resume.nextEventIndex ≠ 0 := by
  rw [afterSeq]
  split
  next boundary => simp [boundary]
  next inside =>
    have least : resume.builtThroughSeq - 1 < seq ↔ resume.builtThroughSeq ≤ seq :=
      ⟨Nat.le_of_pred_lt, fun le =>
        (Nat.sub_le_sub_right le 1).trans_lt (Nat.sub_one_lt positive.ne')⟩
    rw [least, le_iff_lt_or_eq]
    simp [inside, eq_comm]

theorem ChangeFeedResume.startEventIndex_eq_zero (resume : ChangeFeedResume)
    (above : resume.afterSeq < seq) (less : seq < new) : resume.startEventIndex new = 0 := by
  rw [startEventIndex]
  split
  next isBuilt =>
    rw [afterSeq] at above
    split at above
    next boundary => exact boundary
    next => exact absurd (isBuilt ▸ less) (not_lt.mpr (Nat.le_of_pred_lt above))
  next => rfl

theorem IndexedFeed.revisionsAfter_eq (feed : IndexedFeed) (resume : ChangeFeedResume) :
    feed.revisionsAfter resume =
      (feed.unread resume).flatMap fun (change, eventIndex) => revisionsFrom change eventIndex := by
  have positive := feed.positive
  rw [revisionsAfter, unread, after, flatMap_map]
  generalize feed.changes = changes at positive
  induction changes with
  | nil => rfl
  | cons change changes induction =>
    rw [forall_mem_cons] at positive
    rw [flatMap_cons, induction positive.2, filter_cons]
    simp only [decide_eq_true_eq, resume.afterSeq_lt_iff positive.1]
    by_cases whole : resume.builtThroughSeq < change.committedSeq
    · simp [whole, ChangeFeedResume.startEventIndex, whole.ne']
    · by_cases part : change.committedSeq = resume.builtThroughSeq ∧ resume.nextEventIndex ≠ 0
      · simp [part, ChangeFeedResume.startEventIndex]
      · simp [whole, part]

theorem IndexedFeed.revisionsAfter_boundary (isAfter : feed.after cursor = change :: tail)
    (moved : eventIndex ≠ 0 ∨ change.events.length ≤ eventIndex) :
    feed.revisionsAfter (change.boundary eventIndex) =
      revisionsFrom change eventIndex ++ tail.flatMap fun other => revisionsFrom other 0 := by
  rw [revisionsAfter_eq, unread_boundary isAfter moved]
  by_cases inside : eventIndex < change.events.length
  · simp [inside, flatMap_map]
  · simp [inside, flatMap_map, revisionsFrom, drop_of_length_le (not_lt.mp inside)]

end

/-! ## One commit -/

variable {change : CommittedChange}

theorem ChangeFeedResume.stopAt_eq (cursor : ChangeFeedResume)
    (addressable : change.events.length ≤ u32Max + 1) (afterEvent : Bool) :
    cursor.stopAt change.committedSeq eventIndex change.events.length afterEvent =
      .ok (if eventIndex + afterEvent.toNat = 0 then cursor
        else change.boundary (eventIndex + afterEvent.toNat)) := by
  rw [stopAt, CommittedChange.boundary]
  by_cases start : afterEvent = false ∧ eventIndex = 0
  · simp [start]
  · have moved : eventIndex + afterEvent.toNat ≠ 0 := by cases afterEvent <;> simp_all
    rw [if_neg start, if_neg moved]
    by_cases inside : eventIndex + afterEvent.toNat < change.events.length
    · simp only [inside, if_true]
      rw [if_pos (by omega)]
    · simp only [inside, if_false]

structure IncrementalPlan.Takes (change : CommittedChange) (eventIndex : Nat)
    (before : IncrementalPlan) (stopped : Bool) (after : IncrementalPlan) (stop : Nat) :
    Prop where
  atLeast : eventIndex ≤ stop
  planned : after.pending ++ revisionsFrom change stop =
    before.pending ++ revisionsFrom change eventIndex
  cursor : after.cursor =
    if stopped ∧ stop ≠ 0 then change.boundary stop else before.cursor
  finished : stopped = false → change.events.length ≤ stop
  /-- The first revision of a step always fits. -/
  advances : stopped = true → before.examinedFiles = 0 → before.plannedContentBytes = 0 →
    eventIndex < stop

namespace IncrementalPlan

theorem takeEvents_takes (policy : GramIndexBuildPolicy)
    (addressable : change.events.length ≤ u32Max + 1) :
    ∀ (eventIndex : Nat) (plan : IncrementalPlan), change.events.drop eventIndex = events →
      ∃ stopped after stop, takeEvents policy change eventIndex events plan =
        .ok (stopped, after) ∧ Takes change eventIndex plan stopped after stop := by
  induction events with
  | nil =>
    intro eventIndex plan isRest
    refine ⟨false, plan, eventIndex, rfl, le_rfl, rfl, by simp, fun _ => ?_, nofun⟩
    exact drop_eq_nil_iff.mp isRest
  | cons event events induction =>
    intro eventIndex plan isRest
    have isNext : change.events.drop (eventIndex + 1) = events := by
      rw [← drop_drop, isRest]
      rfl
    have revisions : revisionsFrom change eventIndex =
        (pendingRevision change event).toList ++ revisionsFrom change (eventIndex + 1) := by
      rw [revisionsFrom, revisionsFrom, isRest, isNext, filterMap_cons]
      cases pendingRevision change event <;> rfl
    rw [takeEvents]
    cases isRevision : pendingRevision change event with
    | none =>
      rw [isRevision] at revisions
      rcases induction _ _ isNext with ⟨stopped, after, stop, taken, takes⟩
      exact ⟨stopped, after, stop, taken, Nat.le_of_succ_le takes.atLeast,
        takes.planned.trans (by rw [revisions]; rfl), takes.cursor, takes.finished,
        fun isStopped fresh empty => Nat.lt_of_succ_lt (takes.advances isStopped fresh empty)⟩
    | some revision =>
      rw [isRevision] at revisions
      dsimp only
      generalize (if revision.contentRef.sizeBytes ≤ maxIndexGramsFileBytes then
        revision.contentRef.sizeBytes else 0) = contentBytes
      split
      next full =>
        rw [plan.cursor.stopAt_eq addressable]
        refine ⟨true, _, eventIndex, rfl, le_rfl, rfl, ?_, nofun, fun _ fresh empty => ?_⟩
        · by_cases start : eventIndex = 0 <;> simp [start]
        rcases full with many | ⟨some, _⟩
        · exact absurd (fresh ▸ many) (not_le.mpr policy.someFiles)
        · exact absurd empty some.ne'
      next =>
        split
        next =>
          rw [ChangeFeedResume.stopAt_eq _ addressable]
          refine ⟨true, _, eventIndex + 1, rfl, Nat.le_succ _, ?_, by simp, nofun,
            fun _ _ _ => Nat.lt_succ_self _⟩
          simp [revisions]
        next =>
          rcases induction _ _ isNext with ⟨stopped, after, stop, taken, takes⟩
          refine ⟨stopped, after, stop, taken, Nat.le_of_succ_le takes.atLeast, ?_, takes.cursor,
            takes.finished, fun _ _ _ => takes.atLeast⟩
          rw [takes.planned]
          simp [revisions]

structure Plans (feed : IndexedFeed) (resume : ChangeFeedResume) (page : List CommittedChange)
    (before after : IncrementalPlan) : Prop where
  planned : after.pending ++ feed.revisionsAfter after.cursor =
    before.pending ++ feed.revisionsAfter before.cursor
  backlog_le : feed.backlog after.cursor ≤ feed.backlog before.cursor
  advances : page ≠ [] → before.examinedFiles = 0 → before.plannedContentBytes = 0 →
    feed.backlog after.cursor < feed.backlog before.cursor
  cursor : after.cursor = before.cursor ∨ ∃ change ∈ page, ∃ eventIndex,
    resume.startEventIndex change.committedSeq ≤ eventIndex ∧
    after.cursor = change.boundary eventIndex

theorem takeChanges_plans (policy : GramIndexBuildPolicy) {feed : IndexedFeed}
    {resume : ChangeFeedResume} :
    ∀ plan : IncrementalPlan, feed.unread plan.cursor = (changes ++ later).map (fun change =>
        (change, resume.startEventIndex change.committedSeq)) →
      (∀ change ∈ changes ++ later, resume.afterSeq < change.committedSeq) →
      (∀ change ∈ changes, resume.startEventIndex change.committedSeq ≤ change.events.length) →
      ∃ after, takeChanges policy resume changes plan = .ok after ∧
        Plans feed resume changes plan after := by
  induction changes with
  | nil =>
    intro plan _ _ _
    exact ⟨plan, rfl, rfl, le_rfl, fun none => absurd rfl none, .inl rfl⟩
  | cons change changes induction =>
    intro plan isUnread above startsInside
    have isAfter : feed.after plan.cursor = change :: (changes ++ later) := by
      have firsts := congrArg (List.map Prod.fst) isUnread
      simpa [IndexedFeed.unread, Function.comp_def] using firsts
    have mem : change ∈ feed.changes := by
      have shown : change ∈ feed.after plan.cursor := by simp [isAfter]
      exact (mem_filter.mp shown).1
    rw [forall_mem_cons] at startsInside
    have starts : (changes ++ later).map (fun other =>
        (other, resume.startEventIndex other.committedSeq)) =
        (changes ++ later).map fun other => (other, 0) := by
      have ordered : (change :: (changes ++ later)).Pairwise fun left right =>
          left.committedSeq < right.committedSeq := isAfter ▸ feed.ascending.filter _
      apply map_congr_left
      intro other isLater
      have less := (pairwise_cons.mp ordered).1 other isLater
      exact congrArg (other, ·) (resume.startEventIndex_eq_zero (above change mem_cons_self) less)
    set start := resume.startEventIndex change.committedSeq with isStart
    rw [cons_append, map_cons, starts] at isUnread
    have revisions : feed.revisionsAfter plan.cursor = revisionsFrom change start ++
        (changes ++ later).flatMap fun other => revisionsFrom other 0 := by
      rw [IndexedFeed.revisionsAfter_eq, isUnread, flatMap_cons, flatMap_map]
    have backlog : feed.backlog plan.cursor = change.events.length - start + 1 +
        ((changes ++ later).map fun other => other.events.length + 1).sum := by
      rw [IndexedFeed.backlog, isUnread, map_cons, sum_cons, map_map]
      rfl
    rcases takeEvents_takes policy (feed.addressable change mem) start plan rfl with
      ⟨stopped, after, stop, taken, atLeast, planned, cursor, finished, advances⟩
    have taking : takeChanges policy resume (change :: changes) plan = if stopped then .ok after
        else takeChanges policy resume changes
          { after with cursor := ⟨change.committedSeq, 0⟩ } := by
      rw [takeChanges, if_neg (not_lt.mpr startsInside.1), ← isStart, taken]
      cases stopped <;> rfl
    rw [taking]
    cases stopped with
    | true =>
      refine ⟨after, rfl, ?_⟩
      by_cases atStart : stop = 0
      · have same : start = stop := by omega
        rw [if_neg (by simp [atStart])] at cursor
        refine ⟨?_, cursor ▸ le_rfl, fun _ fresh empty => ?_, .inl cursor⟩
        · rw [cursor, revisions, ← append_assoc, ← append_assoc, ← planned, same]
        · exact absurd (advances rfl fresh empty) (by omega)
      · rw [if_pos ⟨rfl, atStart⟩] at cursor
        refine ⟨?_, ?_, fun _ fresh empty => ?_,
          .inr ⟨change, mem_cons_self, stop, atLeast, cursor⟩⟩
        · rw [cursor, revisions, IndexedFeed.revisionsAfter_boundary isAfter (.inl atStart),
            ← append_assoc, planned, append_assoc]
        · rw [cursor, backlog, IndexedFeed.backlog_boundary isAfter (.inl atStart)]
          split <;> omega
        · have forward := advances rfl fresh empty
          rw [cursor, backlog, IndexedFeed.backlog_boundary isAfter (.inl atStart)]
          split <;> omega
    | false =>
      have atEnd := finished rfl
      have isBoundary : (⟨change.committedSeq, 0⟩ : ChangeFeedResume) = change.boundary stop := by
        rw [CommittedChange.boundary, if_neg (not_lt.mpr atEnd)]
      have nextUnread := IndexedFeed.unread_boundary isAfter (.inr atEnd)
      rw [if_neg (not_lt.mpr atEnd), nil_append, ← starts, ← isBoundary] at nextUnread
      have nextBacklog := IndexedFeed.backlog_boundary isAfter (.inr atEnd)
      rw [if_neg (not_lt.mpr atEnd), Nat.zero_add, ← isBoundary] at nextBacklog
      rcases induction { after with cursor := ⟨change.committedSeq, 0⟩ } nextUnread
        (fun other isOther => above other (mem_cons_of_mem _ isOther)) startsInside.2 with
        ⟨final, took, rest⟩
      have less : feed.backlog final.cursor < feed.backlog plan.cursor := by
        apply rest.backlog_le.trans_lt
        rw [nextBacklog, backlog]
        omega
      refine ⟨final, took, ?_, less.le, fun _ _ _ => less, ?_⟩
      · rw [rest.planned, isBoundary, IndexedFeed.revisionsAfter_boundary isAfter (.inr atEnd),
          ← append_assoc, planned, revisions, append_assoc]
      · rcases rest.cursor with same | ⟨other, isOther, moved⟩
        · exact .inr ⟨change, mem_cons_self, stop, atLeast, same.trans isBoundary⟩
        · exact .inr ⟨other, mem_cons_of_mem _ isOther, moved⟩

end IncrementalPlan

/-! ## Steps and runs -/

section

variable {feed : IndexedFeed} {resume : ChangeFeedResume} {page : List CommittedChange}

theorem isFollowedBy_boundary (positive : 0 < change.committedSeq)
    (above : resume.afterSeq < change.committedSeq)
    (atLeast : resume.startEventIndex change.committedSeq ≤ eventIndex) (capturedSeq : ChangeSeq) :
    (GrepIndexStatus.active capturedSeq resume).isFollowedBy
      (.active capturedSeq (change.boundary eventIndex)) = true := by
  simp only [GrepIndexStatus.isFollowedBy, CommittedChange.boundary, decide_eq_true_eq]
  rcases (resume.afterSeq_lt_iff positive).mp above with later | ⟨same, inside⟩
  · exact ⟨trivial, later.le, fun eq => later.ne' eq.1, fun eq => later.ne' eq.1⟩
  · refine ⟨trivial, same.ge, fun boundary => inside boundary.2.1, ?_⟩
    rintro ⟨_, notEnd, less⟩
    rw [ChangeFeedResume.startEventIndex, if_pos same] at atLeast
    have within : eventIndex < change.events.length := by
      by_contra past
      exact notEnd (if_neg past)
    rw [if_pos within] at less
    omega

theorem planIncrementalUnit_progress (consistent : feed.Consistent resume)
    (policy : GramIndexBuildPolicy) (isPage : page <+: feed.after resume) (some : page ≠ []) :
    ∃ pending new, planIncrementalUnit policy page resume = .ok (.unit pending new) ∧
      pending ++ feed.revisionsAfter new = feed.revisionsAfter resume ∧
      feed.backlog new < feed.backlog resume ∧ feed.Consistent new ∧
      (∀ capturedSeq, (GrepIndexStatus.active capturedSeq resume).isFollowedBy
        (.active capturedSeq new) = true) ∧
      ∃ change ∈ page, new.builtThroughSeq = change.committedSeq := by
  rcases isPage with ⟨later, isAfter⟩
  have shown : ∀ change ∈ page ++ later, change ∈ feed.changes ∧
      resume.afterSeq < change.committedSeq := by
    intro change mem
    rw [isAfter] at mem
    simpa using mem_filter.mp mem
  have inPage : ∀ change ∈ page, change ∈ page ++ later :=
    fun change mem => mem_append_left _ mem
  have startsInside : ∀ change ∈ page,
      resume.startEventIndex change.committedSeq ≤ change.events.length := by
    intro change mem
    rw [ChangeFeedResume.startEventIndex]
    split
    next isBuilt =>
      rcases consistent with boundary | ⟨other, isOther, sameSeq, inside⟩
      · rw [boundary]
        exact Nat.zero_le _
      · rwa [feed.eq_of_seq (shown change (inPage change mem)).1 isOther
          (isBuilt.trans sameSeq.symm)]
    next => exact Nat.zero_le _
  rcases IncrementalPlan.takeChanges_plans policy { cursor := resume }
    (by rw [IndexedFeed.unread, ← isAfter]) (fun change mem => (shown change mem).2)
    startsInside with ⟨plan, taken, plans⟩
  have less := plans.advances some rfl rfl
  have moved : plan.cursor ≠ resume := fun same => absurd (same ▸ less) (lt_irrefl _)
  rcases plans.cursor.resolve_left moved with ⟨change, mem, eventIndex, atLeast, isCursor⟩
  rcases shown change (inPage change mem) with ⟨inFeed, above⟩
  refine ⟨plan.pending, plan.cursor, ?_, plans.planned, less, ?_, ?_, change, mem, ?_⟩
  · rw [planIncrementalUnit, if_neg some, taken]
    simp [bind, Except.bind, moved, pure, Except.pure]
  · rw [isCursor, IndexedFeed.Consistent, CommittedChange.boundary]
    by_cases inside : eventIndex < change.events.length
    · exact .inr ⟨change, inFeed, rfl, by simpa [inside] using inside.le⟩
    · exact .inl (if_neg inside)
  · rw [isCursor]
    exact isFollowedBy_boundary (feed.positive change inFeed) above atLeast
  · rw [isCursor]
    rfl

/-- Steps one after the other, each from the watermark that the one before it left. -/
inductive IndexingRun (feed : IndexedFeed) :
    ChangeFeedResume → List PendingRevisionContent → ChangeFeedResume → Prop
  | stay (resume : ChangeFeedResume) : IndexingRun feed resume [] resume
  | step {resume next last : ChangeFeedResume} {page : List CommittedChange}
      {pending more : List PendingRevisionContent} (policy : GramIndexBuildPolicy)
      (isPage : page <+: feed.after resume)
      (planned : planIncrementalUnit policy page resume = .ok (.unit pending next))
      (rest : IndexingRun feed next more last) : IndexingRun feed resume (pending ++ more) last

theorem IndexingRun.exact (run : IndexingRun feed resume planned last)
    (consistent : feed.Consistent resume) :
    feed.Consistent last ∧ planned ++ feed.revisionsAfter last = feed.revisionsAfter resume := by
  induction run with
  | stay => exact ⟨consistent, rfl⟩
  | @step resume new last page pending more policy isPage planned rest induction =>
    have some : page ≠ [] := by
      rintro rfl
      cases planned
    rcases planIncrementalUnit_progress consistent policy isPage some with
      ⟨_, _, isPlanned, revisions, _, nextConsistent, _⟩
    rw [planned] at isPlanned
    cases isPlanned
    rcases induction nextConsistent with ⟨lastConsistent, restRevisions⟩
    exact ⟨lastConsistent, by rw [append_assoc, restRevisions, revisions]⟩

/-- The steps plan what the events publish, in order and once, and everything once nothing is
left; every page with a commit leads to a later watermark. -/
theorem incremental_indexing_exact (consistent : feed.Consistent resume)
    (planned : List PendingRevisionContent) (last : ChangeFeedResume)
    (run : IndexingRun feed resume planned last) :
    planned ++ feed.revisionsAfter last = feed.revisionsAfter resume ∧
    (feed.after last = [] → planned = feed.revisionsAfter resume) ∧
    ∀ policy page, page <+: feed.after last →
      (page = [] ∧ planIncrementalUnit policy page last = .ok (.upToDate last)) ∨
      ∃ pending next, planIncrementalUnit policy page last = .ok (.unit pending next) ∧
        feed.backlog next < feed.backlog last ∧
        ∀ capturedSeq, (GrepIndexStatus.active capturedSeq last).isFollowedBy
          (.active capturedSeq next) = true := by
  rcases run.exact consistent with ⟨lastConsistent, revisions⟩
  refine ⟨revisions, ?_, ?_⟩
  · intro nothing
    rwa [feed.revisionsAfter_eq, IndexedFeed.unread, nothing, map_nil, flatMap_nil,
      append_nil] at revisions
  · intro policy page isPage
    by_cases empty : page = []
    · subst empty
      exact .inl ⟨rfl, rfl⟩
    · rcases planIncrementalUnit_progress lastConsistent policy isPage empty with
        ⟨pending, next, isPlanned, _, less, _, follows, _⟩
      exact .inr ⟨pending, next, isPlanned, less, follows⟩

def sampleIndexedFeed : IndexedFeed where
  changes :=
    let content : ContentRef := ⟨"content", 3, ⟨"sha256", ""⟩⟩
    [⟨"sample", 1, "first", "actor", 0, none, none,
        [.fileCreated 2 0 "readme" "1.1" 1 content, .directoryCreated 3 0 "docs" "1.4"]⟩,
      ⟨"sample", 2, "second", "actor", 0, none, none, [.contentChanged 2 2 content none]⟩]
  ascending := by decide
  positive := by decide
  addressable := by decide

/-- A step for one file stops inside the first commit. -/
theorem incremental_indexing_exact_sample :
    ∃ pending, IndexingRun sampleIndexedFeed ⟨0, 0⟩ pending ⟨1, 1⟩ ∧ pending.length = 1 ∧
      pending ++ sampleIndexedFeed.revisionsAfter ⟨1, 1⟩ =
        sampleIndexedFeed.revisionsAfter ⟨0, 0⟩ := by
  have run : IndexingRun sampleIndexedFeed ⟨0, 0⟩ _ ⟨1, 1⟩ :=
    .step ⟨1, 10, by decide, by decide⟩ (prefix_refl _) rfl (.stay _)
  exact ⟨_, run, rfl, (incremental_indexing_exact (.inl rfl) _ _ run).1⟩

end

end LoonFs
