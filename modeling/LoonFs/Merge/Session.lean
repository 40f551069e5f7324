import LoonFs.MetadataRows

/-! # Merge sessions

A session merges a fork, or rebases it into a new one; every step leaves less to do.
-/

namespace LoonFs.Merge

open Prod.Lex

def maxNewForks : Nat := 8

def maxMergeAttempts : Nat := 4

/-! ## Requests and refusals -/

structure PendingCommit where
  commitId : CommitId
  throughSeq : ChangeSeq
  failedAttempts : Nat := 0
deriving DecidableEq

def PendingCommit.retried (request : PendingCommit) : PendingCommit :=
  { request with failedAttempts := request.failedAttempts + 1 }

/-- The codes that the loop tells apart. -/
inductive ErrorCode where
  | mergeTooLarge
  | mergeConflict
  | other (isStalePlan retryableWithoutOperatorAction : Bool)
deriving DecidableEq

structure ErrorResponse where
  /-- Absent for a code that the client does not know. -/
  code : Option ErrorCode
  splitAtSeq : Option ChangeSeq
deriving DecidableEq

inductive NextRequest where
  | split (splitAtSeq : ChangeSeq)
  | retry

inductive Refusal where
  | next (request : NextRequest)
  | conflict
  | fail

def refusal (request : PendingCommit) (error : ErrorResponse) : Refusal :=
  match error.code with
  | none => .fail
  | some .mergeTooLarge =>
    match error.splitAtSeq with
    | some splitAtSeq =>
      -- Another hint would not shorten the request.
      if splitAtSeq < request.throughSeq then .next (.split splitAtSeq) else .fail
    | none => .fail
  | some .mergeConflict => .conflict
  | some (.other isStalePlan retryable) =>
    if isStalePlan ∨ retryable then
      if request.failedAttempts + 1 < maxMergeAttempts then .next .retry else .fail
    else .fail

/-! ## Sessions -/

structure ConflictReport (Conflict : Type) where
  throughSeq : ChangeSeq
  conflicts : List Conflict

inductive MergeFailure where
  | refused (error : ErrorResponse)
  | unresolved (message : String)
  | newForkLimit
  | rangeStartBelowFloor (retentionFloorSeq : ChangeSeq)
  | forkPointBelowFloor (retentionFloorSeq : ChangeSeq)
  | unknownRangeOutcome

inductive MergeSessionStatus (Conflict : Type) where
  | merging (forkId : NamespaceId) (throughSeq : ChangeSeq) (merge : PendingCommit)
  | rebasing (forkId : NamespaceId) (throughSeq : ChangeSeq) (newForkId : NamespaceId)
      (replay : PendingCommit) (reports : List (ConflictReport Conflict))
  | resolving (newForkId : NamespaceId) (reports : List (ConflictReport Conflict))
  | merged
  | failed (forkId : NamespaceId) (failure : MergeFailure)
      (reports : List (ConflictReport Conflict))
  | abandoned

structure MergeSessionState (Conflict : Type) where
  newForkIds : List NamespaceId
  status : MergeSessionStatus Conflict

inductive MergeSessionOutcome where
  | mergeCommitted (forkId : NamespaceId) (commitId : CommitId)
      (committedSeq throughSeq : ChangeSeq)
  | split (error : ErrorResponse) (splitAtSeq : ChangeSeq)
  | conflicted (error : ErrorResponse) (newForkId : NamespaceId)
  | replayCommitted (newForkId : NamespaceId) (throughSeq : ChangeSeq) (conflictCount : Nat)
  | reportLost (replacedForkId newForkId : NamespaceId)
  | resolved (forkId : NamespaceId) (throughSeq : ChangeSeq)
  | retrying (error : ErrorResponse) (failedAttempts : Nat)
  | failed
  | deleted (namespaceId : NamespaceId)

inductive NextMergeRangeOutcome where
  | opened (nextAfterSeq : ChangeSeq)
  | rangeStartBelowFloor (retentionFloorSeq : ChangeSeq)
  | forkPointBelowFloor (retentionFloorSeq : ChangeSeq)
  | unknown

/-- What a step that succeeds is answered by the server, the resolver and the generators. -/
structure MergeMechanics (Conflict : Type) where
  mergeFork : NamespaceId → PendingCommit → Except ErrorResponse (CommitId × ChangeSeq)
  rebaseFork : NamespaceId → NamespaceId → PendingCommit →
    Except ErrorResponse (Option (List Conflict))
  resolve : NamespaceId → List (ConflictReport Conflict) → Except String Unit
  nextMergeRange : NamespaceId → ChangeSeq × NextMergeRangeOutcome
  generatedForkId : NamespaceId
  generatedCommitId : CommitId

structure Transition (Conflict : Type) where
  status : MergeSessionStatus Conflict
  createdForkId : Option NamespaceId := none
  outcome : MergeSessionOutcome

def Transition.failed (forkId : NamespaceId) (failure : MergeFailure)
    (reports : List (ConflictReport Conflict)) : Transition Conflict where
  status := .failed forkId failure reports
  outcome := .failed

section

variable (mechanics : MergeMechanics Conflict)

def nextRequest (request : PendingCommit) (next : NextRequest) (error : ErrorResponse)
    (status : PendingCommit → MergeSessionStatus Conflict) : Transition Conflict :=
  match next with
  | .split splitAtSeq =>
    { status := status { commitId := mechanics.generatedCommitId, throughSeq := splitAtSeq }
      outcome := .split error splitAtSeq }
  | .retry =>
    { status := status request.retried
      outcome := .retrying error request.retried.failedAttempts }

def statusAfterRange (forkId : NamespaceId) (throughSeq : ChangeSeq)
    (outcome : NextMergeRangeOutcome) (reports : List (ConflictReport Conflict)) :
    MergeSessionStatus Conflict :=
  match outcome with
  | .opened nextAfterSeq =>
    if nextAfterSeq ≥ throughSeq then .merged
    else .merging forkId throughSeq { commitId := mechanics.generatedCommitId, throughSeq }
  | .rangeStartBelowFloor floor => .failed forkId (.rangeStartBelowFloor floor) reports
  | .forkPointBelowFloor floor => .failed forkId (.forkPointBelowFloor floor) reports
  | .unknown => .failed forkId .unknownRangeOutcome reports

def replayed (forkId : NamespaceId) (throughSeq : ChangeSeq) (newForkId : NamespaceId)
    (replay : PendingCommit) (reports : List (ConflictReport Conflict))
    (conflicts : List Conflict) : Transition Conflict :=
  let reports := reports ++ [{ throughSeq := replay.throughSeq, conflicts }]
  { status :=
      if replay.throughSeq < throughSeq then
        .rebasing forkId throughSeq newForkId
          { commitId := mechanics.generatedCommitId, throughSeq } reports
      else .resolving newForkId reports
    outcome := .replayCommitted newForkId replay.throughSeq conflicts.length }

namespace MergeSessionState

variable (state : MergeSessionState Conflict)

def newForkId : Option NamespaceId :=
  if state.newForkIds.length < maxNewForks then some mechanics.generatedForkId else none

/-- A rebase into a new fork, after a conflict or in place of one whose report was lost. -/
def intoNewFork (forkId : NamespaceId) (throughSeq : ChangeSeq)
    (outcome : NamespaceId → MergeSessionOutcome) : Transition Conflict :=
  match state.newForkId mechanics with
  | some newForkId =>
    { status := .rebasing forkId throughSeq newForkId
        { commitId := mechanics.generatedCommitId, throughSeq } []
      createdForkId := some newForkId
      outcome := outcome newForkId }
  | none => .failed forkId .newForkLimit []

def merge (forkId : NamespaceId) (throughSeq : ChangeSeq) (merge : PendingCommit) :
    Transition Conflict :=
  match mechanics.mergeFork forkId merge with
  | .ok (commitId, committedSeq) =>
    { status :=
        if merge.throughSeq < throughSeq then
          .merging forkId throughSeq { commitId := mechanics.generatedCommitId, throughSeq }
        else .merged
      outcome := .mergeCommitted forkId commitId committedSeq merge.throughSeq }
  | .error error =>
    match refusal merge error with
    | .next next => nextRequest mechanics merge next error (.merging forkId throughSeq)
    | .conflict => state.intoNewFork mechanics forkId throughSeq (.conflicted error)
    | .fail => .failed forkId (.refused error) []

def replaceNewFork (forkId : NamespaceId) (throughSeq : ChangeSeq) (newForkId : NamespaceId) :
    Transition Conflict :=
  state.intoNewFork mechanics forkId throughSeq (.reportLost newForkId)

def rebase (forkId : NamespaceId) (throughSeq : ChangeSeq) (newForkId : NamespaceId)
    (replay : PendingCommit) (reports : List (ConflictReport Conflict)) : Transition Conflict :=
  match mechanics.rebaseFork forkId newForkId replay with
  | .ok (some conflicts) => replayed mechanics forkId throughSeq newForkId replay reports conflicts
  | .ok none => state.replaceNewFork mechanics forkId throughSeq newForkId
  | .error error =>
    match refusal replay error with
    | .next next => nextRequest mechanics replay next error fun replay =>
        .rebasing forkId throughSeq newForkId replay reports
    | .conflict | .fail => .failed forkId (.refused error) reports

def resolve (newForkId : NamespaceId) (reports : List (ConflictReport Conflict)) :
    Transition Conflict :=
  match mechanics.resolve newForkId reports with
  | .error message => .failed newForkId (.unresolved message) reports
  | .ok () =>
    let (throughSeq, outcome) := mechanics.nextMergeRange newForkId
    let status := statusAfterRange mechanics newForkId throughSeq outcome reports
    { status
      outcome := match status with
        | .failed .. => .failed
        | _ => .resolved newForkId throughSeq }

def deleteNewFork : Option (MergeSessionState Conflict × MergeSessionOutcome) :=
  match state.newForkIds with
  | [] => none
  | namespaceId :: newForkIds => some ({ state with newForkIds }, .deleted namespaceId)

def take (transition : Transition Conflict) :
    Option (MergeSessionState Conflict × MergeSessionOutcome) :=
  let newForkIds := match transition.createdForkId with
    | some newForkId => state.newForkIds ++ [newForkId]
    | none => state.newForkIds
  some ({ newForkIds, status := transition.status }, transition.outcome)

def step : Option (MergeSessionState Conflict × MergeSessionOutcome) :=
  match state.status with
  | .merging forkId throughSeq merge => state.take (state.merge mechanics forkId throughSeq merge)
  | .rebasing forkId throughSeq newForkId replay reports =>
    state.take (state.rebase mechanics forkId throughSeq newForkId replay reports)
  | .resolving newForkId reports => state.take (resolve mechanics newForkId reports)
  | .merged | .abandoned => state.deleteNewFork
  | .failed .. => none

end MergeSessionState

end

/-! ## What the server keeps to -/

/-- A range of a fork's commits that the server moves on. -/
inductive MergeRange where
  | unmerged (forkId : NamespaceId)
  | unreplayed (forkId newForkId : NamespaceId)

/-- A committed request moves the start of its range; a refused one moves no start back. -/
def RangeAnswered (start next : ChangeSeq) (request : PendingCommit)
    (answer : Except ErrorResponse Answer) : Prop :=
  match answer with
  | .ok _ => next = request.throughSeq
  | .error error => start ≤ next ∧ ∀ splitAtSeq, error.splitAtSeq = some splitAtSeq →
      start < splitAtSeq

def MergeMechanics.Obeys (mechanics : MergeMechanics Conflict)
    (start next : MergeRange → ChangeSeq) (state : MergeSessionState Conflict) : Prop :=
  match state.status with
  | .merging forkId _ merge =>
    RangeAnswered (start (.unmerged forkId)) (next (.unmerged forkId)) merge
      (mechanics.mergeFork forkId merge)
  | .rebasing forkId _ newForkId replay _ =>
    RangeAnswered (start (.unreplayed forkId newForkId)) (next (.unreplayed forkId newForkId))
      replay (mechanics.rebaseFork forkId newForkId replay)
  | _ => True

/-! ## What is left to do -/

/-- Every request for the range ends at `floor` or later from now on. -/
def RequestFrom (floor : Nat) (start : ChangeSeq) (request : PendingCommit) : Prop :=
  floor ≤ start + 1 ∧ floor ≤ request.throughSeq

/-- What is left of a range and of the request for it. -/
def requestPotential (floor : Nat) (throughSeq : ChangeSeq) (request : PendingCommit) :
    ℕ ×ₗ ℕ ×ₗ ℕ :=
  toLex (throughSeq + 1 - floor,
    toLex (request.throughSeq, maxMergeAttempts - request.failedAttempts))

def MergeSessionState.RequestsFrom (floor : Nat) (start : MergeRange → ChangeSeq)
    (state : MergeSessionState Conflict) : Prop :=
  match state.status with
  | .merging forkId _ merge => RequestFrom floor (start (.unmerged forkId)) merge
  | .rebasing forkId _ newForkId replay _ =>
    RequestFrom floor (start (.unreplayed forkId newForkId)) replay
  | _ => True

def MergeSessionState.potential (floor : Nat) (state : MergeSessionState Conflict) :
    ℕ ×ₗ ℕ ×ₗ ℕ ×ₗ ℕ ×ₗ ℕ :=
  let forksLeft := maxNewForks - state.newForkIds.length
  match state.status with
  | .rebasing _ throughSeq _ replay _ =>
    toLex (1, toLex (3 * forksLeft + 2, requestPotential floor throughSeq replay))
  | .resolving .. => toLex (1, toLex (3 * forksLeft + 1, toLex (0, toLex (0, 0))))
  | .merging _ throughSeq merge =>
    toLex (1, toLex (3 * forksLeft, requestPotential floor throughSeq merge))
  | .merged | .abandoned => toLex (0, toLex (state.newForkIds.length, toLex (0, toLex (0, 0))))
  | .failed .. => toLex (0, toLex (0, toLex (0, toLex (0, 0))))

section

variable {floor : Nat}

theorem RequestFrom.zero : RequestFrom 0 start request := ⟨Nat.zero_le _, Nat.zero_le _⟩

theorem RequestFrom.committed (commitId : CommitId) (bounds : RequestFrom floor start request)
    (moved : startAfter = request.throughSeq) (less : request.throughSeq < throughSeq) :
    RequestFrom (request.throughSeq + 1) startAfter { commitId, throughSeq } ∧
      requestPotential (request.throughSeq + 1) throughSeq { commitId, throughSeq } <
        requestPotential floor throughSeq request := by
  refine ⟨⟨moved ▸ le_rfl, less⟩, toLex_lt_toLex.mpr (.inl ?_)⟩
  exact Nat.sub_lt_sub_left (Nat.lt_succ_of_lt (bounds.2.trans_lt less))
    (Nat.lt_succ_of_le bounds.2)

theorem RequestFrom.next {error : ErrorResponse} {next : NextRequest}
    (bounds : RequestFrom floor start request)
    (refused : refusal request error = .next next) (moved : start ≤ startAfter)
    (above : ∀ splitAtSeq, error.splitAtSeq = some splitAtSeq → start < splitAtSeq)
    (status : PendingCommit → MergeSessionStatus Conflict) :
    ∃ again outcome, nextRequest mechanics request next error status =
        { status := status again, outcome } ∧
      RequestFrom floor startAfter again ∧
      requestPotential floor throughSeq again < requestPotential floor throughSeq request := by
  have started := bounds.1.trans (Nat.succ_le_succ moved)
  rw [refusal] at refused
  split at refused
  case h_1 | h_3 => cases refused
  case h_2 =>
    split at refused
    next splitAtSeq isHint =>
      split at refused <;> cases refused
      next shorter =>
        exact ⟨_, _, rfl, ⟨started, bounds.1.trans (above splitAtSeq isHint)⟩,
          toLex_lt_toLex.mpr (.inr ⟨rfl, toLex_lt_toLex.mpr (.inl shorter)⟩)⟩
    next => cases refused
  case h_4 =>
    split at refused
    next =>
      split at refused <;> cases refused
      next attempts =>
        have fewer : maxMergeAttempts - (request.failedAttempts + 1) <
            maxMergeAttempts - request.failedAttempts := by omega
        exact ⟨_, _, rfl, ⟨started, bounds.2⟩, toLex_lt_toLex.mpr
          (.inr ⟨rfl, toLex_lt_toLex.mpr (.inr ⟨rfl, fewer⟩)⟩)⟩
    next => cases refused

/-! ## Every step leaves less -/

variable {starts : MergeRange → ChangeSeq} {state : MergeSessionState Conflict}

private theorem potential_ended {left rest : ℕ ×ₗ ℕ ×ₗ ℕ ×ₗ ℕ} :
    toLex (0, left) < toLex (1, rest) :=
  toLex_lt_toLex.mpr (.inl Nat.zero_lt_one)

private theorem potential_phase {rank before : ℕ} {left rest : ℕ ×ₗ ℕ ×ₗ ℕ} (less : rank < before) :
    toLex (1, toLex (rank, left)) < toLex (1, toLex (before, rest)) :=
  toLex_lt_toLex.mpr (.inr ⟨rfl, toLex_lt_toLex.mpr (.inl less)⟩)

private theorem potential_request {rank : ℕ} {left rest : ℕ ×ₗ ℕ ×ₗ ℕ} (less : left < rest) :
    toLex (1, toLex (rank, left)) < toLex (1, toLex (rank, rest)) :=
  toLex_lt_toLex.mpr (.inr ⟨rfl, toLex_lt_toLex.mpr (.inr ⟨rfl, less⟩)⟩)

def MergeSessionState.LeavesLess (starts : MergeRange → ChangeSeq)
    (state : MergeSessionState Conflict) (before : ℕ ×ₗ ℕ ×ₗ ℕ ×ₗ ℕ ×ₗ ℕ) : Prop :=
  ∃ floor, state.RequestsFrom floor starts ∧ state.potential floor < before

theorem MergeSessionState.take_intoNewFork {left : ℕ}
    (atLeast : 3 * (maxNewForks - state.newForkIds.length) ≤ left) (rest : ℕ ×ₗ ℕ ×ₗ ℕ)
    (taken : state.take (state.intoNewFork mechanics forkId throughSeq reported) =
      some (after, outcome)) : after.LeavesLess nexts (toLex (1, toLex (left, rest))) := by
  by_cases room : state.newForkIds.length < maxNewForks
  · rw [intoNewFork, newForkId, if_pos room] at taken
    cases taken
    have fewer : 3 * (maxNewForks - (state.newForkIds ++ [mechanics.generatedForkId]).length) + 2 <
        left := by
      rw [List.length_append, List.length_singleton]
      omega
    exact ⟨0, RequestFrom.zero, potential_phase fewer⟩
  · rw [intoNewFork, newForkId, if_neg room] at taken
    cases taken
    exact ⟨0, trivial, potential_ended⟩

theorem MergeSessionState.step_leavesLess (obeys : mechanics.Obeys starts nexts state)
    (bounds : state.RequestsFrom floor starts)
    (stepped : state.step mechanics = some (after, outcome)) :
    after.LeavesLess nexts (state.potential floor) := by
  rcases state with ⟨newForkIds, status⟩
  cases status with
  | merging forkId throughSeq request =>
    change take _ (merge _ _ _ _ _) = _ at stepped
    change RangeAnswered _ _ _ _ at obeys
    rw [merge] at stepped
    split at stepped
    next commitId committedSeq answered =>
      rw [answered] at obeys
      cases stepped
      by_cases less : request.throughSeq < throughSeq
      · have piece := RequestFrom.committed mechanics.generatedCommitId bounds obeys less
        simp only [less, if_true]
        exact ⟨_, piece.1, potential_request piece.2⟩
      · simp only [less, if_false]
        exact ⟨0, trivial, potential_ended⟩
    next error answered =>
      rw [answered] at obeys
      split at stepped
      next next refused =>
        rcases RequestFrom.next bounds refused obeys.1 obeys.2 (.merging forkId throughSeq)
          with ⟨again, reported, isNext, bounds, less⟩
        rw [isNext] at stepped
        cases stepped
        exact ⟨_, bounds, potential_request less⟩
      next => exact take_intoNewFork le_rfl _ stepped
      next =>
        cases stepped
        exact ⟨0, trivial, potential_ended⟩
  | rebasing forkId throughSeq newForkId request reports =>
    change take _ (rebase _ _ _ _ _ _ _) = _ at stepped
    change RangeAnswered _ _ _ _ at obeys
    rw [rebase] at stepped
    split at stepped
    next conflicts answered =>
      rw [answered] at obeys
      cases stepped
      by_cases less : request.throughSeq < throughSeq
      · have piece := RequestFrom.committed mechanics.generatedCommitId bounds obeys less
        simp only [replayed, less, if_true]
        exact ⟨_, piece.1, potential_request piece.2⟩
      · simp only [replayed, less, if_false]
        exact ⟨0, trivial, potential_phase (Nat.lt_succ_self _)⟩
    next => exact take_intoNewFork (Nat.le_add_right _ 2) _ stepped
    next error answered =>
      rw [answered] at obeys
      split at stepped
      next next refused =>
        rcases RequestFrom.next bounds refused obeys.1 obeys.2
          (.rebasing forkId throughSeq newForkId · reports)
          with ⟨again, reported, isNext, bounds, less⟩
        rw [isNext] at stepped
        cases stepped
        exact ⟨_, bounds, potential_request less⟩
      all_goals
        cases stepped
        exact ⟨0, trivial, potential_ended⟩
  | resolving newForkId reports =>
    change take _ (resolve _ _ _) = _ at stepped
    rw [resolve] at stepped
    split at stepped
    next =>
      cases stepped
      exact ⟨0, trivial, potential_ended⟩
    next =>
      cases stepped
      change LeavesLess _ ⟨newForkIds, statusAfterRange _ _ _ _ _⟩ _
      unfold statusAfterRange
      split
      next =>
        split
        next => exact ⟨0, trivial, potential_ended⟩
        next => exact ⟨0, RequestFrom.zero, potential_phase (Nat.lt_succ_self _)⟩
      all_goals exact ⟨0, trivial, potential_ended⟩
  | merged | abandoned =>
    cases newForkIds with
    | nil => cases stepped
    | cons space newForkIds =>
      cases stepped
      exact ⟨0, trivial, toLex_lt_toLex.mpr
        (.inr ⟨rfl, toLex_lt_toLex.mpr (.inl (Nat.lt_succ_self _))⟩)⟩
  | failed => cases stepped

/-! ## Sessions end -/

def MergeSessionState.Ended (state : MergeSessionState Conflict) : Prop :=
  (∃ forkId failure reports, state.status = .failed forkId failure reports) ∨
    (state.status = .merged ∨ state.status = .abandoned) ∧ state.newForkIds = []

theorem MergeSessionState.ended_of_step (none : state.step mechanics = none) : state.Ended := by
  rcases state with ⟨newForkIds, status⟩
  cases status with
  | merging | rebasing | resolving => cases none
  | failed => exact .inl ⟨_, _, _, rfl⟩
  | merged | abandoned =>
    cases newForkIds with
    | nil => exact .inr ⟨by simp, rfl⟩
    | cons => cases none

end

theorem merge_session_ends (mechanics : Nat → MergeMechanics Conflict)
    (starts : Nat → MergeRange → ChangeSeq) (session : Nat → MergeSessionState Conflict)
    (steps : ∀ count after outcome,
      (session count).step (mechanics count) = some (after, outcome) → session (count + 1) = after)
    (obeys : ∀ count,
      (mechanics count).Obeys (starts count) (starts (count + 1)) (session count)) :
    ∃ count, (session count).step (mechanics count) = none ∧ (session count).Ended := by
  -- Induction on what is left to do, from any point of the run on.
  suffices ends : ∀ left floor count, (session count).potential floor = left →
      (session count).RequestsFrom floor (starts count) →
      ∃ count, (session count).step (mechanics count) = none by
    have bounds : (session 0).RequestsFrom 0 (starts 0) := by
      rw [MergeSessionState.RequestsFrom]
      split
      case h_1 | h_2 => exact RequestFrom.zero
      case h_3 => trivial
    rcases ends _ 0 0 rfl bounds with ⟨count, none⟩
    exact ⟨count, none, MergeSessionState.ended_of_step none⟩
  intro left
  induction left using WellFoundedLT.induction with
  | ind left further =>
    rintro floor count rfl bounds
    cases stepped : (session count).step (mechanics count) with
    | none => exact ⟨count, stepped⟩
    | some result =>
      rcases MergeSessionState.step_leavesLess (obeys count) bounds stepped
        with ⟨floor, bounds, less⟩
      rw [← steps count result.1 result.2 stepped] at bounds less
      exact further _ less floor (count + 1) rfl bounds

namespace SampleSession

def tooLarge : ErrorResponse := { code := some .mergeTooLarge, splitAtSeq := some 1 }

def stalePlan : ErrorResponse := { code := some (.other true false), splitAtSeq := none }

def mergeConflict : ErrorResponse := { code := some .mergeConflict, splitAtSeq := none }

def mechanics (count : Nat) : MergeMechanics Unit where
  mergeFork _ request :=
    match count with
    | 0 => .error tooLarge
    | 1 => .error stalePlan
    | 3 => .error mergeConflict
    | _ => .ok (request.commitId, 9)
  rebaseFork _ _ _ := .ok (some [()])
  resolve _ _ := .ok ()
  nextMergeRange _ := (3, .opened 2)
  generatedForkId := "rebase"
  generatedCommitId := "c"

/-- A merge is split and retried before its first part is committed. The rest conflicts: it is
rebased, resolved and merged, and the new fork deleted. -/
def session : Nat → MergeSessionState Unit
  | 0 => ⟨[], .merging "fork" 2 { commitId := "c", throughSeq := 2 }⟩
  | 1 => ⟨[], .merging "fork" 2 { commitId := "c", throughSeq := 1 }⟩
  | 2 => ⟨[], .merging "fork" 2 { commitId := "c", throughSeq := 1, failedAttempts := 1 }⟩
  | 3 => ⟨[], .merging "fork" 2 { commitId := "c", throughSeq := 2 }⟩
  | 4 => ⟨["rebase"], .rebasing "fork" 2 "rebase" { commitId := "c", throughSeq := 2 } []⟩
  | 5 => ⟨["rebase"], .resolving "rebase" [⟨2, [()]⟩]⟩
  | 6 => ⟨["rebase"], .merging "rebase" 3 { commitId := "c", throughSeq := 3 }⟩
  | 7 => ⟨["rebase"], .merged⟩
  | _ => ⟨[], .merged⟩

def starts (count : Nat) : MergeRange → ChangeSeq
  | .unreplayed _ _ => if count ≤ 4 then 0 else 2
  | .unmerged forkId =>
    if forkId = "fork" then if count ≤ 2 then 0 else 1 else if count ≤ 6 then 2 else 3

theorem steps : ∀ count after outcome,
    (session count).step (mechanics count) = some (after, outcome) →
      session (count + 1) = after := by
  rintro (_ | _ | _ | _ | _ | _ | _ | _ | count) after outcome stepped <;> cases stepped <;> rfl

theorem obeys : ∀ count,
    (mechanics count).Obeys (starts count) (starts (count + 1)) (session count) := by
  rintro (_ | _ | _ | _ | _ | _ | _ | _ | count)
  -- The steps that the server refuses.
  case zero => exact ⟨le_rfl, fun _ isHint => by cases isHint; decide⟩
  case succ.zero => exact ⟨le_rfl, fun _ isHint => by cases isHint⟩
  case succ.succ.succ.zero => exact ⟨le_rfl, fun _ isHint => by cases isHint⟩
  all_goals trivial

end SampleSession

open SampleSession in
theorem merge_session_ends_sample :
    ((session 0).step (mechanics 0)).map Prod.snd = some (.split tooLarge 1) ∧
    ((session 1).step (mechanics 1)).map Prod.snd = some (.retrying stalePlan 1) ∧
    ∃ count, (session count).step (mechanics count) = none ∧ (session count).Ended :=
  ⟨rfl, rfl, merge_session_ends mechanics starts session steps obeys⟩

end LoonFs.Merge
