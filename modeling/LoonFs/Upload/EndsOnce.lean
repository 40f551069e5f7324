import LoonFs.Upload.Sessions

/-! # A session ends once

While the session record is there, nothing deletes the outcome record.
-/

namespace LoonFs

open Foundation

namespace UploadWorld

variable {Process : Type}

def Verified (world : UploadWorld Process) (process : Process) : UploadOutcome → Prop
  | .completed _ contentRef => (process, contentRef.sizeBytes, contentRef.checksum) ∈ world.found
  | .aborted _ => True

structure Valid (world : UploadWorld Process) : Prop where
  current : world.session.isSome → world.outcome.map UploadOutcomePayload.outcome = world.ended
  late : ∀ process record, (process, record) ∈ world.late →
    world.Verified process record.outcome
  ended : ∀ outcome, world.ended = some outcome →
    ∃ recorder, world.recorder = some recorder ∧ world.Verified recorder outcome
  released : world.released = true → ∃ abortedAtMs, world.ended = some (.aborted abortedAtMs)

/-- What no call undoes: records never come back, and the first outcome stands. -/
structure Later (before after : UploadWorld Process) : Prop where
  session : after.session.isSome → before.session.isSome
  ended : ∀ outcome, before.ended = some outcome → after.ended = some outcome
  found : before.found ⊆ after.found

namespace Later

theorem refl (world : UploadWorld Process) : Later world world :=
  ⟨id, fun _ => id, List.Subset.refl _⟩

theorem trans (before : Later first second) (after : Later second third) : Later first third where
  session present := before.session (after.session present)
  ended outcome isEnded := after.ended outcome (before.ended outcome isEnded)
  found := List.Subset.trans before.found after.found

theorem verified (later : Later before after) {outcome : UploadOutcome}
    (verified : before.Verified process outcome) : after.Verified process outcome := by
  cases outcome with
  | completed completedAtMs contentRef => exact later.found verified
  | aborted abortedAtMs => trivial

theorem recordOutcome (world : UploadWorld Process) (process : Process)
    (record : UploadOutcomePayload) : Later world (world.recordOutcome process record) where
  session := id
  ended outcome isEnded := by
    rw [UploadWorld.recordOutcome]
    dsimp only
    split
    · rw [isEnded]
      rfl
    · exact isEnded
  found := List.Subset.refl _

end Later

def Claims (world : UploadWorld Process) (outcome : UploadOutcome) : Prop :=
  world.session.isSome → world.ended = some outcome

variable {before after : UploadWorld Process}

theorem Claims.later {outcome : UploadOutcome} (claims : before.Claims outcome)
    (later : Later before after) : after.Claims outcome :=
  fun present => later.ended outcome (claims (later.session present))

variable {record : UploadOutcomePayload} {world : UploadWorld Process}

theorem Valid.claims (valid : world.Valid) (stored : world.outcome = some record) :
    world.Claims record.outcome := by
  intro present
  rw [← valid.current present, stored]
  rfl

variable {process : Process}

theorem Valid.recordOutcome (valid : world.Valid) (absent : world.outcome = none)
    (verified : world.Verified process record.outcome) :
    (world.recordOutcome process record).Valid := by
  have later := Later.recordOutcome world process record
  constructor
  case current =>
    intro present
    have isOpen : world.ended = none := by
      rw [← valid.current present, absent]
      rfl
    have isPresent : world.session.isSome = true := present
    simp [UploadWorld.recordOutcome, isPresent, isOpen]
  case late => exact fun other otherRecord mem => valid.late other otherRecord mem
  case ended =>
    intro outcome isEnded
    -- An outcome that stood before keeps its recorder.
    have stood (before : world.ended = some outcome) : ∃ recorder,
        (world.recordOutcome process record).recorder = some recorder ∧
          (world.recordOutcome process record).Verified recorder outcome := by
      obtain ⟨recorder, isRecorder, isVerified⟩ := valid.ended outcome before
      refine ⟨recorder, ?_, later.verified isVerified⟩
      simp [UploadWorld.recordOutcome, before, isRecorder]
    rw [UploadWorld.recordOutcome] at isEnded
    dsimp only at isEnded
    split at isEnded
    · rename_i present
      rcases Option.or_eq_some_iff.mp isEnded with before | ⟨isOpen, isNew⟩
      · exact stood before
      · cases isNew
        refine ⟨process, ?_, later.verified verified⟩
        simp [UploadWorld.recordOutcome, present, isOpen]
    · exact stood isEnded
  case released =>
    intro isReleased
    obtain ⟨abortedAtMs, isEnded⟩ := valid.released isReleased
    exact ⟨abortedAtMs, later.ended _ isEnded⟩

theorem Drifts.keeps (drifts : Drifts before after) (valid : before.Valid) :
    after.Valid ∧ Later before after := by
  cases drifts with
  | write content =>
    exact ⟨⟨valid.current, valid.late, valid.ended, valid.released⟩,
      ⟨id, fun _ => id, List.Subset.refl _⟩⟩
  | apply isLate absent =>
    exact ⟨valid.recordOutcome absent (valid.late _ _ isLate), .recordOutcome _ _ _⟩

theorem drifts_keep (drifts : Relation.ReflTransGen Drifts before after) (valid : before.Valid) :
    after.Valid ∧ Later before after := by
  induction drifts with
  | refl => exact ⟨valid, .refl _⟩
  | tail _ last induction =>
    obtain ⟨lastValid, lastLater⟩ := last.keeps induction.1
    exact ⟨lastValid, induction.2.trans lastLater⟩

theorem Serves.later {request : UploadRequest} {answer : request.Answer}
    (serves : Serves process before request answer after) : Later before after := by
  cases serves with
  | headContent => exact ⟨id, fun _ => id, List.subset_append_left _ _⟩
  | putOutcome write =>
    rcases write.cases with ⟨same, _⟩ | ⟨_, written, _⟩
    · rw [same]
      exact .refl _
    · rw [written]
      exact .recordOutcome _ _ _
  | deleteSession => exact ⟨(fun present => nomatch present), fun _ => id, List.Subset.refl _⟩
  | _ => exact ⟨id, fun _ => id, List.Subset.refl _⟩

end UploadWorld

/-- Every call keeps the rules and relies on the others to keep them. -/
def uploadContract (Process : Type) : Contract Process (UploadWorld Process) where
  valid := UploadWorld.Valid
  rely _ := UploadWorld.Later
  refl _ := .refl
  trans := .trans

/-- The program keeps the rules, and what it returns is as `post` says. -/
def Ends {Process Result : Type} (process : Process) (post : UploadWorld Process → Result → Prop)
    (world : UploadWorld Process) (program : UploadProgram Result) : Prop :=
  Meets (uploadMachine Process) (uploadContract Process) process
    (fun after outcome => ∀ result, outcome = .ok result → post after result) world program

namespace Ends

variable {process : Process} {world : UploadWorld Process}

theorem done (holds : post world result) : Ends process post world (.done result) := by
  intro other isOther
  cases isOther
  exact holds

theorem fail : Ends process post world (.fail error) := fun _ isResult => nomatch isResult

variable {program : UploadProgram Result}

theorem conseq {weaker : UploadWorld Process → Result → Prop}
    (ends : Ends process post world program)
    (implies : ∀ after result, post after result → weaker after result) :
    Ends process weaker world program := by
  apply Meets.conseq ends
  intro after outcome holds result isResult
  exact implies after result (holds result isResult)

theorem ask {request : UploadRequest} {next : request.Answer → UploadProgram Result}
    (step : ∀ before answer after, UploadWorld.Later world before → before.Valid →
      UploadWorld.Serves process before request answer after →
      after.Valid ∧ Ends process post after (next answer)) :
    Ends process post world (.ask request next) := by
  intro before answer after relied valid ⟨drifted, drifts, served⟩
  obtain ⟨driftedValid, later⟩ := UploadWorld.drifts_keep drifts valid
  obtain ⟨afterValid, rest⟩ := step drifted answer after (relied.trans later) driftedValid served
  exact ⟨afterValid, fun _ _ => later.trans served.later, rest⟩

theorem since (ends : Ends process post world program) :
    Ends process (fun after result => UploadWorld.Later world after ∧ post after result) world
      program := by
  induction program generalizing world with
  | done result =>
    intro other isOther
    cases isOther
    exact ⟨.refl world, ends _ rfl⟩
  | fail error => exact .fail
  | ask request next induction =>
    intro before answer after relied valid served
    obtain ⟨kept, guaranteed, rest⟩ := ends before answer after relied valid served
    refine ⟨kept, guaranteed, (induction answer rest).conseq ?_⟩
    intro final result ⟨later, holds⟩
    obtain ⟨drifted, drifts, isServed⟩ := served
    have toAfter := (UploadWorld.drifts_keep drifts valid).2.trans isServed.later
    exact ⟨(UploadWorld.Later.trans relied toAfter).trans later, holds⟩

theorem bind {middle : UploadWorld Process → Other → Prop} {program : UploadProgram Other}
    {next : Other → UploadProgram Result} (ends : Ends process middle world program)
    (goesOn : ∀ after value, UploadWorld.Later world after → middle after value →
      Ends process post after (next value)) : Ends process post world (program >>= next) := by
  apply Meets.andThen ends.since
  · intro after value holds
    obtain ⟨later, isMiddle⟩ := holds value rfl
    exact goesOn after value later isMiddle
  · intro after error _ result isResult
    cases isResult

theorem attempt (ends : Ends process post world program) :
    Ends process (fun after outcome => ∀ result, outcome = .ok result → post after result) world
      program.attempt := by
  apply Meets.conseq (Meets.attempt ends)
  intro after outcome ⟨result, isOutcome, holds⟩ attempted isAttempted
  cases isOutcome.symm.trans isAttempted
  exact holds

end Ends

section

variable {Process : Type} {process : Process} {world : UploadWorld Process}

/-! ## Reading the records -/

theorem ends_getOutcome : Ends process (fun after found =>
    ∀ record, found = some record → after.Claims record.outcome) world
      (askStore .getOutcome rfl) := by
  apply Ends.ask
  intro before answer after _ valid served
  cases served with
  | getOutcome => exact ⟨valid, .done fun record stored => valid.claims stored⟩
  | getOutcomeFails => exact ⟨valid, .fail⟩

theorem ends_getSession : Ends process (fun after found =>
    found.isSome → after.session.isSome) world (askStore .getSession rfl) := by
  apply Ends.ask
  intro before answer after _ valid served
  cases served with
  | getSession => exact ⟨valid, .done id⟩
  | getSessionFails => exact ⟨valid, .fail⟩

theorem ends_headSession : Ends process (fun after found =>
    found = true → after.session.isSome) world (askStore .headSession rfl) := by
  apply Ends.ask
  intro before answer after _ valid served
  cases served with
  | headSession => exact ⟨valid, .done id⟩
  | headSessionFails => exact ⟨valid, .fail⟩

theorem ends_ensureIdentity :
    Ends process (fun after _ => after = world) world (ensureIdentity uploadId found) := by
  rw [ensureIdentity]
  split
  · exact .done rfl
  · exact .fail

theorem ends_loadUploadOutcome (uploadId : UploadId) : Ends process (fun after found =>
    ∀ record, found = some record → after.Claims record.outcome) world
      (loadUploadOutcome uploadId) := by
  apply ends_getOutcome.bind
  intro read found _ claims
  cases found with
  | none => exact .done fun record isRecord => nomatch isRecord
  | some record =>
    apply ends_ensureIdentity.bind
    intro checked _ later _
    apply Ends.done
    intro other isOther
    cases isOther
    exact (claims record rfl).later later

theorem ends_loadUploadSessionRecord (uploadId : UploadId) : Ends process (fun after found =>
    found.isSome → after.session.isSome) world (loadUploadSessionRecord uploadId) := by
  apply ends_getSession.bind
  intro read found _ present
  cases found with
  | none => exact .done fun isSome => nomatch isSome
  | some session =>
    apply ends_ensureIdentity.bind
    intro checked _ _ same
    subst same
    exact .done fun _ => present rfl

theorem ends_ensureOutcomeMatchesSession (session : UploadSessionPayload)
    (record : UploadOutcomePayload) :
    Ends process (fun _ _ => True) world (ensureOutcomeMatchesSession session record) := by
  rw [ensureOutcomeMatchesSession]
  repeat' split
  all_goals first | exact .done trivial | exact .fail

theorem ends_loadUploadSessionState (space : NamespaceId) (uploadId : UploadId) :
    Ends process (fun after state =>
      ∀ outcome, state.outcome = some outcome → after.ended = some outcome) world
        (loadUploadSessionState space uploadId) := by
  apply (ends_loadUploadOutcome uploadId).bind
  intro read outcome _ claims
  apply (ends_loadUploadSessionRecord uploadId).bind
  intro loaded found later present
  cases isSession : found.filter fun session => session.namespaceId = space with
  | none => exact .fail
  | some session =>
    have isPresent := present (by
      rw [(Option.filter_eq_some_iff.mp isSession).1]
      rfl)
    cases outcome with
    | none => exact .done fun outcome isOutcome => nomatch isOutcome
    | some record =>
      have isEnded := (claims record rfl).later later isPresent
      apply (ends_ensureOutcomeMatchesSession session record).bind
      intro checked _ last _
      apply Ends.done
      intro other isOther
      cases isOther
      exact last.ended _ isEnded

/-! ## Recording an outcome -/

def OutcomeCreation.standing (outcome : UploadOutcome) : OutcomeCreation → UploadOutcome
  | .created => outcome
  | .existing standing => standing

theorem ends_readBack (session : UploadSessionPayload) (record : UploadOutcomePayload)
    {retry : UploadProgram OutcomeCreation}
    (retries : ∀ read, UploadWorld.Later world read →
      Ends process (fun after creation => after.Claims (creation.standing record.outcome)) read
        retry) :
    Ends process (fun after creation => after.Claims (creation.standing record.outcome)) world (do
      match ← loadUploadOutcome session.uploadId with
      | some stored =>
        if stored = record then return .created
        else
          ensureOutcomeMatchesSession session stored
          return .existing stored.outcome
      | none => retry) := by
  apply (ends_loadUploadOutcome session.uploadId).bind
  intro read found later claims
  cases found with
  | none => exact retries read later
  | some stored =>
    dsimp only
    split
    · rename_i same
      exact .done (same ▸ claims stored rfl)
    · apply (ends_ensureOutcomeMatchesSession session stored).bind
      intro checked _ last _
      exact .done ((claims stored rfl).later last)

theorem ends_createOutcomeRecord (session : UploadSessionPayload) (record : UploadOutcomePayload)
    (attempts : Nat) (verified : world.Verified process record.outcome) :
    Ends process (fun after creation => after.Claims (creation.standing record.outcome)) world
      (createOutcomeRecord session record attempts) := by
  induction attempts generalizing world with
  | zero => exact .fail
  | succ attempts induction =>
    -- Only a put whose response was lost is sent again.
    have again {after : UploadWorld Process} (later : UploadWorld.Later world after)
        (isLost : Prop) [Decidable isLost] (read : UploadWorld Process)
        (readLater : UploadWorld.Later after read) :
        Ends process (fun after creation => after.Claims (creation.standing record.outcome)) read
          (if isLost then createOutcomeRecord session record attempts
            else .fail (.uploadNotFound session.uploadId)) := by
      split
      · exact induction ((later.trans readLater).verified verified)
      · exact .fail
    apply Ends.ask
    intro before answer after relied valid served
    have nowVerified := relied.verified verified
    cases served with
    | putLate =>
      have later := UploadWorld.Serves.later
        (.putLate before record : UploadWorld.Serves process _ _ _ _)
      refine ⟨⟨valid.current, ?_, valid.ended, valid.released⟩, ?_⟩
      · intro other otherRecord mem
        rcases List.mem_cons.mp mem with isNew | isOld
        · cases isNew
          exact nowVerified
        · exact valid.late other otherRecord isOld
      · exact ends_readBack session record
          (again (relied.trans later) (PutAnswer.transport = .transport))
    | putOutcome write =>
      have later := UploadWorld.Serves.later (.putOutcome write)
      have afterValid : after.Valid := by
        rcases write.cases with ⟨same, _⟩ | ⟨absent, written, _⟩
        · rw [same]
          exact valid
        · rw [written]
          exact valid.recordOutcome absent nowVerified
      refine ⟨afterValid, ?_⟩
      cases write with
      | stored absent => exact .done (afterValid.claims rfl)
      | refused =>
        exact ends_readBack session record
          (again (relied.trans later) (PutAnswer.preconditionFailed = .transport))
      | unconfirmed | lost =>
        exact ends_readBack session record
          (again (relied.trans later) (PutAnswer.transport = .transport))
      | failed => exact .fail

theorem ends_createUploadOutcome (session : UploadSessionPayload) (outcome : UploadOutcome)
    (verified : world.Verified process outcome) :
    Ends process (fun after creation => after.ended = some (creation.standing outcome)) world
      (createUploadOutcome session outcome) := by
  apply (ends_createOutcomeRecord session _ _ verified).bind
  intro created creation _ claims
  apply ends_headSession.bind
  intro confirmed isPresent later present
  cases isPresent with
  | false => exact .fail
  | true => exact .done (claims.later later (present rfl))

/-! ## Completions -/

theorem ends_headContent : Ends process (fun after found =>
    ∀ stored checksum, found = some stored → stored.checksum = some checksum →
      (process, stored.sizeBytes, checksum) ∈ after.found) world (askStore .headContent rfl) := by
  apply Ends.ask
  intro before answer after _ valid served
  have later := served.later
  cases served with
  | headContent =>
    refine ⟨⟨valid.current, ?_, ?_, valid.released⟩, .done ?_⟩
    · exact fun other record mem => later.verified (valid.late other record mem)
    · intro outcome isEnded
      obtain ⟨recorder, isRecorder, isVerified⟩ := valid.ended outcome isEnded
      exact ⟨recorder, isRecorder, later.verified isVerified⟩
    · intro stored checksum isStored isChecksum
      simp [isStored, isChecksum]
  | headContentFails => exact ⟨valid, .fail⟩

theorem ends_verifyDurableContentChecksum (contentRef : ContentRef) : Ends process (fun after _ =>
      (process, contentRef.sizeBytes, contentRef.checksum) ∈ after.found) world
        (verifyDurableContentChecksum contentRef) := by
  apply ends_headContent.bind
  intro read found _ isFound
  cases found with
  | none => exact .fail
  | some stored =>
    dsimp only
    split
    · exact .fail
    · rename_i sameSize
      cases isChecksum : stored.checksum with
      | none => exact .fail
      | some checksum =>
        dsimp only
        split
        · exact .fail
        · rename_i sameChecksum
          apply Ends.done
          have mem := isFound stored checksum rfl isChecksum
          rwa [not_not.mp sameSize, not_not.mp sameChecksum] at mem

theorem ends_verifyCompletion (session : UploadSessionPayload) (plan : CompletionPlan) :
    Ends process (fun after contentRef =>
      (process, contentRef.sizeBytes, contentRef.checksum) ∈ after.found) world
        (verifyCompletion session plan) := by
  cases plan with
  | proxied =>
    have proxied : Ends process (fun after found => ∀ contentRef, found = some contentRef →
        (process, contentRef.sizeBytes, contentRef.checksum) ∈ after.found) world
          (findProxiedContentRef session) := by
      apply ends_headContent.bind
      intro read found _ isFound
      cases found with
      | none => exact .done fun contentRef isRef => nomatch isRef
      | some stored =>
        dsimp only
        cases isChecksum : stored.checksum with
        | none => exact .fail
        | some checksum =>
          apply Ends.done
          intro contentRef isRef
          cases isRef
          exact isFound stored checksum rfl isChecksum
    apply proxied.bind
    intro read found _ isFound
    cases found with
    | none => exact .fail
    | some contentRef => exact .done (isFound contentRef rfl)
  | directPut requested =>
    apply (ends_verifyDurableContentChecksum requested).bind
    intro read _ _ isFound
    exact .done isFound
  | directMultipart requested parts =>
    cases parts with
    | error message => exact .fail
    | ok isOk =>
      have assembled : Ends process (fun _ _ => True) world
          (askStore .completeMultipart rfl : UploadProgram Unit) := by
        apply Ends.ask
        intro before answer after _ valid served
        cases served with
        | completeMultipart content =>
          refine ⟨⟨valid.current, valid.late, valid.ended, valid.released⟩, ?_⟩
          cases answer with
          | ok value => exact .done trivial
          | error failure => exact .fail
      apply assembled.bind
      intro completed _ _ _
      apply (ends_verifyDurableContentChecksum requested).bind
      intro read _ _ isFound
      exact .done isFound

theorem ends_replayTerminalCompletion (session : UploadSessionPayload)
    (expected : Option ContentRef) (isEnded : world.ended = some outcome) :
    Ends process (fun after upload =>
      after.ended = some (.completed upload.completedAtMs upload.contentRef)) world
        (replayTerminalCompletion outcome session expected) := by
  cases outcome with
  | aborted abortedAtMs => exact .fail
  | completed completedAtMs contentRef =>
    rw [replayTerminalCompletion]
    split
    · exact .fail
    · exact .done isEnded

theorem ends_recordCompletion (session : UploadSessionPayload) {verified : ContentRef}
    (nowMs : Nat) (isFound : (process, verified.sizeBytes, verified.checksum) ∈ world.found) :
    Ends process (fun after upload =>
      after.ended = some (.completed upload.completedAtMs upload.contentRef)) world
        (recordCompletion session verified nowMs) := by
  have isVerified : world.Verified process (.completed nowMs verified) := isFound
  apply (ends_createUploadOutcome session _ isVerified).bind
  intro created creation _ isEnded
  cases creation with
  | created => exact ends_replayTerminalCompletion session _ isEnded
  | existing standing => exact ends_replayTerminalCompletion session _ isEnded

theorem ends_ensureSessionSubject (session : UploadSessionPayload) (subject : Option SubjectId) :
    Ends process (fun after _ => after = world) world (ensureSessionSubject session subject) := by
  unfold ensureSessionSubject
  split
  · exact .done rfl
  · exact .fail
  · split
    · exact .done rfl
    · exact .fail

theorem ends_ensureSessionOpen (state : UploadSessionState) (nowMs : Nat) :
    Ends process (fun after _ => after = world) world (ensureSessionOpen state nowMs) := by
  unfold ensureSessionOpen
  split
  · split
    · exact .done rfl
    · exact .fail
  · exact .fail
  · exact .fail

theorem ends_claimedContentRef (contentId : ContentId) (claim : UploadContentClaim)
    (algorithm : ChecksumAlgorithm) : Ends process (fun after _ => after = world) world
      (claimedContentRef contentId claim algorithm) := by
  rw [claimedContentRef]
  split
  · exact .fail
  · exact .done rfl

theorem ends_completionPlan (session : UploadSessionPayload) (completion : CompleteUploadBody) :
    Ends process (fun after _ => after = world) world (completionPlan session completion) := by
  unfold completionPlan
  split
  · exact .done rfl
  · apply (ends_claimedContentRef _ _ _).bind
    intro after _ _ same
    exact .done same
  · apply (ends_claimedContentRef _ _ _).bind
    intro after _ _ same
    exact .done same
  · exact .fail

theorem ends_completeUpload (caller : UploadCaller) (completion : CompleteUploadBody) :
    Ends process (fun after upload =>
      after.ended = some (.completed upload.completedAtMs upload.contentRef)) world
        (completeUpload caller completion) := by
  apply (ends_loadUploadSessionState caller.namespaceId caller.uploadId).bind
  intro loaded state _ isOutcome
  apply (ends_ensureSessionSubject state.session caller.subject).bind
  intro checked _ _ same
  subst same
  have replays (outcome : UploadOutcome) (isState : state.outcome = some outcome) :
      Ends process (fun after upload =>
        after.ended = some (.completed upload.completedAtMs upload.contentRef)) checked (do
          let plan ← completionPlan state.session completion
          replayTerminalCompletion outcome state.session plan.expectedCompletedContent) := by
    apply (ends_completionPlan state.session completion).bind
    intro planned plan _ same
    subst same
    exact ends_replayTerminalCompletion _ _ (isOutcome outcome isState)
  cases isState : state.outcome with
  | none =>
    apply (ends_ensureSessionOpen state caller.nowMs).bind
    intro opened _ _ same
    apply (ends_completionPlan state.session completion).bind
    intro planned plan _ _
    apply (ends_verifyCompletion state.session plan).bind
    intro read verified _ isFound
    exact ends_recordCompletion state.session caller.nowMs isFound
  | some outcome =>
    cases outcome with
    | completed completedAtMs contentRef => exact replays _ isState
    | aborted abortedAtMs =>
      apply (ends_ensureSessionOpen state caller.nowMs).bind
      intro opened _ _ same
      subst same
      exact replays _ isState

/-! ## Aborts -/

theorem ends_repeatedAbort (uploadId : UploadId) (isEnded : world.ended = some outcome) :
    Ends process (fun after abortedAtMs => after.ended = some (.aborted abortedAtMs)) world
      (outcome.repeatedAbort uploadId) := by
  cases outcome with
  | completed completedAtMs contentRef => exact .fail
  | aborted abortedAtMs => exact .done isEnded

theorem ends_deleteContent (isEnded : world.ended = some (.aborted abortedAtMs)) :
    Ends process (fun _ _ => True) world (succeeds .deleteContent rfl) := by
  apply Ends.ask
  intro before answer after relied valid served
  have wasAborted := relied.ended _ isEnded
  cases served with
  | deleteContent =>
    exact ⟨⟨valid.current, valid.late, valid.ended,
      fun _ => ⟨abortedAtMs, wasAborted⟩⟩, .done trivial⟩
  | deleteContentFails => exact ⟨valid, .done trivial⟩

theorem ends_release (session : UploadSessionPayload)
    {abortedAtMs : Nat} (isEnded : world.ended = some (.aborted abortedAtMs)) :
    Ends process (fun _ _ => True) world (release session) := by
  rw [release]
  split
  · have abandoned : Ends process (fun _ _ => True) world (succeeds .abortMultipart rfl) := by
      apply Ends.ask
      intro before answer after _ valid served
      cases served with
      | abortMultipart => exact ⟨valid, .done trivial⟩
    apply abandoned.bind
    intro after isAborted later _
    cases isAborted with
    | false => exact .done trivial
    | true => exact ends_deleteContent (later.ended _ isEnded)
  · exact ends_deleteContent isEnded

theorem ends_abortUpload (caller : UploadCaller) :
    Ends process (fun after abortedAtMs => after.ended = some (.aborted abortedAtMs)) world
      (abortUpload caller) := by
  apply (ends_loadUploadSessionState caller.namespaceId caller.uploadId).bind
  intro loaded state _ isOutcome
  apply (ends_ensureSessionSubject state.session caller.subject).bind
  intro checked _ _ same
  subst same
  have releases (after : UploadWorld Process) (abortedAtMs : Nat)
      (isEnded : after.ended = some (.aborted abortedAtMs)) :
      Ends process (fun final abortedAtMs => final.ended = some (.aborted abortedAtMs)) after (do
        let _ ← release state.session
        return abortedAtMs) := by
    apply (ends_release state.session isEnded).bind
    intro final _ later _
    exact .done (later.ended _ isEnded)
  cases isState : state.outcome with
  | some outcome =>
    apply (ends_repeatedAbort caller.uploadId (isOutcome outcome isState)).bind
    intro after abortedAtMs _ isEnded
    exact releases after abortedAtMs isEnded
  | none =>
    apply (ends_createUploadOutcome state.session (.aborted caller.nowMs) trivial).bind
    intro created creation _ isEnded
    cases creation with
    | created => exact releases created caller.nowMs isEnded
    | existing standing =>
      apply (ends_repeatedAbort caller.uploadId isEnded).bind
      intro after abortedAtMs _ wasAborted
      exact releases after abortedAtMs wasAborted

/-! ## Collection -/

def SweepReport.Reports (world : UploadWorld Process) (report : SweepReport) : Prop :=
  ∀ abortedAtMs, report.abortedAtMs = some abortedAtMs →
    world.ended = some (.aborted abortedAtMs)

theorem SweepReport.reports_none {sweep : UploadSessionSweep} :
    SweepReport.Reports world ⟨sweep, none⟩ :=
  fun _ isAborted => nomatch isAborted

theorem ends_abortExpiredSession (collection : Collection) (session : UploadSessionPayload) :
    Ends process (fun after report => report.Reports after) world
      (abortExpiredSession collection session) := by
  rw [abortExpiredSession]
  split
  · exact .done SweepReport.reports_none
  · apply (ends_createUploadOutcome session (.aborted collection.nowMs) trivial).attempt.bind
    intro created attempted _ isEnded
    cases attempted with
    | error error =>
      cases error
      case uploadNotFound uploadId => exact .done SweepReport.reports_none
      all_goals exact .fail
    | ok creation =>
      cases creation with
      | existing standing => exact .done SweepReport.reports_none
      | created =>
        have nowEnded := isEnded .created rfl
        apply (ends_release session nowEnded).bind
        intro released _ later _
        apply Ends.done
        intro abortedAtMs isAborted
        cases isAborted
        exact later.ended _ nowEnded

theorem ends_loadSweptSession (collection : Collection) :
    Ends process (fun after found => ∀ state outcome, found = some state →
      state.outcome = some outcome → after.ended = some outcome) world
        (loadSweptSession collection) := by
  have goesOn (read : UploadWorld Process) (found : Option UploadOutcomePayload)
      (claims : ∀ record, found = some record → read.Claims record.outcome) :
      Ends process (fun after (found : Option UploadSessionState) => ∀ state outcome,
        found = some state → state.outcome = some outcome → after.ended = some outcome) read (do
          let session ← loadUploadSessionRecord collection.uploadId
          return session.map fun session => ⟨session, found.map UploadOutcomePayload.outcome⟩) := by
    apply (ends_loadUploadSessionRecord collection.uploadId).bind
    intro loaded session later present
    apply Ends.done
    intro state outcome isState isOutcome
    cases session with
    | none => cases isState
    | some session =>
      cases isState
      cases found with
      | none => cases isOutcome
      | some record =>
        cases isOutcome
        exact (claims record rfl).later later (present rfl)
  unfold loadSweptSession
  dsimp only
  split
  · apply (ends_loadUploadOutcome collection.uploadId).bind
    intro read found _ claims
    exact goesOn read found claims
  · exact goesOn world none fun record isRecord => nomatch isRecord

theorem ends_sweepUploadSession (collection : Collection) (state : UploadSessionState)
    (isEnded : ∀ outcome, state.outcome = some outcome → world.ended = some outcome) :
    Ends process (fun after report => report.Reports after) world
      (sweepUploadSession collection state) := by
  unfold sweepUploadSession
  split
  · exact .done SweepReport.reports_none
  · exact .done SweepReport.reports_none
  · split
    · exact ends_abortExpiredSession collection state.session
    · rename_i isAborted
      split
      · exact .done SweepReport.reports_none
      · apply (ends_release state.session (isEnded _ isAborted)).bind
        intro released isReleased _ _
        cases isReleased with
        | false | true => exact .done SweepReport.reports_none
    · exact .done SweepReport.reports_none

theorem ends_sweepSession (collection : Collection) :
    Ends process (fun after report => report.Reports after) world (sweepSession collection) := by
  apply (ends_loadSweptSession collection).bind
  intro loaded found _ isEnded
  cases found with
  | none => exact .done SweepReport.reports_none
  | some state =>
    exact ends_sweepUploadSession collection state fun outcome => isEnded state outcome rfl

theorem ends_deleteUploadSessionRecords :
    Ends process (fun _ _ => True) world deleteUploadSessionRecords := by
  have deletesSession : Ends process (fun after _ => after.session = none) world
      (askStore .deleteSession rfl : UploadProgram Unit) := by
    apply Ends.ask
    intro before answer after _ valid served
    cases served with
    | deleteSession =>
      refine ⟨⟨(fun present => nomatch present), valid.late, valid.ended, valid.released⟩, ?_⟩
      cases answer with
      | ok value => exact .done rfl
      | error failure => exact .fail
    | deleteSessionFails => exact ⟨valid, .fail⟩
  apply deletesSession.bind
  intro deleted _ _ isGone
  apply Ends.ask
  intro before answer after relied valid served
  cases served with
  | deleteOutcome =>
    have stillGone : ¬ before.session.isSome := by
      intro present
      have wasPresent := relied.session present
      rw [isGone] at wasPresent
      cases wasPresent
    refine ⟨⟨(fun present => (stillGone present).elim), valid.late, valid.ended,
      valid.released⟩, ?_⟩
    cases answer with
    | ok value => exact .done trivial
    | error failure => exact .fail
  | deleteOutcomeFails => exact ⟨valid, .fail⟩

/-! ## Runs -/

def UploadReport.Reports (world : UploadWorld Process) : UploadReport → Prop
  | .completed upload => world.ended = some (.completed upload.completedAtMs upload.contentRef)
  | .aborted abortedAtMs => world.ended = some (.aborted abortedAtMs)
  | .swept report => report.Reports world
  | .deleted => True

variable {report : UploadReport}

theorem UploadReport.Reports.later (reports : report.Reports before)
    (later : UploadWorld.Later before after) : report.Reports after := by
  cases report with
  | completed upload => exact later.ended _ reports
  | aborted abortedAtMs => exact later.ended _ reports
  | swept report => exact fun abortedAtMs isAborted => later.ended _ (reports abortedAtMs isAborted)
  | deleted => trivial

def UploadReport.abortedAtMs : UploadReport → Option Nat
  | .aborted abortedAtMs => some abortedAtMs
  | .swept report => report.abortedAtMs
  | .completed _ | .deleted => none

theorem UploadReport.Reports.abortedAtMs_eq_none (reports : report.Reports world)
    (isEnded : world.ended = some (.completed completedAtMs contentRef)) :
    report.abortedAtMs = none := by
  cases report with
  | completed upload => rfl
  | deleted => rfl
  | aborted abortedAtMs => cases isEnded.symm.trans reports
  | swept report =>
    by_contra isAborted
    obtain ⟨abortedAtMs, isSome⟩ := Option.ne_none_iff_exists'.mp isAborted
    cases isEnded.symm.trans (reports abortedAtMs isSome)

theorem ends_run (call : UploadCall) :
    Ends process (fun after report => report.Reports after) world call.run := by
  cases call with
  | complete caller completion =>
    apply (ends_completeUpload caller completion).bind
    intro after upload _ isEnded
    exact .done isEnded
  | abort caller =>
    apply (ends_abortUpload caller).bind
    intro after abortedAtMs _ isEnded
    exact .done isEnded
  | sweep collection =>
    apply (ends_sweepSession collection).bind
    intro after report _ isEnded
    exact .done isEnded
  | deleteRecords =>
    apply ends_deleteUploadSessionRecords.bind
    intro after _ _ _
    exact .done trivial

end

/-- The session has been created, and nothing else has happened to it. -/
structure UploadWorld.Fresh {Process : Type} (world : UploadWorld Process) : Prop where
  outcome : world.outcome = none
  late : world.late = []
  ended : world.ended = none
  released : world.released = false

theorem UploadWorld.Fresh.valid {Process : Type} {world : UploadWorld Process}
    (fresh : world.Fresh) : world.Valid where
  current _ := by rw [fresh.outcome, fresh.ended]; rfl
  late process record member := by rw [fresh.late] at member; cases member
  ended outcome isEnded := by rw [fresh.ended] at isEnded; cases isEnded
  released isReleased := by rw [fresh.released] at isReleased; cases isReleased

section

variable {Process : Type} [DecidableEq Process] {calls : Process → UploadCall}
  {start : UploadWorld Process}
  {config : Config Process (UploadWorld Process) UploadError UploadRequest UploadRequest.Answer
    UploadReport}

theorem runs_report (fresh : start.Fresh)
    (runs : (uploadMachine Process).Runs ⟨start, fun process => (calls process).run⟩ config) :
    config.world.Valid ∧ ∀ process report, config.programs process = .done report →
      report.Reports config.world := by
  have startValid := fresh.valid
  obtain ⟨valid, meets⟩ := Meets.runs runs startValid (fun process => ends_run (calls process))
    (fun process before after outcome reports later report isReport =>
      (reports report isReport).later later)
  refine ⟨valid, fun process report isDone => ?_⟩
  have ends := meets process
  rw [isDone] at ends
  exact ends report rfl

/-- However completions, aborts, collections and deletions interleave, the session ends once. -/
theorem upload_ends_once (fresh : start.Fresh)
    (runs : (uploadMachine Process).Runs ⟨start, fun process => (calls process).run⟩ config) :
    (∀ process upload, config.programs process = .done (.completed upload) →
      (∀ other another, config.programs other = .done (.completed another) →
        another.contentRef = upload.contentRef ∧
          another.completedAtMs = upload.completedAtMs) ∧
      (∀ other report, config.programs other = .done report → report.abortedAtMs = none) ∧
      config.world.released = false ∧
      config.world.ended = some (.completed upload.completedAtMs upload.contentRef)) ∧
    (∀ process report, config.programs process = .done report → report.abortedAtMs ≠ none →
      ∀ other upload, config.programs other ≠ .done (.completed upload)) ∧
    (∀ completedAtMs contentRef,
      config.world.ended = some (.completed completedAtMs contentRef) →
      ∃ recorder, config.world.recorder = some recorder ∧
        (recorder, contentRef.sizeBytes, contentRef.checksum) ∈ config.world.found) := by
  obtain ⟨valid, reports⟩ := runs_report fresh runs
  refine ⟨fun process upload isDone => ?_, fun process report isDone aborted other upload => ?_, ?_⟩
  · have isEnded := reports process _ isDone
    refine ⟨fun other another otherDone => ?_, fun other report otherDone => ?_, ?_, isEnded⟩
    · have otherEnded := reports other _ otherDone
      injection isEnded.symm.trans otherEnded with sameOutcome
      injection sameOutcome with sameTime sameRef
      exact ⟨sameRef.symm, sameTime.symm⟩
    · exact (reports other report otherDone).abortedAtMs_eq_none isEnded
    · by_contra isReleased
      obtain ⟨abortedAtMs, isAborted⟩ := valid.released (Bool.eq_true_of_not_eq_false isReleased)
      cases isEnded.symm.trans isAborted
  · intro otherDone
    exact aborted ((reports process report isDone).abortedAtMs_eq_none (reports other _ otherDone))
  · intro completedAtMs contentRef isEnded
    exact valid.ended _ isEnded

end

namespace SampleUpload

def session : UploadSessionPayload := ⟨"ns", "upload", "content", none, .serviceProxied, 100⟩

def start : UploadWorld (Fin 4) :=
  { session := some session, outcome := none, content := some ⟨3, some ⟨"sha256", "abc"⟩⟩
    late := [], ended := none, recorder := none, found := [], released := false }

def completion (nowMs : Nat) : UploadCall :=
  .complete ⟨"ns", "upload", none, nowMs⟩ .serviceProxied

def calls : Fin 4 → UploadCall
  | 0 => completion 7
  | 1 => .abort ⟨"ns", "upload", none, 8⟩
  | 2 => .sweep ⟨"upload", 90, 50, 50, true, fun _ => some .active⟩
  | 3 => .deleteRecords

/-- The collection makes way for a second completion. -/
def repeatedCalls : Fin 4 → UploadCall
  | 2 => completion 9
  | process => calls process

def contentRef : ContentRef := ⟨"content", 3, ⟨"sha256", "abc"⟩⟩

def upload : CompletedUpload := ⟨"ns", "upload", .serviceProxied, contentRef, 7⟩

end SampleUpload

open SampleUpload in
/-- The completion stalls before its put, past an abort whose first response is lost and past both
deletions: its record is then created, and it is still told that there is no upload. In a second
run the put of a completion is applied although its response is lost, and another one repeats
its answer. -/
theorem upload_ends_once_stalled :
    (∃ config : Config (Fin 4) (UploadWorld (Fin 4)) UploadError UploadRequest
        UploadRequest.Answer UploadReport,
      (uploadMachine (Fin 4)).Runs ⟨start, fun process => (calls process).run⟩ config ∧
      config.programs 0 = .fail (.uploadNotFound "upload") ∧
      config.programs 1 = .done (.aborted 8) ∧
      config.programs 2 = .done (.swept ⟨.delete, none⟩) ∧ config.programs 3 = .done .deleted ∧
      config.world.outcome = some ⟨"ns", "upload", .completed 7 contentRef⟩ ∧
      ∀ other upload, config.programs other ≠ .done (.completed upload)) ∧
    ∃ config : Config (Fin 4) (UploadWorld (Fin 4)) UploadError UploadRequest
        UploadRequest.Answer UploadReport,
      (uploadMachine (Fin 4)).Runs ⟨start, fun process => (repeatedCalls process).run⟩ config ∧
      config.programs 0 = .done (.completed upload) ∧
      config.programs 1 = .fail (.uploadAlreadyCompleted "upload") ∧
      config.programs 2 = .done (.completed upload) ∧
      config.world.released = false ∧
      ∃ recorder, config.world.recorder = some recorder ∧
        (recorder, 3, ⟨"sha256", "abc"⟩) ∈ config.world.found := by
  constructor
  · have begun : (uploadMachine (Fin 4)).Runs ⟨start, fun process => (calls process).run⟩
        ⟨start, fun process => (calls process).run⟩ := .refl
    have isOpen := begun.serve 0 rfl ⟨_, .refl, .getOutcome _⟩
    have loaded := isOpen.serve 0 rfl ⟨_, .refl, .getSession _⟩
    have verified := loaded.serve 0 rfl ⟨_, .refl, .headContent _⟩
    have aborting := verified.serve 1 rfl ⟨_, .refl, .getOutcome _⟩
    have abortLoaded := aborting.serve 1 rfl ⟨_, .refl, .getSession _⟩
    have lost := abortLoaded.serve 1 rfl ⟨_, .refl, .putLate _ _⟩
    have retried := lost.serve 1 rfl ⟨_, .refl, .getOutcome _⟩
    have aborted := retried.serve 1 rfl ⟨_, .refl, .putOutcome (.stored rfl)⟩
    have confirmed := aborted.serve 1 rfl ⟨_, .refl, .headSession _⟩
    have released := confirmed.serve 1 rfl ⟨_, .refl, .deleteContent _ (.ok ())⟩
    have swept := released.serve 2 rfl ⟨_, .refl, .getOutcome _⟩
    have sweptSession := swept.serve 2 rfl ⟨_, .refl, .getSession _⟩
    have sweptContent := sweptSession.serve 2 rfl ⟨_, .refl, .deleteContent _ (.ok ())⟩
    have noSession := sweptContent.serve 3 rfl ⟨_, .refl, .deleteSession _ (.ok ())⟩
    have noOutcome := noSession.serve 3 rfl ⟨_, .refl, .deleteOutcome _ (.ok ())⟩
    have resumed := noOutcome.serve 0 rfl ⟨_, .refl, .putOutcome (.stored rfl)⟩
    have refused := resumed.serve 0 rfl ⟨_, .refl, .headSession _⟩
    have ends := upload_ends_once ⟨rfl, rfl, rfl, rfl⟩ refused
    exact ⟨_, refused, rfl, rfl, rfl, rfl, rfl, ends.2.1 1 (.aborted 8) rfl nofun⟩
  · have begun : (uploadMachine (Fin 4)).Runs ⟨start, fun process => (repeatedCalls process).run⟩
        ⟨start, fun process => (repeatedCalls process).run⟩ := .refl
    have isOpen := begun.serve 0 rfl ⟨_, .refl, .getOutcome _⟩
    have loaded := isOpen.serve 0 rfl ⟨_, .refl, .getSession _⟩
    have verified := loaded.serve 0 rfl ⟨_, .refl, .headContent _⟩
    have aborting := verified.serve 1 rfl ⟨_, .refl, .getOutcome _⟩
    have abortLoaded := aborting.serve 1 rfl ⟨_, .refl, .getSession _⟩
    have lost := abortLoaded.serve 0 rfl ⟨_, .refl, .putLate _ _⟩
    have applied := lost.serve 0 rfl
      ⟨_, .single (.apply (List.mem_singleton_self _) rfl), .getOutcome _⟩
    have confirmed := applied.serve 0 rfl ⟨_, .refl, .headSession _⟩
    have rival := confirmed.serve 1 rfl ⟨_, .refl, .putOutcome (.refused nofun)⟩
    have rivalRead := rival.serve 1 rfl ⟨_, .refl, .getOutcome _⟩
    have rivalRefused := rivalRead.serve 1 rfl ⟨_, .refl, .headSession _⟩
    have repeated := rivalRefused.serve 2 rfl ⟨_, .refl, .getOutcome _⟩
    have repeatedLoaded := repeated.serve 2 rfl ⟨_, .refl, .getSession _⟩
    have ends := upload_ends_once ⟨rfl, rfl, rfl, rfl⟩ repeatedLoaded
    exact ⟨_, repeatedLoaded, rfl, rfl, rfl, (ends.1 0 upload rfl).2.2.1,
      ends.2.2 7 contentRef rfl⟩

end LoonFs
