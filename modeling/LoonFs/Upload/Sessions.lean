import LoonFs.Foundation.ConditionalWrite
import LoonFs.Foundation.Program
import LoonFs.Manifest.Payload

/-! # Upload sessions -/

namespace LoonFs

open Foundation

abbrev UploadId := String

def maxContentionAttempts : Nat := 8

abbrev SubjectId := String

abbrev ChecksumAlgorithm := String

inductive UploadSessionMode where
  | serviceProxied
  | directPut (checksumAlgorithm : ChecksumAlgorithm)
  | directMultipart (providerUploadId : String) (partSizeBytes : Nat)
      (checksumAlgorithm : ChecksumAlgorithm)
deriving DecidableEq

def UploadSessionMode.checksumAlgorithm : UploadSessionMode → Option ChecksumAlgorithm
  | .serviceProxied => none
  | .directPut algorithm | .directMultipart _ _ algorithm => some algorithm

structure UploadSessionPayload where
  namespaceId : NamespaceId
  uploadId : UploadId
  contentId : ContentId
  subjectId : Option SubjectId
  mode : UploadSessionMode
  expiresAtMs : Nat
deriving DecidableEq

inductive UploadOutcome where
  | completed (completedAtMs : Nat) (contentRef : ContentRef)
  | aborted (abortedAtMs : Nat)
deriving DecidableEq

structure UploadOutcomePayload where
  namespaceId : NamespaceId
  uploadId : UploadId
  outcome : UploadOutcome
deriving DecidableEq

inductive DurableContentValidationError where
  | missingContentObject
  | contentLengthMismatch (expected actual : Nat)
  | storedChecksumMissing
  | contentChecksumMismatch (expected actual : Checksum)
deriving DecidableEq

inductive UploadError where
  | uploadNotFound (uploadId : UploadId)
  | uploadAlreadyCompleted (uploadId : UploadId)
  | subjectRequired (namespaceId : NamespaceId)
  | invalidUploadContent (message : String)
  /-- Invalid content as well, with the text of the failed check as its message. -/
  | contentFailure (error : DurableContentValidationError)
  | namespaceCorrupt (message : String)
  /-- A record's upload id is not the one of its key. -/
  | identityMismatch (expected found : UploadId)
  | store
deriving DecidableEq

/-! ## The store -/

structure StoredObject where
  sizeBytes : Nat
  checksum : Option Checksum
deriving DecidableEq

structure UploadWorld (Process : Type) where
  session : Option UploadSessionPayload
  outcome : Option UploadOutcomePayload
  content : Option StoredObject
  /-- Creates of the outcome record whose response was lost and that can still be
  applied. -/
  late : List (Process × UploadOutcomePayload)
  /-- The first outcome that was recorded while the session record was there. -/
  ended : Option UploadOutcome
  /-- The process that recorded this outcome. -/
  recorder : Option Process
  /-- The sizes and checksums that each process has found the content object with. -/
  found : List (Process × Nat × Checksum)
  /-- A release of the session has deleted the content object. -/
  released : Bool

inductive UploadRequest where
  | getOutcome
  | getSession
  | headSession
  | headContent
  | putOutcome (record : UploadOutcomePayload)
  | completeMultipart
  | abortMultipart
  | deleteContent
  | deleteSession
  | deleteOutcome

/-- A request is answered, or fails without saying whether it took effect. -/
abbrev StoreAnswer (Value : Type) := Except Unit Value

@[reducible] def UploadRequest.Answer : UploadRequest → Type
  | .getOutcome => StoreAnswer (Option UploadOutcomePayload)
  | .getSession => StoreAnswer (Option UploadSessionPayload)
  | .headSession => StoreAnswer Bool
  | .headContent => StoreAnswer (Option StoredObject)
  | .putOutcome _ => PutAnswer
  | .completeMultipart | .abortMultipart | .deleteContent | .deleteSession | .deleteOutcome =>
    StoreAnswer Unit

namespace UploadWorld

variable {Process : Type}

def recordOutcome (world : UploadWorld Process) (process : Process)
    (record : UploadOutcomePayload) : UploadWorld Process :=
  { world with
    outcome := some record
    ended := if world.session.isSome then world.ended.or (some record.outcome) else world.ended
    recorder :=
      if world.session.isSome && world.ended.isNone then some process else world.recorder }

/-- Between two requests clients write content, and lost creates are applied late. -/
inductive Drifts : UploadWorld Process → UploadWorld Process → Prop
  | write (world : UploadWorld Process) (content : Option StoredObject) :
      Drifts world { world with content }
  | apply {world : UploadWorld Process} {process : Process} {record : UploadOutcomePayload} :
      (process, record) ∈ world.late → world.outcome = none →
      Drifts world (world.recordOutcome process record)

inductive Serves (process : Process) :
    UploadWorld Process → (request : UploadRequest) → request.Answer → UploadWorld Process → Prop
  | getOutcome (world : UploadWorld Process) :
      Serves process world .getOutcome (.ok world.outcome) world
  | getSession (world : UploadWorld Process) :
      Serves process world .getSession (.ok world.session) world
  | headSession (world : UploadWorld Process) :
      Serves process world .headSession (.ok world.session.isSome) world
  | headContent (world : UploadWorld Process) :
      Serves process world .headContent (.ok world.content)
        { world with found := world.found ++ (world.content.bind fun stored =>
          stored.checksum.map fun checksum => (process, stored.sizeBytes, checksum)).toList }
  | putOutcome {world after : UploadWorld Process} {record : UploadOutcomePayload}
      {answer : PutAnswer} :
      ConditionalWrite (world.outcome = none) world (world.recordOutcome process record) answer
        after →
      Serves process world (.putOutcome record) answer after
  | putLate (world : UploadWorld Process) (record : UploadOutcomePayload) :
      Serves process world (.putOutcome record) .transport
        { world with late := (process, record) :: world.late }
  | completeMultipart (world : UploadWorld Process) (content : Option StoredObject)
      (answer : StoreAnswer Unit) :
      Serves process world .completeMultipart answer { world with content }
  | abortMultipart (world : UploadWorld Process) (answer : StoreAnswer Unit) :
      Serves process world .abortMultipart answer world
  | deleteContent (world : UploadWorld Process) (answer : StoreAnswer Unit) :
      Serves process world .deleteContent answer { world with content := none, released := true }
  | deleteSession (world : UploadWorld Process) (answer : StoreAnswer Unit) :
      Serves process world .deleteSession answer { world with session := none }
  | deleteOutcome (world : UploadWorld Process) (answer : StoreAnswer Unit) :
      Serves process world .deleteOutcome answer { world with outcome := none }
  | getOutcomeFails (world : UploadWorld Process) :
      Serves process world .getOutcome (.error ()) world
  | getSessionFails (world : UploadWorld Process) :
      Serves process world .getSession (.error ()) world
  | headSessionFails (world : UploadWorld Process) :
      Serves process world .headSession (.error ()) world
  | headContentFails (world : UploadWorld Process) :
      Serves process world .headContent (.error ()) world
  | deleteContentFails (world : UploadWorld Process) :
      Serves process world .deleteContent (.error ()) world
  | deleteSessionFails (world : UploadWorld Process) :
      Serves process world .deleteSession (.error ()) world
  | deleteOutcomeFails (world : UploadWorld Process) :
      Serves process world .deleteOutcome (.error ()) world

end UploadWorld

def uploadMachine (Process : Type) :
    Machine Process (UploadWorld Process) UploadRequest UploadRequest.Answer where
  serves process before request answer after :=
    ∃ drifted, Relation.ReflTransGen UploadWorld.Drifts before drifted ∧
      UploadWorld.Serves process drifted request answer after

abbrev UploadProgram (Result : Type) : Type :=
  Program UploadError UploadRequest UploadRequest.Answer Result

def askStore {Value : Type} (request : UploadRequest)
    (isAnswer : request.Answer = StoreAnswer Value) : UploadProgram Value :=
  .ask request fun answer =>
    match isAnswer ▸ answer with
    | .ok value => .done value
    | .error _ => .fail .store

/-! ## Records -/

structure UploadSessionState where
  session : UploadSessionPayload
  outcome : Option UploadOutcome

def ensureIdentity (uploadId found : UploadId) : UploadProgram Unit :=
  if found = uploadId then .done () else .fail (.identityMismatch uploadId found)

def loadUploadOutcome (uploadId : UploadId) : UploadProgram (Option UploadOutcomePayload) := do
  match ← askStore .getOutcome rfl with
  | none => return none
  | some record =>
    ensureIdentity uploadId record.uploadId
    return some record

def loadUploadSessionRecord (uploadId : UploadId) :
    UploadProgram (Option UploadSessionPayload) := do
  match ← askStore .getSession rfl with
  | none => return none
  | some session =>
    ensureIdentity uploadId session.uploadId
    return some session

def ensureOutcomeMatchesSession (session : UploadSessionPayload) (record : UploadOutcomePayload) :
    UploadProgram Unit :=
  if record.namespaceId ≠ session.namespaceId then
    .fail (.namespaceCorrupt ("upload session `" ++ session.uploadId ++
      "` belongs to namespace `" ++ session.namespaceId ++ "` but its outcome belongs to `" ++
      record.namespaceId ++ "`"))
  else
    match record.outcome with
    | .aborted _ => .done ()
    | .completed _ contentRef =>
      if contentRef.contentId ≠ session.contentId then
        .fail (.namespaceCorrupt ("upload session `" ++ session.uploadId ++
          "` owns content `" ++ session.contentId ++ "` but its outcome refers to `" ++
          contentRef.contentId ++ "`"))
      else
        match session.mode.checksumAlgorithm with
        | none => .done ()
        | some algorithm =>
          if contentRef.checksum.algorithm ≠ algorithm then
            .fail (.namespaceCorrupt ("upload session `" ++ session.uploadId ++
              "` requires `" ++ algorithm ++ "` but its completed content uses `" ++
              contentRef.checksum.algorithm ++ "`"))
          else .done ()

def loadUploadSessionState (namespaceId : NamespaceId) (uploadId : UploadId) :
    UploadProgram UploadSessionState := do
  let outcome ← loadUploadOutcome uploadId
  match (← loadUploadSessionRecord uploadId).filter
      fun session => session.namespaceId = namespaceId with
  | none => .fail (.uploadNotFound uploadId)
  | some session =>
    match outcome with
    | none => return ⟨session, none⟩
    | some record =>
      ensureOutcomeMatchesSession session record
      return ⟨session, some record.outcome⟩

inductive OutcomeCreation where
  | created
  | existing (outcome : UploadOutcome)

def createOutcomeRecord (session : UploadSessionPayload) (record : UploadOutcomePayload) :
    Nat → UploadProgram OutcomeCreation
  | 0 => .fail .store
  | attempts + 1 =>
    .ask (.putOutcome record) fun answer =>
      match answer with
      | .stored => .done .created
      | .other => .fail .store
      | answer => do
          match ← loadUploadOutcome session.uploadId with
          | some stored =>
            if stored = record then return .created
            else
              ensureOutcomeMatchesSession session stored
              return .existing stored.outcome
          | none =>
            if answer = .transport then createOutcomeRecord session record attempts
            else .fail (.uploadNotFound session.uploadId)

def createUploadOutcome (session : UploadSessionPayload) (outcome : UploadOutcome) :
    UploadProgram OutcomeCreation := do
  let creation ← createOutcomeRecord session
    { namespaceId := session.namespaceId, uploadId := session.uploadId, outcome }
    maxContentionAttempts
  if ← askStore .headSession rfl then return creation
  else .fail (.uploadNotFound session.uploadId)

def deleteUploadSessionRecords : UploadProgram Unit := do
  askStore .deleteSession rfl
  askStore .deleteOutcome rfl

/-! ## Completions -/

structure CompletedUpload where
  namespaceId : NamespaceId
  uploadId : UploadId
  mode : UploadSessionMode
  contentRef : ContentRef
  completedAtMs : Nat
deriving DecidableEq

structure UploadContentClaim where
  sizeBytes : Nat
  checksum : Checksum
deriving DecidableEq

inductive CompleteUploadBody where
  | serviceProxied
  | directPut (content : UploadContentClaim)
  /-- The parts as the provider assembles them, or why they cannot be. -/
  | directMultipart (content : UploadContentClaim) (parts : Except String Unit)

inductive CompletionPlan where
  | proxied
  | directPut (requested : ContentRef)
  | directMultipart (requested : ContentRef) (parts : Except String Unit)

def CompletionPlan.expectedCompletedContent : CompletionPlan → Option ContentRef
  | .proxied => none
  | .directPut requested | .directMultipart requested _ => some requested

def ensureSessionSubject (session : UploadSessionPayload) (subject : Option SubjectId) :
    UploadProgram Unit :=
  match session.subjectId, subject with
  | none, _ => .done ()
  | some _, none => .fail (.subjectRequired session.namespaceId)
  | some owner, some caller =>
    if owner = caller then .done () else .fail (.uploadNotFound session.uploadId)

def ensureSessionOpen (state : UploadSessionState) (nowMs : Nat) : UploadProgram Unit :=
  match state.outcome with
  | none =>
    if nowMs < state.session.expiresAtMs then .done ()
    else .fail (.uploadNotFound state.session.uploadId)
  | some (.completed _ _) => .fail (.uploadAlreadyCompleted state.session.uploadId)
  | some (.aborted _) => .fail (.uploadNotFound state.session.uploadId)

def claimedContentRef (contentId : ContentId) (claim : UploadContentClaim)
    (requiredAlgorithm : ChecksumAlgorithm) : UploadProgram ContentRef :=
  if claim.checksum.algorithm ≠ requiredAlgorithm then
    .fail (.invalidUploadContent ("checksum algorithm `" ++ claim.checksum.algorithm ++
      "` does not match the session requirement `" ++ requiredAlgorithm ++ "`"))
  else .done ⟨contentId, claim.sizeBytes, claim.checksum⟩

def UploadSessionMode.name : UploadSessionMode → String
  | .serviceProxied => "service_proxied"
  | .directPut _ => "direct_put"
  | .directMultipart _ _ _ => "direct_multipart"

def CompleteUploadBody.mode : CompleteUploadBody → String
  | .serviceProxied => "service_proxied"
  | .directPut _ => "direct_put"
  | .directMultipart _ _ => "direct_multipart"

def completionPlan (session : UploadSessionPayload) (completion : CompleteUploadBody) :
    UploadProgram CompletionPlan :=
  match session.mode, completion with
  | .serviceProxied, .serviceProxied => .done .proxied
  | .directPut algorithm, .directPut content => do
      return .directPut (← claimedContentRef session.contentId content algorithm)
  | .directMultipart _ _ algorithm, .directMultipart content parts => do
      return .directMultipart (← claimedContentRef session.contentId content algorithm) parts
  | mode, completion =>
    .fail (.invalidUploadContent ("completion mode `" ++ completion.mode ++
      "` does not match stored upload mode `" ++ mode.name ++ "`"))

def verifyDurableContentChecksum (contentRef : ContentRef) : UploadProgram Unit := do
  match ← askStore .headContent rfl with
  | none => .fail (.contentFailure .missingContentObject)
  | some stored =>
    if stored.sizeBytes ≠ contentRef.sizeBytes then
      .fail (.contentFailure (.contentLengthMismatch contentRef.sizeBytes stored.sizeBytes))
    else
      match stored.checksum with
      | none => .fail (.contentFailure .storedChecksumMissing)
      | some checksum =>
        if checksum ≠ contentRef.checksum then
          .fail (.contentFailure (.contentChecksumMismatch contentRef.checksum checksum))
        else .done ()

def findProxiedContentRef (session : UploadSessionPayload) : UploadProgram (Option ContentRef) := do
  match ← askStore .headContent rfl with
  | none => return none
  | some stored =>
    match stored.checksum with
    | none => .fail .store
    | some checksum => return some ⟨session.contentId, stored.sizeBytes, checksum⟩

def verifyCompletion (session : UploadSessionPayload) : CompletionPlan → UploadProgram ContentRef
  | .proxied => do
      match ← findProxiedContentRef session with
      | none => .fail (.invalidUploadContent "upload content has not been staged")
      | some contentRef => return contentRef
  | .directPut requested => do
      verifyDurableContentChecksum requested
      return requested
  | .directMultipart requested parts =>
    match parts with
    | .error message => .fail (.invalidUploadContent message)
    | .ok () => do
        askStore .completeMultipart rfl
        verifyDurableContentChecksum requested
        return requested

def replayTerminalCompletion (outcome : UploadOutcome) (session : UploadSessionPayload)
    (expected : Option ContentRef) : UploadProgram CompletedUpload :=
  match outcome with
  | .aborted _ => .fail (.uploadNotFound session.uploadId)
  | .completed completedAtMs contentRef =>
    if expected.any fun expected => decide (expected ≠ contentRef) then
      .fail (.uploadAlreadyCompleted session.uploadId)
    else
      .done { namespaceId := session.namespaceId, uploadId := session.uploadId,
              mode := session.mode, contentRef, completedAtMs }

def recordCompletion (session : UploadSessionPayload) (verified : ContentRef) (nowMs : Nat) :
    UploadProgram CompletedUpload := do
  let outcome := UploadOutcome.completed nowMs verified
  match ← createUploadOutcome session outcome with
  | .created => replayTerminalCompletion outcome session (some verified)
  | .existing standing => replayTerminalCompletion standing session (some verified)

structure UploadCaller where
  namespaceId : NamespaceId
  uploadId : UploadId
  subject : Option SubjectId
  /-- When the call started. -/
  nowMs : Nat

def completeUpload (caller : UploadCaller) (completion : CompleteUploadBody) :
    UploadProgram CompletedUpload := do
  let loaded ← loadUploadSessionState caller.namespaceId caller.uploadId
  ensureSessionSubject loaded.session caller.subject
  match loaded.outcome with
  | some (.completed completedAtMs contentRef) => do
      let plan ← completionPlan loaded.session completion
      replayTerminalCompletion (.completed completedAtMs contentRef) loaded.session
        plan.expectedCompletedContent
  | outcome => do
      ensureSessionOpen loaded caller.nowMs
      let plan ← completionPlan loaded.session completion
      match outcome with
      | some outcome =>
        replayTerminalCompletion outcome loaded.session plan.expectedCompletedContent
      | none =>
        let verified ← verifyCompletion loaded.session plan
        recordCompletion loaded.session verified caller.nowMs

/-! ## Aborts -/

def UploadOutcome.repeatedAbort (outcome : UploadOutcome) (uploadId : UploadId) :
    UploadProgram Nat :=
  match outcome with
  | .aborted abortedAtMs => .done abortedAtMs
  | .completed _ _ => .fail (.uploadAlreadyCompleted uploadId)

def succeeds (request : UploadRequest) (isAnswer : request.Answer = StoreAnswer Unit) :
    UploadProgram Bool :=
  .ask request fun answer => .done ((isAnswer ▸ answer : StoreAnswer Unit).toBool)

def release (session : UploadSessionPayload) : UploadProgram Bool :=
  match session.mode with
  | .directMultipart _ _ _ => do
      if ← succeeds .abortMultipart rfl then succeeds .deleteContent rfl else return false
  | _ => succeeds .deleteContent rfl

def abortUpload (caller : UploadCaller) : UploadProgram Nat := do
  let loaded ← loadUploadSessionState caller.namespaceId caller.uploadId
  ensureSessionSubject loaded.session caller.subject
  let abortedAtMs ←
    match loaded.outcome with
    | some outcome => outcome.repeatedAbort caller.uploadId
    | none => do
        match ← createUploadOutcome loaded.session (.aborted caller.nowMs) with
        | .created => pure caller.nowMs
        | .existing standing => standing.repeatedAbort caller.uploadId
  let _ ← release loaded.session
  return abortedAtMs

/-! ## Collection -/

inductive UploadSessionSweep where
  | retain (reclaimableAtMs : Option Nat)
  | delete
deriving DecidableEq

inductive RetirementStatus where
  | active
  | retained (reclaimableAtMs : Option Nat)
  | eligible
deriving DecidableEq

structure Collection where
  uploadId : UploadId
  nowMs : Nat
  graceWindowMs : Nat
  contentReclamationGraceWindowMs : Nat
  /-- Whether the listing had the outcome record. -/
  outcomeListed : Bool
  /-- The status of the namespace that a session belongs to, when it is known. -/
  status : NamespaceId → Option RetirementStatus

structure SweepReport where
  sweep : UploadSessionSweep
  abortedAtMs : Option Nat
deriving DecidableEq

def loadSweptSession (collection : Collection) : UploadProgram (Option UploadSessionState) := do
  let outcome ←
    if collection.outcomeListed then loadUploadOutcome collection.uploadId else pure none
  let session ← loadUploadSessionRecord collection.uploadId
  return session.map fun session => ⟨session, outcome.map UploadOutcomePayload.outcome⟩

def sweepCompletedSession (collection : Collection) (completedAtMs : Nat) : UploadSessionSweep :=
  if collection.nowMs - completedAtMs < collection.contentReclamationGraceWindowMs then
    .retain (some (completedAtMs + collection.contentReclamationGraceWindowMs))
  else .delete

def abortExpiredSession (collection : Collection) (session : UploadSessionPayload) :
    UploadProgram SweepReport :=
  if collection.nowMs - session.expiresAtMs < collection.graceWindowMs then
    return ⟨.retain (some (session.expiresAtMs + collection.graceWindowMs)), none⟩
  else do
    match ← (createUploadOutcome session (.aborted collection.nowMs)).attempt with
    | .ok .created =>
      let _ ← release session
      return ⟨.retain (some (collection.nowMs + collection.graceWindowMs)), some collection.nowMs⟩
    | .ok (.existing _) => return ⟨.retain none, none⟩
    | .error (.uploadNotFound _) => return ⟨.retain none, none⟩
    | .error error => .fail error

def sweepUploadSession (collection : Collection) (state : UploadSessionState) :
    UploadProgram SweepReport :=
  match collection.status state.session.namespaceId with
  | none => return ⟨.retain none, none⟩
  | some (.retained reclaimableAtMs) => return ⟨.retain reclaimableAtMs, none⟩
  | some _ =>
    match state.outcome with
    | none => abortExpiredSession collection state.session
    | some (.aborted abortedAtMs) =>
      if collection.nowMs - abortedAtMs < collection.graceWindowMs then
        return ⟨.retain (some (abortedAtMs + collection.graceWindowMs)), none⟩
      else do
        if ← release state.session then return ⟨.delete, none⟩
        else return ⟨.retain none, none⟩
    | some (.completed completedAtMs _) =>
      return ⟨sweepCompletedSession collection completedAtMs, none⟩

def sweepSession (collection : Collection) : UploadProgram SweepReport := do
  match ← loadSweptSession collection with
  | none => return ⟨.retain none, none⟩
  | some state => sweepUploadSession collection state

/-! ## Calls -/

inductive UploadCall where
  | complete (caller : UploadCaller) (completion : CompleteUploadBody)
  | abort (caller : UploadCaller)
  | sweep (collection : Collection)
  | deleteRecords

inductive UploadReport where
  | completed (upload : CompletedUpload)
  | aborted (abortedAtMs : Nat)
  | swept (report : SweepReport)
  | deleted
deriving DecidableEq

def UploadCall.run : UploadCall → UploadProgram UploadReport
  | .complete caller completion => do return .completed (← completeUpload caller completion)
  | .abort caller => do return .aborted (← abortUpload caller)
  | .sweep collection => do return .swept (← sweepSession collection)
  | .deleteRecords => do
      deleteUploadSessionRecords
      return .deleted

end LoonFs
