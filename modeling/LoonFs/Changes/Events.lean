import LoonFs.Diff.Pages

/-! # The events of a commit -/

namespace LoonFs

inductive ChangeFeedError where
  | read (error : ChangeReadError)
  /-- The position is below the retained history. -/
  | rebootstrapRequired (afterSeq retentionFloorSeq : ChangeSeq)
  | invalidCursor (message : String)
  | namespaceCorrupt (message : String)
  /-- A failed assertion, which ends the process. -/
  | panicked (message : String)
deriving DecidableEq

abbrev BindingVersion := String

inductive FilesystemEvent where
  | directoryCreated (inodeId parentInodeId : InodeId) (displayName : DisplayName)
      (bindingVersion : BindingVersion)
  | fileCreated (inodeId parentInodeId : InodeId) (displayName : DisplayName)
      (bindingVersion : BindingVersion) (revisionNo : RevisionNo) (contentRef : ContentRef)
  | contentChanged (inodeId : InodeId) (revisionNo : RevisionNo) (contentRef : ContentRef)
      (appendOffset : Option Nat)
  | moved (inodeId sourceParentInodeId : InodeId) (sourceDisplayName : DisplayName)
      (destinationParentInodeId : InodeId) (destinationDisplayName : DisplayName)
      (bindingVersion : BindingVersion)
  | deleted (inodeId : InodeId) (deletedBinding : DeletedBinding)
  | undeleted (inodeId parentInodeId : InodeId) (displayName : DisplayName)
      (bindingVersion : BindingVersion)
  | attributesChanged (inodeId : InodeId) (attributesRevisionNo : AttributesRevisionNo)
      (attributes : Attributes)
  | accessChanged (inodeId : InodeId) (accessRevisionNo : AccessRevisionNo) (boundary : Bool)
      (grants : AccessGrants)
deriving DecidableEq

/-- What rendering events needs: the encoding of a version, and the sizes of events. -/
structure EventRendering where
  bindingVersion : DeltaPosition → BindingVersion
  eventBytes : FilesystemEvent → Nat
  eventsBytes : List FilesystemEvent → Nat

structure CommitEvents where
  events : List FilesystemEvent
  /-- The first event that the page did not build. -/
  nextEventIndex : Option Nat
deriving DecidableEq

section

variable (rendering : EventRendering) (committedSeq : ChangeSeq)

def noPattern (deltas : List WalDelta) : Except ChangeFeedError FilesystemEvent :=
  .error (.namespaceCorrupt ("commit " ++ toString committedSeq ++ " has an operation whose " ++
    toString deltas.length ++ " deltas form no pattern the change feed maps"))

def eventFromOpDeltas (deltas : List WalDelta) : Except ChangeFeedError FilesystemEvent :=
  let version := fun deltaIndex => rendering.bindingVersion ⟨committedSeq, deltaIndex⟩
  match deltas with
  | [.createInode _ inodeId .directory,
      .bindDirentry deltaIndex parentInodeId _ displayName childInodeId _ _ _ _] =>
      if childInodeId = inodeId then
        .ok (.directoryCreated inodeId parentInodeId displayName (version deltaIndex))
      else noPattern committedSeq deltas
  | [.createInode _ inodeId .file,
      .bindDirentry deltaIndex parentInodeId _ displayName childInodeId _ _ _ _,
      .appendFileRevision _ revisionInodeId _ _ _ _ _ _ revisionNo contentRef _ _] =>
      if childInodeId = inodeId ∧ revisionInodeId = inodeId then
        .ok (.fileCreated inodeId parentInodeId displayName (version deltaIndex) revisionNo
          contentRef)
      else noPattern committedSeq deltas
  | [.appendFileRevision _ inodeId _ _ _ _ _ _ revisionNo contentRef _ appendOffset] =>
    .ok (.contentChanged inodeId revisionNo contentRef appendOffset)
  | [.unbindDirentry _ sourceParentInodeId _ fromName childInodeId _ _ _ _,
      .bindDirentry deltaIndex destinationParentInodeId _ toName boundInodeId _ _ _ _] =>
      if childInodeId = boundInodeId then
        .ok (.moved childInodeId sourceParentInodeId fromName destinationParentInodeId toName
          (version deltaIndex))
      else noPattern committedSeq deltas
  | [.unbindDirentry _ _ _ _ childInodeId _ _ _ _,
      .tombstoneSubtree _ rootInodeId _ deletedBinding] =>
      if childInodeId = rootInodeId then .ok (.deleted rootInodeId deletedBinding)
      else noPattern committedSeq deltas
  | [.revokeSubtreeTombstone _ rootInodeId _,
      .bindDirentry deltaIndex parentInodeId _ displayName childInodeId _ _ _ _] =>
      if rootInodeId = childInodeId then
        .ok (.undeleted rootInodeId parentInodeId displayName (version deltaIndex))
      else noPattern committedSeq deltas
  | [.appendAttributesRevision _ inodeId attributesRevisionNo attributes] =>
    .ok (.attributesChanged inodeId attributesRevisionNo attributes)
  | [.appendAccessRevision _ inodeId accessRevisionNo boundary grants] =>
    .ok (.accessChanged inodeId accessRevisionNo boundary grants)
  | other => noPattern committedSeq other

def eventFromGroup (group : List WalCommitDelta) : Except ChangeFeedError FilesystemEvent :=
  eventFromOpDeltas rendering committedSeq (group.map WalCommitDelta.delta)

/-- Builds the events of the groups, up to the one that would take them past `maxHeapBytes`. -/
def buildEvents (maxHeapBytes : Option Nat) :
    List FilesystemEvent → Nat → Nat → List (List WalCommitDelta) →
      Except ChangeFeedError CommitEvents
  | events, _, _, [] => .ok { events, nextEventIndex := none }
  | events, heapBytes, eventIndex, group :: groups => do
      let event ← eventFromGroup rendering committedSeq group
      let heapBytes := heapBytes + rendering.eventBytes event
      if maxHeapBytes.any fun max => events ≠ [] ∧ heapBytes > max then
        pure { events, nextEventIndex := some eventIndex }
      else
        buildEvents maxHeapBytes (events ++ [event]) heapBytes (eventIndex + 1) groups

def eventsFromWalDeltasWithin (deltas : List WalCommitDelta) (firstEventIndex : Nat)
    (maxHeapBytes : Option Nat) : Except ChangeFeedError CommitEvents :=
  let groups := semanticOperationGroups deltas
  -- Skipping a group that is missing and resuming at the end are both refused.
  if firstEventIndex > 0 ∧ groups.length ≤ firstEventIndex then
    .error (.read (.invalidEventIndex ("commit `" ++ toString committedSeq ++
      "` has no event at index " ++ toString firstEventIndex)))
  else
    buildEvents rendering committedSeq maxHeapBytes [] 0 firstEventIndex
      (groups.drop firstEventIndex)

def eventsFromWalDeltas (deltas : List WalCommitDelta) :
    Except ChangeFeedError (List FilesystemEvent) := do
  let built ← eventsFromWalDeltasWithin rendering committedSeq deltas 0 none
  return built.events

end

variable {rendering : EventRendering} {committedSeq : ChangeSeq}

def Renders (rendering : EventRendering) (committedSeq : ChangeSeq) :
    List (List WalCommitDelta) → List FilesystemEvent → Prop :=
  List.Forall₂ fun group event => eventFromGroup rendering committedSeq group = .ok event

theorem Renders.drop (renders : Renders rendering committedSeq groups events) (count : Nat) :
    Renders rendering committedSeq (groups.drop count) (events.drop count) :=
  List.forall₂_drop count renders

theorem Renders.buildEvents (renders : Renders rendering committedSeq groups events)
    (maxHeapBytes : Option Nat) (before : List FilesystemEvent) (heapBytes eventIndex : Nat) :
    ∃ count ≤ events.length,
      LoonFs.buildEvents rendering committedSeq maxHeapBytes before heapBytes eventIndex groups =
        .ok { events := before ++ events.take count
              nextEventIndex :=
                if count < events.length then some (eventIndex + count) else none } ∧
      (maxHeapBytes = none → count = events.length) ∧
      (before = [] → events ≠ [] → 0 < count) := by
  induction renders generalizing before heapBytes eventIndex with
  | nil =>
    exact ⟨0, le_rfl, by simp [LoonFs.buildEvents], fun _ => rfl, fun _ some => absurd rfl some⟩
  | @cons group event groups events built renders induction =>
    rw [LoonFs.buildEvents, built]
    simp only [bind, Except.bind]
    split
    next stops =>
      refine ⟨0, Nat.zero_le _, ?_, ?_, ?_⟩
      · simp [pure, Except.pure]
      · rintro rfl
        simp at stops
      · rintro rfl
        cases maxHeapBytes <;> simp at stops
    next =>
      rcases induction (before ++ [event]) (heapBytes + rendering.eventBytes event)
        (eventIndex + 1) with ⟨count, le, isBuilt, all, _⟩
      refine ⟨count + 1, by simpa using le, ?_, ?_, fun _ _ => Nat.succ_pos count⟩
      · rw [isBuilt]
        simp [Nat.add_assoc, Nat.add_comm 1 count]
      · intro unbounded
        simp [all unbounded]

theorem renders_of_buildEvents
    (isBuilt : buildEvents rendering committedSeq none before heapBytes eventIndex groups =
      .ok built) :
    ∃ events, built.events = before ++ events ∧ Renders rendering committedSeq groups events := by
  induction groups generalizing before heapBytes eventIndex with
  | nil =>
    cases isBuilt
    exact ⟨[], by simp, .nil⟩
  | cons group groups induction =>
    rcases Foundation.bind_eq_ok.mp isBuilt with ⟨event, isEvent, isBuilt⟩
    rw [if_neg (by simp)] at isBuilt
    rcases induction isBuilt with ⟨events, eq, renders⟩
    exact ⟨event :: events, by simp [eq], .cons isEvent renders⟩

theorem eventsFromWalDeltas_eq_ok_iff :
    eventsFromWalDeltas rendering committedSeq deltas = .ok events ↔
      Renders rendering committedSeq (semanticOperationGroups deltas) events := by
  rw [eventsFromWalDeltas, eventsFromWalDeltasWithin, if_neg (by simp), List.drop_zero]
  constructor
  · intro succeeds
    rcases Foundation.bind_eq_ok.mp succeeds with ⟨built, isBuilt, returned⟩
    cases returned
    rcases renders_of_buildEvents isBuilt with ⟨events, eq, renders⟩
    rw [List.nil_append] at eq
    exact eq ▸ renders
  · intro renders
    rcases renders.buildEvents none [] 0 0 with ⟨count, _, isBuilt, all, _⟩
    rw [isBuilt, all rfl]
    simp [bind, Except.bind, pure, Except.pure]

end LoonFs
