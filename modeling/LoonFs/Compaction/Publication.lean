import Mathlib.Data.Finset.Dedup
import LoonFs.Compaction.Plan
import LoonFs.Manifest.Publish

/-! # Publishing a metadata compaction -/

namespace LoonFs

open List Option

abbrev SegmentKey := NamespaceId × ObjectId

def metadataSegmentObjectKey (descriptor : MetadataSegmentRef) : SegmentKey :=
  (descriptor.ownerNamespaceId, descriptor.segmentId)

inductive CompactionUnitOutcome where
  | notNeeded
  | cancelled
  | abandoned
  | fenced
deriving DecidableEq

/-- What the clock and the cancellation flag answer in one attempt. -/
structure CompactionSignals where
  expired : Bool
  cancelled : Bool
  cancelledBeforeSwap : Bool
  expiredBeforeSwap : Bool

/-- The runs of the numbers, or nothing when one of them is gone. -/
def inputRuns (runs : List MetadataRunRef) : List RunNo → Option (List MetadataRunRef)
  | [] => some []
  | runNo :: rest => do
      let run ← runs.find? (·.runNo = runNo)
      let others ← inputRuns runs rest
      return run :: others

def inputSegmentKeys (runs : List MetadataRunRef) (spec : MetadataCompactionSpec) :
    Option (Finset SegmentKey) :=
  (inputRuns runs spec.inputs).map fun inputs =>
    ((inputs.flatMap (MetadataRunRef.groupRunDescriptors spec.group)).map
      metadataSegmentObjectKey).toFinset

def nextRunNoAfter (current : RunNo) : Except CoreError RunNo :=
  match nextPublicOrdinal current with
  | some next => .ok next
  | none => .error (.namespaceCorrupt
      (s!"the manifest's next run number is {current}, the largest run number, so no " ++
        "run can follow it"))

def successorListing (previous : NamespaceManifestPayload) (runs : List MetadataRunRef) :
    Except CoreError NamespaceManifestPayload :=
  match previous.successor runs with
  | some next => .ok next
  | none => .error (noManifestAfter previous.manifestNo)

structure ReplacementOutput where
  segments : List MetadataSegmentRef
  placement : CompactionPlacement

/-- The run that lists the output. A unit whose rows were all dropped writes none. -/
def ReplacementOutput.runs (output : ReplacementOutput) (runNo : RunNo) : List MetadataRunRef :=
  if output.segments = [] then []
  else [
    { runNo
      runSeq := output.placement.outputSeq
      tier := output.placement.outputTier
      segments := output.segments }]

def ReplacementOutput.nextRunNo (output : ReplacementOutput) (current : RunNo) :
    Except CoreError RunNo :=
  if output.segments = [] then .ok current else nextRunNoAfter current

def buildReplacementManifest (namespaceId : NamespaceId) (previous : NamespaceManifestPayload)
    (surviving : List MetadataRunRef) (output : ReplacementOutput) (floorSeq : ChangeSeq) :
    Except CoreError NamespaceManifestPayload := do
  let nextRunNo ← output.nextRunNo previous.nextRunNo
  let next ← successorListing previous (surviving ++ output.runs previous.nextRunNo)
  return { next with
    namespaceId
    nextRunNo
    retentionFloorSeq := max previous.retentionFloorSeq floorSeq }

def MetadataRunRef.without (inputKeys : Finset SegmentKey) (run : MetadataRunRef) :
    Option MetadataRunRef :=
  let segments := run.segments.filter fun descriptor =>
    metadataSegmentObjectKey descriptor ∉ inputKeys
  if segments = [] then none else some { run with segments }

def finalizeMetadataCompaction (namespaceId : NamespaceId) (signals : CompactionSignals)
    (compactorEpoch : CompactorEpoch) (spec : MetadataCompactionSpec)
    (inputKeys : Finset SegmentKey) (outputSegments : List MetadataSegmentRef)
    (previous : NamespaceManifestPayload) :
    Except CoreError (ManifestChange (Option CompactionUnitOutcome)) :=
  if signals.expired then .ok (.finished (some .abandoned))
  else if signals.cancelled then .ok (.finished (some .cancelled))
  else if previous.status.isDeleted then .ok (.finished (some .abandoned))
  else if previous.compactorEpoch ≠ compactorEpoch then .ok (.finished (some .fenced))
  else if inputSegmentKeys (runsNewestFirst previous) spec ≠ some inputKeys then
    -- The unit's input runs moved while it ran.
    .ok (.finished (some .abandoned))
  else do
    let manifest ← buildReplacementManifest namespaceId previous
      (previous.runs.filterMap (MetadataRunRef.without inputKeys))
      { segments := outputSegments, placement := spec.placement } spec.frozenFloorSeq
    if signals.cancelledBeforeSwap then return .finished (some .cancelled)
    else if signals.expiredBeforeSwap then return .finished (some .abandoned)
    else return .next manifest none

section

variable {runs : List MetadataRunRef}
  (unique : ∀ run ∈ runs, ∀ other ∈ runs, run.runNo = other.runNo → run = other)

theorem mem_of_find (found : runs.find? (·.runNo = runNo) = some run) :
    run ∈ runs ∧ run.runNo = runNo :=
  ⟨mem_of_find?_eq_some found, by simpa using find?_some found⟩

include unique in
theorem mem_inputRuns (read : inputRuns runs numbers = some inputs) :
    run ∈ inputs ↔ run ∈ runs ∧ run.runNo ∈ numbers := by
  induction numbers generalizing inputs with
  | nil =>
    cases read
    simp
  | cons runNo rest induction =>
    simp only [inputRuns, Option.bind_eq_bind, Option.bind_eq_some_iff, Option.pure_def,
      Option.some.injEq] at read
    obtain ⟨first, found, others, readRest, isInputs⟩ := read
    obtain ⟨firstMember, firstNo⟩ := mem_of_find found
    subst isInputs
    rw [List.mem_cons, induction readRest, List.mem_cons]
    constructor
    · intro mem
      rcases mem with isFirst | ⟨mem, isNo⟩
      · subst isFirst
        exact ⟨firstMember, .inl firstNo⟩
      · exact ⟨mem, .inr isNo⟩
    · intro ⟨mem, isNo⟩
      rcases isNo with isFirst | isNo
      · exact .inl (unique run mem first firstMember (isFirst.trans firstNo.symm))
      · exact .inr ⟨mem, isNo⟩

theorem exists_of_inputRuns (read : inputRuns runs numbers = some inputs)
    (isInput : runNo ∈ numbers) : ∃ run ∈ runs, run.runNo = runNo := by
  induction numbers generalizing inputs with
  | nil => cases isInput
  | cons first rest induction =>
    simp only [inputRuns, bind_eq_bind, bind_eq_some_iff] at read
    obtain ⟨run, found, others, readRest, _⟩ := read
    rcases mem_cons.mp isInput with isFirst | isInput
    · subst isFirst
      exact ⟨run, mem_of_find found⟩
    · exact induction readRest isInput

include unique in
theorem mem_inputSegmentKeys (read : inputSegmentKeys runs spec = some inputKeys) :
    key ∈ inputKeys ↔ ∃ run ∈ runs, run.runNo ∈ spec.inputs ∧
      ∃ segment ∈ run.groupRunDescriptors spec.group, metadataSegmentObjectKey segment = key := by
  rw [inputSegmentKeys, Option.map_eq_some_iff] at read
  obtain ⟨inputs, readRuns, isKeys⟩ := read
  subst isKeys
  simp only [List.mem_toFinset, List.mem_map, List.mem_flatMap, mem_inputRuns unique readRuns]
  constructor
  · intro ⟨segment, ⟨run, ⟨mem, isInput⟩, isSegment⟩, isKey⟩
    exact ⟨run, mem, isInput, segment, isSegment, isKey⟩
  · intro ⟨run, mem, isInput, segment, isSegment, isKey⟩
    exact ⟨segment, ⟨run, ⟨mem, isInput⟩, isSegment⟩, isKey⟩

theorem exists_of_inputSegmentKeys (read : inputSegmentKeys runs spec = some inputKeys)
    (isInput : runNo ∈ spec.inputs) : ∃ run ∈ runs, run.runNo = runNo := by
  rw [inputSegmentKeys, map_eq_some_iff] at read
  obtain ⟨inputs, readRuns, _⟩ := read
  exact exists_of_inputRuns readRuns isInput

end

theorem nextRunNoAfter_eq_ok (after : nextRunNoAfter current = .ok new) : new = current + 1 := by
  rw [nextRunNoAfter] at after
  split at after
  · rename_i found
    cases after
    exact (nextPublicOrdinal_eq_some.mp found).1
  · cases after

theorem successorListing_eq_ok (successor : successorListing previous runs = .ok new) :
    nextPublicOrdinal previous.manifestNo = some new.manifestNo ∧
      new = { previous with manifestNo := new.manifestNo, runs } := by
  rw [successorListing] at successor
  split at successor
  · rename_i found
    cases successor
    rw [NamespaceManifestPayload.successor, map_eq_some_iff] at found
    obtain ⟨manifestNo, isManifestNo, isSuccessor⟩ := found
    subst isSuccessor
    exact ⟨isManifestNo, rfl⟩
  · cases successor

variable {output : ReplacementOutput}

theorem ReplacementOutput.nextRunNo_eq_ok (after : output.nextRunNo current = .ok new) :
    new = current + (output.runs current).length := by
  rw [ReplacementOutput.nextRunNo] at after
  rw [ReplacementOutput.runs]
  split at after
  · rename_i empty
    cases after
    simp [empty]
  · rename_i written
    simp [written, nextRunNoAfter_eq_ok after]

theorem buildReplacementManifest_eq_ok
    (built : buildReplacementManifest namespaceId previous surviving output floorSeq = .ok new) :
    nextPublicOrdinal previous.manifestNo = some new.manifestNo ∧ new = { previous with
        namespaceId
        manifestNo := new.manifestNo
        runs := surviving ++ output.runs previous.nextRunNo
        nextRunNo := previous.nextRunNo + (output.runs previous.nextRunNo).length
        retentionFloorSeq := max previous.retentionFloorSeq floorSeq } := by
  rw [buildReplacementManifest, Foundation.bind_eq_ok] at built
  obtain ⟨nextRunNo, isNumber, built⟩ := built
  rw [Foundation.bind_eq_ok] at built
  obtain ⟨successor, isSuccessor, isNext⟩ := built
  have numbered := output.nextRunNo_eq_ok isNumber
  obtain ⟨isManifestNo, isSuccessor⟩ := successorListing_eq_ok isSuccessor
  have isNext := Foundation.pure_eq_ok.mp isNext
  rw [numbered] at isNext
  subst isNext
  refine ⟨isManifestNo, ?_⟩
  rw [isSuccessor]

theorem finalizeMetadataCompaction_eq_next
    (published : finalizeMetadataCompaction space signals compactorEpoch spec inputKeys
      outputSegments previous = .ok (.next new response)) : previous.status.isDeleted = false ∧
      inputSegmentKeys (runsNewestFirst previous) spec = some inputKeys ∧
      buildReplacementManifest space previous
        (previous.runs.filterMap (MetadataRunRef.without inputKeys))
        { segments := outputSegments, placement := spec.placement } spec.frozenFloorSeq =
          .ok new := by
  rw [finalizeMetadataCompaction] at published
  split at published
  · cases published
  split at published
  · cases published
  split at published
  · cases published
  rename_i live
  split at published
  · cases published
  split at published
  · cases published
  rename_i unmoved
  rw [Foundation.bind_eq_ok] at published
  obtain ⟨manifest, built, swapped⟩ := published
  split at swapped
  · cases swapped
  split at swapped
  · cases swapped
  cases swapped
  exact ⟨by simpa using live, not_not.mp unmoved, built⟩

end LoonFs
