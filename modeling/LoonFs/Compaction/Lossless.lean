import LoonFs.Manifest.Lineage

/-! # What a published compaction keeps -/

namespace LoonFs

open List

def MetadataCompactionSpec.leaves (spec : MetadataCompactionSpec) (run : MetadataRunRef) :
    Option MetadataRunRef :=
  if run.runNo ∈ spec.inputs then
    let segments := run.segments.filter fun segment => segment.family ∉ spec.group.families
    if segments = [] then none else some { run with segments }
  else some run

section

variable (listed : WellListed manifest)
  (read : inputSegmentKeys (runsNewestFirst manifest) spec = some inputKeys)
include listed read

theorem mem_keys_iff : key ∈ inputKeys ↔ ∃ run ∈ manifest.runs, run.runNo ∈ spec.inputs ∧
      ∃ segment ∈ run.groupRunDescriptors spec.group, metadataSegmentObjectKey segment = key := by
  have unique : ∀ run ∈ runsNewestFirst manifest, ∀ other ∈ runsNewestFirst manifest,
      run.runNo = other.runNo → run = other := by
    intro run mem other otherMem
    exact listed.unique run (mem_runsNewestFirst.mp mem) other
      (mem_runsNewestFirst.mp otherMem)
  simpa using mem_inputSegmentKeys unique read

theorem segment_mem_keys_iff {segment : MetadataSegmentRef} (mem : run ∈ manifest.runs)
    (isSegment : segment ∈ run.segments) : metadataSegmentObjectKey segment ∈ inputKeys ↔
      run.runNo ∈ spec.inputs ∧ segment.family ∈ spec.group.families := by
  rw [mem_keys_iff listed read]
  constructor
  · intro ⟨input, isInput, isNo, another, isAnother, sameKey⟩
    rw [MetadataRunRef.groupRunDescriptors, mem_filter, decide_eq_true_eq] at isAnother
    obtain ⟨same, sameRun⟩ := listed.segment_unique isInput mem isAnother.1 isSegment sameKey
    subst same sameRun
    exact ⟨isNo, isAnother.2⟩
  · intro ⟨isNo, inGroup⟩
    exact ⟨run, mem, isNo, segment, mem_filter.mpr ⟨isSegment, decide_eq_true inGroup⟩, rfl⟩

theorem without_eq_leaves (mem : run ∈ manifest.runs) :
    run.without inputKeys = spec.leaves run := by
  rw [MetadataRunRef.without, MetadataCompactionSpec.leaves]
  by_cases isInput : run.runNo ∈ spec.inputs
  · have same : run.segments.filter (metadataSegmentObjectKey · ∉ inputKeys) =
        run.segments.filter (·.family ∉ spec.group.families) := by
      apply filter_congr
      intro segment isSegment
      simp [segment_mem_keys_iff listed read mem isSegment, isInput]
    simp only [isInput, if_true, same]
  · have same : run.segments.filter (metadataSegmentObjectKey · ∉ inputKeys) = run.segments := by
      rw [filter_eq_self]
      intro segment isSegment
      simp [segment_mem_keys_iff listed read mem isSegment, isInput]
    simp only [isInput, if_false, same, listed.written run mem]

end

theorem inputs_unchanged {spec : MetadataCompactionSpec} (isPlan : spec.PlannedOn planned)
    (plannedListed : WellListed planned) (listed : WellListed current)
    (descends : Descends planned current)
    (recorded : inputSegmentKeys (runsNewestFirst planned) spec = some inputKeys)
    (found : inputSegmentKeys (runsNewestFirst current) spec = some inputKeys)
    (mem : run ∈ planned.runs) (isInput : run.runNo ∈ spec.inputs) :
    ∃ left ∈ current.runs, run.Leaves left ∧
      left.groupRunDescriptors spec.group = run.groupRunDescriptors spec.group := by
  -- An input run of the current manifest is what is left of the planned one.
  have origin {left : MetadataRunRef} (isLeft : left ∈ current.runs)
      (leftInput : left.runNo ∈ spec.inputs) : ∃ source ∈ planned.runs, source.Leaves left := by
    obtain ⟨source, isSource, sourceNo, _⟩ := isPlan.inputs _ leftInput
    exact descends left isLeft (sourceNo ▸ plannedListed.run_below isSource)
  obtain ⟨left, isLeft, leftNo⟩ := exists_of_inputSegmentKeys found isInput
  rw [mem_runsNewestFirst] at isLeft
  obtain ⟨source, isSource, leaves⟩ := origin isLeft (leftNo ▸ isInput)
  have isRun := plannedListed.unique source isSource run mem (leaves.runNo.symm.trans leftNo)
  subst isRun
  refine ⟨left, isLeft, leaves, ?_⟩
  have kept : (left.groupRunDescriptors spec.group).Sublist
      (source.groupRunDescriptors spec.group) := leaves.segments.filter _
  have complete : source.groupRunDescriptors spec.group ⊆
      left.groupRunDescriptors spec.group := by
    intro segment isSegment
    have isKey : metadataSegmentObjectKey segment ∈ inputKeys :=
      (mem_keys_iff plannedListed recorded).mpr
        ⟨source, isSource, isInput, segment, isSegment, rfl⟩
    obtain ⟨other, isOther, otherInput, another, isAnother, sameKey⟩ :=
      (mem_keys_iff listed found).mp isKey
    obtain ⟨otherSource, isOtherSource, otherLeaves⟩ := origin isOther otherInput
    have inSource := otherLeaves.segments.subset (mem_of_mem_filter isAnother)
    obtain ⟨same, sameRun⟩ := plannedListed.segment_unique isOtherSource isSource inSource
      (mem_of_mem_filter isSegment) sameKey
    subst same sameRun
    rwa [listed.unique left isLeft other isOther (leaves.runNo.trans otherLeaves.runNo.symm)]
  have distinct : (source.groupRunDescriptors spec.group).Nodup :=
    (plannedListed.segments_nodup isSource).filter _
  exact kept.eq_of_length_le (distinct.subperm complete).length_le

/-- What a unit's publication owes to the current manifest and to the planned one. -/
structure ReplacesInputs (earlier : List NamespaceManifestPayload)
    (planned current next : NamespaceManifestPayload) (spec : MetadataCompactionSpec)
    (outputSegments : List MetadataSegmentRef) : Prop where
  runs : next.runs = current.runs.filterMap spec.leaves ++
    ReplacementOutput.runs ⟨outputSegments, spec.placement⟩ current.nextRunNo
  /-- The segments that the input runs lose are the ones that the plan listed. -/
  inputs : ∀ run ∈ planned.runs, run.runNo ∈ spec.inputs → ∃ left ∈ current.runs,
    run.Leaves left ∧
      left.groupRunDescriptors spec.group = run.groupRunDescriptors spec.group
  /-- No manifest of the chain has used the output's number. -/
  number : ∀ manifest ∈ current :: earlier, current.nextRunNo ∉ manifest.runNos
  below : ∀ runNo ∈ next.runNos, runNo < next.nextRunNo
  retentionFloorSeq : current.retentionFloorSeq ≤ next.retentionFloorSeq
  legal : current.ensureSuccessor next = .ok ()

/-- A unit planned on a manifest of the chain publishes nothing or replaces its inputs. -/
theorem compaction_publication_replaces_inputs
    {earlier : List NamespaceManifestPayload} {planned current next : NamespaceManifestPayload}
    {policy : CompactionRunPolicy} {spec : MetadataCompactionSpec}
    {inputKeys : Finset SegmentKey} {signals : CompactionSignals}
    {compactorEpoch : CompactorEpoch} {outputSegments : List MetadataSegmentRef}
    {response : Option CompactionUnitOutcome}
    (lineage : Lineage (current :: earlier)) (isPlanned : planned ∈ current :: earlier)
    (plan : planCompaction planned policy = some spec)
    (recorded : inputSegmentKeys (runsNewestFirst planned) spec = some inputKeys)
    (generated : Generated current outputSegments)
    (published : finalizeMetadataCompaction current.namespaceId signals compactorEpoch spec
      inputKeys outputSegments current = .ok (.next next response)) :
    ReplacesInputs earlier planned current next spec outputSegments := by
  have isPlan := planCompaction_plannedOn plan
  have listed := lineage.wellListed current mem_cons_self
  have plannedListed := lineage.wellListed planned isPlanned
  have descends := (lineage.descends current rfl planned isPlanned).1
  have relists := finalizeMetadataCompaction_relists generated published
  obtain ⟨live, found, built⟩ := finalizeMetadataCompaction_eq_next published
  obtain ⟨isNumber, isNext⟩ := buildReplacementManifest_eq_ok built
  have floor : current.retentionFloorSeq ≤ next.retentionFloorSeq := by
    rw [isNext]
    exact Nat.le_max_left _ _
  have counter : current.nextRunNo ≤ next.nextRunNo := by
    rw [isNext]
    exact Nat.le_add_right _ _
  refine ⟨?_, ?_, ?_, (relists.wellListed listed counter).below, floor, ?_⟩
  · rw [isNext]
    exact congrArg (· ++ _)
      (filterMap_congr fun run member => without_eq_leaves listed found member)
  · intro run member isInput
    exact inputs_unchanged isPlan plannedListed listed descends recorded found member isInput
  · intro manifest member used
    have below := (lineage.wellListed manifest member).below _ used
    exact Nat.lt_irrefl _ (below.trans_le (lineage.descends current rfl manifest member).2)
  · rw [NamespaceManifestPayload.ensureSuccessor_eq_ok]
    refine ⟨?_, isNumber⟩
    rw [isNext] at floor counter ⊢
    exact ⟨rfl, Nat.le_refl _, Nat.le_refl _, Nat.le_refl _, Nat.le_refl _, floor, counter, rfl,
      rfl, rfl, rfl, rfl, live, Nat.le_refl _, Nat.le_refl _, Nat.le_refl _, fun _ => rfl⟩

namespace SampleUnit

def segment (segmentId : ObjectId) : MetadataSegmentRef where
  ownerNamespaceId := "ns"
  segmentId
  family := .inodes
  rowCount := 1
  objectBytes := 1
  rows := []

def listing (manifestNo : ManifestNo) (runs : List MetadataRunRef) : NamespaceManifestPayload :=
  { NamespaceManifestPayload.initial "ns" 0 "creator" .unrestricted with
    manifestNo
    foldedWalNo := manifestNo - 1
    headSeq := manifestNo - 1
    nextRunNo := runs.length
    runs }

def first : MetadataRunRef := ⟨0, 1, .base, [segment "a"]⟩
def second : MetadataRunRef := ⟨1, 2, .delta, [segment "b"]⟩
def third : MetadataRunRef := ⟨2, 3, .delta, [segment "c"]⟩

def planned : NamespaceManifestPayload := listing 3 [first, second]
def current : NamespaceManifestPayload := listing 4 [first, second, third]

def published : NamespaceManifestPayload :=
  { current with
    manifestNo := 5
    nextRunNo := 4
    runs := [third, ⟨3, 2, .base, [segment "d"]⟩] }

def policy : CompactionRunPolicy where
  maxDeltaRuns := 8
  minCompactionRuns := 2
  maxInputRunsPerStep := 8
  maxDeltaRuns_pos := by decide
  minCompactionRuns_pos := by decide
  maxInputRunsPerStep_pos := by decide

def spec : MetadataCompactionSpec where
  group := .inodes
  inputs := [0, 1]
  inputRows := 2
  placement := .base 2
  frozenFloorSeq := 0

def signals : CompactionSignals := ⟨false, false, false, false⟩

theorem generated (unlisted : ("ns", segmentId) ∉ (runs.flatMap MetadataRunRef.segments).map
      metadataSegmentObjectKey) : Generated (listing manifestNo runs) [segment segmentId] where
  distinct := nodup_singleton _
  unlisted listed isListed := by
    cases mem_singleton.mp isListed
    exact unlisted

theorem folded (lineage : Lineage (listing manifestNo runs :: past)) (head : FoldedHead)
    (segmentId : ObjectId)
    (unlisted : ("ns", segmentId) ∉ (runs.flatMap MetadataRunRef.segments).map
      metadataSegmentObjectKey)
    (built : foldAttempt head {} [segment segmentId] (listing manifestNo runs) =
      .ok (.next new .published)) (legal : (listing manifestNo runs).ensureSuccessor new = .ok ()) :
    Lineage (new :: listing manifestNo runs :: past) :=
  lineage.publish (.fold
    ⟨cons_ne_nil _ _, by simp [segment], by simp [segment]⟩ (generated unlisted) built)
    legal

theorem lineage : Lineage [current, planned, listing 2 [first], listing 1 []] := by
  have created : Lineage [listing 1 []] := .initial "ns" 0 "creator" .unrestricted
  have base : Lineage [listing 2 [first], listing 1 []] :=
    folded created ⟨1, 1, 0⟩ "a" (by decide +kernel) rfl rfl
  have delta : Lineage [planned, listing 2 [first], listing 1 []] :=
    folded base ⟨2, 2, 0⟩ "b" (by decide +kernel) rfl rfl
  exact folded delta ⟨3, 3, 0⟩ "c" (by decide +kernel) rfl rfl

end SampleUnit

open SampleUnit in
theorem compaction_publication_replaces_inputs_after_fold :
    ReplacesInputs [planned, listing 2 [first], listing 1 []] planned current published
      SampleUnit.spec [segment "d"] := by
  have plan : planCompaction planned policy = some SampleUnit.spec := by decide +kernel
  have recorded : inputSegmentKeys (runsNewestFirst planned) SampleUnit.spec =
      some [("ns", "a"), ("ns", "b")].toFinset := by decide +kernel
  have swapped : finalizeMetadataCompaction current.namespaceId signals 0 SampleUnit.spec
      [("ns", "a"), ("ns", "b")].toFinset [segment "d"] current =
        .ok (.next published none) := by rfl
  exact compaction_publication_replaces_inputs lineage
    (mem_cons_of_mem _ mem_cons_self) plan recorded (generated (by decide +kernel))
    swapped

end LoonFs
