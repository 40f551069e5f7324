import LoonFs.Manifest.Payload

/-! # Planning a metadata compaction -/

namespace LoonFs

open List

inductive MetadataFamilyGroup where
  | bindings
  | revisions
  | inodes
  | tombstones
  | activeDeletions
  | commits
  | contentLayouts
  | attributes
  | access
deriving DecidableEq

namespace MetadataFamilyGroup

def all : List MetadataFamilyGroup :=
  [.bindings, .revisions, .inodes, .tombstones, .activeDeletions, .commits, .contentLayouts,
    .attributes, .access]

def families : MetadataFamilyGroup → List MetadataRowFamily
  | .bindings => [.direntryBinds, .direntryChildBinds]
  | .revisions => [.revisions]
  | .inodes => [.inodes]
  | .tombstones => [.tombstones]
  | .activeDeletions => [.activeDeletions]
  | .commits => [.commits, .commitReceipts, .merges]
  | .contentLayouts => [.contentLayouts]
  | .attributes => [.attributes]
  | .access => [.access]

end MetadataFamilyGroup

structure CompactionRunPolicy where
  maxDeltaRuns : Nat
  minCompactionRuns : Nat
  maxInputRunsPerStep : Nat
  maxDeltaRuns_pos : 0 < maxDeltaRuns
  minCompactionRuns_pos : 0 < minCompactionRuns
  maxInputRunsPerStep_pos : 0 < maxInputRunsPerStep

/-! ## Orders of runs -/

def RunTier.rank : RunTier → Nat
  | .delta => 0
  | .base => 1

namespace MetadataRunRef

/-- The order of reads: delta before base, then newest first. -/
def readsBefore (left right : MetadataRunRef) : Bool :=
  left.tier.rank < right.tier.rank ||
    left.tier.rank == right.tier.rank &&
      (right.runSeq < left.runSeq || left.runSeq == right.runSeq && right.runNo ≤ left.runNo)

/-- The order of compactions: base before delta, then oldest first. -/
def compactsBefore (left right : MetadataRunRef) : Bool :=
  right.tier.rank < left.tier.rank ||
    left.tier.rank == right.tier.rank &&
      (left.runSeq < right.runSeq || left.runSeq == right.runSeq && left.runNo ≤ right.runNo)

def groupRunDescriptors (group : MetadataFamilyGroup) (run : MetadataRunRef) :
    List MetadataSegmentRef :=
  run.segments.filter fun segment => segment.family ∈ group.families

end MetadataRunRef

def runsNewestFirst (payload : NamespaceManifestPayload) : List MetadataRunRef :=
  payload.runs.insertionSort fun left right => left.readsBefore right

def runsInCompactionOrder (runs : List MetadataRunRef) : List MetadataRunRef :=
  runs.insertionSort fun left right => left.compactsBefore right

@[simp] theorem mem_runsNewestFirst : run ∈ runsNewestFirst payload ↔ run ∈ payload.runs :=
  mem_insertionSort _

/-! ## Windows -/

def compactionSizeRatio : Nat := 4

/-- The output is the group's base run when the window has its oldest run, or a delta run. -/
inductive CompactionPlacement where
  | base (outputSeq : ChangeSeq)
  | delta (outputSeq : ChangeSeq)
deriving DecidableEq

namespace CompactionPlacement

def outputSeq : CompactionPlacement → ChangeSeq
  | .base outputSeq | .delta outputSeq => outputSeq

def outputTier : CompactionPlacement → RunTier
  | .base _ => .base
  | .delta _ => .delta

end CompactionPlacement

/-- The immutable plan of one compaction unit. -/
structure MetadataCompactionSpec where
  group : MetadataFamilyGroup
  /-- The input runs, oldest first. -/
  inputs : List RunNo
  inputRows : Nat
  placement : CompactionPlacement
  frozenFloorSeq : ChangeSeq
deriving DecidableEq

section

variable (storedBytes : List Nat)

def growTier : Nat → Nat → Nat
  | 0, _ => 0
  | start + 1, smallest =>
    let older := storedBytes.getD start 0
    if older ≤ smallest * compactionSizeRatio then growTier start (min smallest older)
    else start + 1

/-- The newest size tier with `minRuns` runs, cut to its `maxRuns` oldest. -/
def tieredWindow (minRuns maxRuns : Nat) : Option (Nat × Nat) :=
  (List.range' 1 storedBytes.length).reverse.findSome? fun finish =>
    let start := growTier storedBytes (finish - 1) (storedBytes.getD (finish - 1) 0)
    if minRuns ≤ finish - start then some (start, min finish (start + maxRuns)) else none

def growCapped (maxRuns : Nat) : Nat → Nat → Nat
  | 0, _ => 0
  | start + 1, windowBytes =>
    let length := storedBytes.length - (start + 1)
    let older := storedBytes.getD start 0
    if length < maxRuns ∧ (length = 1 ∨ older ≤ windowBytes * compactionSizeRatio) then
      growCapped maxRuns start (windowBytes + older)
    else start + 1

def cappedWindow (candidates : List MetadataRunRef) (maxDeltaRuns maxRuns : Nat) :
    Option (Nat × Nat) :=
  if candidates.countP (·.tier = .delta) < maxDeltaRuns then none
  else
    let newest := storedBytes.length - 1
    some (growCapped storedBytes maxRuns newest (storedBytes.getD newest 0), storedBytes.length)

end

/-- At least two runs, or the group's oldest run on its way from delta to base. -/
def windowIsValid (candidates : List MetadataRunRef) (window : Nat × Nat) : Bool :=
  match window.2 - window.1 with
  | 0 => false
  | 1 => window.1 == 0 && (candidates.head?.map MetadataRunRef.tier == some .delta)
  | _ => true

def groupCandidates (runs : List MetadataRunRef) (group : MetadataFamilyGroup) :
    List MetadataRunRef :=
  runsInCompactionOrder (runs.filter fun run => run.groupRunDescriptors group ≠ [])

def effectiveMinCompactionRuns (policy : CompactionRunPolicy) : Nat :=
  max policy.minCompactionRuns 2

def selectCompactionWindow (candidates : List MetadataRunRef) (group : MetadataFamilyGroup)
    (policy : CompactionRunPolicy) : Option (Nat × Nat) :=
  let storedBytes := candidates.map fun run =>
    ((run.groupRunDescriptors group).map MetadataSegmentRef.objectBytes).sum
  ((tieredWindow storedBytes (effectiveMinCompactionRuns policy)
      policy.maxInputRunsPerStep).or
    (cappedWindow storedBytes candidates policy.maxDeltaRuns policy.maxInputRunsPerStep)).filter
      (windowIsValid candidates)

/-! ## The plan -/

def compactionPlacement (bottomAnchored : Bool) (runs : List MetadataRunRef)
    (headSeq : ChangeSeq) : CompactionPlacement :=
  if bottomAnchored then .base headSeq
  else .delta ((runs.map MetadataRunRef.runSeq).foldr max 0)

def planGroup (payload : NamespaceManifestPayload) (runs : List MetadataRunRef)
    (group : MetadataFamilyGroup) (policy : CompactionRunPolicy) : Option MetadataCompactionSpec :=
  let candidates := groupCandidates runs group
  (selectCompactionWindow candidates group policy).map fun window =>
    let selected := (candidates.drop window.1).take (window.2 - window.1)
    { group
      inputs := selected.map MetadataRunRef.runNo
      inputRows := ((selected.flatMap (MetadataRunRef.groupRunDescriptors group)).map
        MetadataSegmentRef.rowCount).sum
      placement := compactionPlacement (window.1 = 0) selected payload.headSeq
      frozenFloorSeq := payload.retentionFloorSeq }

def groupDeltaRows (payload : NamespaceManifestPayload) (group : MetadataFamilyGroup) : Nat :=
  (((payload.runs.filter (·.tier = .delta)).flatMap
    (MetadataRunRef.groupRunDescriptors group)).map MetadataSegmentRef.rowCount).sum

def rankedFamilyGroups (payload : NamespaceManifestPayload) : List MetadataFamilyGroup :=
  (MetadataFamilyGroup.all.filter fun group => 0 < groupDeltaRows payload group).insertionSort
    fun left right => groupDeltaRows payload right ≤ groupDeltaRows payload left

def selectFamilyGroup (runs : List MetadataRunRef) (payload : NamespaceManifestPayload)
    (policy : CompactionRunPolicy) : Option MetadataFamilyGroup :=
  (rankedFamilyGroups payload).find? fun group =>
    (selectCompactionWindow (groupCandidates runs group) group policy).isSome

def planCompaction (payload : NamespaceManifestPayload) (policy : CompactionRunPolicy) :
    Option MetadataCompactionSpec :=
  let runs := runsNewestFirst payload
  (selectFamilyGroup runs payload policy).bind fun group => planGroup payload runs group policy

structure MetadataCompactionSpec.PlannedOn (spec : MetadataCompactionSpec)
    (planned : NamespaceManifestPayload) : Prop where
  inputs : ∀ runNo ∈ spec.inputs, ∃ run ∈ planned.runs,
    run.runNo = runNo ∧ run.groupRunDescriptors spec.group ≠ []
  frozenFloorSeq : spec.frozenFloorSeq = planned.retentionFloorSeq

theorem planGroup_plannedOn
    (planned : planGroup payload (runsNewestFirst payload) group policy = some spec) :
    spec.PlannedOn payload := by
  simp only [planGroup, Option.map_eq_some_iff] at planned
  obtain ⟨window, _, isSpec⟩ := planned
  subst isSpec
  refine ⟨?_, rfl⟩
  intro runNo mem
  obtain ⟨run, selected, isNo⟩ := mem_map.mp mem
  have candidate := mem_of_mem_drop (mem_of_mem_take selected)
  rw [groupCandidates, runsInCompactionOrder, mem_insertionSort, mem_filter,
    mem_runsNewestFirst] at candidate
  exact ⟨run, candidate.1, isNo, by simpa using candidate.2⟩

theorem planCompaction_plannedOn (planned : planCompaction payload policy = some spec) :
    spec.PlannedOn payload := by
  rw [planCompaction, Option.bind_eq_some_iff] at planned
  obtain ⟨group, _, isPlan⟩ := planned
  exact planGroup_plannedOn isPlan

end LoonFs
