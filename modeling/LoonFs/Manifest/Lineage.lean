import Mathlib.Data.List.Pairwise
import LoonFs.Compaction.Publication

/-! # How a chain of manifests grows -/

namespace LoonFs

open Foundation List

/-! ## What each publisher builds -/

structure FoldedHead where
  seq : ChangeSeq
  walNo : WalNo
  writerEpoch : WriterEpoch

inductive FoldWalOutcome where
  | published
  | alreadyCurrent
deriving DecidableEq

def coversTail (current : NamespaceManifestPayload) (head : FoldedHead) : Bool :=
  head.walNo ≤ current.foldedWalNo && head.seq ≤ current.headSeq

def foldedRun (previous : NamespaceManifestPayload) (headSeq : ChangeSeq)
    (segments : List MetadataSegmentRef) : Option MetadataRunRef :=
  if previous.runs = [] then
    some { runNo := previous.nextRunNo, runSeq := headSeq, tier := .base, segments }
  else if previous.headSeq < headSeq then
    some { runNo := previous.nextRunNo, runSeq := headSeq, tier := .delta, segments }
  else none

def foldedNextRunNo (previous : NamespaceManifestPayload) (run : Option MetadataRunRef) :
    Except CoreError RunNo :=
  if run.isSome then nextRunNoAfter previous.nextRunNo else .ok previous.nextRunNo

def buildNamespaceManifestForProjection (previous : NamespaceManifestPayload)
    (head : FoldedHead) (tailActivity : ManifestActivity) (segments : List MetadataSegmentRef) :
    Except CoreError NamespaceManifestPayload := do
  let activity ← orRefuse
    (.namespaceCorrupt "activity counter cannot exceed 9007199254740991")
    (previous.activity.checkedAdd tailActivity)
  let run := foldedRun previous head.seq segments
  let nextRunNo ← foldedNextRunNo previous run
  let next ← successorListing previous (previous.runs ++ run.toList)
  return { next with
    activity
    headSeq := head.seq
    writerEpoch := head.writerEpoch
    nextRunNo
    foldedWalNo := head.walNo }

def foldAttempt (head : FoldedHead) (tailActivity : ManifestActivity)
    (segments : List MetadataSegmentRef) (current : NamespaceManifestPayload) :
    Except CoreError (ManifestChange FoldWalOutcome) :=
  if current.status.isDeleted then .error (.namespaceDeleted current.namespaceId)
  else if coversTail current head then .ok (.finished .alreadyCurrent)
  else do
    let next ← buildNamespaceManifestForProjection current head tailActivity segments
    return .next next .published

def claimWriter (writer : WriterBlock) (current : NamespaceManifestPayload) :
    Except CoreError (ManifestChange WriterEpoch) :=
  match nextPublicOrdinal current.writerEpoch with
  | none => .error (.namespaceCorrupt
      (s!"manifest {current.manifestNo} records writer epoch {current.writerEpoch}, the " ++
        "largest writer epoch, so no writer can acquire the namespace"))
  | some writerEpoch => .ok (.next { current with writerEpoch, writer := some writer } writerEpoch)

def claimCompactor (current : NamespaceManifestPayload) : ManifestChange CompactorEpoch :=
  .next { current with compactorEpoch := current.compactorEpoch + 1 }
    (current.compactorEpoch + 1)

def publishRetentionFloor (writerEpoch : WriterEpoch) (target : ChangeSeq)
    (current : NamespaceManifestPayload) : Except CoreError (ManifestChange ChangeSeq) :=
  if target ≤ current.retentionFloorSeq then .ok (.finished current.retentionFloorSeq)
  else if current.writerEpoch ≠ writerEpoch then
    .error (.writerFenced
      { fencedEpoch := writerEpoch
        activeEpoch := current.writerEpoch
        activeWriter := current.writer })
  else .ok (.next { current with retentionFloorSeq := target } target)

def setRetentionWindow (retentionWindowMs : Option Nat) (current : NamespaceManifestPayload) :
    ManifestChange Unit :=
  if current.retentionWindowMs = retentionWindowMs then .finished ()
  else .next { current with retentionWindowMs } ()

def NamespaceManifestPayload.runNos (manifest : NamespaceManifestPayload) : List RunNo :=
  manifest.runs.map MetadataRunRef.runNo ++
    (manifest.extensions.flatMap fun entry => entry.2.runs).map ExtensionRunRef.runNo

def validateRunNumbers (manifest : NamespaceManifestPayload) : Bool :=
  decide manifest.runNos.Nodup && manifest.runNos.all (· < manifest.nextRunNo)

def extensionChange (name : String) (builtOn : Option ExtensionEntry) (entry : ExtensionEntry)
    (nextRunNo : RunNo) (current : NamespaceManifestPayload) :
    Except CoreError (ManifestChange Unit) :=
  if current.extensions.lookup name ≠ builtOn then .ok (.finished ())
  else if maxPublicInteger < nextRunNo then
    .error (.namespaceCorrupt
      (s!"the manifest's next run number is {current.nextRunNo}, too close to the largest " ++
        s!"run number for the runs of extension {name}"))
  else
    let next := { current with
      extensions := current.extensions.filter (·.1 ≠ name) ++ [(name, entry)]
      nextRunNo }
    if validateRunNumbers next then .ok (.next next ())
    else .error (.panicked "an extension's publication should list valid runs")

/-- A tombstone lists no extension segments. -/
def markDeleted (deletedAtMs : Nat) (current : NamespaceManifestPayload) :
    NamespaceManifestPayload :=
  { current with
    status := .deleted deletedAtMs
    extensions := current.extensions.map fun entry => (entry.1, { entry.2 with runs := [] }) }

/-- The commit that a row belongs to; a removal marker belongs to its undelete. -/
def manifestRowCommitSeq : MetadataRow → ChangeSeq
  | .inode record => record.committedSeq
  | .direntryBinding record => record.committedSeq
  | .fileRevision record => record.committedSeq
  | .tombstone record => record.committedSeq
  | .activeDeletion record =>
    match record.action with
    | .listed _ _ _ _ => record.deletionSeq
    | .removed removedSeq => removedSeq
  | .commitReceipt record => record.committedSeq
  | .commit record => record.committedSeq
  | .merge record => record.committedSeq
  | .contentLayout record => record.committedSeq
  | .attributesRevision record => record.committedSeq
  | .accessRevision record => record.committedSeq

/-- What a fold writes: rows of the commits above the current head and through its own. -/
structure FoldsTail (current : NamespaceManifestPayload) (head : FoldedHead)
    (segments : List MetadataSegmentRef) : Prop where
  written : segments ≠ []
  above : current.runs ≠ [] → ∀ segment ∈ segments, ∀ row ∈ segment.rows,
    current.headSeq < manifestRowCommitSeq row
  through : ∀ segment ∈ segments, ∀ row ∈ segment.rows, manifestRowCommitSeq row ≤ head.seq

structure CompactsInputs (planned : NamespaceManifestPayload) (spec : MetadataCompactionSpec)
    (outputSegments : List MetadataSegmentRef) : Prop where
  families : ∀ segment ∈ outputSegments, segment.family ∈ spec.group.families
  rows : ∀ segment ∈ outputSegments, ∀ row ∈ segment.rows,
    ∃ run ∈ planned.runs, run.runNo ∈ spec.inputs ∧
      ∃ source ∈ run.groupRunDescriptors spec.group, row ∈ source.rows

structure Generated (current : NamespaceManifestPayload) (segments : List MetadataSegmentRef) :
    Prop where
  distinct : (segments.map metadataSegmentObjectKey).Nodup
  unlisted : ∀ segment ∈ segments, metadataSegmentObjectKey segment ∉
    (current.runs.flatMap MetadataRunRef.segments).map metadataSegmentObjectKey

/-- What a publisher wants after the current manifest, its number aside. -/
inductive Change (current : NamespaceManifestPayload) (earlier : List NamespaceManifestPayload) :
    NamespaceManifestPayload → Prop
  | fold {head : FoldedHead} {tailActivity : ManifestActivity}
      {segments : List MetadataSegmentRef} {next : NamespaceManifestPayload}
      (folds : FoldsTail current head segments) (generated : Generated current segments)
      (built : foldAttempt head tailActivity segments current = .ok (.next next .published)) :
      Change current earlier next
  | claimWriter {writer : WriterBlock} {acquired : WriterEpoch}
      {next : NamespaceManifestPayload}
      (built : LoonFs.claimWriter writer current = .ok (.next next acquired)) :
      Change current earlier next
  | claimCompactor {claimed : CompactorEpoch} {next : NamespaceManifestPayload}
      (built : LoonFs.claimCompactor current = .next next claimed) : Change current earlier next
  | retentionFloor {writerEpoch : WriterEpoch} {target floor : ChangeSeq}
      {next : NamespaceManifestPayload}
      (built : publishRetentionFloor writerEpoch target current = .ok (.next next floor)) :
      Change current earlier next
  | retentionWindow {retentionWindowMs : Option Nat} {next : NamespaceManifestPayload}
      (built : setRetentionWindow retentionWindowMs current = .next next ()) :
      Change current earlier next
  | extension {name : String} {builtOn : Option ExtensionEntry} {entry : ExtensionEntry}
      {nextRunNo : RunNo} {next : NamespaceManifestPayload}
      (built : extensionChange name builtOn entry nextRunNo current = .ok (.next next ())) :
      Change current earlier next
  | compaction {planned : NamespaceManifestPayload} {policy : CompactionRunPolicy}
      {signals : CompactionSignals} {compactorEpoch : CompactorEpoch}
      {spec : MetadataCompactionSpec} {inputKeys : Finset SegmentKey}
      {outputSegments : List MetadataSegmentRef} {next : NamespaceManifestPayload}
      (isPlanned : planned ∈ current :: earlier)
      (plan : planCompaction planned policy = some spec)
      (recorded : inputSegmentKeys (runsNewestFirst planned) spec = some inputKeys)
      (compacts : CompactsInputs planned spec outputSegments)
      (generated : Generated current outputSegments)
      (built : finalizeMetadataCompaction current.namespaceId signals compactorEpoch spec
        inputKeys outputSegments current = .ok (.next next none)) : Change current earlier next
  | delete (deletedAtMs : Nat) : Change current earlier (markDeleted deletedAtMs current)

/-- The manifests of one namespace, newest first, each a legal successor of the next. -/
inductive Lineage : List NamespaceManifestPayload → Prop
  | initial (namespaceId : NamespaceId) (createdAtMs : Nat) (createdBy : ActorId)
      (access : NamespaceAccess) :
      Lineage [.initial namespaceId createdAtMs createdBy access]
  | fork {sources : List NamespaceManifestPayload} {source : NamespaceManifestPayload}
      (lineage : Lineage sources) (isSource : source ∈ sources) (namespaceId : NamespaceId)
      (createdAtMs : Nat) (createdBy : ActorId) (basis : ForkBasis) :
      Lineage [.initialFork namespaceId createdAtMs createdBy basis source]
  | publish {current wanted : NamespaceManifestPayload}
      {earlier : List NamespaceManifestPayload} {manifestNo : ManifestNo}
      (lineage : Lineage (current :: earlier)) (change : Change current earlier wanted)
      (legal : current.ensureSuccessor { wanted with manifestNo } = .ok ()) :
      Lineage ({ wanted with manifestNo } :: current :: earlier)

/-! ## What a change does to the runs -/

structure MetadataRunRef.Leaves (run left : MetadataRunRef) : Prop where
  runNo : left.runNo = run.runNo
  runSeq : left.runSeq = run.runSeq
  tier : left.tier = run.tier
  segments : left.segments.Sublist run.segments
  nonempty : run.segments ≠ [] → left.segments ≠ []

theorem MetadataRunRef.Leaves.refl (run : MetadataRunRef) : run.Leaves run :=
  ⟨rfl, rfl, rfl, .refl _, id⟩

variable {run left : MetadataRunRef}

theorem MetadataRunRef.Leaves.trans (first : run.Leaves left) (second : left.Leaves last) :
    run.Leaves last where
  runNo := second.runNo.trans first.runNo
  runSeq := second.runSeq.trans first.runSeq
  tier := second.tier.trans first.tier
  segments := second.segments.trans first.segments
  nonempty written := second.nonempty (first.nonempty written)

theorem MetadataRunRef.leaves_of_without (kept : run.without inputKeys = some left) :
    run.Leaves left := by
  simp only [without] at kept
  split at kept
  · cases kept
  · rename_i written
    cases kept
    exact ⟨rfl, rfl, rfl, filter_sublist, fun _ => written⟩

/-- The runs that a publisher leaves, in their order, and at most one new run. -/
structure Relists (current next : NamespaceManifestPayload)
    (keep : MetadataRunRef → Option MetadataRunRef) (added : Option MetadataRunRef) : Prop where
  runs : next.runs = current.runs.filterMap keep ++ added.toList
  keep : ∀ {run left}, keep run = some left → run.Leaves left
  number : ∀ run ∈ added, run.runNo = current.nextRunNo ∧ current.nextRunNo < next.nextRunNo
  written : ∀ run ∈ added, run.segments ≠ [] ∧ Generated current run.segments
  extensions : current.nextRunNo ≤ next.nextRunNo →
    (∀ runNo ∈ current.runNos, runNo < current.nextRunNo) →
    ∀ entry ∈ next.extensions, ∀ run ∈ entry.2.runs, run.runNo < next.nextRunNo

theorem extension_runNo_mem {manifest : NamespaceManifestPayload}
    {entry : String × ExtensionEntry} {run : ExtensionRunRef}
    (isEntry : entry ∈ manifest.extensions) (isRun : run ∈ entry.2.runs) :
    run.runNo ∈ manifest.runNos :=
  mem_append_right _
    (mem_map_of_mem (mem_flatMap.mpr ⟨entry, isEntry, isRun⟩))

variable {current next : NamespaceManifestPayload}

theorem Relists.of_same (runs : next.runs = current.runs)
    (extensions : next.extensions = current.extensions) : Relists current next some none where
  runs := by simp [runs]
  keep kept := Option.some.inj kept ▸ .refl _
  number run isAdded := by cases isAdded
  written run isAdded := by cases isAdded
  extensions le below entry isEntry run isRun :=
    (below _ (extension_runNo_mem (extensions ▸ isEntry) isRun)).trans_le le

theorem foldedRun_eq_some (isRun : foldedRun previous headSeq segments = some run) :
    run.runNo = previous.nextRunNo ∧ run.segments = segments := by
  rw [foldedRun] at isRun
  split at isRun
  · cases isRun
    exact ⟨rfl, rfl⟩
  split at isRun
  · cases isRun
    exact ⟨rfl, rfl⟩
  · cases isRun

theorem foldAttempt_relists {head : FoldedHead} {tailActivity : ManifestActivity}
    {outcome : FoldWalOutcome} (written : segments ≠ []) (generated : Generated current segments)
    (built : foldAttempt head tailActivity segments current = .ok (.next next outcome)) :
    Relists current next some (foldedRun current head.seq segments) := by
  rw [foldAttempt] at built
  split at built
  · cases built
  split at built
  · cases built
  rw [bind_eq_ok] at built
  obtain ⟨folded, built, isNext⟩ := built
  cases isNext
  simp only [buildNamespaceManifestForProjection, bind_eq_ok] at built
  obtain ⟨activity, _, nextRunNo, isNumber, successor, isSuccessor, isNext⟩ := built
  have isNext := pure_eq_ok.mp isNext
  obtain ⟨_, isSuccessor⟩ := successorListing_eq_ok isSuccessor
  subst isNext
  rw [isSuccessor]
  refine ⟨by simp, fun kept => Option.some.inj kept ▸ .refl _, ?_, ?_, ?_⟩
  · intro run isRun
    refine ⟨(foldedRun_eq_some isRun).1, ?_⟩
    rw [foldedNextRunNo, Option.mem_def.mp isRun, Option.isSome_some, if_pos rfl] at isNumber
    rw [nextRunNoAfter_eq_ok isNumber]
    exact Nat.lt_succ_self _
  · intro run isRun
    rw [(foldedRun_eq_some isRun).2]
    exact ⟨written, generated⟩
  · intro le below entry isEntry run isRun
    exact (below _ (extension_runNo_mem isEntry isRun)).trans_le le

theorem finalizeMetadataCompaction_relists {signals : CompactionSignals}
    {compactorEpoch : CompactorEpoch} {spec : MetadataCompactionSpec}
    {outputSegments : List MetadataSegmentRef} {space : NamespaceId}
    {outcome : Option CompactionUnitOutcome} (generated : Generated current outputSegments)
    (built : finalizeMetadataCompaction space signals compactorEpoch spec inputKeys
      outputSegments current = .ok (.next next outcome)) :
    Relists current next (MetadataRunRef.without inputKeys)
      (ReplacementOutput.runs ⟨outputSegments, spec.placement⟩ current.nextRunNo).head? := by
  obtain ⟨_, _, built⟩ := finalizeMetadataCompaction_eq_next built
  obtain ⟨_, isNext⟩ := buildReplacementManifest_eq_ok built
  rw [isNext]
  by_cases empty : outputSegments = []
  · simp only [ReplacementOutput.runs, empty, if_true]
    refine ⟨by simp, MetadataRunRef.leaves_of_without, by simp, by simp, ?_⟩
    intro le below entry isEntry run isRun
    exact (below _ (extension_runNo_mem isEntry isRun)).trans_le le
  · simp only [ReplacementOutput.runs, empty, if_false]
    refine ⟨by simp, MetadataRunRef.leaves_of_without, ?_, ?_, ?_⟩
    · intro run isRun
      cases Option.some.inj isRun
      exact ⟨rfl, Nat.lt_succ_self _⟩
    · intro run isRun
      cases Option.some.inj isRun
      exact ⟨empty, generated⟩
    · intro le below entry isEntry run isRun
      exact (below _ (extension_runNo_mem isEntry isRun)).trans_le le

variable {earlier : List NamespaceManifestPayload}

theorem Change.kept_or_added (change : Change current earlier next) :
    Relists current next some none ∨
    (∃ head tailActivity segments, FoldsTail current head segments ∧ Generated current segments ∧
      foldAttempt head tailActivity segments current = .ok (.next next .published)) ∨
    (∃ planned ∈ current :: earlier, ∃ policy signals compactorEpoch spec inputKeys
      outputSegments, planCompaction planned policy = some spec ∧
      inputSegmentKeys (runsNewestFirst planned) spec = some inputKeys ∧
      CompactsInputs planned spec outputSegments ∧ Generated current outputSegments ∧
      finalizeMetadataCompaction current.namespaceId signals compactorEpoch spec inputKeys
        outputSegments current = .ok (.next next none)) := by
  cases change with
  | fold folds generated built => exact .inr (.inl ⟨_, _, _, folds, generated, built⟩)
  | claimWriter built =>
    rw [LoonFs.claimWriter] at built
    split at built
    · cases built
    · cases built
      exact .inl (.of_same rfl rfl)
  | claimCompactor built =>
    cases built
    exact .inl (.of_same rfl rfl)
  | retentionFloor built =>
    rw [publishRetentionFloor] at built
    split at built
    · cases built
    split at built
    · cases built
    · cases built
      exact .inl (.of_same rfl rfl)
  | retentionWindow built =>
    rw [setRetentionWindow] at built
    split at built
    · cases built
    · cases built
      exact .inl (.of_same rfl rfl)
  | extension built =>
    rw [extensionChange] at built
    split at built
    · cases built
    split at built
    · cases built
    dsimp only at built
    split at built
    · rename_i valid
      cases built
      refine .inl ⟨by simp, fun kept => Option.some.inj kept ▸ .refl _, by simp, by simp, ?_⟩
      intro _ _ entry isEntry run isRun
      simp only [validateRunNumbers, Bool.and_eq_true, all_eq_true, decide_eq_true_eq] at valid
      exact valid.2 _ (extension_runNo_mem isEntry isRun)
    · cases built
  | compaction isPlanned plan recorded compacts generated built =>
    exact .inr (.inr ⟨_, isPlanned, _, _, _, _, _, _, plan, recorded, compacts, generated, built⟩)
  | delete deletedAtMs =>
    refine .inl ⟨by simp [markDeleted], fun kept => Option.some.inj kept ▸ .refl _,
      by simp, by simp, ?_⟩
    intro _ _ entry isEntry run isRun
    obtain ⟨_, _, isEntry⟩ := mem_map.mp isEntry
    subst isEntry
    cases isRun

theorem Change.relists (change : Change current earlier next) :
    ∃ keep added, Relists current next keep added := by
  rcases change.kept_or_added with kept | ⟨_, _, _, folds, generated, built⟩ |
    ⟨_, _, _, _, _, _, _, _, _, _, _, generated, built⟩
  · exact ⟨_, _, kept⟩
  · exact ⟨_, _, foldAttempt_relists folds.written generated built⟩
  · exact ⟨_, _, finalizeMetadataCompaction_relists generated built⟩

/-! ## What holds of every manifest -/

structure WellListed (manifest : NamespaceManifestPayload) : Prop where
  below : ∀ runNo ∈ manifest.runNos, runNo < manifest.nextRunNo
  runNos : (manifest.runs.map MetadataRunRef.runNo).Nodup
  keys : ((manifest.runs.flatMap MetadataRunRef.segments).map metadataSegmentObjectKey).Nodup
  written : ∀ run ∈ manifest.runs, run.segments ≠ []

namespace WellListed

variable {manifest : NamespaceManifestPayload} (listed : WellListed manifest)
include listed

theorem run_below (mem : run ∈ manifest.runs) : run.runNo < manifest.nextRunNo :=
  listed.below _ (mem_append_left _ (mem_map_of_mem mem))

theorem unique (run : MetadataRunRef) (mem : run ∈ manifest.runs) (other : MetadataRunRef)
    (otherMem : other ∈ manifest.runs) (sameNo : run.runNo = other.runNo) : run = other :=
  inj_on_of_nodup_map listed.runNos mem otherMem sameNo

theorem segment_unique {segment : MetadataSegmentRef} (mem : run ∈ manifest.runs)
    (otherMem : other ∈ manifest.runs) (isSegment : segment ∈ run.segments)
    (isAnother : another ∈ other.segments)
    (sameKey : metadataSegmentObjectKey segment = metadataSegmentObjectKey another) :
    segment = another ∧ run = other := by
  have same : segment = another := inj_on_of_nodup_map listed.keys
    (mem_flatMap.mpr ⟨run, mem, isSegment⟩)
    (mem_flatMap.mpr ⟨other, otherMem, isAnother⟩) sameKey
  refine ⟨same, ?_⟩
  subst same
  by_contra ne
  have disjoint := (nodup_flatMap.mp listed.keys.of_map).2
  have symmetric : Std.Symm (Function.onFun List.Disjoint MetadataRunRef.segments) :=
    ⟨fun _ _ apart => apart.symm⟩
  exact disjoint.forall mem otherMem ne isSegment isAnother

theorem segments_nodup (mem : run ∈ manifest.runs) : run.segments.Nodup :=
  (nodup_flatMap.mp listed.keys.of_map).1 run mem

end WellListed

theorem flatMap_filterMap_sublist {keep : α → Option α} (values : α → List β)
    (kept : ∀ element left, keep element = some left →
      (values left).Sublist (values element)) (elements : List α) :
    ((elements.filterMap keep).flatMap values).Sublist (elements.flatMap values) := by
  induction elements with
  | nil => exact .refl _
  | cons element elements induction =>
    cases keeps : keep element with
    | none =>
      rw [filterMap_cons_none keeps, flatMap_cons]
      exact induction.trans (sublist_append_right _ _)
    | some left =>
      rw [filterMap_cons_some keeps, flatMap_cons, flatMap_cons]
      exact (kept element left keeps).append induction

namespace Relists

variable {current next : NamespaceManifestPayload} {keep : MetadataRunRef → Option MetadataRunRef}
  (relists : Relists current next keep added)
include relists

theorem mem_runs (mem : run ∈ next.runs) :
    (∃ before ∈ current.runs, keep before = some run ∧ before.Leaves run) ∨ run ∈ added := by
  rw [relists.runs, mem_append, mem_filterMap, Option.mem_toList] at mem
  rcases mem with ⟨before, isBefore, kept⟩ | isAdded
  · exact .inl ⟨before, isBefore, kept, relists.keep kept⟩
  · exact .inr isAdded

theorem wellListed (listed : WellListed current) (le : current.nextRunNo ≤ next.nextRunNo) :
    WellListed next := by
  have keptNos := flatMap_filterMap_sublist (fun run : MetadataRunRef => [run.runNo])
    (fun _ _ kept => by rw [(relists.keep kept).runNo]) current.runs
  have keptSegments := flatMap_filterMap_sublist (·.segments)
    (fun _ _ kept => (relists.keep kept).segments) current.runs
  rw [← map_eq_flatMap, ← map_eq_flatMap] at keptNos
  refine ⟨?_, ?_, ?_, ?_⟩
  · intro runNo isNo
    rcases mem_append.mp isNo with isNo | isNo
    · obtain ⟨run, mem, isNo⟩ := mem_map.mp isNo
      subst isNo
      rcases relists.mem_runs mem with ⟨before, isBefore, _, leaves⟩ | isAdded
      · rw [leaves.runNo]
        exact (listed.run_below isBefore).trans_le le
      · rw [(relists.number run isAdded).1]
        exact (relists.number run isAdded).2
    · obtain ⟨run, mem, isNo⟩ := mem_map.mp isNo
      obtain ⟨entry, isEntry, isRun⟩ := mem_flatMap.mp mem
      subst isNo
      exact relists.extensions le listed.below entry isEntry run isRun
  · rw [relists.runs, map_append, nodup_append']
    refine ⟨keptNos.nodup listed.runNos, by cases added <;> simp, ?_⟩
    intro runNo isKept isAdded
    obtain ⟨run, isRun, isNo⟩ := mem_map.mp isAdded
    obtain ⟨before, isBefore, beforeNo⟩ := mem_map.mp (keptNos.subset isKept)
    have below := listed.run_below isBefore
    rw [beforeNo, ← isNo, (relists.number run (Option.mem_toList.mp isRun)).1] at below
    exact Nat.lt_irrefl _ below
  · rw [relists.runs, flatMap_append, map_append, nodup_append']
    refine ⟨(keptSegments.map _).nodup listed.keys, ?_, ?_⟩
    · cases added with
      | none => simp
      | some run => simpa using (relists.written run rfl).2.distinct
    · intro key isKept isAdded
      cases added with
      | none => simp at isAdded
      | some run =>
        obtain ⟨segment, isSegment, isKey⟩ := mem_map.mp isAdded
        subst isKey
        exact (relists.written run rfl).2.unlisted segment (by simpa using isSegment)
          ((keptSegments.map _).subset isKept)
  · intro run mem
    rcases relists.mem_runs mem with ⟨before, isBefore, _, leaves⟩ | isAdded
    · exact leaves.nonempty (listed.written before isBefore)
    · exact (relists.written run isAdded).1

end Relists

def Descends (earlier later : NamespaceManifestPayload) : Prop :=
  ∀ left ∈ later.runs, left.runNo < earlier.nextRunNo → ∃ run ∈ earlier.runs, run.Leaves left

theorem Relists.descends {earlier current next : NamespaceManifestPayload}
    {keep : MetadataRunRef → Option MetadataRunRef} {added : Option MetadataRunRef}
    (relists : Relists current next keep added) (descends : Descends earlier current)
    (le : earlier.nextRunNo ≤ current.nextRunNo) : Descends earlier next := by
  intro left mem older
  rcases relists.mem_runs mem with ⟨before, isBefore, _, leaves⟩ | isAdded
  · rw [leaves.runNo] at older
    obtain ⟨run, isRun, first⟩ := descends before isBefore older
    exact ⟨run, isRun, first.trans leaves⟩
  · rw [(relists.number left isAdded).1] at older
    exact absurd older (Nat.not_lt.mpr le)

namespace Lineage

theorem relists_numbered (change : Change current earlier wanted) :
    ∃ keep added, Relists current { wanted with manifestNo } keep added := by
  obtain ⟨keep, added, relists⟩ := change.relists
  exact ⟨keep, added, relists.runs, relists.keep, relists.number, relists.written,
    relists.extensions⟩

variable {manifests : List NamespaceManifestPayload}

theorem wellListed (lineage : Lineage manifests) : ∀ manifest ∈ manifests, WellListed manifest := by
  induction lineage with
  | initial space createdAtMs createdBy access =>
    intro manifest mem
    cases mem_singleton.mp mem
    constructor <;> simp [NamespaceManifestPayload.initial, NamespaceManifestPayload.runNos]
  | fork lineage isSource space createdAtMs createdBy basis induction =>
    intro manifest mem
    cases mem_singleton.mp mem
    have listed := induction _ isSource
    exact ⟨listed.below, listed.runNos, listed.keys, listed.written⟩
  | publish lineage change legal induction =>
    intro manifest mem
    rcases mem_cons.mp mem with isNew | mem
    · subst isNew
      obtain ⟨keep, added, relists⟩ := relists_numbered change
      exact relists.wellListed (induction _ mem_cons_self)
        (NamespaceManifestPayload.ensureSuccessor_eq_ok.mp legal).1.nextRunNo
    · exact induction manifest mem

theorem descends (lineage : Lineage manifests) :
    ∀ current ∈ manifests.head?, ∀ manifest ∈ manifests,
      Descends manifest current ∧ manifest.nextRunNo ≤ current.nextRunNo := by
  have same (manifest : NamespaceManifestPayload) : Descends manifest manifest :=
    fun run mem _ => ⟨run, mem, .refl run⟩
  induction lineage with
  | initial space createdAtMs createdBy access =>
    intro current isCurrent manifest mem
    cases mem_singleton.mp mem
    cases Option.some.inj isCurrent
    exact ⟨same _, Nat.le_refl _⟩
  | fork lineage isSource space createdAtMs createdBy basis induction =>
    intro current isCurrent manifest mem
    cases mem_singleton.mp mem
    cases Option.some.inj isCurrent
    exact ⟨same _, Nat.le_refl _⟩
  | publish lineage change legal induction =>
    intro next isNext manifest mem
    cases Option.some.inj isNext
    rcases mem_cons.mp mem with isNew | mem
    · subst isNew
      exact ⟨same _, Nat.le_refl _⟩
    · obtain ⟨older, le⟩ := induction _ rfl manifest mem
      obtain ⟨keep, added, relists⟩ := relists_numbered change
      exact ⟨relists.descends older le, le.trans
        (NamespaceManifestPayload.ensureSuccessor_eq_ok.mp legal).1.nextRunNo⟩

end Lineage

end LoonFs
