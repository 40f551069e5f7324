import LoonFs.Compaction.Lossless
import LoonFs.Compaction.Windows

/-! # The runs of a group stay in order -/

namespace LoonFs

open List hiding head

namespace MetadataRunRef

def groupRows (group : MetadataFamilyGroup) (run : MetadataRunRef) : List MetadataRow :=
  (run.groupRunDescriptors group).flatMap MetadataSegmentRef.rows

theorem inGroup_of_mem_groupRows {run : MetadataRunRef} (mem : row ∈ run.groupRows group) :
    run.InGroup group := by
  intro empty
  rw [groupRows, empty] at mem
  cases mem

namespace Leaves

variable {run other : MetadataRunRef}

theorem older_iff (leaves : run.Leaves left) (otherLeaves : other.Leaves another) :
    left.Older another ↔ run.Older other := by
  rw [Older, Older, leaves.tier, leaves.runSeq, otherLeaves.tier, otherLeaves.runSeq]

theorem descriptors (leaves : run.Leaves left) (group : MetadataFamilyGroup) :
    (left.groupRunDescriptors group).Sublist (run.groupRunDescriptors group) :=
  leaves.segments.filter _

theorem inGroup (leaves : run.Leaves left) (inGroup : left.InGroup group) : run.InGroup group := by
  intro empty
  have kept := leaves.descriptors group
  rw [empty, sublist_nil] at kept
  exact inGroup kept

theorem mem_groupRows (leaves : run.Leaves left) (mem : row ∈ left.groupRows group) :
    row ∈ run.groupRows group := by
  obtain ⟨segment, isSegment, isRow⟩ := mem_flatMap.mp mem
  exact mem_flatMap.mpr ⟨segment, (leaves.descriptors group).subset isSegment, isRow⟩

end Leaves

def Precedes (group : MetadataFamilyGroup) (left right : MetadataRunRef) : Prop :=
  left.Older right ∧ ∀ row ∈ left.groupRows group, ∀ other ∈ right.groupRows group,
    manifestRowCommitSeq row < manifestRowCommitSeq other

end MetadataRunRef

structure RunsOrdered (manifest : NamespaceManifestPayload) : Prop where
  apart : ∀ group, ∀ left ∈ manifest.runs, left.InGroup group → ∀ right ∈ manifest.runs,
    right.InGroup group → left = right ∨ left.Precedes group right ∨ right.Precedes group left
  stamps : ∀ run ∈ manifest.runs, run.tier = .delta → run.runSeq ≤ manifest.headSeq
  rows : ∀ group, ∀ run ∈ manifest.runs, ∀ row ∈ run.groupRows group,
    manifestRowCommitSeq row ≤ manifest.headSeq
  covered : ∀ group, ∀ run ∈ manifest.runs, ∀ row ∈ run.groupRows group,
    manifestRowCommitSeq row ≤ run.runSeq

variable {manifest : NamespaceManifestPayload}

theorem RunsOrdered.groupOrdered (ordered : RunsOrdered manifest) (group : MetadataFamilyGroup) :
    GroupOrdered group manifest := by
  intro left leftMem leftIn right rightMem rightIn
  rcases ordered.apart group left leftMem leftIn right rightMem rightIn with
    same | before | after
  · exact .inl same
  · exact .inr (.inl before.1)
  · exact .inr (.inr after.1)

theorem RunsOrdered.precedes (ordered : RunsOrdered manifest) (leftMem : left ∈ manifest.runs)
    (leftIn : left.InGroup group) (rightMem : right ∈ manifest.runs)
    (rightIn : right.InGroup group) (older : left.Older right) : left.Precedes group right := by
  rcases ordered.apart group left leftMem leftIn right rightMem rightIn with
    same | before | after
  · subst same
    exact absurd older older.asymm
  · exact before
  · exact absurd after.1 older.asymm

/-! ## What a publication adds -/

structure NewestRun (current : NamespaceManifestPayload) (run : MetadataRunRef) : Prop where
  older : ∀ other ∈ current.runs, (other.tier = .delta → other.runSeq ≤ current.headSeq) →
    other.Older run
  rows : current.runs ≠ [] → ∀ group, ∀ row ∈ run.groupRows group,
    current.headSeq < manifestRowCommitSeq row

structure OutputRun (current : NamespaceManifestPayload)
    (keep : MetadataRunRef → Option MetadataRunRef) (spec : MetadataCompactionSpec)
    (run : MetadataRunRef) : Prop where
  apart : spec.Apart current
  inputs : ∃ input ∈ current.runs, input.runNo ∈ spec.inputs
  inGroup : ∀ input ∈ current.runs, input.runNo ∈ spec.inputs → input.InGroup spec.group
  group : ∀ group, run.InGroup group → group = spec.group
  tier : run.tier = spec.placement.outputTier
  delta : run.tier = .delta →
    (∀ input ∈ current.runs, input.runNo ∈ spec.inputs →
      input.tier = .delta ∧ input.runSeq ≤ run.runSeq) ∧
    ∃ input ∈ current.runs, input.runNo ∈ spec.inputs ∧ input.runSeq = run.runSeq
  rows : ∀ row ∈ run.groupRows spec.group, ∃ input ∈ current.runs,
    input.runNo ∈ spec.inputs ∧ row ∈ input.groupRows spec.group
  removed : ∀ {input left}, input ∈ current.runs → input.runNo ∈ spec.inputs →
    keep input = some left → ¬left.InGroup spec.group

namespace OutputRun

variable {current : NamespaceManifestPayload} {spec : MetadataCompactionSpec} {run : MetadataRunRef}
  (output : OutputRun current keep spec run)
include output

theorem older (newer : ∀ input ∈ current.runs, input.runNo ∈ spec.inputs → input.Older other) :
    run.Older other := by
  obtain ⟨input, mem, isInput⟩ := output.inputs
  refine ⟨(newer input mem isInput).1, ?_⟩
  cases isTier : run.tier with
  | base => exact .inl rfl
  | delta =>
    obtain ⟨deltas, newest, newestMember, isNewest, sameSeq⟩ := output.delta isTier
    right
    rcases (newer newest newestMember isNewest).2 with isBase | less
    · rw [(deltas newest newestMember isNewest).1] at isBase
      cases isBase
    · rwa [sameSeq] at less

theorem newer (mem : other ∈ current.runs) (inGroup : other.InGroup spec.group)
    (notInput : other.runNo ∉ spec.inputs)
    (older : ∀ input ∈ current.runs, input.runNo ∈ spec.inputs → other.Older input) :
    other.Older run := by
  obtain ⟨input, inputMem, isInput⟩ := output.inputs
  cases isTier : run.tier with
  | base =>
    -- A base output has nothing below its inputs.
    have above := output.apart.bottom (output.tier.symm.trans isTier) other mem inGroup
      notInput input inputMem isInput
    exact absurd (older input inputMem isInput) above.asymm
  | delta =>
    refine ⟨isTier, ?_⟩
    obtain ⟨deltas, _⟩ := output.delta isTier
    rcases (older input inputMem isInput).2 with isBase | less
    · exact .inl isBase
    · exact .inr (less.trans_le (deltas input inputMem isInput).2)

end OutputRun

variable {current : NamespaceManifestPayload} {run left : MetadataRunRef}
  {keep : MetadataRunRef → Option MetadataRunRef}

theorem OutputRun.precedes (output : OutputRun current keep spec run)
    (ordered : RunsOrdered current) (mem : other ∈ current.runs)
    (kept : keep other = some left) (leaves : other.Leaves left)
    (inGroup : left.InGroup spec.group) :
    other.Precedes spec.group run ∨ run.Precedes spec.group other := by
  have notInput : other.runNo ∉ spec.inputs :=
    fun isInput => output.removed mem isInput kept inGroup
  have otherIn := leaves.inGroup inGroup
  rcases output.apart.side other mem otherIn notInput with older | newer
  · left
    refine ⟨output.newer mem otherIn notInput older, ?_⟩
    intro row isRow another isAnother
    obtain ⟨input, inputMem, isInput, isSource⟩ := output.rows another isAnother
    exact (ordered.precedes mem otherIn inputMem
      (output.inGroup input inputMem isInput) (older input inputMem isInput)).2
      row isRow another isSource
  · right
    refine ⟨output.older newer, ?_⟩
    intro row isRow another isAnother
    obtain ⟨input, inputMem, isInput, isSource⟩ := output.rows row isRow
    exact (ordered.precedes inputMem (output.inGroup input inputMem isInput) mem
      otherIn (newer input inputMem isInput)).2 row isSource another isAnother

theorem NewestRun.precedes (newest : NewestRun current run) (ordered : RunsOrdered current)
    (mem : other ∈ current.runs) (group : MetadataFamilyGroup) : other.Precedes group run := by
  refine ⟨newest.older other mem (ordered.stamps other mem), ?_⟩
  intro row isRow another isAnother
  exact (ordered.rows group other mem row isRow).trans_lt
    (newest.rows (ne_nil_of_mem mem) group another isAnother)

/-- One publication, as far as the order of runs goes. -/
structure Reorders (current next : NamespaceManifestPayload)
    (keep : MetadataRunRef → Option MetadataRunRef) (added : Option MetadataRunRef) : Prop where
  relists : Relists current next keep added
  headSeq : current.headSeq ≤ next.headSeq
  placed : ∀ run ∈ added, NewestRun current run ∨ ∃ spec, OutputRun current keep spec run
  stamp : ∀ run ∈ added, run.tier = .delta → run.runSeq ≤ next.headSeq
  rows : ∀ run ∈ added, ∀ group, ∀ row ∈ run.groupRows group,
    manifestRowCommitSeq row ≤ next.headSeq
  covered : ∀ run ∈ added, ∀ group, ∀ row ∈ run.groupRows group,
    manifestRowCommitSeq row ≤ run.runSeq

theorem MetadataRunRef.Precedes.leaves (precedes : run.Precedes group other)
    (leaves : run.Leaves left) (otherLeaves : other.Leaves another) :
    left.Precedes group another := by
  refine ⟨(leaves.older_iff otherLeaves).mpr precedes.1, ?_⟩
  intro row isRow anotherRow isAnother
  exact precedes.2 row (leaves.mem_groupRows isRow) anotherRow
    (otherLeaves.mem_groupRows isAnother)

namespace Reorders

variable {current : NamespaceManifestPayload} (reorders : Reorders current new keep added)
  (ordered : RunsOrdered current)
include reorders ordered

theorem beside (isAdded : run ∈ added) (inGroup : run.InGroup group)
    (mem : before ∈ current.runs) (kept : keep before = some left)
    (leftIn : left.InGroup group) : left.Precedes group run ∨ run.Precedes group left := by
  have leaves := reorders.relists.keep kept
  rcases reorders.placed run isAdded with newest | ⟨spec, output⟩
  · exact .inl ((newest.precedes ordered mem group).leaves leaves (.refl run))
  · have same := output.group group inGroup
    subst same
    rcases output.precedes ordered mem kept leaves leftIn with before | after
    · exact .inl (before.leaves leaves (.refl run))
    · exact .inr (after.leaves (.refl run) leaves)

theorem runsOrdered : RunsOrdered new := by
  refine ⟨?_, ?_, ?_, ?_⟩
  · intro group left leftMem leftIn right rightMem rightIn
    rcases reorders.relists.mem_runs leftMem with
      ⟨first, isFirst, firstKept, firstLeaves⟩ | leftAdded
    · rcases reorders.relists.mem_runs rightMem with
        ⟨second, isSecond, secondKept, secondLeaves⟩ | rightAdded
      · rcases ordered.apart group first isFirst (firstLeaves.inGroup leftIn) second isSecond
          (secondLeaves.inGroup rightIn) with same | before | after
        · left
          subst same
          exact Option.some.inj (firstKept.symm.trans secondKept)
        · exact .inr (.inl (before.leaves firstLeaves secondLeaves))
        · exact .inr (.inr (after.leaves secondLeaves firstLeaves))
      · exact .inr (reorders.beside ordered rightAdded rightIn isFirst firstKept leftIn)
    · rcases reorders.relists.mem_runs rightMem with
        ⟨second, isSecond, secondKept, secondLeaves⟩ | rightAdded
      · exact .inr (reorders.beside ordered leftAdded leftIn isSecond secondKept rightIn).symm
      · exact .inl (Option.mem_unique leftAdded rightAdded)
  · intro run mem isDelta
    rcases reorders.relists.mem_runs mem with ⟨before, isBefore, _, leaves⟩ | isAdded
    · rw [leaves.runSeq]
      exact (ordered.stamps before isBefore (leaves.tier.symm.trans isDelta)).trans
        reorders.headSeq
    · exact reorders.stamp run isAdded isDelta
  · intro group run mem row isRow
    rcases reorders.relists.mem_runs mem with ⟨before, isBefore, _, leaves⟩ | isAdded
    · exact (ordered.rows group before isBefore row (leaves.mem_groupRows isRow)).trans
        reorders.headSeq
    · exact reorders.rows run isAdded group row isRow
  · intro group run mem row isRow
    rcases reorders.relists.mem_runs mem with ⟨before, isBefore, _, leaves⟩ | isAdded
    · rw [leaves.runSeq]
      exact ordered.covered group before isBefore row (leaves.mem_groupRows isRow)
    · exact reorders.covered run isAdded group row isRow

end Reorders

/-! ## Windows planned earlier -/

def MetadataCompactionSpec.Intact (spec : MetadataCompactionSpec)
    (planned current : NamespaceManifestPayload) : Prop :=
  ∀ run ∈ planned.runs, run.runNo ∈ spec.inputs → ∃ left ∈ current.runs, run.Leaves left ∧
    left.groupRunDescriptors spec.group = run.groupRunDescriptors spec.group

variable {current : NamespaceManifestPayload} {spec : MetadataCompactionSpec}

theorem MetadataCompactionSpec.Intact.origin (intact : spec.Intact planned current)
    (plannedOn : spec.PlannedOn planned) (listed : WellListed current)
    (mem : input ∈ current.runs) (isInput : input.runNo ∈ spec.inputs) :
    ∃ run ∈ planned.runs, run.Leaves input ∧ run.InGroup spec.group ∧
      input.groupRunDescriptors spec.group = run.groupRunDescriptors spec.group := by
  obtain ⟨run, isRun, sameNo, inGroup⟩ := plannedOn.inputs _ isInput
  obtain ⟨left, isLeft, leaves, same⟩ := intact run isRun (sameNo ▸ isInput)
  have isLeft := listed.unique left isLeft input mem (leaves.runNo.trans sameNo)
  subst isLeft
  exact ⟨run, isRun, leaves, inGroup, same⟩

theorem OutputRun.beside_window {keep : MetadataRunRef → Option MetadataRunRef}
    {other : MetadataCompactionSpec} (output : OutputRun current keep spec run)
    (apart : other.Apart current) (sameGroup : other.group = spec.group)
    (keeps : ∀ {run left}, keep run = some left → run.Leaves left)
    (survives : ∀ input ∈ current.runs, input.runNo ∈ other.inputs → ∃ left, keep input =
      some left ∧ left.InGroup spec.group) :
    ((∀ input ∈ current.runs, input.runNo ∈ other.inputs → run.Older input) ∨
      (∀ input ∈ current.runs, input.runNo ∈ other.inputs → input.Older run)) ∧
    (other.placement.outputTier = .base →
      ∀ input ∈ current.runs, input.runNo ∈ other.inputs → input.Older run) := by
  obtain ⟨merged, mergedMember, isMerged⟩ := output.inputs
  have mergedIn := output.inGroup merged mergedMember isMerged
  have disjoint {input : MetadataRunRef} (mem : input ∈ current.runs)
      (isInput : input.runNo ∈ other.inputs) : input.runNo ∉ spec.inputs := by
    obtain ⟨left, kept, inGroup⟩ := survives input mem isInput
    exact fun isMerged => output.removed mem isMerged kept inGroup
  have notInput : merged.runNo ∉ other.inputs :=
    fun isInput => disjoint mergedMember isInput isMerged
  have inputIn {input : MetadataRunRef} (mem : input ∈ current.runs)
      (isInput : input.runNo ∈ other.inputs) : input.InGroup spec.group := by
    obtain ⟨left, kept, inGroup⟩ := survives input mem isInput
    exact (keeps kept).inGroup inGroup
  have sides {input : MetadataRunRef} (mem : input ∈ current.runs)
      (isInput : input.runNo ∈ other.inputs) :=
    output.apart.side input mem (inputIn mem isInput) (disjoint mem isInput)
  have below (older : ∀ input ∈ current.runs, input.runNo ∈ other.inputs →
      merged.Older input) (input : MetadataRunRef) (mem : input ∈ current.runs)
      (isInput : input.runNo ∈ other.inputs) : run.Older input := by
    rcases sides mem isInput with before | after
    · exact absurd (before merged mergedMember isMerged) (older input mem isInput).asymm
    · exact output.older after
  have above (newer : ∀ input ∈ current.runs, input.runNo ∈ other.inputs →
      input.Older merged) (input : MetadataRunRef) (mem : input ∈ current.runs)
      (isInput : input.runNo ∈ other.inputs) : input.Older run := by
    rcases sides mem isInput with before | after
    · exact output.newer mem (inputIn mem isInput) (disjoint mem isInput) before
    · exact absurd (after merged mergedMember isMerged) (newer input mem isInput).asymm
  constructor
  · rcases apart.side merged mergedMember (sameGroup ▸ mergedIn) notInput with older | newer
    · exact .inl (below older)
    · exact .inr (above newer)
  · intro isBase
    exact above (apart.bottom isBase merged mergedMember (sameGroup ▸ mergedIn) notInput)

section

variable {planned current : NamespaceManifestPayload} {spec : MetadataCompactionSpec}
  (reorders : Reorders current new keep added) (plannedOn : spec.PlannedOn planned)
  (intact : spec.Intact planned new) (plannedListed : WellListed planned)
  (descends : Descends planned current) (le : planned.nextRunNo ≤ current.nextRunNo)
include reorders plannedOn plannedListed le

theorem Reorders.added_fresh (isAdded : run ∈ added) : run.runNo ∉ spec.inputs := by
  intro isInput
  obtain ⟨source, isSource, sameNo, _⟩ := plannedOn.inputs _ isInput
  have below := plannedListed.run_below isSource
  rw [sameNo, (reorders.relists.number run isAdded).1] at below
  exact absurd below (Nat.not_lt.mpr le)

include intact descends

theorem Reorders.intact_before (mem : run ∈ planned.runs) (isInput : run.runNo ∈ spec.inputs) :
    ∃ before ∈ current.runs, ∃ left, keep before = some left ∧ run.Leaves before ∧
      before.groupRunDescriptors spec.group = run.groupRunDescriptors spec.group ∧
      left.groupRunDescriptors spec.group = run.groupRunDescriptors spec.group := by
  obtain ⟨left, isLeft, leaves, same⟩ := intact run mem isInput
  rcases reorders.relists.mem_runs isLeft with ⟨before, isBefore, kept, lost⟩ | isAdded
  · have sameNo : before.runNo = run.runNo := lost.runNo.symm.trans leaves.runNo
    obtain ⟨source, isSource, sourceLeaves⟩ := descends before isBefore
      (sameNo ▸ plannedListed.run_below mem)
    have isRun := plannedListed.unique source isSource run mem
      (sourceLeaves.runNo.symm.trans sameNo)
    subst isRun
    refine ⟨before, isBefore, left, kept, sourceLeaves, ?_, same⟩
    apply (sourceLeaves.descriptors spec.group).antisymm
    rw [← same]
    exact lost.descriptors spec.group
  · exact absurd (leaves.runNo ▸ isInput)
      (reorders.added_fresh plannedOn plannedListed le isAdded)

theorem Reorders.apart (ordered : RunsOrdered current) (listed : WellListed current)
    (apart : spec.Apart current) : spec.Apart new := by
  have fresh {run : MetadataRunRef} (isAdded : run ∈ added) :=
    reorders.added_fresh plannedOn plannedListed le isAdded
  have survives : ∀ input ∈ current.runs, input.runNo ∈ spec.inputs →
      ∃ left, keep input = some left ∧ left.InGroup spec.group := by
    intro input mem isInput
    obtain ⟨run, isRun, sameNo, inGroup⟩ := plannedOn.inputs _ isInput
    obtain ⟨before, isBefore, left, kept, leaves, _, same⟩ := reorders.intact_before plannedOn
      intact plannedListed descends le isRun (sameNo ▸ isInput)
    have isInput := listed.unique before isBefore input mem (leaves.runNo.trans sameNo)
    subst isInput
    refine ⟨left, kept, ?_⟩
    rwa [MetadataRunRef.InGroup, same]
  have origin {input : MetadataRunRef} (mem : input ∈ new.runs)
      (isInput : input.runNo ∈ spec.inputs) :
      ∃ before ∈ current.runs, before.runNo ∈ spec.inputs ∧ before.Leaves input := by
    rcases reorders.relists.mem_runs mem with ⟨before, isBefore, _, leaves⟩ | isAdded
    · exact ⟨before, isBefore, leaves.runNo ▸ isInput, leaves⟩
    · exact absurd isInput (fresh isAdded)
  -- The sides of a run carry over from the inputs of the current manifest.
  have olderThan {run left : MetadataRunRef} (leaves : run.Leaves left)
      (older : ∀ input ∈ current.runs, input.runNo ∈ spec.inputs → run.Older input)
      (input : MetadataRunRef) (mem : input ∈ new.runs)
      (isInput : input.runNo ∈ spec.inputs) : left.Older input := by
    obtain ⟨before, isBefore, beforeInput, lost⟩ := origin mem isInput
    exact (leaves.older_iff lost).mpr (older before isBefore beforeInput)
  have newerThan {run left : MetadataRunRef} (leaves : run.Leaves left)
      (newer : ∀ input ∈ current.runs, input.runNo ∈ spec.inputs → input.Older run)
      (input : MetadataRunRef) (mem : input ∈ new.runs)
      (isInput : input.runNo ∈ spec.inputs) : input.Older left := by
    obtain ⟨before, isBefore, beforeInput, lost⟩ := origin mem isInput
    exact (lost.older_iff leaves).mpr (newer before isBefore beforeInput)
  have added_side {run : MetadataRunRef} (isAdded : run ∈ added)
      (inGroup : run.InGroup spec.group) :
      ((∀ input ∈ current.runs, input.runNo ∈ spec.inputs → run.Older input) ∨
        (∀ input ∈ current.runs, input.runNo ∈ spec.inputs → input.Older run)) ∧
      (spec.placement.outputTier = .base →
        ∀ input ∈ current.runs, input.runNo ∈ spec.inputs → input.Older run) := by
    rcases reorders.placed run isAdded with newest | ⟨unit, output⟩
    · have newer : ∀ input ∈ current.runs, input.runNo ∈ spec.inputs → input.Older run :=
        fun input mem _ => newest.older input mem (ordered.stamps input mem)
      exact ⟨.inr newer, fun _ => newer⟩
    · have sameGroup := output.group _ inGroup
      exact output.beside_window apart sameGroup reorders.relists.keep (sameGroup ▸ survives)
  constructor
  · intro run mem inGroup notInput
    rcases reorders.relists.mem_runs mem with ⟨before, isBefore, _, leaves⟩ | isAdded
    · rcases apart.side before isBefore (leaves.inGroup inGroup) (leaves.runNo ▸ notInput) with
        older | newer
      · exact .inl (olderThan leaves older)
      · exact .inr (newerThan leaves newer)
    · rcases (added_side isAdded inGroup).1 with older | newer
      · exact .inl (olderThan (.refl run) older)
      · exact .inr (newerThan (.refl run) newer)
  · intro isBase run mem inGroup notInput
    rcases reorders.relists.mem_runs mem with ⟨before, isBefore, _, leaves⟩ | isAdded
    · exact newerThan leaves
        (apart.bottom isBase before isBefore (leaves.inGroup inGroup) (leaves.runNo ▸ notInput))
    · exact newerThan (.refl run) ((added_side isAdded inGroup).2 isBase)

end

/-! ## The publishers -/

variable {current : NamespaceManifestPayload}

theorem foldAttempt_headSeq
    (built : foldAttempt head tailActivity segments current = .ok (.next new outcome)) :
    new.headSeq = head.seq := by
  rw [foldAttempt] at built
  split at built
  · cases built
  split at built
  · cases built
  rw [Foundation.bind_eq_ok] at built
  obtain ⟨folded, built, isNext⟩ := built
  cases isNext
  simp only [buildNamespaceManifestForProjection, Foundation.bind_eq_ok] at built
  obtain ⟨_, _, _, _, successor, _, isNext⟩ := built
  rw [← Foundation.pure_eq_ok.mp isNext]

variable {run : MetadataRunRef}

theorem MetadataRunRef.exists_segment (mem : row ∈ run.groupRows group) :
    ∃ segment ∈ run.segments, row ∈ segment.rows := by
  obtain ⟨segment, isSegment, isRow⟩ := mem_flatMap.mp mem
  exact ⟨segment, mem_of_mem_filter isSegment, isRow⟩

theorem foldedRun_runSeq (isRun : foldedRun previous headSeq segments = some run) :
    run.runSeq = headSeq := by
  rw [foldedRun] at isRun
  split at isRun
  · cases isRun
    rfl
  split at isRun
  · cases isRun
    rfl
  · cases isRun

theorem foldAttempt_reorders (folds : FoldsTail current head segments)
    (generated : Generated current segments)
    (built : foldAttempt head tailActivity segments current = .ok (.next new .published))
    (headSeq : current.headSeq ≤ new.headSeq) :
    Reorders current new some (foldedRun current head.seq segments) := by
  have isHead := foldAttempt_headSeq built
  have through {run : MetadataRunRef} (isRun : run ∈ foldedRun current head.seq segments)
      {group : MetadataFamilyGroup} {row : MetadataRow} (isRow : row ∈ run.groupRows group) :
      manifestRowCommitSeq row ≤ head.seq := by
    obtain ⟨segment, isSegment, isRow⟩ := MetadataRunRef.exists_segment isRow
    rw [(foldedRun_eq_some isRun).2] at isSegment
    exact folds.through segment isSegment row isRow
  refine ⟨foldAttempt_relists folds.written generated built, headSeq, ?_, ?_, ?_, ?_⟩
  · intro run isRun
    left
    rw [Option.mem_def, foldedRun] at isRun
    split at isRun
    · rename_i noRuns
      exact ⟨fun other mem => absurd mem (by simp [noRuns]), fun runs => absurd noRuns runs⟩
    split at isRun
    · rename_i above
      cases isRun
      constructor
      · intro other mem stamped
        refine ⟨rfl, ?_⟩
        cases isTier : other.tier with
        | base => exact .inl rfl
        | delta => exact .inr ((stamped isTier).trans_lt above)
      · intro runs group row isRow
        obtain ⟨segment, isSegment, isRow⟩ := MetadataRunRef.exists_segment isRow
        exact folds.above runs segment isSegment row isRow
    · cases isRun
  · intro run isRun _
    rw [isHead, foldedRun_runSeq isRun]
  · intro run isRun group row isRow
    rw [isHead]
    exact through isRun isRow
  · intro run isRun group row isRow
    rw [foldedRun_runSeq isRun]
    exact through isRun isRow

theorem MetadataFamilyGroup.eq_of_mem_families {first second : MetadataFamilyGroup}
    (isFirst : family ∈ first.families) (isSecond : family ∈ second.families) : first = second := by
  cases first <;> cases second <;> first | rfl | grind [MetadataFamilyGroup.families]

section

variable {spec : MetadataCompactionSpec}

theorem finalizeMetadataCompaction_reorders (window : spec.WindowOf planned)
    (apart : spec.Intact planned current → spec.Apart current)
    (plannedOrdered : RunsOrdered planned) (ordered : RunsOrdered current)
    (plannedListed : WellListed planned)
    (listed : WellListed current) (descends : Descends planned current)
    (recorded : inputSegmentKeys (runsNewestFirst planned) spec = some inputKeys)
    (compacts : CompactsInputs planned spec outputSegments)
    (generated : Generated current outputSegments)
    (built : finalizeMetadataCompaction current.namespaceId signals compactorEpoch spec inputKeys
      outputSegments current = .ok (.next new outcome)) :
    Reorders current new (MetadataRunRef.without inputKeys)
      (ReplacementOutput.runs ⟨outputSegments, spec.placement⟩ current.nextRunNo).head? := by
  have relists := finalizeMetadataCompaction_relists generated built
  obtain ⟨_, found, built⟩ := finalizeMetadataCompaction_eq_next built
  obtain ⟨_, isNext⟩ := buildReplacementManifest_eq_ok built
  have isHead : new.headSeq = current.headSeq := by rw [isNext]
  have plannedOn := window.plannedOn
  have intact : spec.Intact planned current := fun run mem isInput =>
    inputs_unchanged plannedOn plannedListed listed descends recorded found mem isInput
  have isOutput {run : MetadataRunRef} (isRun : run ∈ (ReplacementOutput.runs
      ⟨outputSegments, spec.placement⟩ current.nextRunNo).head?) :
      run = ⟨current.nextRunNo, spec.placement.outputSeq, spec.placement.outputTier,
        outputSegments⟩ := by
    rw [ReplacementOutput.runs] at isRun
    split at isRun
    · cases isRun
    · exact (Option.some.inj isRun).symm
  have output {run : MetadataRunRef} (isRun : run ∈ (ReplacementOutput.runs
      ⟨outputSegments, spec.placement⟩ current.nextRunNo).head?) :
      OutputRun current (MetadataRunRef.without inputKeys) spec run := by
    have isRun := isOutput isRun
    subst isRun
    constructor
    case apart => exact apart intact
    case inputs =>
      obtain ⟨runNo, isInput⟩ := exists_mem_of_ne_nil _ window.nonempty
      obtain ⟨run, mem, sameNo, _⟩ := plannedOn.inputs runNo isInput
      obtain ⟨left, isLeft, leaves, _⟩ := intact run mem (sameNo ▸ isInput)
      exact ⟨left, isLeft, leaves.runNo.trans sameNo ▸ isInput⟩
    case inGroup =>
      intro input mem isInput
      obtain ⟨run, _, _, inGroup, same⟩ := intact.origin plannedOn listed mem isInput
      rwa [MetadataRunRef.InGroup, same]
    case group =>
      intro group inGroup
      obtain ⟨segment, isSegment⟩ := exists_mem_of_ne_nil _ inGroup
      rw [MetadataRunRef.groupRunDescriptors, mem_filter, decide_eq_true_eq] at isSegment
      exact MetadataFamilyGroup.eq_of_mem_families isSegment.2
        (compacts.families segment isSegment.1)
    case tier => rfl
    case delta =>
      intro isDelta
      obtain ⟨deltas, newest, isNewest, newestInput, sameSeq⟩ := window.delta isDelta
      constructor
      · intro input mem isInput
        obtain ⟨run, isRun, leaves, _⟩ := intact.origin plannedOn listed mem isInput
        rw [leaves.tier, leaves.runSeq]
        exact deltas run isRun (leaves.runNo ▸ isInput)
      · obtain ⟨left, isLeft, leaves, _⟩ := intact newest isNewest newestInput
        exact ⟨left, isLeft, leaves.runNo ▸ newestInput, leaves.runSeq.trans sameSeq⟩
    case rows =>
      intro row isRow
      obtain ⟨segment, isSegment, isRow⟩ := MetadataRunRef.exists_segment isRow
      obtain ⟨run, mem, isInput, source, isSource, isRow⟩ :=
        compacts.rows segment isSegment row isRow
      obtain ⟨left, isLeft, leaves, same⟩ := intact run mem isInput
      exact ⟨left, isLeft, leaves.runNo ▸ isInput, mem_flatMap.mpr ⟨source, same ▸ isSource, isRow⟩⟩
    case removed =>
      intro input left mem isInput kept inGroup
      obtain ⟨segment, isSegment⟩ := exists_mem_of_ne_nil _ inGroup
      rw [without_eq_leaves listed found mem, MetadataCompactionSpec.leaves, if_pos isInput]
        at kept
      dsimp only at kept
      split at kept
      · cases kept
      · cases kept
        simp [MetadataRunRef.groupRunDescriptors] at isSegment
  refine ⟨relists, Nat.le_of_eq isHead.symm, fun run isRun => .inr ⟨spec, output isRun⟩, ?_, ?_, ?_⟩
  · intro run isRun isDelta
    obtain ⟨_, newest, mem, _, sameSeq⟩ := (output isRun).delta isDelta
    obtain ⟨deltas, _⟩ := (output isRun).delta isDelta
    rw [isHead, ← sameSeq]
    exact ordered.stamps newest mem (deltas newest mem (by assumption)).1
  · intro run isRun group row isRow
    have sameGroup := (output isRun).group group (MetadataRunRef.inGroup_of_mem_groupRows isRow)
    subst sameGroup
    obtain ⟨input, mem, _, isRow⟩ := (output isRun).rows row isRow
    rw [isHead]
    exact ordered.rows _ input mem row isRow
  · intro run isRun group row isRow
    have sameGroup := (output isRun).group group (MetadataRunRef.inGroup_of_mem_groupRows isRow)
    subst sameGroup
    obtain ⟨input, mem, isInput, isRow⟩ := (output isRun).rows row isRow
    cases isTier : run.tier with
    | base =>
      -- The base is stamped with the head that the unit was planned on.
      obtain ⟨source, isSource, leaves, _⟩ := intact.origin plannedOn listed mem isInput
      have isBase := (output isRun).tier.symm.trans isTier
      rw [isOutput isRun]
      exact (plannedOrdered.rows _ source isSource row (leaves.mem_groupRows isRow)).trans
        (window.base isBase).ge
    | delta =>
      exact (ordered.covered _ input mem row isRow).trans
        (((output isRun).delta isTier).1 input mem isInput).2

end

/-! ## The whole chain -/

variable {current : NamespaceManifestPayload}

theorem Reorders.of_kept (relists : Relists current new keep none)
    (headSeq : current.headSeq ≤ new.headSeq) : Reorders current new keep none :=
  ⟨relists, headSeq, by simp, by simp, by simp, by simp⟩

theorem Reorders.numbered (reorders : Reorders current wanted keep added)
    (manifestNo : ManifestNo) : Reorders current { wanted with manifestNo } keep added :=
  ⟨⟨reorders.relists.runs, reorders.relists.keep, reorders.relists.number,
    reorders.relists.written, reorders.relists.extensions⟩, reorders.headSeq, reorders.placed,
    reorders.stamp, reorders.rows, reorders.covered⟩

/-- Every manifest has its runs in order, and a planned window stays contiguous while the
newest manifest lists its inputs. -/
structure ChainOrdered (manifests : List NamespaceManifestPayload) : Prop where
  ordered : ∀ manifest ∈ manifests, RunsOrdered manifest
  windows : ∀ current ∈ manifests.head?, ∀ planned ∈ manifests,
    ∀ spec : MetadataCompactionSpec, spec.WindowOf planned → spec.Intact planned current →
      spec.Apart current

theorem Change.reorders (lineage : Lineage (current :: past))
    (chain : ChainOrdered (current :: past)) (change : Change current past wanted)
    (headSeq : current.headSeq ≤ wanted.headSeq) :
    ∃ keep added, Reorders current wanted keep added := by
  rcases change.kept_or_added with kept | ⟨head, tailActivity, segments, folds, generated, built⟩ |
    ⟨planned, isPlanned, policy, signals, compactorEpoch, spec, inputKeys, outputSegments, plan,
      recorded, compacts, generated, built⟩
  · exact ⟨_, _, .of_kept kept headSeq⟩
  · exact ⟨_, _, foldAttempt_reorders folds generated built headSeq⟩
  · have plannedListed := lineage.wellListed planned isPlanned
    have window := planCompaction_windowOf (chain.ordered planned isPlanned).groupOrdered
      plannedListed.runNos plan
    exact ⟨_, _, finalizeMetadataCompaction_reorders window
      (chain.windows current rfl planned isPlanned spec window)
      (chain.ordered planned isPlanned) (chain.ordered current mem_cons_self) plannedListed
      (lineage.wellListed current mem_cons_self)
      (lineage.descends current rfl planned isPlanned).1 recorded compacts generated built⟩

theorem Lineage.chainOrdered (lineage : Lineage manifests) : ChainOrdered manifests := by
  induction lineage with
  | initial space createdAtMs createdBy access =>
    constructor
    · intro manifest mem
      cases mem_singleton.mp mem
      constructor <;> simp [NamespaceManifestPayload.initial]
    · intro current isCurrent planned isPlanned spec window _
      cases mem_singleton.mp isPlanned
      cases Option.some.inj isCurrent
      exact window.apart
  | fork lineage isSource space createdAtMs createdBy basis induction =>
    constructor
    · intro manifest mem
      cases mem_singleton.mp mem
      have ordered := induction.ordered _ isSource
      exact ⟨ordered.apart, ordered.stamps, ordered.rows, ordered.covered⟩
    · intro current isCurrent planned isPlanned spec window _
      cases mem_singleton.mp isPlanned
      cases Option.some.inj isCurrent
      exact window.apart
  | @publish current wanted past manifestNo lineage change legal induction =>
    have follows := (NamespaceManifestPayload.ensureSuccessor_eq_ok.mp legal).1
    obtain ⟨keep, added, reorders⟩ := change.reorders lineage induction follows.headSeq
    have reorders := reorders.numbered manifestNo
    have ordered := induction.ordered current mem_cons_self
    constructor
    · intro manifest mem
      rcases mem_cons.mp mem with isNew | mem
      · subst isNew
        exact reorders.runsOrdered ordered
      · exact induction.ordered manifest mem
    · intro newest isNewest planned isPlanned spec window intact
      cases Option.some.inj isNewest
      rcases mem_cons.mp isPlanned with isNew | isPlanned
      · subst isNew
        exact window.apart
      · have plannedListed := lineage.wellListed planned isPlanned
        obtain ⟨descends, le⟩ := lineage.descends current rfl planned isPlanned
        have intactBefore : spec.Intact planned current := by
          intro run mem isInput
          obtain ⟨before, isBefore, _, _, leaves, same, _⟩ := reorders.intact_before
            window.plannedOn intact plannedListed descends le mem isInput
          exact ⟨before, isBefore, leaves, same⟩
        exact reorders.apart window.plannedOn intact plannedListed descends le ordered
          (lineage.wellListed current mem_cons_self)
          (induction.windows current rfl planned isPlanned spec window intactBefore)

end LoonFs
