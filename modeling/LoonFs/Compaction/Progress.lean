import Mathlib.Algebra.Order.BigOperators.Group.Finset
import LoonFs.Compaction.RunOrder

/-! # Compaction planning ends -/

namespace LoonFs

open List

/-! ## The size of a window -/

variable {window : Nat × Nat} {candidates : List MetadataRunRef}

/-- What the planner promises of a window. -/
structure IsWindow (candidates : List MetadataRunRef) (maxRuns : Nat) (window : Nat × Nat) :
    Prop where
  nonempty : window.1 < window.2
  inside : window.2 ≤ candidates.length
  atMost : window.2 - window.1 ≤ maxRuns
  /-- A window of one run is the group's oldest run, which is a delta run. -/
  promotes : window.2 - window.1 = 1 →
    window.1 = 0 ∧ candidates.head?.map MetadataRunRef.tier = some .delta

theorem selectCompactionWindow_isWindow
    (selected : selectCompactionWindow candidates group policy = some window) :
    IsWindow candidates policy.maxInputRunsPerStep window := by
  have nonempty := (selectCompactionWindow_nonempty selected).1
  rw [selectCompactionWindow, Option.filter_eq_some_iff] at selected
  obtain ⟨selected, valid⟩ := selected
  have bounds : window.2 ≤ candidates.length ∧
      window.2 - window.1 ≤ policy.maxInputRunsPerStep := by
    rcases Option.or_eq_some_iff.mp selected with tiered | ⟨_, capped⟩
    · simpa using tieredWindow_bounds tiered
    · simpa using cappedWindow_bounds policy.maxInputRunsPerStep_pos capped
  refine ⟨nonempty, bounds.1, bounds.2, ?_⟩
  intro single
  rw [windowIsValid, single] at valid
  simpa using valid

/-! ## Counting runs -/

def runCounts (runs : List MetadataRunRef) : Nat × Nat :=
  (runs.length, runs.countP (·.tier = .delta))

variable {others runs : List MetadataRunRef}

theorem runCounts_perm (perm : runs.Perm others) : runCounts runs = runCounts others := by
  rw [runCounts, runCounts, perm.length_eq, perm.countP_eq]

theorem runCounts_eq_of_tiers (same : runs.map (·.tier) = others.map (·.tier)) :
    runCounts runs = runCounts others := by
  have lengths := congrArg List.length same
  have deltas := congrArg (List.countP (· = .delta)) same
  rw [length_map, length_map] at lengths
  rw [countP_map, countP_map] at deltas
  exact Prod.ext lengths deltas

def replaceWindow (candidates : List MetadataRunRef) (window : Nat × Nat)
    (output : List MetadataRunRef) : List MetadataRunRef :=
  candidates.take window.1 ++ (output ++ candidates.drop window.2)

theorem ReplacementOutput.runs_eq (output : ReplacementOutput) (runNo : RunNo) :
    output.runs runNo = [] ∨
      ∃ run, output.runs runNo = [run] ∧ run.tier = output.placement.outputTier ∧
        run.segments = output.segments := by
  rw [ReplacementOutput.runs]
  split
  · exact .inl rfl
  · exact .inr ⟨_, rfl, rfl, rfl⟩

theorem IsWindow.counts_lt (isWindow : IsWindow candidates maxRuns window)
    {output : ReplacementOutput} (promoted : window.1 = 0 → output.placement.outputTier = .base)
    (runNo : RunNo) : toLex (runCounts (replaceWindow candidates window (output.runs runNo))) <
      toLex (runCounts candidates) := by
  have nonempty := isWindow.nonempty
  have inside := isWindow.inside
  rw [Prod.Lex.toLex_lt_toLex, runCounts, runCounts]
  have length : (replaceWindow candidates window (output.runs runNo)).length =
      window.1 + ((output.runs runNo).length + (candidates.length - window.2)) := by
    rw [replaceWindow, length_append, length_append, length_take,
      length_drop, Nat.min_eq_left (by omega)]
  rcases output.runs_eq runNo with none | ⟨run, isRun, isTier, _⟩
  · rw [none] at length ⊢
    left
    dsimp only
    rw [length, length_nil]
    omega
  · rw [isRun] at length ⊢
    by_cases single : window.2 - window.1 = 1
    · -- The oldest run leaves the delta tier.
      right
      obtain ⟨atBottom, isDelta⟩ := isWindow.promotes single
      dsimp only
      refine ⟨by rw [length, length_singleton]; omega, ?_⟩
      have ending : window.2 = 1 := by omega
      rw [promoted atBottom] at isTier
      cases candidates with
      | nil => cases isDelta
      | cons oldest newer =>
        have oldestDelta := Option.some.inj isDelta
        simp [replaceWindow, atBottom, ending, isTier, oldestDelta]
    · left
      dsimp only
      rw [length, length_singleton]
      omega

/-! ## What a plan replaces -/

theorem planCompaction_window (planned : planCompaction payload policy = some spec) :
    ∃ window, IsWindow (groupCandidates (runsNewestFirst payload) spec.group)
        policy.maxInputRunsPerStep window ∧
      spec.inputs = (((groupCandidates (runsNewestFirst payload) spec.group).drop window.1).take
        (window.2 - window.1)).map (·.runNo) ∧
      (window.1 = 0 → spec.placement.outputTier = .base) := by
  rw [planCompaction, Option.bind_eq_some_iff] at planned
  obtain ⟨group, _, isPlan⟩ := planned
  simp only [planGroup, Option.map_eq_some_iff] at isPlan
  obtain ⟨window, selected, isSpec⟩ := isPlan
  subst isSpec
  refine ⟨window, selectCompactionWindow_isWindow selected, rfl, ?_⟩
  intro atBottom
  simp [compactionPlacement, atBottom, CompactionPlacement.outputTier]

theorem groupCandidates_perm (payload : NamespaceManifestPayload) (group : MetadataFamilyGroup) :
    (groupCandidates (runsNewestFirst payload) group).Perm
      (payload.runs.filter fun run => run.groupRunDescriptors group ≠ []) := by
  rw [groupCandidates, runsInCompactionOrder]
  refine (perm_insertionSort _ _).trans ?_
  exact (perm_insertionSort _ payload.runs).filter _

theorem filter_outside_window (numbered : (candidates.map (·.runNo)).Nodup)
    (ascending : window.1 ≤ window.2) : candidates.filter (fun run => run.runNo ∉
        ((candidates.drop window.1).take (window.2 - window.1)).map (·.runNo)) =
      candidates.take window.1 ++ candidates.drop window.2 := by
  have dropped : (candidates.drop window.1).drop (window.2 - window.1) =
      candidates.drop window.2 := by
    rw [drop_drop, Nat.add_sub_of_le ascending]
  have isSplit : candidates = candidates.take window.1 ++
      ((candidates.drop window.1).take (window.2 - window.1) ++ candidates.drop window.2) := by
    rw [← dropped, take_append_drop, take_append_drop]
  generalize candidates.take window.1 = before at *
  generalize (candidates.drop window.1).take (window.2 - window.1) = selected at *
  generalize candidates.drop window.2 = after at *
  rw [isSplit, map_append, map_append, nodup_append', nodup_append'] at numbered
  obtain ⟨_, ⟨_, _, selectedAfter⟩, beforeRest⟩ := numbered
  rw [isSplit, filter_append, filter_append]
  have keepsBefore : before.filter (fun run => run.runNo ∉ selected.map (·.runNo)) = before := by
    rw [filter_eq_self]
    intro run mem
    apply decide_eq_true
    intro isSelected
    exact beforeRest (mem_map_of_mem mem) (mem_append_left _ isSelected)
  have dropsSelected : selected.filter (fun run => run.runNo ∉ selected.map (·.runNo)) = [] := by
    rw [filter_eq_nil_iff]
    intro run mem outside
    exact of_decide_eq_true outside (mem_map_of_mem mem)
  have keepsAfter : after.filter (fun run => run.runNo ∉ selected.map (·.runNo)) = after := by
    rw [filter_eq_self]
    intro run mem
    apply decide_eq_true
    intro isSelected
    exact selectedAfter isSelected (mem_map_of_mem mem)
  rw [keepsBefore, dropsSelected, keepsAfter, nil_append]

section

variable {spec : MetadataCompactionSpec}

theorem leaves_inGroup (run : MetadataRunRef) :
    ((spec.leaves run).filter fun left => left.groupRunDescriptors spec.group ≠ []) =
      Option.guard (fun run : MetadataRunRef =>
        run.runNo ∉ spec.inputs && run.groupRunDescriptors spec.group ≠ []) run := by
  rw [MetadataCompactionSpec.leaves]
  by_cases isInput : run.runNo ∈ spec.inputs
  · have nothing : Option.guard (fun run : MetadataRunRef =>
        run.runNo ∉ spec.inputs && run.groupRunDescriptors spec.group ≠ []) run = none := by
      simp [Option.guard_eq_none_iff, isInput]
    rw [nothing, if_pos isInput]
    dsimp only
    split
    · rfl
    · rw [Option.filter_eq_none_iff]
      intro left isLeft
      cases isLeft
      simp [MetadataRunRef.groupRunDescriptors, filter_filter]
  · rw [if_neg isInput]
    simp [Option.guard, Option.filter, isInput]

theorem leaves_inOtherGroup (other : group ≠ spec.group) (run : MetadataRunRef) :
    ((spec.leaves run).filter fun left => left.groupRunDescriptors group ≠ []).map
        MetadataRunRef.tier =
      (Option.guard (fun run : MetadataRunRef => run.groupRunDescriptors group ≠ []) run).map
        MetadataRunRef.tier := by
  rw [MetadataCompactionSpec.leaves]
  split
  · have same : MetadataRunRef.groupRunDescriptors group { run with
        segments := run.segments.filter fun segment => segment.family ∉ spec.group.families } =
        run.groupRunDescriptors group := by
      rw [MetadataRunRef.groupRunDescriptors, MetadataRunRef.groupRunDescriptors, filter_filter]
      apply filter_congr
      intro segment _
      have apart : segment.family ∈ group.families → segment.family ∉ spec.group.families :=
        fun inGroup inSpec => other (MetadataFamilyGroup.eq_of_mem_families inGroup inSpec)
      by_cases inGroup : segment.family ∈ group.families
      · simp [inGroup, apart inGroup]
      · simp [inGroup]
    dsimp only
    split
    · rename_i nothingLeft
      have outside : run.groupRunDescriptors group = [] := by
        rw [← same, nothingLeft]
        rfl
      simp [Option.guard, outside]
    · simp only [Option.filter_some, same]
      by_cases inGroup : run.groupRunDescriptors group = []
      · simp [Option.guard, inGroup]
      · simp [Option.guard, inGroup]
  · simp [Option.guard, Option.filter]

theorem published_runs (listed : WellListed current)
    (built : finalizeMetadataCompaction current.namespaceId signals compactorEpoch spec inputKeys
      outputSegments current = .ok (.next new outcome)) :
    new.runs = current.runs.filterMap spec.leaves ++
      ReplacementOutput.runs ⟨outputSegments, spec.placement⟩ current.nextRunNo ∧
    current.nextRunNo ≤ new.nextRunNo := by
  obtain ⟨_, read, replaced⟩ := finalizeMetadataCompaction_eq_next built
  obtain ⟨_, isNext⟩ := buildReplacementManifest_eq_ok replaced
  rw [isNext]
  refine ⟨?_, Nat.le_add_right _ _⟩
  dsimp only
  rw [filterMap_congr fun run mem => without_eq_leaves listed read mem]

theorem published_outputs_inGroup (compacts : CompactsInputs current spec outputSegments)
    (group : MetadataFamilyGroup) :
    (ReplacementOutput.runs ⟨outputSegments, spec.placement⟩ current.nextRunNo).filter
        (fun run => run.groupRunDescriptors group ≠ []) = if group = spec.group then
        ReplacementOutput.runs ⟨outputSegments, spec.placement⟩ current.nextRunNo else [] := by
  rw [ReplacementOutput.runs]
  dsimp only
  split
  · split <;> rfl
  · rename_i written
    obtain ⟨segment, isSegment⟩ := exists_mem_of_ne_nil _ written
    split
    · rename_i same
      rw [filter_eq_self]
      intro run isRun
      cases mem_singleton.mp isRun
      rw [decide_eq_true_eq, ne_eq, MetadataRunRef.groupRunDescriptors, filter_eq_nil_iff]
      intro noSegments
      apply noSegments segment isSegment
      rw [same]
      exact decide_eq_true (compacts.families segment isSegment)
    · rename_i other
      rw [filter_eq_nil_iff]
      intro run isRun
      cases mem_singleton.mp isRun
      rw [decide_eq_true_eq, not_not, MetadataRunRef.groupRunDescriptors, filter_eq_nil_iff]
      intro output isOutput inGroup
      exact other (MetadataFamilyGroup.eq_of_mem_families (of_decide_eq_true inGroup)
        (compacts.families output isOutput))

theorem published_candidates (listed : WellListed current)
    (compacts : CompactsInputs current spec outputSegments)
    (built : finalizeMetadataCompaction current.namespaceId signals compactorEpoch spec inputKeys
      outputSegments current = .ok (.next new outcome))
    {window : Nat × Nat} (ascending : window.1 ≤ window.2)
    (inputs : spec.inputs = (((groupCandidates (runsNewestFirst current) spec.group).drop
      window.1).take (window.2 - window.1)).map (·.runNo)) :
    (groupCandidates (runsNewestFirst new) spec.group).Perm
      (replaceWindow (groupCandidates (runsNewestFirst current) spec.group) window
        (ReplacementOutput.runs ⟨outputSegments, spec.placement⟩ current.nextRunNo)) := by
  have isPerm := groupCandidates_perm current spec.group
  have numbered : ((groupCandidates (runsNewestFirst current) spec.group).map
      (·.runNo)).Nodup := by
    rw [(isPerm.map _).nodup_iff]
    exact (filter_sublist.map _).nodup listed.runNos
  refine (groupCandidates_perm new spec.group).trans ?_
  rw [(published_runs listed built).1, filter_append, published_outputs_inGroup compacts,
    if_pos rfl, filter_filterMap]
  simp only [leaves_inGroup, filterMap_eq_filter]
  rw [← filter_filter]
  refine ((isPerm.symm.filter _).append_right _).trans ?_
  rw [inputs, filter_outside_window numbered ascending, replaceWindow, append_assoc]
  exact perm_append_comm.append_left _

theorem published_other_counts (listed : WellListed current)
    (compacts : CompactsInputs current spec outputSegments)
    (built : finalizeMetadataCompaction current.namespaceId signals compactorEpoch spec inputKeys
      outputSegments current = .ok (.next new outcome)) (other : group ≠ spec.group) :
    runCounts (groupCandidates (runsNewestFirst new) group) =
      runCounts (groupCandidates (runsNewestFirst current) group) := by
  rw [runCounts_perm (groupCandidates_perm new group),
    runCounts_perm (groupCandidates_perm current group)]
  apply runCounts_eq_of_tiers
  rw [(published_runs listed built).1, filter_append, published_outputs_inGroup compacts,
    if_neg other, append_nil, filter_filterMap, map_filterMap]
  simp only [leaves_inOtherGroup other]
  rw [← map_filterMap, filterMap_eq_filter]

end

/-! ## Rounds of planning and publishing -/

def totalCounts (manifest : NamespaceManifestPayload) : Nat × Nat :=
  (∑ group ∈ MetadataFamilyGroup.all.toFinset,
      (runCounts (groupCandidates (runsNewestFirst manifest) group)).1,
    ∑ group ∈ MetadataFamilyGroup.all.toFinset,
      (runCounts (groupCandidates (runsNewestFirst manifest) group)).2)

/-- One round: nothing is planned, or the planned unit is published. -/
inductive CompactionRound (policy : CompactionRunPolicy) (current : NamespaceManifestPayload) :
    NamespaceManifestPayload → Prop
  | idle (nothing : planCompaction current policy = none) : CompactionRound policy current current
  | published {signals : CompactionSignals} {compactorEpoch : CompactorEpoch}
      {spec : MetadataCompactionSpec} {inputKeys : Finset SegmentKey}
      {outputSegments : List MetadataSegmentRef} {next : NamespaceManifestPayload}
      (plan : planCompaction current policy = some spec)
      (recorded : inputSegmentKeys (runsNewestFirst current) spec = some inputKeys)
      (compacts : CompactsInputs current spec outputSegments)
      (generated : Generated current outputSegments)
      (built : finalizeMetadataCompaction current.namespaceId signals compactorEpoch spec
        inputKeys outputSegments current = .ok (.next next none)) :
      CompactionRound policy current next

theorem MetadataFamilyGroup.mem_all (group : MetadataFamilyGroup) :
    group ∈ MetadataFamilyGroup.all.toFinset := by
  cases group <;> decide

theorem totalCounts_lt (less : toLex (runCounts (groupCandidates (runsNewestFirst new) group)) <
      toLex (runCounts (groupCandidates (runsNewestFirst current) group)))
    (others : ∀ other, other ≠ group → runCounts (groupCandidates (runsNewestFirst new) other) =
        runCounts (groupCandidates (runsNewestFirst current) other)) :
    toLex (totalCounts new) < toLex (totalCounts current) := by
  rw [Prod.Lex.toLex_lt_toLex] at less ⊢
  simp only [totalCounts]
  rcases less with fewerRuns | ⟨sameRuns, fewerDeltas⟩
  · left
    apply Finset.sum_lt_sum
    · intro other _
      by_cases same : other = group
      · exact same ▸ fewerRuns.le
      · exact (congrArg Prod.fst (others other same)).le
    · exact ⟨group, group.mem_all, fewerRuns⟩
  · right
    constructor
    · apply Finset.sum_congr rfl
      intro other _
      by_cases same : other = group
      · exact same ▸ sameRuns
      · exact congrArg Prod.fst (others other same)
    · apply Finset.sum_lt_sum
      · intro other _
        by_cases same : other = group
        · exact same ▸ fewerDeltas.le
        · exact (congrArg Prod.snd (others other same)).le
      · exact ⟨group, group.mem_all, fewerDeltas⟩

namespace CompactionRound

theorem wellListed (round : CompactionRound policy current new) (listed : WellListed current) :
    WellListed new := by
  cases round with
  | idle => exact listed
  | published plan recorded compacts generated built =>
    exact (finalizeMetadataCompaction_relists generated built).wellListed listed
      (published_runs listed built).2

theorem counts_lt (round : CompactionRound policy current new) (listed : WellListed current)
    (planned : planCompaction current policy ≠ none) :
    toLex (totalCounts new) < toLex (totalCounts current) := by
  cases round with
  | idle nothing => exact absurd nothing planned
  | published plan recorded compacts generated built =>
    obtain ⟨window, isWindow, inputs, promoted⟩ := planCompaction_window plan
    have replaced := published_candidates listed compacts built isWindow.nonempty.le inputs
    apply totalCounts_lt
    · rw [runCounts_perm replaced]
      exact isWindow.counts_lt promoted _
    · exact fun other ne => published_other_counts listed compacts built ne

end CompactionRound

/-- A window is a part of the candidates that shrinks them, and rounds of planning and
publishing reach a manifest that warrants no unit. -/
theorem compaction_planning_ends :
    (∀ (candidates : List MetadataRunRef) (group : MetadataFamilyGroup)
        (policy : CompactionRunPolicy) (window : Nat × Nat),
      selectCompactionWindow candidates group policy = some window →
      window.1 < window.2 ∧ window.2 ≤ candidates.length ∧
      window.2 - window.1 ≤ policy.maxInputRunsPerStep ∧
      ∀ (segments : List MetadataSegmentRef) (headSeq : ChangeSeq) (runNo : RunNo),
        let selected := (candidates.drop window.1).take (window.2 - window.1)
        let output : ReplacementOutput :=
          ⟨segments, compactionPlacement (window.1 = 0) selected headSeq⟩
        toLex (runCounts (replaceWindow candidates window (output.runs runNo))) <
          toLex (runCounts candidates)) ∧
    ∀ (policy : CompactionRunPolicy) (manifests : Nat → NamespaceManifestPayload),
      WellListed (manifests 0) →
      (∀ round, CompactionRound policy (manifests round) (manifests (round + 1))) →
      ∃ round, planCompaction (manifests round) policy = none := by
  constructor
  · intro candidates group policy window selected
    have isWindow := selectCompactionWindow_isWindow selected
    refine ⟨isWindow.nonempty, isWindow.inside, isWindow.atMost, fun segments headSeq runNo => ?_⟩
    apply isWindow.counts_lt
    intro atBottom
    simp [compactionPlacement, atBottom, CompactionPlacement.outputTier]
  · intro policy manifests listed rounds
    have allListed (round : Nat) : WellListed (manifests round) := by
      induction round with
      | zero => exact listed
      | succ round induction => exact (rounds round).wellListed induction
    by_contra always
    obtain ⟨round, notLess⟩ := WellFounded.not_rel_apply_succ (r := (· < ·))
      fun round => toLex (totalCounts (manifests round))
    apply notLess
    apply (rounds round).counts_lt (allListed round)
    exact fun nothing => always ⟨round, nothing⟩

namespace SampleUnit

def compacted : NamespaceManifestPayload :=
  { planned with manifestNo := 4, nextRunNo := 3, runs := [⟨2, 2, .base, [segment "d"]⟩] }

def rounds : Nat → NamespaceManifestPayload
  | 0 => planned
  | _ + 1 => compacted

theorem compactionRound (round : Nat) :
    CompactionRound policy (rounds round) (rounds (round + 1)) := by
  cases round with
  | zero =>
    have plan : planCompaction planned policy = some spec := by decide +kernel
    have recorded : inputSegmentKeys (runsNewestFirst planned) spec =
        some [("ns", "a"), ("ns", "b")].toFinset := by decide +kernel
    have compacts : CompactsInputs planned spec [segment "d"] := ⟨by decide, by simp [segment]⟩
    have built : finalizeMetadataCompaction planned.namespaceId signals 0 spec
        [("ns", "a"), ("ns", "b")].toFinset [segment "d"] planned =
          .ok (.next compacted none) := rfl
    exact .published plan recorded compacts (generated (by decide +kernel)) built
  | succ round =>
    have nothing : planCompaction compacted policy = none := by decide +kernel
    exact .idle nothing

end SampleUnit

theorem compaction_planning_ends_sample :
    ∃ round, planCompaction (SampleUnit.rounds round) SampleUnit.policy = none :=
  compaction_planning_ends.2 SampleUnit.policy SampleUnit.rounds
    (SampleUnit.lineage.wellListed _ (List.mem_cons_of_mem _ List.mem_cons_self))
    SampleUnit.compactionRound

end LoonFs
