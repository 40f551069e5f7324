import LoonFs.Compaction.Plan

/-! # Windows of runs -/

namespace LoonFs

open List Option

def MetadataRunRef.InGroup (group : MetadataFamilyGroup) (run : MetadataRunRef) : Prop :=
  run.groupRunDescriptors group ≠ []

def MetadataRunRef.Older (left right : MetadataRunRef) : Prop :=
  right.tier = .delta ∧ (left.tier = .base ∨ left.runSeq < right.runSeq)

namespace MetadataRunRef

variable {left right : MetadataRunRef}

theorem Older.asymm (older : left.Older right) : ¬right.Older left := by
  intro ⟨isDelta, newer⟩
  rcases older with ⟨rightDelta, isBase | less⟩
  · rw [isDelta] at isBase
    cases isBase
  · rcases newer with isBase | greater
    · rw [rightDelta] at isBase
      cases isBase
    · exact Nat.lt_asymm less greater

theorem compactsBefore_iff : left.compactsBefore right = true ↔
    right.tier.rank < left.tier.rank ∨ (left.tier.rank = right.tier.rank ∧
      (left.runSeq < right.runSeq ∨ (left.runSeq = right.runSeq ∧ left.runNo ≤ right.runNo))) := by
  simp [compactsBefore]

theorem readsBefore_eq : left.readsBefore right = right.compactsBefore left := by
  simp [readsBefore, compactsBefore, Bool.beq_comm]

theorem Older.not_compactsBefore (older : left.Older right) :
    ¬right.compactsBefore left = true := by
  rw [compactsBefore_iff]
  rcases older with ⟨rightDelta, isBase | less⟩
  · simp [rightDelta, isBase, RunTier.rank]
  · intro before
    rw [rightDelta] at before
    cases tier : left.tier with
    | base => simp [tier, RunTier.rank] at before
    | delta =>
      simp only [tier, lt_irrefl, false_or, true_and] at before
      rcases before with greater | ⟨eq, _⟩
      · exact Nat.lt_asymm less greater
      · exact (Nat.ne_of_lt less) eq.symm

theorem Older.not_readsBefore (older : left.Older right) : ¬left.readsBefore right = true := by
  rw [readsBefore_eq]
  exact older.not_compactsBefore

instance : Std.Total fun left right : MetadataRunRef => left.compactsBefore right = true where
  total left right := by
    simp only [compactsBefore_iff]
    grind

instance : IsTrans MetadataRunRef fun left right => left.compactsBefore right = true where
  trans first second third := by
    simp only [compactsBefore_iff]
    grind

instance : Std.Total fun left right : MetadataRunRef => left.readsBefore right = true where
  total left right := by
    simp only [readsBefore_eq, compactsBefore_iff]
    grind

instance : IsTrans MetadataRunRef fun left right => left.readsBefore right = true where
  trans first second third := by
    simp only [readsBefore_eq, compactsBefore_iff]
    grind

end MetadataRunRef

def GroupOrdered (group : MetadataFamilyGroup) (manifest : NamespaceManifestPayload) : Prop :=
  ∀ left ∈ manifest.runs, left.InGroup group → ∀ right ∈ manifest.runs, right.InGroup group →
    left = right ∨ left.Older right ∨ right.Older left

/-- Every other run of the group is older or newer than all of the unit's inputs. -/
structure MetadataCompactionSpec.Apart (spec : MetadataCompactionSpec)
    (manifest : NamespaceManifestPayload) : Prop where
  side : ∀ run ∈ manifest.runs, run.InGroup spec.group → run.runNo ∉ spec.inputs →
    (∀ input ∈ manifest.runs, input.runNo ∈ spec.inputs → run.Older input) ∨
    (∀ input ∈ manifest.runs, input.runNo ∈ spec.inputs → input.Older run)
  bottom : spec.placement.outputTier = .base → ∀ run ∈ manifest.runs, run.InGroup spec.group →
    run.runNo ∉ spec.inputs →
    ∀ input ∈ manifest.runs, input.runNo ∈ spec.inputs → input.Older run

structure MetadataCompactionSpec.WindowOf (spec : MetadataCompactionSpec)
    (planned : NamespaceManifestPayload) : Prop where
  plannedOn : spec.PlannedOn planned
  nonempty : spec.inputs ≠ []
  apart : spec.Apart planned
  base : spec.placement.outputTier = .base → spec.placement.outputSeq = planned.headSeq
  delta : spec.placement.outputTier = .delta →
    (∀ input ∈ planned.runs, input.runNo ∈ spec.inputs →
      input.tier = .delta ∧ input.runSeq ≤ spec.placement.outputSeq) ∧
    ∃ input ∈ planned.runs, input.runNo ∈ spec.inputs ∧
      input.runSeq = spec.placement.outputSeq

theorem tieredWindow_bounds (selected : tieredWindow storedBytes minRuns maxRuns = some window) :
    window.2 ≤ storedBytes.length ∧ window.2 - window.1 ≤ maxRuns := by
  obtain ⟨finish, isFinish, found⟩ := exists_of_findSome?_eq_some selected
  rw [mem_reverse, mem_range'_1] at isFinish
  dsimp only at found
  split at found
  · cases found
    dsimp only
    omega
  · cases found

theorem growCapped_length (storedBytes : List Nat) (windowBytes : Nat)
    (within : storedBytes.length - start ≤ maxRuns) :
    storedBytes.length - growCapped storedBytes maxRuns start windowBytes ≤ maxRuns := by
  induction start generalizing windowBytes with
  | zero => exact within
  | succ start induction =>
    simp only [growCapped]
    split
    · rename_i grows
      exact induction _ (by omega)
    · exact within

theorem cappedWindow_bounds (positive : 0 < maxRuns)
    (selected : cappedWindow storedBytes candidates maxDeltaRuns maxRuns = some window) :
    window.2 ≤ storedBytes.length ∧ window.2 - window.1 ≤ maxRuns := by
  rw [cappedWindow] at selected
  split at selected
  · cases selected
  · cases selected
    exact ⟨Nat.le_refl _, growCapped_length storedBytes _ (by omega)⟩

theorem selectCompactionWindow_nonempty
    (selected : selectCompactionWindow candidates group policy = some window) :
    window.1 < window.2 ∧ window.1 < candidates.length := by
  rw [selectCompactionWindow, filter_eq_some_iff] at selected
  obtain ⟨selected, valid⟩ := selected
  have nonempty : window.1 < window.2 := by
    by_contra notLess
    have empty : window.2 - window.1 = 0 := by omega
    rw [windowIsValid, empty] at valid
    cases valid
  refine ⟨nonempty, nonempty.trans_le ?_⟩
  rcases or_eq_some_iff.mp selected with tiered | ⟨_, capped⟩
  · simpa using (tieredWindow_bounds tiered).1
  · simpa using (cappedWindow_bounds policy.maxInputRunsPerStep_pos capped).1

theorem foldr_max_spec (values : List Nat) : (∀ value ∈ values, value ≤ values.foldr max 0) ∧
      (values ≠ [] → values.foldr max 0 ∈ values) := by
  induction values with
  | nil => simp
  | cons first rest induction =>
    refine ⟨?_, fun _ => ?_⟩
    · intro value mem
      rcases mem_cons.mp mem with isFirst | mem
      · exact isFirst ▸ Nat.le_max_left _ _
      · exact (induction.1 value mem).trans (Nat.le_max_right _ _)
    · rw [foldr_cons]
      rcases Nat.le_total first (rest.foldr max 0) with le | le
      · rw [Nat.max_eq_right le]
        cases rest with
        | nil =>
          have zero : first = 0 := by simpa using le
          simp [zero]
        | cons second rest => exact mem_cons_of_mem _ (induction.2 (by simp))
      · rw [Nat.max_eq_left le]
        exact mem_cons_self

section

theorem mem_groupCandidates : run ∈ groupCandidates (runsNewestFirst payload) group ↔
      run ∈ payload.runs ∧ run.InGroup group := by
  rw [groupCandidates, runsInCompactionOrder, mem_insertionSort, mem_filter,
    mem_runsNewestFirst, decide_eq_true_eq, MetadataRunRef.InGroup]

variable (ordered : GroupOrdered group payload)
  (numbered : (payload.runs.map MetadataRunRef.runNo).Nodup)
include ordered numbered

theorem groupCandidates_older :
    (groupCandidates (runsNewestFirst payload) group).Pairwise MetadataRunRef.Older := by
  have sorted : (groupCandidates (runsNewestFirst payload) group).Pairwise
      fun left right => left.compactsBefore right = true :=
    pairwise_insertionSort _ _
  have distinct : (groupCandidates (runsNewestFirst payload) group).Nodup := by
    rw [groupCandidates, runsInCompactionOrder, (perm_insertionSort _ _).nodup_iff]
    apply List.Nodup.filter
    rw [runsNewestFirst, (perm_insertionSort _ _).nodup_iff]
    exact numbered.of_map
  apply List.Pairwise.imp_of_mem _ (sorted.and distinct)
  rintro left right leftMem rightMem ⟨before, ne⟩
  rw [mem_groupCandidates] at leftMem rightMem
  rcases ordered left leftMem.1 leftMem.2 right rightMem.1 rightMem.2 with
    same | older | newer
  · exact absurd same ne
  · exact older
  · exact absurd before newer.not_compactsBefore

theorem planGroup_windowOf
    (planned : planGroup payload (runsNewestFirst payload) group policy = some spec) :
    spec.WindowOf payload := by
  have plannedOn := planGroup_plannedOn planned
  simp only [planGroup, map_eq_some_iff] at planned
  obtain ⟨⟨start, finish⟩, isWindow, isSpec⟩ := planned
  obtain ⟨less, inside⟩ := selectCompactionWindow_nonempty isWindow
  have older := groupCandidates_older ordered numbered
  generalize isCandidates : groupCandidates (runsNewestFirst payload) group = candidates at *
  dsimp only at less inside isSpec
  -- The candidates before the window, in it and after it.
  obtain ⟨before, selected, after, isSplit, isBefore, isSelected⟩ :
      ∃ before selected after, candidates = before ++ (selected ++ after) ∧
        before = candidates.take start ∧
        selected = (candidates.drop start).take (finish - start) :=
    ⟨_, _, (candidates.drop start).drop (finish - start),
      by rw [take_append_drop, take_append_drop], rfl, rfl⟩
  rw [← isSelected] at isSpec
  have nonempty : selected ≠ [] := by
    intro empty
    rw [isSelected, take_eq_nil_iff] at empty
    rcases empty with zero | dropped
    · omega
    · rw [drop_eq_nil_iff] at dropped
      omega
  rw [isSplit, pairwise_append, pairwise_append] at older
  obtain ⟨_, ⟨_, _, selectedAfter⟩, beforeRest⟩ := older
  subst isSpec
  have inputMem {input : MetadataRunRef} (mem : input ∈ payload.runs)
      (isInput : input.runNo ∈ selected.map (·.runNo)) : input ∈ selected := by
    obtain ⟨run, isRun, sameNo⟩ := mem_map.mp isInput
    have isCandidate : run ∈ candidates := by
      rw [isSplit]
      exact mem_append_right _ (mem_append_left _ isRun)
    rw [← isCandidates, mem_groupCandidates] at isCandidate
    rwa [← inj_on_of_nodup_map numbered isCandidate.1 mem sameNo]
  have outside {run : MetadataRunRef} (mem : run ∈ payload.runs) (inGroup : run.InGroup group)
      (notInput : run.runNo ∉ selected.map (·.runNo)) :
      run ∈ before ∨ run ∈ after := by
    have isCandidate : run ∈ candidates := by
      rw [← isCandidates, mem_groupCandidates]
      exact ⟨mem, inGroup⟩
    rw [isSplit, mem_append, mem_append] at isCandidate
    rcases isCandidate with isBefore | isSelected | isAfter
    · exact .inl isBefore
    · exact absurd (mem_map_of_mem isSelected) notInput
    · exact .inr isAfter
  refine ⟨plannedOn, by simpa using nonempty, ⟨?_, ?_⟩, ?_, ?_⟩
  · intro run mem inGroup notInput
    rcases outside mem inGroup notInput with isBefore | isAfter
    · left
      intro input inputMember isInput
      exact beforeRest run isBefore input
        (mem_append_left _ (inputMem inputMember isInput))
    · right
      intro input inputMember isInput
      exact selectedAfter input (inputMem inputMember isInput) run isAfter
  · intro isBase run mem inGroup notInput input inputMember isInput
    have atBottom : start = 0 := by
      by_contra notBottom
      simp [compactionPlacement, notBottom, CompactionPlacement.outputTier] at isBase
    rcases outside mem inGroup notInput with inBefore | isAfter
    · rw [isBefore, atBottom] at inBefore
      cases inBefore
    · exact selectedAfter input (inputMem inputMember isInput) run isAfter
  · intro isBase
    by_cases atBottom : start = 0
    · simp [compactionPlacement, atBottom, CompactionPlacement.outputSeq]
    · simp [compactionPlacement, atBottom, CompactionPlacement.outputTier] at isBase
  · intro isDelta
    have above : start ≠ 0 := by
      intro atBottom
      simp [compactionPlacement, atBottom, CompactionPlacement.outputTier] at isDelta
    have spec := foldr_max_spec (selected.map (·.runSeq))
    have isSeq : (compactionPlacement (decide (start = 0)) selected payload.headSeq).outputSeq =
        (selected.map (·.runSeq)).foldr max 0 := by
      simp [compactionPlacement, above, CompactionPlacement.outputSeq]
    refine ⟨?_, ?_⟩
    · intro input inputMember isInput
      have isSelected := inputMem inputMember isInput
      have exists_before : before ≠ [] := by
        rw [isBefore, ne_eq, take_eq_nil_iff]
        rintro (zero | empty)
        · exact above zero
        · simp [empty] at inside
      obtain ⟨first, isFirst⟩ := exists_mem_of_ne_nil _ exists_before
      refine ⟨(beforeRest first isFirst input (mem_append_left _ isSelected)).1, ?_⟩
      exact isSeq ▸ spec.1 _ (mem_map_of_mem isSelected)
    · obtain ⟨input, isInput, isNewest⟩ := mem_map.mp (spec.2 (by simpa using nonempty))
      have isCandidate : input ∈ candidates := by
        rw [isSplit]
        exact mem_append_right _ (mem_append_left _ isInput)
      rw [← isCandidates, mem_groupCandidates] at isCandidate
      exact ⟨input, isCandidate.1, mem_map_of_mem isInput, isNewest.trans isSeq.symm⟩

end

theorem planCompaction_windowOf (ordered : ∀ group, GroupOrdered group payload)
    (numbered : (payload.runs.map (·.runNo)).Nodup)
    (planned : planCompaction payload policy = some spec) : spec.WindowOf payload := by
  rw [planCompaction, bind_eq_some_iff] at planned
  obtain ⟨group, _, isPlan⟩ := planned
  exact planGroup_windowOf (ordered group) numbered isPlan

end LoonFs
