import LoonFs.Execution
import LoonFs.Metadata.Indexes

/-! # Index lookups and scans -/

namespace LoonFs

open Foundation
open List hiding below head le

/-- Every row lies at or below the sequence. -/
structure MetadataState.AtHead (rows : MetadataState) (seq : ChangeSeq) : Prop where
  inodes : ∀ row ∈ rows.inodes, row.committedSeq ≤ seq
  direntryBinds : ∀ row ∈ rows.direntryBinds, row.committedSeq ≤ seq
  subtreeTombstones : ∀ row ∈ rows.subtreeTombstones, row.committedSeq ≤ seq

/-- What the lookups rely on in the rows of a history. -/
structure MetadataState.Indexable (rows : MetadataState) : Prop where
  inodes : KeysDistinct InodeRecord.inodeId rows.inodes
  direntryBinds : KeysDistinct DirentryBindingRecord.position rows.direntryBinds
  tombstones : KeysDistinct SubtreeTombstoneRecord.position rows.subtreeTombstones
  root_unbound : ∀ row ∈ rows.direntryBinds, row.childInodeId ≠ rootInodeId

variable {Index Row : Type} {index : Row → Index} {rows : List Row}

theorem newestIndex_eq_scan {Key : Type} [LinearOrder Key] [DecidableEq Index] {key : Row → Key}
    {select : Row → Bool} (distinct : KeysDistinct key rows)
    (selects : ∀ row ∈ rows, select row = decide (index row = slot)) :
    newestIndex key index rows slot = maxByKey key (rows.filter select) := by
  rw [newestIndex_eq_newestOf distinct, newestOf, filter_congr selects]

theorem putAll_eq_find? [DecidableEq Index] (distinct : KeysDistinct index rows) (slot : Index) :
    putAll index (fun _ => none) rows slot = rows.find? fun row => index row = slot := by
  induction rows using List.reverseRecOn with
  | nil => rfl
  | append_singleton rows row induction =>
    have past := induction (distinct.of_subset fun _ => mem_append_left _)
    rw [List.find?_append, ← past, putAll, foldl_append]
    change Function.update (putAll index (fun _ => none) rows) (index row) (some row) slot = _
    by_cases sameSlot : slot = index row
    · subst sameSlot
      rw [Function.update_self]
      cases found : putAll index (fun _ => none) rows (index row) with
      | none => simp
      | some other =>
        rw [past] at found
        have sameIndex : index other = index row := by simpa using List.find?_some found
        rw [distinct other (mem_append_left _ (mem_of_find?_eq_some found)) row (by simp) sameIndex]
        rfl
    · rw [Function.update_of_ne sameSlot]
      simp [Ne.symm sameSlot]

theorem childRows_root_eq_nil {rows : MetadataState} (indexable : rows.Indexable)
    (seq : ChangeSeq) : rows.familyRows.childRows seq rootInodeId = [] := by
  rw [FamilyRows.childRows, filter_eq_nil_iff]
  intro row mem
  have notRoot := indexable.root_unbound row (mem_of_mem_filter mem)
  simp [notRoot]

namespace MetadataIndexes

variable {rows : MetadataState}

theorem ofRows_atHead (atHead : (ofRows rows).indexedSeq ≤ seq) : rows.AtHead seq := by
  simp only [ofRows, max_le_iff] at atHead
  rcases atHead with ⟨inodes, binds, _, tombstones, _⟩
  exact
    { inodes := fun _ mem => (le_highestSeq mem).trans inodes
      direntryBinds := fun _ mem => (le_highestSeq mem).trans binds
      subtreeTombstones := fun _ mem => (le_highestSeq mem).trans tombstones }

section

variable (indexable : rows.Indexable)

include indexable

theorem inode_eq_scan (atHead : rows.AtHead seq) (inodeId : InodeId) :
    (ofRows rows).inode inodeId = rows.familyRows.inodeAtSeq seq inodeId := by
  refine (putAll_eq_find? indexable.inodes inodeId).trans ?_
  rw [FamilyRows.inodeAtSeq, ← List.head?_filter, ← List.head?_filter]
  congr 1
  apply filter_congr
  intro row mem
  simp [atHead.inodes row mem]

theorem latestBind_eq_scan (atHead : rows.AtHead seq) (parentInodeId : InodeId)
    (nameKey : NameKey) : (ofRows rows).latestBind parentInodeId nameKey =
      rows.familyRows.latestSlotBinding seq parentInodeId nameKey := by
  apply newestIndex_eq_scan indexable.direntryBinds
  intro row mem
  simp [DirentryBindingRecord.slot, atHead.direntryBinds row mem]

theorem latestBindingForChild_eq_scan (atHead : rows.AtHead seq) (childInodeId : InodeId) :
    (ofRows rows).latestBindingForChild childInodeId =
      rows.familyRows.latestParentBindingForChild seq childInodeId := by
  have events : (ofRows rows).latestBindingForChild childInodeId =
      maxByKey (·.position) (rows.familyRows.childRows seq childInodeId) := by
    apply newestIndex_eq_scan (indexable.direntryBinds.filter _)
    intro row mem
    simp [atHead.direntryBinds row (mem_of_mem_filter mem)]
  rw [events, FamilyRows.latestParentBindingForChild]
  split
  · rename_i isRoot
    rw [isRoot, childRows_root_eq_nil indexable, maxByKey_nil]
  · rfl

theorem latestTombstone_eq_scan (atHead : rows.AtHead seq) (rootInodeId : InodeId) :
    (ofRows rows).latestTombstone rootInodeId =
      rows.familyRows.newestSubtreeTombstone seq rootInodeId := by
  apply newestIndex_eq_scan indexable.tombstones
  intro row mem
  simp [atHead.subtreeTombstones row mem]

end

end MetadataIndexes

theorem Reachable.indexable (reachable : Reachable policy history full)
    (inFull : ∀ row ∈ pushed, row.In full) : (StateRow.collect pushed).Indexable := by
  have settled := reachable.settled
  have isFull : ∀ row : StateRow, row.In (StateRow.collect pushed) → row.In full :=
    fun row isPushed => inFull row (StateRow.in_collect.mp isPushed)
  exact
    { inodes := settled.ordered.inodes_distinct.of_subset fun row => isFull (.inode row)
      direntryBinds := settled.ordered.binds.keysDistinct.of_subset fun row => isFull (.binding row)
      tombstones :=
        settled.ordered.tombstones.keysDistinct.of_subset fun row => isFull (.tombstone row)
      root_unbound := fun row mem => settled.root_unbound row (isFull (.binding row) mem) }

def MetadataState.latestParentBindingForChildAtSeq (rows : MetadataState)
    (childInodeId : InodeId) (baseSeq : ChangeSeq) : Option DirentryBindingRecord :=
  maxByKey DirentryBindingRecord.position (rows.direntryBinds.filter fun record =>
    record.childInodeId = childInodeId ∧ record.isBindingEvent ∧ record.committedSeq ≤ baseSeq)

namespace IndexedState

variable (state : IndexedState)

def readsAtSeq (baseSeq : ChangeSeq) : MetadataVisibilityReads where
  retentionFloorSeq := 0
  findInode inodeId :=
    if state.indexes.indexedSeq ≤ baseSeq then state.indexes.inode inodeId
    else state.rows.familyRows.inodeAtSeq baseSeq inodeId
  findLatestSlotBinding parentInodeId nameKey :=
    if state.indexes.indexedSeq ≤ baseSeq then state.indexes.latestBind parentInodeId nameKey
    else state.rows.familyRows.latestSlotBinding baseSeq parentInodeId nameKey
  findLatestParentBindingForChild childInodeId :=
    state.rows.latestParentBindingForChildAtSeq childInodeId
      (min baseSeq state.indexes.indexedSeq)
  findHidingSubtreeTombstone rootInodeId :=
    if state.indexes.indexedSeq ≤ baseSeq then state.indexes.hidingTombstone rootInodeId
    else state.rows.familyRows.hidingSubtreeTombstone baseSeq rootInodeId
  findAccessRow := state.rows.familyRows.latestAccessRevision baseSeq
  walkBudget := (state.rows.readsAtSeq baseSeq).walkBudget

def currentParentBindingForChild (baseSeq : ChangeSeq) (childInodeId : InodeId) :
    Option DirentryBindingRecord :=
  if state.indexes.indexedSeq ≤ baseSeq then state.indexes.activeParentForChild childInodeId
  else (state.readsAtSeq baseSeq).currentParentBindingForChild childInodeId

def activeChildBinding (baseSeq : ChangeSeq) (parentInodeId : InodeId) (nameKey : NameKey) :
    Option DirentryBindingRecord :=
  if state.indexes.indexedSeq ≤ baseSeq then state.indexes.activeChild parentInodeId nameKey
  else (state.readsAtSeq baseSeq).activeChildBinding parentInodeId nameKey

end IndexedState

theorem FamilyRows.currentParent_eq_filter (rows : FamilyRows) (child : InodeId) :
    (rows.readsAt seq floor).currentParentBindingForChild child =
      (rows.latestParentBindingForChild seq child).filter (·.isBound) := by
  rw [MetadataVisibilityReads.currentParentBindingForChild]
  split
  · rename_i isRoot
    simp [latestParentBindingForChild, isRoot]
  · rfl

/-- The index that a state keeps is the one a rebuild gives, and at or above the watermark
every indexed answer is the scan's. -/
theorem indexed_answers_equal_scans {policy : NamePolicy} {history : List WalCommitPayload}
    {full : MetadataState} (reachable : Reachable policy history full)
    (steps : List BuildStep) (fromHistory : ∀ step ∈ steps, step.From history full) :
    let state := IndexedState.build steps
    let scans := state.rows.familyRows
    state.indexes = MetadataIndexes.rebuild state.rows ∧
    ∀ seq, state.indexes.indexedSeq ≤ seq →
      (∀ inodeId, state.indexes.inode inodeId = scans.inodeAtSeq seq inodeId) ∧
      (∀ parentInodeId nameKey,
        state.indexes.latestBind parentInodeId nameKey =
          scans.latestSlotBinding seq parentInodeId nameKey ∧
        state.activeChildBinding seq parentInodeId nameKey =
          (state.rows.readsAtSeq seq).activeChildBinding parentInodeId nameKey) ∧
      (∀ childInodeId,
        state.indexes.latestBindingForChild childInodeId =
          scans.latestParentBindingForChild seq childInodeId ∧
        state.currentParentBindingForChild seq childInodeId =
          (state.rows.readsAtSeq seq).currentParentBindingForChild childInodeId) ∧
      (∀ rootInodeId,
        state.indexes.latestTombstone rootInodeId =
          scans.newestSubtreeTombstone seq rootInodeId ∧
        state.indexes.hidingTombstone rootInodeId =
          scans.hidingSubtreeTombstone seq rootInodeId) := by
  intro state scans
  have built := IndexedState.build_spec steps
  have indexed := built.2
  have indexable : state.rows.Indexable := by
    rw [show state.rows = _ from built.1]
    apply reachable.indexable
    intro row member
    rcases mem_flatMap.mp member with ⟨step, isStep, isPushed⟩
    exact BuildStep.pushes_in reachable (fromHistory step isStep) row isPushed
  refine ⟨indexed.trans (MetadataIndexes.rebuild_eq_ofRows state.rows).symm, ?_⟩
  intro seq atOrAbove
  have atHead : state.rows.AtHead seq := by
    rw [indexed] at atOrAbove
    exact MetadataIndexes.ofRows_atHead atOrAbove
  have bound := MetadataIndexes.latestBind_eq_scan indexable atHead
  have child := MetadataIndexes.latestBindingForChild_eq_scan indexable atHead
  have tombstone := MetadataIndexes.latestTombstone_eq_scan indexable atHead
  rw [← indexed] at bound child tombstone
  refine ⟨?_, ?_, ?_, ?_⟩
  · rw [indexed]
    exact MetadataIndexes.inode_eq_scan indexable atHead
  · intro parentInodeId nameKey
    refine ⟨bound parentInodeId nameKey, ?_⟩
    rw [IndexedState.activeChildBinding, if_pos atOrAbove]
    exact congrArg _ (bound parentInodeId nameKey)
  · intro childInodeId
    refine ⟨child childInodeId, ?_⟩
    rw [IndexedState.currentParentBindingForChild, if_pos atOrAbove]
    exact (congrArg _ (child childInodeId)).trans (scans.currentParent_eq_filter childInodeId).symm
  · intro rootInodeId
    exact ⟨tombstone rootInodeId, congrArg _ (tombstone rootInodeId)⟩

/-- The sample's commits applied newest first, and its binding rows pushed again. -/
theorem indexed_answers_equal_scans_sample :
    let steps := sampleRun.history.reverse.map BuildStep.applyCommit ++
      sampleRun.state.direntryBinds.map (BuildStep.push ∘ StateRow.binding)
    let state := IndexedState.build steps
    state.indexes = MetadataIndexes.rebuild state.rows ∧
      state.indexes.latestTombstone 1 =
        state.rows.familyRows.newestSubtreeTombstone state.indexes.indexedSeq 1 := by
  intro steps state
  have fromHistory : ∀ step ∈ steps, step.From sampleRun.history sampleRun.state := by
    intro step member
    rcases mem_append.mp member with applied | pushed
    · rcases mem_map.mp applied with ⟨record, isRecord, rfl⟩
      exact mem_reverse.mp isRecord
    · rcases mem_map.mp pushed with ⟨row, isRow, rfl⟩
      exact isRow
  have answers := indexed_answers_equal_scans sampleRun_reachable steps fromHistory
  exact ⟨answers.1, (answers.2 _ le_rfl).2.2.2 1 |>.1⟩

/-- The index has no revisions: with and without those of the sample it is the same, and the
newest revision of a file is not. -/
theorem newest_revision_not_indexed :
    Reachable .plain sampleRun.history sampleRun.state ∧ ∃ revised without : List BuildStep,
      (∀ step ∈ revised ++ without, step.From sampleRun.history sampleRun.state) ∧
      (IndexedState.build revised).indexes = (IndexedState.build without).indexes ∧
      (IndexedState.build revised).rows.familyRows.latestRevisionRecord 3 2 ≠
        (IndexedState.build without).rows.familyRows.latestRevisionRecord 3 2 := by
  let without := sampleRun.state.subtreeTombstones.map (BuildStep.push ∘ StateRow.tombstone)
  let revised := sampleRun.state.revisions.map (BuildStep.push ∘ StateRow.revision) ++ without
  refine ⟨sampleRun_reachable, revised, without, ?_, ?_, by decide +kernel⟩
  · have tombstones : ∀ step ∈ without, step.From sampleRun.history sampleRun.state := by
      intro step member
      rcases mem_map.mp member with ⟨row, isRow, rfl⟩
      exact isRow
    intro step member
    rcases mem_append.mp member with member | member
    · rcases mem_append.mp member with member | member
      · rcases mem_map.mp member with ⟨row, isRow, rfl⟩
        exact isRow
      · exact tombstones step member
    · exact tombstones step member
  · have pushes (rows : List StateRow) :
        (rows.map BuildStep.push).flatMap BuildStep.pushes = rows := by
      rw [flatMap_map]
      exact flatMap_singleton' rows
    have revisions := IndexedState.build_spec revised
    have alone := IndexedState.build_spec without
    simp only [revised, without, ← map_map, ← map_append, pushes, StateRow.collect_append,
      StateRow.collect_revisions, StateRow.collect_tombstones] at revisions alone ⊢
    rw [revisions.2, alone.2, revisions.1, alone.1]
    exact MetadataIndexes.ext (by decide +kernel) rfl rfl rfl rfl rfl rfl

end LoonFs
