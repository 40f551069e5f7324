import LoonFs.Foundation.NewestIndex
import LoonFs.History

/-! # At-head indexes of the in-memory state -/

namespace LoonFs

open Foundation List MetadataState

inductive StateRow where
  | inode (record : InodeRecord)
  | binding (record : DirentryBindingRecord)
  | revision (record : RevisionRecord)
  | tombstone (record : SubtreeTombstoneRecord)
  | contentLayout (record : ContentLayoutRecord)
  | commit (record : WalCommitPayload)
  | commitReceipt (record : CommitReceiptRecord)
  | attributesRevision (record : AttributesRevisionRecord)
  | accessRevision (record : AccessRevisionRecord)

namespace StateRow

def asRows : StateRow → MetadataState
  | inode record => { inodes := [record] }
  | binding record => { direntryBinds := [record] }
  | revision record => { revisions := [record] }
  | tombstone record => { subtreeTombstones := [record] }
  | contentLayout record => { contentLayouts := [record] }
  | commit record => { commits := [record] }
  | commitReceipt record => { commitReceipts := [record] }
  | attributesRevision record => { attributesRevisions := [record] }
  | accessRevision record => { accessRevisions := [record] }

def pushOnto (rows : MetadataState) : StateRow → MetadataState
  | inode record => { rows with inodes := rows.inodes ++ [record] }
  | binding record => { rows with direntryBinds := rows.direntryBinds ++ [record] }
  | revision record => { rows with revisions := rows.revisions ++ [record] }
  | tombstone record => { rows with subtreeTombstones := rows.subtreeTombstones ++ [record] }
  | contentLayout record => { rows with contentLayouts := rows.contentLayouts ++ [record] }
  | commit record => { rows with commits := rows.commits ++ [record] }
  | commitReceipt record => { rows with commitReceipts := rows.commitReceipts ++ [record] }
  | attributesRevision record =>
    { rows with attributesRevisions := rows.attributesRevisions ++ [record] }
  | accessRevision record => { rows with accessRevisions := rows.accessRevisions ++ [record] }

private theorem append_eq (left right : MetadataState) : left ++ right = left.append right := rfl

theorem pushOnto_eq_append (rows : MetadataState) (row : StateRow) :
    row.pushOnto rows = rows ++ row.asRows := by
  cases row <;> simp [append_eq, MetadataState.append, pushOnto, asRows]

def In (rows : MetadataState) : StateRow → Prop
  | inode record => record ∈ rows.inodes
  | binding record => record ∈ rows.direntryBinds
  | revision record => record ∈ rows.revisions
  | tombstone record => record ∈ rows.subtreeTombstones
  | contentLayout record => record ∈ rows.contentLayouts
  | commit record => record ∈ rows.commits
  | commitReceipt record => record ∈ rows.commitReceipts
  | attributesRevision record => record ∈ rows.attributesRevisions
  | accessRevision record => record ∈ rows.accessRevisions

def collect (rows : List StateRow) : MetadataState :=
  rows.foldr (fun row rest => row.asRows ++ rest) {}

@[simp] theorem collect_nil : collect [] = {} := rfl

@[simp] theorem collect_cons (row : StateRow) (rest : List StateRow) :
    collect (row :: rest) = row.asRows ++ collect rest := rfl

@[simp] theorem collect_append (left right : List StateRow) :
    collect (left ++ right) = collect left ++ collect right := by
  induction left with
  | nil => rfl
  | cons row rest induction =>
    rw [List.cons_append, collect_cons, collect_cons, induction, MetadataState.append_assoc]

theorem collect_map {Row : Type} (make : Row → StateRow) (family : List Row → MetadataState)
    (empty : family [] = {})
    (cons : ∀ row rest, (make row).asRows ++ family rest = family (row :: rest))
    (rows : List Row) : collect (rows.map make) = family rows := by
  induction rows with
  | nil => exact empty.symm
  | cons row rest induction => rw [map_cons, collect_cons, induction, cons]

theorem collect_inodes (inodes : List InodeRecord) : collect (inodes.map inode) = { inodes } :=
  collect_map inode (fun inodes => { inodes }) rfl (fun _ _ => rfl) inodes

theorem collect_bindings (direntryBinds : List DirentryBindingRecord) :
    collect (direntryBinds.map binding) = { direntryBinds } :=
  collect_map binding (fun direntryBinds => { direntryBinds }) rfl (fun _ _ => rfl) direntryBinds

theorem collect_revisions (revisions : List RevisionRecord) :
    collect (revisions.map revision) = { revisions } :=
  collect_map revision (fun revisions => { revisions }) rfl (fun _ _ => rfl) revisions

theorem collect_tombstones (subtreeTombstones : List SubtreeTombstoneRecord) :
    collect (subtreeTombstones.map tombstone) = { subtreeTombstones } :=
  collect_map tombstone (fun subtreeTombstones => { subtreeTombstones }) rfl (fun _ _ => rfl)
    subtreeTombstones

theorem collect_contentLayouts (contentLayouts : List ContentLayoutRecord) :
    collect (contentLayouts.map contentLayout) = { contentLayouts } :=
  collect_map contentLayout (fun contentLayouts => { contentLayouts }) rfl (fun _ _ => rfl)
    contentLayouts

theorem collect_commits (commits : List WalCommitPayload) :
    collect (commits.map commit) = { commits } :=
  collect_map commit (fun commits => { commits }) rfl (fun _ _ => rfl) commits

theorem collect_commitReceipts (commitReceipts : List CommitReceiptRecord) :
    collect (commitReceipts.map commitReceipt) = { commitReceipts } :=
  collect_map commitReceipt (fun commitReceipts => { commitReceipts }) rfl (fun _ _ => rfl)
    commitReceipts

theorem collect_attributesRevisions (attributesRevisions : List AttributesRevisionRecord) :
    collect (attributesRevisions.map attributesRevision) = { attributesRevisions } :=
  collect_map attributesRevision (fun attributesRevisions => { attributesRevisions }) rfl
    (fun _ _ => rfl) attributesRevisions

theorem collect_accessRevisions (accessRevisions : List AccessRevisionRecord) :
    collect (accessRevisions.map accessRevision) = { accessRevisions } :=
  collect_map accessRevision (fun accessRevisions => { accessRevisions }) rfl (fun _ _ => rfl)
    accessRevisions

variable {row : StateRow}

theorem in_append : row.In (left ++ right) ↔ row.In left ∨ row.In right := by
  cases row <;> exact mem_append

theorem in_asRows {other : StateRow} : row.In other.asRows ↔ row = other := by
  cases row <;> cases other <;> simp [In, asRows]

theorem in_collect : row.In (collect rows) ↔ row ∈ rows := by
  induction rows with
  | nil => cases row <;> simp [In]
  | cons head rest induction => rw [collect_cons, in_append, in_asRows, induction, mem_cons]

end StateRow

/-- The order that one delta's rows, and a record's closing rows, are pushed
in. -/
def MetadataState.pushes (rows : MetadataState) : List StateRow :=
  rows.inodes.map .inode ++ rows.contentLayouts.map .contentLayout ++
    rows.revisions.map .revision ++ rows.direntryBinds.map .binding ++
    rows.subtreeTombstones.map .tombstone ++ rows.attributesRevisions.map .attributesRevision ++
    rows.accessRevisions.map .accessRevision ++ rows.commits.map .commit ++
    rows.commitReceipts.map .commitReceipt

theorem MetadataState.collect_pushes (rows : MetadataState) :
    StateRow.collect rows.pushes = rows := by
  simp only [pushes, StateRow.collect_append, StateRow.collect_inodes,
    StateRow.collect_bindings, StateRow.collect_revisions, StateRow.collect_tombstones,
    StateRow.collect_contentLayouts, StateRow.collect_commits, StateRow.collect_commitReceipts,
    StateRow.collect_attributesRevisions, StateRow.collect_accessRevisions]
  simp [StateRow.append_eq, MetadataState.append]

def WalCommitPayload.pushes (record : WalCommitPayload) : List StateRow :=
  record.deltas.flatMap (fun delta => (MetadataState.deltaRows record.header delta.delta).pushes) ++
  [.commit record,
    .commitReceipt { commitId := record.commitId, committedSeq := record.committedSeq }]

theorem MetadataState.applyCommittedWalRecord_eq_append (rows : MetadataState)
    (record : WalCommitPayload) :
    rows.applyCommittedWalRecord record = rows ++ StateRow.collect record.pushes := by
  have deltas : ∀ (deltas : List WalCommitDelta) (rows : MetadataState),
      rows.applyCommittedWalDeltas record.header (deltas.map (·.delta)) =
        rows ++ StateRow.collect (deltas.flatMap fun delta =>
          (deltaRows record.header delta.delta).pushes) := by
    intro deltas
    induction deltas with
    | nil => simp [applyCommittedWalDeltas]
    | cons delta rest induction =>
      intro rows
      rw [flatMap_cons, StateRow.collect_append, collect_pushes, ← append_assoc]
      exact induction (rows ++ deltaRows record.header delta.delta)
  rw [applyCommittedWalRecord, deltas, WalCommitPayload.pushes, StateRow.collect_append,
    append_assoc]
  rfl

theorem Reachable.pushes_in (reachable : Reachable policy history state) :
    ∀ record ∈ history, ∀ row ∈ record.pushes, row.In state := by
  induction reachable with
  | genesis createdAtMs rootGrants => simp
  | @commit history state last _ _ _ induction =>
    intro record mem row isRow
    rw [applyCommittedWalRecord_eq_append, StateRow.in_append, StateRow.in_collect]
    rcases mem_append.mp mem with mem | mem
    · exact .inl (induction record mem row isRow)
    · rw [mem_singleton.mp mem] at isRow
      exact .inr isRow

/-! ## The index -/

@[ext] structure MetadataIndexes where
  indexedSeq : ChangeSeq := 0
  inodeById : InodeId → Option InodeRecord := fun _ => none
  latestBindByParentName : InodeId × NameKey → Option DirentryBindingRecord := fun _ => none
  latestBindingByChild : InodeId → Option DirentryBindingRecord := fun _ => none
  tombstoneByRoot : InodeId → Option SubtreeTombstoneRecord := fun _ => none
  commitReceiptById : CommitId → Option CommitReceiptRecord := fun _ => none
  contentLayoutById : ContentId → Option ContentLayoutRecord := fun _ => none

def ContentLayoutRecord.orderKey (record : ContentLayoutRecord) : Nat ×ₗ ChangeSeq :=
  toLex (record.sizeBytes, record.committedSeq)

namespace MetadataIndexes

variable (indexes : MetadataIndexes)

def inode (inodeId : InodeId) : Option InodeRecord := indexes.inodeById inodeId

def latestBind (parentInodeId : InodeId) (nameKey : NameKey) : Option DirentryBindingRecord :=
  indexes.latestBindByParentName (parentInodeId, nameKey)

def activeChild (parentInodeId : InodeId) (nameKey : NameKey) : Option DirentryBindingRecord :=
  (indexes.latestBind parentInodeId nameKey).filter DirentryBindingRecord.isBound

def activeParentForChild (childInodeId : InodeId) : Option DirentryBindingRecord :=
  (indexes.latestBindingByChild childInodeId).filter DirentryBindingRecord.isBound

def latestBindingForChild (childInodeId : InodeId) : Option DirentryBindingRecord :=
  indexes.latestBindingByChild childInodeId

def latestTombstone (rootInodeId : InodeId) : Option SubtreeTombstoneRecord :=
  indexes.tombstoneByRoot rootInodeId

def hidingTombstone (rootInodeId : InodeId) : Option SubtreeTombstoneRecord :=
  (indexes.tombstoneByRoot rootInodeId).filter fun tombstone => tombstone.action.hidesSubtree

def raise (committedSeq : ChangeSeq) : MetadataIndexes :=
  { indexes with indexedSeq := max indexes.indexedSeq committedSeq }

def recordInode (record : InodeRecord) : MetadataIndexes :=
  { indexes.raise record.committedSeq with
    inodeById := Function.update indexes.inodeById record.inodeId (some record) }

def recordBinding (record : DirentryBindingRecord) : MetadataIndexes :=
  { indexes.raise record.committedSeq with
    latestBindByParentName := replaceIfNewer indexes.latestBindByParentName record.slot record
      DirentryBindingRecord.position
    latestBindingByChild :=
      if record.isBindingEvent then
        replaceIfNewer indexes.latestBindingByChild record.childInodeId record
          DirentryBindingRecord.position
      else indexes.latestBindingByChild }

def recordRevision (record : RevisionRecord) : MetadataIndexes := indexes.raise record.committedSeq

def recordTombstone (record : SubtreeTombstoneRecord) : MetadataIndexes :=
  { indexes.raise record.committedSeq with
    tombstoneByRoot := replaceIfNewer indexes.tombstoneByRoot record.rootInodeId record
      SubtreeTombstoneRecord.position }

def recordContentLayout (record : ContentLayoutRecord) : MetadataIndexes :=
  { indexes.raise record.committedSeq with
    contentLayoutById := replaceIfNewer indexes.contentLayoutById record.contentId record
      ContentLayoutRecord.orderKey }

def recordCommitReceipt (record : CommitReceiptRecord) : MetadataIndexes :=
  { indexes.raise record.committedSeq with
    commitReceiptById := replaceIfNewer indexes.commitReceiptById record.commitId record
      CommitReceiptRecord.committedSeq }

def recordAttributesRevision (record : AttributesRevisionRecord) : MetadataIndexes :=
  indexes.raise record.committedSeq

def recordAccessRevision (record : AccessRevisionRecord) : MetadataIndexes :=
  indexes.raise record.committedSeq

def record (indexes : MetadataIndexes) : StateRow → MetadataIndexes
  | .inode record => indexes.recordInode record
  | .binding record => indexes.recordBinding record
  | .revision record => indexes.recordRevision record
  | .tombstone record => indexes.recordTombstone record
  | .contentLayout record => indexes.recordContentLayout record
  | .commit _ => indexes
  | .commitReceipt record => indexes.recordCommitReceipt record
  | .attributesRevision record => indexes.recordAttributesRevision record
  | .accessRevision record => indexes.recordAccessRevision record

def rebuild (state : MetadataState) : MetadataIndexes :=
  let indexes : MetadataIndexes := {}
  let indexes := state.inodes.foldl recordInode indexes
  let indexes := state.direntryBinds.foldl recordBinding indexes
  let indexes := state.revisions.foldl recordRevision indexes
  let indexes := state.subtreeTombstones.foldl recordTombstone indexes
  let indexes := state.contentLayouts.foldl recordContentLayout indexes
  let indexes := state.commitReceipts.foldl recordCommitReceipt indexes
  let indexes := state.attributesRevisions.foldl recordAttributesRevision indexes
  state.accessRevisions.foldl recordAccessRevision indexes

/-! ## The index as a function of the rows -/

def highestSeq {Row : Type} (seqOf : Row → ChangeSeq) (rows : List Row) : ChangeSeq :=
  rows.foldl (fun highest row => max highest (seqOf row)) 0

variable {Row : Type}

theorem highestSeq_append (seqOf : Row → ChangeSeq) (rows : List Row) (row : Row) :
    highestSeq seqOf (rows ++ [row]) = max (highestSeq seqOf rows) (seqOf row) := by
  simp [highestSeq]

theorem le_highestSeq {seqOf : Row → ChangeSeq} (mem : row ∈ rows) :
    seqOf row ≤ highestSeq seqOf rows := by
  induction rows using List.reverseRecOn with
  | nil => cases mem
  | append_singleton rows last induction =>
    rw [highestSeq_append]
    rcases mem_append.mp mem with mem | mem
    · exact (induction mem).trans (le_max_left _ _)
    · rw [mem_singleton.mp mem]
      exact le_max_right _ _

def ofRows (rows : MetadataState) : MetadataIndexes where
  indexedSeq :=
    max (highestSeq InodeRecord.committedSeq rows.inodes)
      (max (highestSeq DirentryBindingRecord.committedSeq rows.direntryBinds)
        (max (highestSeq RevisionRecord.committedSeq rows.revisions)
          (max (highestSeq SubtreeTombstoneRecord.committedSeq rows.subtreeTombstones)
            (max (highestSeq ContentLayoutRecord.committedSeq rows.contentLayouts)
              (max (highestSeq CommitReceiptRecord.committedSeq rows.commitReceipts)
                (max (highestSeq AttributesRevisionRecord.committedSeq rows.attributesRevisions)
                  (highestSeq AccessRevisionRecord.committedSeq rows.accessRevisions)))))))
  inodeById := putAll InodeRecord.inodeId (fun _ => none) rows.inodes
  latestBindByParentName :=
    newestIndex DirentryBindingRecord.position DirentryBindingRecord.slot rows.direntryBinds
  latestBindingByChild :=
    newestIndex DirentryBindingRecord.position DirentryBindingRecord.childInodeId
      (rows.direntryBinds.filter DirentryBindingRecord.isBindingEvent)
  tombstoneByRoot :=
    newestIndex SubtreeTombstoneRecord.position SubtreeTombstoneRecord.rootInodeId
      rows.subtreeTombstones
  commitReceiptById :=
    newestIndex CommitReceiptRecord.committedSeq CommitReceiptRecord.commitId rows.commitReceipts
  contentLayoutById :=
    newestIndex ContentLayoutRecord.orderKey ContentLayoutRecord.contentId rows.contentLayouts

theorem ofRows_empty : ofRows {} = {} := rfl

theorem record_ofRows (rows : MetadataState) (row : StateRow) :
    (ofRows rows).record row = ofRows (row.pushOnto rows) := by
  -- Apart from the watermark, a row touches the maps of its own family only.
  have watermark : ((ofRows rows).record row).indexedSeq =
      (ofRows (row.pushOnto rows)).indexedSeq := by
    cases row <;>
      simp only [record, recordInode, recordBinding, recordRevision, recordTombstone,
        recordContentLayout, recordCommitReceipt, recordAttributesRevision,
        recordAccessRevision, raise, ofRows, StateRow.pushOnto, highestSeq_append] <;>
      ac_rfl
  cases row with
  | inode row =>
    refine MetadataIndexes.ext watermark ?_ rfl rfl rfl rfl rfl
    change _ = putAll (·.inodeId) (fun _ => none) (rows.inodes ++ [row])
    rw [putAll, foldl_concat]
    rfl
  | binding row =>
    refine MetadataIndexes.ext watermark rfl ?_ ?_ rfl rfl rfl
    · exact (newestIndex_append _ _ rows.direntryBinds row).symm
    · change (if row.isBindingEvent then _ else _) = newestIndex (·.position)
        (·.childInodeId)
        ((rows.direntryBinds ++ [row]).filter (·.isBindingEvent))
      cases isEvent : row.isBindingEvent with
      | false =>
        rw [if_neg Bool.false_ne_true, filter_append,
          filter_cons_of_neg (by simp [isEvent]), filter_nil, append_nil]
        rfl
      | true =>
        rw [filter_append, filter_cons_of_pos isEvent, if_pos rfl]
        exact (newestIndex_append _ _ _ row).symm
  | tombstone row =>
    refine MetadataIndexes.ext watermark rfl rfl rfl ?_ rfl rfl
    exact (newestIndex_append _ _ rows.subtreeTombstones row).symm
  | commitReceipt row =>
    refine MetadataIndexes.ext watermark rfl rfl rfl rfl ?_ rfl
    exact (newestIndex_append _ _ rows.commitReceipts row).symm
  | contentLayout row =>
    refine MetadataIndexes.ext watermark rfl rfl rfl rfl rfl ?_
    exact (newestIndex_append _ _ rows.contentLayouts row).symm
  | revision _ | commit _ | attributesRevision _ | accessRevision _ =>
    exact MetadataIndexes.ext watermark rfl rfl rfl rfl rfl rfl

theorem record_all_ofRows (rows : MetadataState) (added : List StateRow) :
    added.foldl record (ofRows rows) = ofRows (rows ++ StateRow.collect added) := by
  induction added generalizing rows with
  | nil => simp
  | cons row rest induction =>
    rw [List.foldl_cons, record_ofRows, induction, StateRow.pushOnto_eq_append,
      StateRow.collect_cons, MetadataState.append_assoc]

def rebuildOrder (state : MetadataState) : List StateRow :=
  state.inodes.map .inode ++ state.direntryBinds.map .binding ++
    state.revisions.map .revision ++ state.subtreeTombstones.map .tombstone ++
    state.contentLayouts.map .contentLayout ++ state.commitReceipts.map .commitReceipt ++
    state.attributesRevisions.map .attributesRevision ++
    state.accessRevisions.map .accessRevision

theorem rebuild_eq_record_all (state : MetadataState) :
    rebuild state = (rebuildOrder state).foldl record {} := by
  simp only [rebuildOrder, foldl_append, foldl_map]
  rfl

theorem collect_rebuildOrder (state : MetadataState) :
    StateRow.collect (rebuildOrder state) = { state with commits := [] } := by
  simp only [rebuildOrder, StateRow.collect_append, StateRow.collect_inodes,
    StateRow.collect_bindings, StateRow.collect_revisions, StateRow.collect_tombstones,
    StateRow.collect_contentLayouts, StateRow.collect_commitReceipts,
    StateRow.collect_attributesRevisions, StateRow.collect_accessRevisions]
  simp [StateRow.append_eq, MetadataState.append]

theorem rebuild_eq_ofRows (state : MetadataState) : rebuild state = ofRows state := by
  rw [rebuild_eq_record_all, ← ofRows_empty, record_all_ofRows, collect_rebuildOrder, empty_append]
  rfl

end MetadataIndexes

/-! ## States with their index -/

structure IndexedState where
  rows : MetadataState := {}
  indexes : MetadataIndexes := {}

/-- The ways that an in-memory state grows. -/
inductive BuildStep where
  | push (row : StateRow)
  | applyCommit (record : WalCommitPayload)

namespace IndexedState

def push (state : IndexedState) (row : StateRow) : IndexedState where
  rows := row.pushOnto state.rows
  indexes := state.indexes.record row

def applyCommittedWalDelta (state : IndexedState) (header : CommitHeader) (delta : WalDelta) :
    IndexedState :=
  (MetadataState.deltaRows header delta).pushes.foldl push state

def applyCommittedWalRecord (state : IndexedState) (record : WalCommitPayload) : IndexedState :=
  let state := record.deltas.foldl
    (fun state delta => state.applyCommittedWalDelta record.header delta.delta) state
  let state := state.push (.commit record)
  state.push (.commitReceipt { commitId := record.commitId, committedSeq := record.committedSeq })

def step (state : IndexedState) : BuildStep → IndexedState
  | .push row => state.push row
  | .applyCommit record => state.applyCommittedWalRecord record

def build (steps : List BuildStep) : IndexedState := steps.foldl step {}

end IndexedState

namespace BuildStep

def pushes : BuildStep → List StateRow
  | push row => [row]
  | applyCommit record => record.pushes

def From (history : List WalCommitPayload) (full : MetadataState) : BuildStep → Prop
  | push row => row.In full
  | applyCommit record => record ∈ history

theorem pushes_in (reachable : Reachable policy history full) {step : BuildStep}
    (isFrom : step.From history full) : ∀ row ∈ step.pushes, row.In full := by
  cases step with
  | push row =>
    intro other mem
    rw [mem_singleton.mp mem]
    exact isFrom
  | applyCommit record => exact reachable.pushes_in record isFrom

end BuildStep

namespace IndexedState

theorem applyCommittedWalRecord_eq_foldl (state : IndexedState) (record : WalCommitPayload) :
    state.applyCommittedWalRecord record = record.pushes.foldl push state := by
  rw [WalCommitPayload.pushes, foldl_append, foldl_flatMap]
  rfl

theorem build_eq_foldl (steps : List BuildStep) :
    build steps = (steps.flatMap BuildStep.pushes).foldl push {} := by
  rw [build, foldl_flatMap]
  congr 1
  funext state step
  cases step with
  | push row => rfl
  | applyCommit record => exact state.applyCommittedWalRecord_eq_foldl record

theorem foldl_push (added : List StateRow) :
    ∀ (state : IndexedState), state.indexes = MetadataIndexes.ofRows state.rows →
      (added.foldl push state).rows = state.rows ++ StateRow.collect added ∧
      (added.foldl push state).indexes =
        MetadataIndexes.ofRows (state.rows ++ StateRow.collect added) := by
  induction added with
  | nil =>
    intro state indexed
    simpa using indexed
  | cons row rest induction =>
    intro state indexed
    have pushed : (state.push row).indexes = MetadataIndexes.ofRows (state.push row).rows := by
      rw [push, indexed]
      exact MetadataIndexes.record_ofRows state.rows row
    have grown : (state.push row).rows = state.rows ++ row.asRows :=
      StateRow.pushOnto_eq_append state.rows row
    have rest := induction _ pushed
    rw [grown, MetadataState.append_assoc] at rest
    exact rest

theorem build_spec (steps : List BuildStep) :
    (build steps).rows = StateRow.collect (steps.flatMap BuildStep.pushes) ∧
    (build steps).indexes = MetadataIndexes.ofRows (build steps).rows := by
  have built := foldl_push (steps.flatMap BuildStep.pushes) {}
    MetadataIndexes.ofRows_empty.symm
  rw [← build_eq_foldl, empty_append] at built
  exact ⟨built.1, by rw [built.2, built.1]⟩

end IndexedState

end LoonFs
