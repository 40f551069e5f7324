import LoonFs.Metadata.Snapshot

/-! # Replay as map updates -/

namespace LoonFs

open Foundation
open List hiding beq_eq_decide set

def AttributesRevisionRecord.position (record : AttributesRevisionRecord) : DeltaPosition :=
  ⟨record.committedSeq, record.deltaIndex⟩

def AccessRevisionRecord.position (record : AccessRevisionRecord) : DeltaPosition :=
  ⟨record.committedSeq, record.deltaIndex⟩

def WalDelta.deltaIndex : WalDelta → Nat
  | .createInode deltaIndex .. | .bindDirentry deltaIndex .. | .unbindDirentry deltaIndex ..
  | .appendFileRevision deltaIndex .. | .tombstoneSubtree deltaIndex ..
  | .revokeSubtreeTombstone deltaIndex .. | .appendAttributesRevision deltaIndex ..
  | .appendAccessRevision deltaIndex .. => deltaIndex

namespace MetadataState

/-- Every family is in position order below `bound`, with one row for each revision number. -/
structure Ordered (state : MetadataState) (bound : DeltaPosition) : Prop where
  binds : OrderedLog DirentryBindingRecord.position state.direntryBinds bound
  revisions : OrderedLog RevisionRecord.position state.revisions bound
  tombstones : OrderedLog SubtreeTombstoneRecord.position state.subtreeTombstones bound
  attributes : OrderedLog AttributesRevisionRecord.position state.attributesRevisions bound
  access : OrderedLog AccessRevisionRecord.position state.accessRevisions bound
  inodes_distinct : KeysDistinct InodeRecord.inodeId state.inodes
  inodes_seq_le : ∀ record ∈ state.inodes, record.committedSeq ≤ bound.seq
  revisions_distinct :
    KeysDistinct (fun record => (record.inodeId, record.revisionNo)) state.revisions
  attributes_distinct :
    KeysDistinct (fun record => (record.inodeId, record.attributesRevisionNo))
      state.attributesRevisions
  access_distinct :
    KeysDistinct (fun record => (record.inodeId, record.accessRevisionNo)) state.accessRevisions

def Admits (state : MetadataState) : WalDelta → Prop
  | .createInode _ inodeId _ => ∀ record ∈ state.inodes, record.inodeId ≠ inodeId
  | .appendFileRevision _ inodeId _ _ _ _ _ _ revisionNo _ _ _ =>
    ∀ record ∈ state.revisions, record.inodeId = inodeId → record.revisionNo < revisionNo
  | .appendAttributesRevision _ inodeId revisionNo _ =>
    ∀ record ∈ state.attributesRevisions, record.inodeId = inodeId →
      record.attributesRevisionNo < revisionNo
  | .appendAccessRevision _ inodeId revisionNo _ _ =>
    ∀ record ∈ state.accessRevisions, record.inodeId = inodeId →
      record.accessRevisionNo < revisionNo
  | _ => True

structure AtPosition (rows : MetadataState) (position : DeltaPosition) : Prop where
  inodes : rows.inodes.length ≤ 1 ∧
    ∀ record ∈ rows.inodes, record.committedSeq = position.seq
  binds : rows.direntryBinds.length ≤ 1 ∧
    ∀ record ∈ rows.direntryBinds, record.position = position
  revisions : rows.revisions.length ≤ 1 ∧
    ∀ record ∈ rows.revisions, record.position = position
  tombstones : rows.subtreeTombstones.length ≤ 1 ∧
    ∀ record ∈ rows.subtreeTombstones, record.position = position
  attributes : rows.attributesRevisions.length ≤ 1 ∧
    ∀ record ∈ rows.attributesRevisions, record.position = position
  access : rows.accessRevisions.length ≤ 1 ∧
    ∀ record ∈ rows.accessRevisions, record.position = position

theorem deltaRows_atPosition (header : CommitHeader) (delta : WalDelta) :
    (deltaRows header delta).AtPosition ⟨header.committedSeq, delta.deltaIndex⟩ := by
  constructor <;> cases delta <;>
    simp [deltaRows, WalDelta.deltaIndex, DirentryBindingRecord.position,
      RevisionRecord.position, SubtreeTombstoneRecord.position,
      AttributesRevisionRecord.position, AccessRevisionRecord.position]

structure AdmitsRows (state rows : MetadataState) : Prop where
  inodes : ∀ record ∈ rows.inodes, ∀ other ∈ state.inodes,
    other.inodeId ≠ record.inodeId
  revisions : ∀ record ∈ rows.revisions, ∀ other ∈ state.revisions,
    other.inodeId = record.inodeId → other.revisionNo < record.revisionNo
  attributes : ∀ record ∈ rows.attributesRevisions, ∀ other ∈ state.attributesRevisions,
    other.inodeId = record.inodeId → other.attributesRevisionNo < record.attributesRevisionNo
  access : ∀ record ∈ rows.accessRevisions, ∀ other ∈ state.accessRevisions,
    other.inodeId = record.inodeId → other.accessRevisionNo < record.accessRevisionNo

theorem Admits.rows {state : MetadataState} (admits : state.Admits delta) (header : CommitHeader) :
    state.AdmitsRows (deltaRows header delta) := by
  constructor <;> cases delta <;> simp_all [deltaRows, Admits]

namespace Ordered

variable {state : MetadataState}

theorem mono (ordered : state.Ordered bound) (le : bound ≤ later) : state.Ordered later where
  binds := ordered.binds.mono le
  revisions := ordered.revisions.mono le
  tombstones := ordered.tombstones.mono le
  attributes := ordered.attributes.mono le
  access := ordered.access.mono le
  inodes_distinct := ordered.inodes_distinct
  inodes_seq_le := fun record mem =>
    (ordered.inodes_seq_le record mem).trans (DeltaPosition.seq_le_of_le le)
  revisions_distinct := ordered.revisions_distinct
  attributes_distinct := ordered.attributes_distinct
  access_distinct := ordered.access_distinct

private theorem numbered_append {Row : Type} {inodeOf number : Row → Nat} {rows added : List Row}
    (distinct : KeysDistinct (fun row => (inodeOf row, number row)) rows)
    (atMostOne : added.length ≤ 1)
    (higher : ∀ row ∈ added, ∀ other ∈ rows, inodeOf other = inodeOf row →
      number other < number row) :
    KeysDistinct (fun row => (inodeOf row, number row)) (rows ++ added) := by
  apply distinct.append atMostOne
  intro row mem other otherMem eq
  have parts := Prod.mk.inj eq
  exact absurd parts.2 (ne_of_lt (higher row mem other otherMem parts.1))

theorem applyDelta {header : CommitHeader} {delta : WalDelta}
    (ordered : state.Ordered ⟨header.committedSeq, delta.deltaIndex⟩)
    (admits : state.Admits delta) : (state.applyCommittedWalDelta header delta).Ordered
      ⟨header.committedSeq, delta.deltaIndex + 1⟩ := by
  have less : (⟨header.committedSeq, delta.deltaIndex⟩ : DeltaPosition) <
      ⟨header.committedSeq, delta.deltaIndex + 1⟩ := by
    simp [DeltaPosition.lt_iff]
  have rows := deltaRows_atPosition header delta
  refine ⟨ordered.binds.append_rows rows.binds.1 rows.binds.2 less,
    ordered.revisions.append_rows rows.revisions.1 rows.revisions.2 less,
    ordered.tombstones.append_rows rows.tombstones.1 rows.tombstones.2 less,
    ordered.attributes.append_rows rows.attributes.1 rows.attributes.2 less,
    ordered.access.append_rows rows.access.1 rows.access.2 less,
    ordered.inodes_distinct.append rows.inodes.1 (admits.rows header).inodes, ?_,
    numbered_append ordered.revisions_distinct rows.revisions.1 (admits.rows header).revisions,
    numbered_append ordered.attributes_distinct rows.attributes.1
      (admits.rows header).attributes,
    numbered_append ordered.access_distinct rows.access.1 (admits.rows header).access⟩
  intro record mem
  rcases mem_append.mp mem with mem | mem
  · exact ordered.inodes_seq_le record mem
  · exact (rows.inodes.2 record mem).le

end Ordered

section

variable {state : MetadataState} {header : CommitHeader} {delta : WalDelta}

private theorem newestOf_grown {Row Index Key : Type} [DecidableEq Index] [LinearOrder Key]
    {key : Row → Key} {index : Row → Index} {committedSeq : Row → ChangeSeq}
    {rows added : List Row} (atMostOne : added.length ≤ 1)
    (visible : ∀ row ∈ added, committedSeq row ≤ seq)
    (newer : ∀ row ∈ added, ∀ other ∈ rows, index other = index row → key other < key row) :
    newestOf key index ((rows ++ added).filter fun row => committedSeq row ≤ seq) =
      putAll index (newestOf key index (rows.filter fun row => committedSeq row ≤ seq)) added := by
  have addedVisible : added.filter (fun row => committedSeq row ≤ seq) = added :=
    filter_eq_self.mpr fun row mem => by simpa using visible row mem
  rw [filter_append, addedVisible]
  apply newestOf_append_rows atMostOne
  intro row mem other otherMem
  exact newer row mem other (mem_of_mem_filter otherMem)

private theorem inodeAtSeq_grown {added : List InodeRecord} (atMostOne : added.length ≤ 1)
    (visible : ∀ record ∈ added, record.committedSeq ≤ seq)
    (fresh : ∀ record ∈ added, ∀ other ∈ state.inodes, other.inodeId ≠ record.inodeId) :
    FamilyRows.inodeAtSeq { inodes := state.inodes ++ added } seq =
      putAll (·.inodeId) (state.familyRows.inodeAtSeq seq) added := by
  funext node
  simp only [FamilyRows.inodeAtSeq, List.find?_append, familyRows]
  rcases added with _ | ⟨record, _ | _⟩
  · simp [FamilyRows.inodeAtSeq]
  · rw [putAll_singleton]
    by_cases same : node = record.inodeId
    · subst same
      have absent : state.inodes.find? (fun other =>
          decide (other.inodeId = record.inodeId ∧ other.committedSeq ≤ seq)) = none := by
        rw [List.find?_eq_none]
        intro other mem
        simp [fresh record (by simp) other mem]
      rw [absent, Function.update_self]
      simp [visible record (by simp)]
    · simp [Ne.symm same, Function.update_of_ne same, FamilyRows.inodeAtSeq]
  · simp at atMostOne

private theorem orderKey_lt (less : leftNo < rightNo) :
    (toLex (leftNo, left) : RevisionOrderKey) < toLex (rightNo, right) :=
  Prod.Lex.toLex_lt_toLex.mpr (.inl less)

/-- At or above the commit's sequence, replaying a delta writes its rows into
the snapshot. -/
theorem snapshotAt_applyDelta (ordered : state.Ordered ⟨header.committedSeq, delta.deltaIndex⟩)
    (admits : state.Admits delta) (visible : header.committedSeq ≤ seq) :
    (state.applyCommittedWalDelta header delta).snapshotAt seq =
      (state.snapshotAt seq).addRows (deltaRows header delta) := by
  have rows := deltaRows_atPosition header delta
  have fresh := admits.rows header
  set added := deltaRows header delta
  have shown : ∀ {position : DeltaPosition},
      position = ⟨header.committedSeq, delta.deltaIndex⟩ → position.seq ≤ seq :=
    fun eq => eq ▸ visible
  apply Snapshot.ext
  case inode =>
    exact inodeAtSeq_grown rows.inodes.1
      (fun record mem => (rows.inodes.2 record mem).le.trans visible) fresh.inodes
  case slot =>
    simp only [snapshotAt, FamilyRows.snapshotAt_slot, Snapshot.addRows]
    apply newestOf_grown rows.binds.1 fun record mem => shown (rows.binds.2 record mem)
    intro record mem other otherMem _
    exact rows.binds.2 record mem ▸ ordered.binds.below other otherMem
  case slotEvent =>
    simp only [snapshotAt, FamilyRows.snapshotAt_slotEvent, Snapshot.addRows]
    change newestOf _ _ (((state.direntryBinds ++ added.direntryBinds).filter
      (·.isBindingEvent)).filter _) = _
    rw [filter_append]
    apply newestOf_grown ((length_filter_le _ _).trans rows.binds.1)
    · intro record mem
      exact shown (rows.binds.2 record (mem_of_mem_filter mem))
    · intro record mem other otherMem _
      exact rows.binds.2 record (mem_of_mem_filter mem) ▸
        ordered.binds.below other (mem_of_mem_filter otherMem)
  case edge =>
    simp only [snapshotAt, FamilyRows.snapshotAt_edge, Snapshot.addRows]
    apply newestOf_grown rows.binds.1 fun record mem => shown (rows.binds.2 record mem)
    intro record mem other otherMem _
    exact rows.binds.2 record mem ▸ ordered.binds.below other otherMem
  case child =>
    simp only [snapshotAt, FamilyRows.snapshotAt_child, Snapshot.addRows]
    have split : ∀ binds : List DirentryBindingRecord,
        (binds.filter fun record => record.isBindingEvent && record.childInodeId != rootInodeId) =
        (binds.filter (·.isBindingEvent)).filter fun record =>
          record.childInodeId ≠ rootInodeId := by
      intro binds
      rw [filter_filter]
      apply filter_congr
      intro record _
      simp [Bool.and_comm, bne, beq_eq_decide]
    change newestOf _ _ ((((state.direntryBinds ++ added.direntryBinds).filter
      (·.isBindingEvent)).filter _).filter _) = _
    rw [split, filter_append, filter_append]
    apply newestOf_grown
    · exact ((length_filter_le _ _).trans (length_filter_le _ _)).trans rows.binds.1
    · intro record mem
      exact shown (rows.binds.2 record (mem_of_mem_filter (mem_of_mem_filter mem)))
    · intro record mem other otherMem _
      have added := rows.binds.2 record
        (mem_of_mem_filter (mem_of_mem_filter mem))
      exact added ▸ ordered.binds.below other
        (mem_of_mem_filter (mem_of_mem_filter otherMem))
  case tombstone =>
    simp only [snapshotAt, FamilyRows.snapshotAt_tombstone, Snapshot.addRows]
    apply newestOf_grown rows.tombstones.1
      fun record mem => shown (rows.tombstones.2 record mem)
    intro record mem other otherMem _
    exact rows.tombstones.2 record mem ▸ ordered.tombstones.below other otherMem
  case revision =>
    simp only [snapshotAt, FamilyRows.snapshotAt_revision, Snapshot.addRows]
    apply newestOf_grown rows.revisions.1
      fun record mem => shown (rows.revisions.2 record mem)
    intro record mem other otherMem same
    exact orderKey_lt (fresh.revisions record mem other otherMem same)
  case attributes =>
    simp only [snapshotAt, FamilyRows.snapshotAt_attributes, Snapshot.addRows]
    apply newestOf_grown rows.attributes.1
      fun record mem => shown (rows.attributes.2 record mem)
    intro record mem other otherMem same
    exact orderKey_lt (fresh.attributes record mem other otherMem same)
  case access =>
    simp only [snapshotAt, FamilyRows.snapshotAt_access, Snapshot.addRows]
    apply newestOf_grown rows.access.1
      fun record mem => shown (rows.access.2 record mem)
    intro record mem other otherMem same
    exact orderKey_lt (fresh.access record mem other otherMem same)

end

end MetadataState

end LoonFs
