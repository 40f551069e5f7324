import LoonFs.Metadata.Replay

/-! # Reading an earlier sequence -/

namespace LoonFs

open Foundation FamilyRows List

namespace MetadataState

/-- The rows that a read at `seq` can see. -/
def through (state : MetadataState) (seq : ChangeSeq) : MetadataState where
  inodes := state.inodes.filter fun record => record.committedSeq ≤ seq
  direntryBinds := state.direntryBinds.filter fun record => record.committedSeq ≤ seq
  revisions := state.revisions.filter fun record => record.committedSeq ≤ seq
  subtreeTombstones := state.subtreeTombstones.filter fun record => record.committedSeq ≤ seq
  attributesRevisions := state.attributesRevisions.filter fun record => record.committedSeq ≤ seq
  accessRevisions := state.accessRevisions.filter fun record => record.committedSeq ≤ seq

theorem snapshotAt_through (state : MetadataState) (le : low ≤ seq) :
    (state.through low).snapshotAt seq = state.snapshotAt low := by
  have shown : ∀ committedSeq : ChangeSeq,
      (decide (committedSeq ≤ seq) && decide (committedSeq ≤ low)) =
        decide (committedSeq ≤ low) := by
    intro committedSeq
    by_cases small : committedSeq ≤ low
    · simp [small, small.trans le]
    · simp [small]
  apply Snapshot.ext
  case inode =>
    funext node
    simp only [snapshotAt, FamilyRows.snapshotAt, FamilyRows.inodeAtSeq, familyRows, through,
      List.find?_filter]
    congr 1
    funext record
    by_cases small : record.committedSeq ≤ low
    · simp [small, small.trans le]
    · simp [small]
  case slotEvent =>
    simp only [snapshotAt, snapshotAt_slotEvent, familyRows, through, filter_filter]
    congr 1
    apply filter_congr
    intro record _
    by_cases small : record.committedSeq ≤ low
    · simp [small, small.trans le]
    · simp [small]
  case child =>
    simp only [snapshotAt, snapshotAt_child, familyRows, through, filter_filter]
    congr 1
    apply filter_congr
    intro record _
    by_cases small : record.committedSeq ≤ low
    · simp [small, small.trans le]
    · simp [small]
  all_goals
    simp [snapshotAt, snapshotAt_slot, snapshotAt_edge, snapshotAt_tombstone, snapshotAt_revision,
      snapshotAt_attributes, snapshotAt_access, familyRows, through, filter_filter, shown]

theorem snapshotAt_congr {left right : MetadataState}
    (same : left.through seq = right.through seq) : left.snapshotAt seq = right.snapshotAt seq := by
  rw [← left.snapshotAt_through le_rfl, same, right.snapshotAt_through le_rfl]

theorem through_append (left right : MetadataState) (seq : ChangeSeq) :
    (left ++ right).through seq = left.through seq ++ right.through seq := by
  change _ = append _ _
  simp [through, append]

theorem AtPosition.through {rows : MetadataState} (at_position : rows.AtPosition position)
    (later : seq < position.seq) : rows.through seq = {} := by
  have hidden : ∀ {Row : Type} {rows : List Row} {committedSeq : Row → ChangeSeq},
      (∀ row ∈ rows, committedSeq row = position.seq) →
      rows.filter (fun row => committedSeq row ≤ seq) = [] := by
    intro Row rows committedSeq atSeq
    rw [filter_eq_nil_iff]
    intro row mem shown
    rw [atSeq row mem] at shown
    exact absurd (of_decide_eq_true shown) (not_le.mpr later)
  have seqOf : ∀ {other : DeltaPosition}, other = position → other.seq = position.seq :=
    fun eq => eq ▸ rfl
  simp only [MetadataState.through, mk.injEq]
  exact ⟨hidden at_position.inodes.2,
    hidden fun row mem => seqOf (at_position.binds.2 row mem),
    hidden fun row mem => seqOf (at_position.revisions.2 row mem),
    hidden fun row mem => seqOf (at_position.tombstones.2 row mem), trivial, trivial,
    trivial, hidden fun row mem => seqOf (at_position.attributes.2 row mem),
    hidden fun row mem => seqOf (at_position.access.2 row mem)⟩

theorem snapshotAt_applyDeltas_earlier (state : MetadataState) {header : CommitHeader}
    (deltas : List WalDelta) (later : seq < header.committedSeq) :
    (state.applyCommittedWalDeltas header deltas).snapshotAt seq = state.snapshotAt seq := by
  induction deltas generalizing state with
  | nil => rfl
  | cons delta rest induction =>
    have step : (state.applyCommittedWalDelta header delta).through seq = state.through seq := by
      rw [applyCommittedWalDelta, through_append,
        (deltaRows_atPosition header delta).through later, append_empty]
    exact (induction _).trans (snapshotAt_congr step)

end MetadataState

end LoonFs
