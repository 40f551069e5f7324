import LoonFs.History

/-! # Revision numbers rise -/

namespace LoonFs

open Foundation

namespace MetadataState

structure Numbered (state : MetadataState) : Prop where
  revisions : state.revisions.Pairwise fun left right =>
    left.inodeId = right.inodeId → left.revisionNo < right.revisionNo
  attributes : state.attributesRevisions.Pairwise fun left right =>
    left.inodeId = right.inodeId → left.attributesRevisionNo < right.attributesRevisionNo
  access : state.accessRevisions.Pairwise fun left right =>
    left.inodeId = right.inodeId → left.accessRevisionNo < right.accessRevisionNo

theorem pairwise_append_admitted {Row : Type} {related : Row → Row → Prop}
    {rows added : List Row} (pairwise : rows.Pairwise related) (atMostOne : added.length ≤ 1)
    (higher : ∀ row ∈ added, ∀ other ∈ rows, related other row) :
    (rows ++ added).Pairwise related := by
  rw [List.pairwise_append]
  refine ⟨pairwise, ?_, fun other mem row isAdded => higher row isAdded other mem⟩
  match added, atMostOne with
  | [], _ => exact .nil
  | [row], _ => exact List.pairwise_singleton _ row

namespace Numbered

variable {state : MetadataState} {header : CommitHeader}

theorem applyDelta (numbered : state.Numbered) (admits : state.Admits delta) :
    (state.applyCommittedWalDelta header delta).Numbered := by
  have rows := deltaRows_atPosition header delta
  have higher := admits.rows header
  exact ⟨pairwise_append_admitted numbered.revisions rows.revisions.1 higher.revisions,
    pairwise_append_admitted numbered.attributes rows.attributes.1 higher.attributes,
    pairwise_append_admitted numbered.access rows.access.1 higher.access⟩

theorem replay : ∀ {first : Nat} {state : MetadataState}, state.Numbered →
      state.Ordered ⟨header.committedSeq, first⟩ →
      Snapshot.Replayable header first (state.snapshotAt header.committedSeq) deltas →
      (state.applyCommittedWalDeltas header deltas).Numbered := by
  induction deltas with
  | nil =>
    intro first state numbered _ _
    exact numbered
  | cons delta rest induction =>
    intro first state numbered ordered replayable
    rcases replayable with ⟨isFirst, admits, replayable⟩
    subst isFirst
    have admitted := ordered.admits admits
    rw [← snapshotAt_applyDelta ordered admitted (le_refl header.committedSeq)] at replayable
    exact induction (numbered.applyDelta admitted) (ordered.applyDelta admitted) replayable

end Numbered

end MetadataState

theorem Reachable.numbered (reachable : Reachable policy history state) : state.Numbered := by
  apply reachable.induct fun state _ => state.Numbered
  case genesis =>
    intro createdAtMs rootGrants
    refine ⟨.nil, .nil, ?_⟩
    simp only [MetadataState.bootstrap]
    split
    · exact .nil
    · exact List.pairwise_singleton _ _
  case begins =>
    intro state head _ numbered
    exact numbered
  case effect =>
    intro header state first deltas ready effect numbered
    exact numbered.replay ready.ordered (effect.replayable ready.consistent)
  case ends =>
    intro state head commits commitReceipts numbered
    exact ⟨by simpa using numbered.revisions, by simpa using numbered.attributes,
      by simpa using numbered.access⟩

end LoonFs
