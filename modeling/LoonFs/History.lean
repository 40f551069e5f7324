import LoonFs.Commit.Steps
import LoonFs.Metadata.Through

/-! # Committed histories -/

namespace LoonFs

open Foundation

def Accepted (policy : NamePolicy) (state : MetadataState) (record : WalCommitPayload) : Prop :=
  ∃ (older batch : MetadataState) (retentionFloorSeq : ChangeSeq)
    (revisionLayout : ContentRef → Option ContentLayout) (ops : List CommitOperation)
    (final : CommitValidationSession),
    let session : CommitValidationSession :=
      { base := older.familyRows
        batchAccepted := batch
        retentionFloorSeq
        header := record.header }
    state = older ++ batch ∧ session.Planned policy revisionLayout ops ∧
      session.validate policy revisionLayout ops = .ok (record.deltas, final)

/-- The states that a namespace can reach, each with the commits that led to it. -/
inductive Reachable (policy : NamePolicy) : List WalCommitPayload → MetadataState → Prop
  | genesis (createdAtMs : Nat) (rootGrants : AccessGrants) :
      Reachable policy [] (MetadataState.bootstrap createdAtMs rootGrants)
  | commit {history : List WalCommitPayload} {state : MetadataState}
      {record : WalCommitPayload} (before : Reachable policy history state)
      (numbered : record.committedSeq = history.length + 1)
      (accepted : Accepted policy state record) :
      Reachable policy (history ++ [record]) (state.applyCommittedWalRecord record)

/-! ## Settled states -/

structure Settled (state : MetadataState) (head : ChangeSeq) : Prop where
  ordered : state.Ordered ⟨head + 1, 0⟩
  inodes_le : ∀ record ∈ state.inodes, record.committedSeq ≤ head
  root_unbound : ∀ row ∈ state.direntryBinds, row.childInodeId ≠ rootInodeId
  consistent : ∀ seq ≤ head, (state.snapshotAt seq).Consistent

namespace Settled

variable {state : MetadataState}

theorem seq_le {position : DeltaPosition} (below : position < ⟨head + 1, 0⟩) :
    position.seq ≤ head := by
  rcases (DeltaPosition.lt_iff _ _).mp below with less | ⟨_, less⟩
  · exact Nat.lt_succ_iff.mp less
  · exact absurd less (Nat.not_lt_zero _)

theorem through_eq (settled : Settled state head) (le : head ≤ seq) :
    state.through seq = state.through head := by
  have same : ∀ {Row : Type} {rows : List Row} {committedSeq : Row → ChangeSeq},
      (∀ row ∈ rows, committedSeq row ≤ head) → rows.filter (fun row => committedSeq row ≤ seq) =
        rows.filter fun row => committedSeq row ≤ head := by
    intro Row rows committedSeq small
    apply List.filter_congr
    intro row mem
    simp [small row mem, (small row mem).trans le]
  simp only [MetadataState.through, MetadataState.mk.injEq]
  exact ⟨same settled.inodes_le,
    same fun row mem => seq_le (settled.ordered.binds.below row mem),
    same fun row mem => seq_le (settled.ordered.revisions.below row mem),
    same fun row mem => seq_le (settled.ordered.tombstones.below row mem), trivial,
    trivial, trivial, same fun row mem => seq_le (settled.ordered.attributes.below row mem),
    same fun row mem => seq_le (settled.ordered.access.below row mem)⟩

theorem snapshotAt_eq (settled : Settled state head) (le : head ≤ seq) :
    state.snapshotAt seq = state.snapshotAt head := by
  rw [← state.snapshotAt_through le_rfl, settled.through_eq le, state.snapshotAt_through le]

theorem ready (settled : Settled state head) {header : CommitHeader}
    (numbered : header.committedSeq = head + 1) : Ready header state 0 where
  ordered := numbered ▸ settled.ordered
  root_unbound := settled.root_unbound
  consistent := by
    rw [numbered, settled.snapshotAt_eq (Nat.le_succ head)]
    exact settled.consistent head le_rfl

end Settled

namespace CommitSteps

variable {start : MetadataState}

theorem settled (steps : CommitSteps header start deltas) (before : Settled start head)
    (numbered : header.committedSeq = head + 1) :
    Settled (start.applyCommittedWalDeltas header deltas) (head + 1) := by
  have ready := steps.ready (before.ready numbered)
  refine ⟨ready.ordered.mono ?_, ?_, ready.root_unbound, ?_⟩
  · rw [DeltaPosition.le_iff, numbered]
    exact .inl (Nat.lt_succ_self _)
  · intro record mem
    exact numbered ▸ ready.ordered.inodes_seq_le record mem
  · intro seq le
    rcases Nat.lt_or_eq_of_le le with less | eq
    · rw [start.snapshotAt_applyDeltas_earlier deltas (by rw [numbered]; exact less)]
      exact before.consistent seq (Nat.lt_succ_iff.mp less)
    · rw [eq, ← numbered]
      exact ready.consistent

end CommitSteps

@[simp] theorem MetadataState.snapshotAt_appendCommit (state : MetadataState)
    (commits : List WalCommitPayload) (commitReceipts : List CommitReceiptRecord)
    (seq : ChangeSeq) :
    (state ++ { commits, commitReceipts }).snapshotAt seq = state.snapshotAt seq := by
  apply snapshotAt_congr
  rw [through_append]
  exact append_empty _

theorem Settled.appendCommit (settled : Settled state head) (commits : List WalCommitPayload)
    (commitReceipts : List CommitReceiptRecord) :
    Settled (state ++ { commits, commitReceipts }) head := by
  have ordered := settled.ordered
  refine ⟨⟨?_, ?_, ?_, ?_, ?_, ?_, ?_, ?_, ?_, ?_⟩, ?_, ?_, ?_⟩
  · simpa using ordered.binds
  · simpa using ordered.revisions
  · simpa using ordered.tombstones
  · simpa using ordered.attributes
  · simpa using ordered.access
  · simpa using ordered.inodes_distinct
  · simpa using ordered.inodes_seq_le
  · simpa using ordered.revisions_distinct
  · simpa using ordered.attributes_distinct
  · simpa using ordered.access_distinct
  · simpa using settled.inodes_le
  · simpa using settled.root_unbound
  · simpa using settled.consistent

theorem Accepted.steps (accepted : Accepted policy state record)
    (ready : Ready record.header state 0) :
    CommitSteps record.header state (record.deltas.map WalCommitDelta.delta) := by
  rcases accepted with ⟨older, batch, floor, revisionLayout, ops, final, rfl, planned, validated⟩
  exact CommitValidationSession.validate_steps
    ⟨rfl, MetadataState.append_empty _, rfl, ready, .start⟩ planned validated

/-! ## Genesis -/

section

variable (createdAtMs : Nat) (rootGrants : AccessGrants)

theorem bootstrap_ordered : (MetadataState.bootstrap createdAtMs rootGrants).Ordered ⟨1, 0⟩ where
  binds := .nil
  revisions := .nil
  tombstones := .nil
  attributes := .nil
  access := by
    simp only [MetadataState.bootstrap]
    split
    · exact .nil
    · refine ⟨List.pairwise_singleton _ _, ?_⟩
      simp [AccessRevisionRecord.position, DeltaPosition.lt_iff]
  inodes_distinct := by simp [MetadataState.bootstrap, KeysDistinct]
  inodes_seq_le := by simp [MetadataState.bootstrap]
  revisions_distinct := by simp [MetadataState.bootstrap, KeysDistinct]
  attributes_distinct := by simp [MetadataState.bootstrap, KeysDistinct]
  access_distinct := by
    simp only [MetadataState.bootstrap]
    split <;> simp [KeysDistinct]

theorem bootstrap_consistent :
    ((MetadataState.bootstrap createdAtMs rootGrants).snapshotAt 0).Consistent := by
  set snapshot := (MetadataState.bootstrap createdAtMs rootGrants).snapshotAt 0 with isGenesis
  have inode : ∀ inodeId record, snapshot.inode inodeId = some record →
      inodeId = rootInodeId ∧ record.inodeId = rootInodeId ∧ record.inodeKind = .directory := by
    intro inodeId record found
    rcases FamilyRows.mem_of_inode found with ⟨mem, same, _⟩
    cases List.mem_singleton.mp mem
    exact ⟨same.symm, rfl, rfl⟩
  have root : snapshot.tree.directory rootInodeId := ⟨_, rfl, rfl⟩
  have binding : ∀ inodeId, snapshot.binding inodeId = none := by
    intro inodeId
    rw [Snapshot.binding]
    split
    · rfl
    · rename_i notRoot
      simp [isGenesis, MetadataState.snapshotAt, FamilyRows.snapshotAt, notRoot,
        FamilyRows.latestParentBindingForChild, FamilyRows.childRows,
        MetadataState.familyRows, MetadataState.bootstrap]
  have place : ∀ inodeId, snapshot.tree.place inodeId = none := by simp [Snapshot.tree, binding]
  have parent : ∀ inodeId, snapshot.tree.parent inodeId = none := by
    simp [DirectoryTree.parent, place]
  constructor
  case tree =>
    constructor
    case root_directory => exact root
    case root_place => exact place rootInodeId
    case root_deletion => rfl
    case directory_present =>
      rintro node ⟨record, found, _⟩ absent
      rw [found] at absent
      cases absent
    case occupant_iff =>
      intro slot node
      rw [place]
      exact ⟨fun taken => (by cases taken), fun placed => (by cases placed)⟩
    case place_directory =>
      intro node slot placed
      rw [place] at placed
      cases placed
    case place_present =>
      intro node slot placed
      rw [place] at placed
      cases placed
    case acyclic => exact fun node => ⟨[node], .last (parent node)⟩
    case deletion_present => exact fun node deleted => absurd rfl deleted
    case deletion_place => exact fun node _ => place node
    case unplaced =>
      intro node isPresent notRoot
      rcases Option.ne_none_iff_exists'.mp isPresent with ⟨record, found⟩
      exact absurd (inode node record found).1 notRoot
  case toCoherent =>
    constructor
    case inode_id =>
      intro inodeId record found
      have facts := inode inodeId record found
      rw [facts.1, facts.2.1]
    case binding_event =>
      intro inodeId event bound
      rw [binding] at bound
      cases bound
    case slot_event => exact fun _ => rfl
    all_goals
      intro _ _ found
      cases found
  case file_revision =>
    intro inodeId record found isFile
    rw [(inode inodeId record found).2.2] at isFile
    cases isFile

theorem bootstrap_settled : Settled (MetadataState.bootstrap createdAtMs rootGrants) 0 where
  ordered := bootstrap_ordered createdAtMs rootGrants
  inodes_le := by simp [MetadataState.bootstrap]
  root_unbound := by simp [MetadataState.bootstrap]
  consistent := by
    intro seq le
    rw [Nat.le_zero.mp le]
    exact bootstrap_consistent createdAtMs rootGrants

end

theorem Reachable.settled (reachable : Reachable policy history state) :
    Settled state history.length := by
  induction reachable with
  | genesis createdAtMs rootGrants => exact bootstrap_settled createdAtMs rootGrants
  | @commit history state record _ numbered accepted induction =>
    have steps := accepted.steps (induction.ready numbered)
    rw [List.length_append, List.length_singleton]
    exact (steps.settled induction numbered).appendCommit _ _

theorem Reachable.consistentAt (reachable : Reachable policy history state) (seq : ChangeSeq) :
    (state.snapshotAt seq).Consistent := by
  have settled := reachable.settled
  by_cases le : seq ≤ history.length
  · exact settled.consistent seq le
  · rw [settled.snapshotAt_eq (not_le.mp le).le]
    exact settled.consistent history.length le_rfl

/-! ## Induction over a history -/

theorem CommitSteps.induct {start : MetadataState} {holds : MetadataState → Prop}
    (steps : CommitSteps header start deltas) (ready : Ready header start 0)
    (initially : holds start) (effect : ∀ state first deltas, Ready header state first →
      Effect (state.snapshotAt header.committedSeq) header first deltas → holds state →
      holds (state.applyCommittedWalDeltas header deltas)) :
    holds (start.applyCommittedWalDeltas header deltas) := by
  induction steps with
  | start => exact initially
  | operation steps operation induction =>
    rw [MetadataState.applyCommittedWalDeltas_append]
    exact effect _ _ _ (steps.ready ready) operation induction

/-- Properties of a history are proved effect by effect, at the commit's own sequence. -/
theorem Reachable.induct (reachable : Reachable policy history state)
    (holds : MetadataState → ChangeSeq → Prop)
    (genesis : ∀ createdAtMs rootGrants, holds (MetadataState.bootstrap createdAtMs rootGrants) 0)
    (begins : ∀ state head, Settled state head → holds state head → holds state (head + 1))
    (effect : ∀ header state first deltas, Ready header state first →
      Effect (state.snapshotAt header.committedSeq) header first deltas →
      holds state header.committedSeq → holds (state.applyCommittedWalDeltas header deltas)
      header.committedSeq)
    (ends : ∀ (state : MetadataState) head commits commitReceipts, holds state head →
      holds (state ++ { commits, commitReceipts }) head) : holds state history.length := by
  induction reachable with
  | genesis createdAtMs rootGrants => exact genesis createdAtMs rootGrants
  | @commit history state record before numbered accepted induction =>
    have sequence : record.header.committedSeq = history.length + 1 := numbered
    have ready := before.settled.ready sequence
    have opened := begins state history.length before.settled induction
    rw [List.length_append, List.length_singleton, ← sequence]
    rw [← sequence] at opened
    apply ends
    exact (accepted.steps ready).induct ready opened (effect record.header)

end LoonFs
