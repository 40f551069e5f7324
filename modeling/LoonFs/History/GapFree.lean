import LoonFs.Execution
import LoonFs.History.Numbering

/-! # Revision numbers have no gaps -/

namespace LoonFs

open Foundation List MetadataState FamilyRows DeltaPosition

def Consecutive {Row : Type} (inodeOf number : Row → Nat) (rows : List Row) : Prop :=
  ∀ inodeId, (rows.filter fun row => inodeOf row = inodeId).map number =
    List.range' 1 (rows.filter fun row => inodeOf row = inodeId).length

namespace Consecutive

variable {rows : List Row}

theorem nil : Consecutive inodeOf number [] := fun _ => rfl

theorem append (consecutive : Consecutive inodeOf number rows)
    (next : number row = (rows.filter fun other => inodeOf other = inodeOf row).length + 1) :
    Consecutive inodeOf number (rows ++ [row]) := by
  intro node
  rw [filter_append, map_append, length_append, consecutive node]
  by_cases same : inodeOf row = node
  · subst same
    have kept : [row].filter (fun other => inodeOf other = inodeOf row) = [row] := by simp
    rw [kept, length_singleton, List.range'_concat, map_singleton, next, Nat.one_mul,
      Nat.add_comm 1]
  · simp [same]

theorem number_le (consecutive : Consecutive inodeOf number rows) (mem : row ∈ rows) :
    number row ≤ (rows.filter fun other => inodeOf other = inodeOf row).length := by
  have listed : number row ∈ (rows.filter fun other => inodeOf other = inodeOf row).map number :=
    mem_map_of_mem (mem_filter.mpr ⟨mem, by simp⟩)
  rw [consecutive, mem_range'_1] at listed
  omega

theorem newest_number {isWritten : Row → Bool}
    (consecutive : Consecutive inodeOf number (rows.filter isWritten))
    (unwritten : ∀ row ∈ rows, isWritten row = false → number row = 0)
    (position : Row → DeltaPosition) (node : Nat) :
    ((newestOf (fun row => (toLex (number row, position row) : RevisionOrderKey)) inodeOf
      rows node).map number).getD 0 =
      ((rows.filter isWritten).filter fun row => inodeOf row = node).length := by
  cases found : newestOf (fun row => (toLex (number row, position row) : RevisionOrderKey))
      inodeOf rows node with
  | none =>
    have noRows := newestOf_eq_none_iff.mp found
    rw [filter_eq_nil_iff.mpr fun row mem => by
      simpa using noRows row (mem_of_mem_filter mem)]
    rfl
  | some newest =>
    rcases newestOf_isNewest found with ⟨mem, isInode, newer⟩
    subst isInode
    apply le_antisymm
    · cases written : isWritten newest with
      | false => simp [unwritten newest mem written]
      | true => exact consecutive.number_le (mem_filter.mpr ⟨mem, written⟩)
    · -- The row with the highest number is no newer than the newest row.
      rcases Nat.eq_zero_or_pos
        ((rows.filter isWritten).filter fun row => inodeOf row = inodeOf newest).length with
        noneWritten | someWritten
      · rw [noneWritten]
        exact Nat.zero_le _
      · have listed := consecutive (inodeOf newest) ▸
          mem_range'_1.mpr ⟨someWritten, Nat.lt_add_of_pos_left Nat.one_pos⟩
        rcases mem_map.mp listed with ⟨last, isLast, lastNumber⟩
        have parts := mem_filter.mp isLast
        have older := newer last (mem_of_mem_filter parts.1) (by simpa using parts.2)
        rw [Prod.Lex.toLex_le_toLex] at older
        rw [← lastNumber]
        rcases older with less | ⟨eq, _⟩
        · exact less.le
        · exact eq.le

theorem newest_number_of_all (consecutive : Consecutive inodeOf number rows)
    (position : Row → DeltaPosition) (node : Nat) :
    ((newestOf (fun row => (toLex (number row, position row) : RevisionOrderKey)) inodeOf
      rows node).map number).getD 0 = (rows.filter fun row => inodeOf row = node).length := by
  have all : Consecutive inodeOf number (rows.filter fun _ => true) := by rwa [filter_true]
  have counted := all.newest_number (by simp) position node
  rwa [filter_true] at counted

end Consecutive

/-- The rows that commits wrote; the access row of a new root stands at sequence 0. -/
def MetadataState.committedAccess (state : MetadataState) : List AccessRevisionRecord :=
  state.accessRevisions.filter fun record => 0 < record.committedSeq

structure MetadataState.GapFree (state : MetadataState) : Prop where
  revisions : Consecutive RevisionRecord.inodeId RevisionRecord.revisionNo state.revisions
  attributes : Consecutive AttributesRevisionRecord.inodeId
    AttributesRevisionRecord.attributesRevisionNo state.attributesRevisions
  access : Consecutive AccessRevisionRecord.inodeId AccessRevisionRecord.accessRevisionNo
    state.committedAccess
  genesis_access : ∀ record ∈ state.accessRevisions, record.committedSeq = 0 →
    record.accessRevisionNo = 0

theorem filter_visible {Row : Type} {committedSeq : Row → ChangeSeq} {rows : List Row}
    {seq : ChangeSeq} (visible : ∀ row ∈ rows, committedSeq row ≤ seq) :
    rows.filter (fun row => committedSeq row ≤ seq) = rows :=
  filter_eq_self.mpr fun row mem => by simpa using visible row mem

namespace MetadataState.GapFree

variable {state : MetadataState} {header : CommitHeader}

theorem revision_number (gapFree : state.GapFree) (ready : Ready header state first)
    (node : InodeId) :
    (((state.snapshotAt header.committedSeq).revision node).map (·.revisionNo)).getD 0 =
      (state.revisions.filter fun row => row.inodeId = node).length := by
  have visible : ∀ row ∈ state.revisions, row.committedSeq ≤ header.committedSeq :=
    fun row mem => seq_le_of_le (ready.ordered.revisions.below row mem).le
  rw [snapshotAt, snapshotAt_revision, familyRows, filter_visible visible]
  exact gapFree.revisions.newest_number_of_all (·.position) node

theorem attributes_number (gapFree : state.GapFree) (ready : Ready header state first)
    (node : InodeId) : (((state.snapshotAt header.committedSeq).attributes node).map
      (·.attributesRevisionNo)).getD 0 =
      (state.attributesRevisions.filter fun row => row.inodeId = node).length := by
  have visible : ∀ row ∈ state.attributesRevisions, row.committedSeq ≤ header.committedSeq :=
    fun row mem => seq_le_of_le (ready.ordered.attributes.below row mem).le
  rw [snapshotAt, snapshotAt_attributes, familyRows, filter_visible visible]
  exact gapFree.attributes.newest_number_of_all (·.position) node

theorem access_number (gapFree : state.GapFree) (ready : Ready header state first)
    (node : InodeId) :
    (((state.snapshotAt header.committedSeq).access node).map (·.accessRevisionNo)).getD 0 =
      (state.committedAccess.filter fun row => row.inodeId = node).length := by
  have visible : ∀ row ∈ state.accessRevisions, row.committedSeq ≤ header.committedSeq :=
    fun row mem => seq_le_of_le (ready.ordered.access.below row mem).le
  rw [snapshotAt, snapshotAt_access, familyRows, filter_visible visible]
  refine gapFree.access.newest_number ?_ (·.position) node
  intro record mem notWritten
  exact gapFree.genesis_access record mem (by simpa using notWritten)

end MetadataState.GapFree

inductive AddsNext {Row : Type} (inodeOf number : Row → Nat) (newest : Nat → Nat) : List Row → Prop
  | none : AddsNext inodeOf number newest []
  | one (row : Row) (next : number row = newest (inodeOf row) + 1) :
      AddsNext inodeOf number newest [row]

theorem Consecutive.adds {Row : Type} {inodeOf number : Row → Nat} {rows added : List Row}
    (consecutive : Consecutive inodeOf number rows) (adds : AddsNext inodeOf number
      (fun node => (rows.filter fun row => inodeOf row = node).length) added) :
    Consecutive inodeOf number (rows ++ added) := by
  cases adds with
  | none => simpa using consecutive
  | one row next => exact consecutive.append next

namespace Effect

variable {deltas : List WalDelta}

section

variable (effect : Effect snapshot header first deltas)

include effect

theorem addsRevision (consistent : snapshot.Consistent) : AddsNext (·.inodeId) (·.revisionNo)
      (fun node => ((snapshot.revision node).map (·.revisionNo)).getD 0)
      (deltas.flatMap fun delta => (MetadataState.deltaRows header delta).revisions) := by
  cases effect with
  | createFile child parent nameKey displayName contentRef layout appendOffset fresh placeable =>
    refine .one _ ?_
    -- A new file has no revision before its first.
    cases found : snapshot.revision child with
    | none => simp
    | some revision =>
      rcases consistent.revision_file child revision found with ⟨inode, isInode, _⟩
      rw [fresh] at isInode
      cases isInode
  | revise node edge newest contentRef layout appendOffset isFile bound clear current =>
    refine .one _ ?_
    simp [(consistent.binding_event _ _ bound).1, current]
  | _ => exact .none

theorem addsAttributes : AddsNext (·.inodeId) (·.attributesRevisionNo)
      (fun node => ((snapshot.attributes node).map (·.attributesRevisionNo)).getD 0)
      (deltas.flatMap fun delta => (MetadataState.deltaRows header delta).attributesRevisions) := by
  cases effect with
  | attributes node revisionNo attributes isPresent clear numbered => exact .one _ numbered
  | _ => exact .none

theorem addsAccess : AddsNext (·.inodeId) (·.accessRevisionNo)
      (fun node => ((snapshot.access node).map (·.accessRevisionNo)).getD 0)
      (deltas.flatMap fun delta => (MetadataState.deltaRows header delta).accessRevisions) := by
  cases effect with
  | access node revisionNo boundary grants isPresent clear numbered => exact .one _ numbered
  | _ => exact .none

end

end Effect

theorem MetadataState.accessRevisions_seq (header : CommitHeader) (deltas : List WalDelta) :
    ∀ row ∈ deltas.flatMap fun delta => (deltaRows header delta).accessRevisions,
      row.committedSeq = header.committedSeq := by
  intro row mem
  rcases mem_flatMap.mp mem with ⟨delta, _, added⟩
  have position := (deltaRows_atPosition header delta).access.2 row added
  exact congrArg DeltaPosition.seq position

variable {deltas : List WalDelta} {header : CommitHeader}

theorem MetadataState.filter_committed (committed : 0 < header.committedSeq) :
    (deltas.flatMap fun delta => (deltaRows header delta).accessRevisions).filter
      (fun row => 0 < row.committedSeq) =
        deltas.flatMap fun delta => (deltaRows header delta).accessRevisions := by
  refine filter_eq_self.mpr fun row mem => ?_
  rw [accessRevisions_seq header deltas row mem]
  exact decide_eq_true committed

variable {state : MetadataState}

theorem MetadataState.GapFree.effect {first : Nat} (gapFree : state.GapFree)
    (ready : Ready header state first) (committed : 0 < header.committedSeq)
    (effect : Effect (state.snapshotAt header.committedSeq) header first deltas) :
    (state.applyCommittedWalDeltas header deltas).GapFree := by
  have revisions := effect.addsRevision ready.consistent
  have attributes := effect.addsAttributes
  have access := effect.addsAccess
  simp only [gapFree.revision_number ready] at revisions
  simp only [gapFree.attributes_number ready] at attributes
  simp only [gapFree.access_number ready] at access
  constructor
  · rw [family_applyDeltas append_revisions]
    exact gapFree.revisions.adds revisions
  · rw [family_applyDeltas append_attributesRevisions]
    exact gapFree.attributes.adds attributes
  · rw [committedAccess, family_applyDeltas append_accessRevisions, filter_append,
      filter_committed committed]
    exact gapFree.access.adds access
  · intro record mem atZero
    rw [family_applyDeltas append_accessRevisions] at mem
    rcases mem_append.mp mem with mem | added
    · exact gapFree.genesis_access record mem atZero
    · rw [accessRevisions_seq header deltas record added] at atZero
      exact absurd atZero committed.ne'

variable {history : List WalCommitPayload} {policy : NamePolicy}

theorem Reachable.gapFree (reachable : Reachable policy history state) : state.GapFree := by
  induction reachable with
  | genesis createdAtMs rootGrants =>
    refine ⟨.nil, .nil, ?_, ?_⟩
    · rw [MetadataState.committedAccess, MetadataState.bootstrap]
      split <;> exact .nil
    · intro record mem _
      rw [MetadataState.bootstrap] at mem
      split at mem
      · cases mem
      · rw [mem_singleton.mp mem]
  | @commit history state record before numbered accepted induction =>
    have sequence : record.header.committedSeq = history.length + 1 := numbered
    have ready := before.settled.ready sequence
    have committed : 0 < record.header.committedSeq := sequence ▸ Nat.succ_pos _
    have replayed := (accepted.steps ready).induct ready induction
      fun state first deltas ready effect gapFree => gapFree.effect ready committed effect
    exact ⟨by simpa [MetadataState.applyCommittedWalRecord] using replayed.revisions,
      by simpa [MetadataState.applyCommittedWalRecord] using replayed.attributes,
      by simpa [MetadataState.applyCommittedWalRecord, MetadataState.committedAccess]
        using replayed.access,
      by simpa [MetadataState.applyCommittedWalRecord] using replayed.genesis_access⟩

def writtenRows {Row : Type} (family : MetadataState → List Row)
    (history : List WalCommitPayload) : List Row :=
  history.flatMap fun record => record.deltas.flatMap fun delta =>
    family (MetadataState.deltaRows record.header delta.delta)

theorem Reachable.family_eq (reachable : Reachable policy history state) {Row : Type}
    {family : MetadataState → List Row}
    (appends : ∀ left right, family (left ++ right) = family left ++ family right)
    (closing : ∀ commits commitReceipts, family { commits, commitReceipts } = []) :
    ∃ createdAtMs rootGrants, family state =
      family (MetadataState.bootstrap createdAtMs rootGrants) ++ writtenRows family history := by
  induction reachable with
  | genesis createdAtMs rootGrants => exact ⟨createdAtMs, rootGrants, (append_nil _).symm⟩
  | @commit history state record _ _ _ induction =>
    rcases induction with ⟨createdAtMs, rootGrants, before⟩
    refine ⟨createdAtMs, rootGrants, ?_⟩
    rw [MetadataState.applyCommittedWalRecord, appends, closing, List.append_nil,
      MetadataState.family_applyDeltas appends, before, List.append_assoc, List.flatMap_map,
      writtenRows, writtenRows, List.flatMap_append, List.flatMap_singleton]

theorem Reachable.committedAccess_eq (reachable : Reachable policy history state) :
    state.committedAccess = writtenRows MetadataState.accessRevisions history := by
  induction reachable with
  | genesis createdAtMs rootGrants =>
    rw [MetadataState.committedAccess, MetadataState.bootstrap]
    split <;> rfl
  | @commit history state record _ numbered _ induction =>
    have sequence : record.header.committedSeq = history.length + 1 := numbered
    have committed : 0 < record.header.committedSeq := sequence ▸ Nat.succ_pos _
    rw [MetadataState.applyCommittedWalRecord, MetadataState.committedAccess,
      append_accessRevisions, append_nil, family_applyDeltas append_accessRevisions, filter_append,
      filter_committed committed, flatMap_map, writtenRows, flatMap_append, flatMap_singleton]
    exact congrArg (· ++ _) induction

/-- The rows that commits write for an inode are numbered 1, 2, 3 and so on in each family. -/
theorem revision_numbers_gap_free {policy : NamePolicy} {history : List WalCommitPayload}
    {state : MetadataState} (reachable : Reachable policy history state) (inodeId : InodeId) :
    let revisions := (writtenRows MetadataState.revisions history).filter fun row =>
      row.inodeId = inodeId
    let attributes := (writtenRows MetadataState.attributesRevisions history).filter fun row =>
      row.inodeId = inodeId
    let access := (writtenRows MetadataState.accessRevisions history).filter fun row =>
      row.inodeId = inodeId
    (revisions.Pairwise (fun left right => left.position < right.position) ∧
      revisions.map RevisionRecord.revisionNo = List.range' 1 revisions.length) ∧
    (attributes.Pairwise (fun left right => left.position < right.position) ∧
      attributes.map AttributesRevisionRecord.attributesRevisionNo =
        List.range' 1 attributes.length) ∧
    (access.Pairwise (fun left right => left.position < right.position) ∧
      access.map AccessRevisionRecord.accessRevisionNo = List.range' 1 access.length) := by
  have ordered := reachable.settled.ordered
  have gapFree := reachable.gapFree
  rcases reachable.family_eq append_revisions fun _ _ => rfl with
    ⟨_, _, writtenRevisions⟩
  rcases reachable.family_eq append_attributesRevisions fun _ _ => rfl with
    ⟨_, _, writtenAttributes⟩
  rw [show writtenRows MetadataState.revisions history = state.revisions from
      writtenRevisions.symm,
    show writtenRows MetadataState.attributesRevisions history = state.attributesRevisions from
      writtenAttributes.symm, ← reachable.committedAccess_eq]
  exact ⟨⟨ordered.revisions.sorted.filter _, gapFree.revisions inodeId⟩,
    ⟨ordered.attributes.sorted.filter _, gapFree.attributes inodeId⟩,
    ⟨(ordered.access.sorted.filter _).filter _, gapFree.access inodeId⟩⟩

/-- The sample writes its file twice, the second time after moving it. -/
theorem revision_numbers_gap_free_sample :
    Reachable .plain sampleRun.history sampleRun.state ∧
      ((writtenRows MetadataState.revisions sampleRun.history).filter fun row =>
        row.inodeId = 2).map RevisionRecord.revisionNo = List.range' 1
          ((writtenRows MetadataState.revisions sampleRun.history).filter fun row =>
            row.inodeId = 2).length :=
  ⟨sampleRun_reachable, (revision_numbers_gap_free sampleRun_reachable 2).1.2⟩

end LoonFs
