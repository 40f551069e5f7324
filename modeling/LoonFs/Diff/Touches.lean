import LoonFs.Diff.Pages
import LoonFs.History

/-! # Touches -/

namespace LoonFs

open Foundation List MetadataState FamilyRows

theorem newestSeq_eq_some_iff :
    newestSeq seqs = some newest ↔ some newest ∈ seqs ∧ ∀ seq, some seq ∈ seqs → seq ≤ newest := by
  rw [newestSeq, List.max?_eq_some_iff]
  simp

theorem newestSeq_eq_none_iff : newestSeq seqs = none ↔ ∀ seq, some seq ∉ seqs := by
  simp [newestSeq, eq_nil_iff_forall_not_mem]

theorem newestSeq_append_newest (front rest : List (Option ChangeSeq)) :
    newestSeq (front ++ [newestSeq rest]) = newestSeq (front ++ rest) := by
  apply Option.ext
  intro greatest
  cases found : newestSeq rest with
  | none =>
    have nothing := newestSeq_eq_none_iff.mp found
    simp [newestSeq_eq_some_iff, nothing]
  | some newest =>
    rcases newestSeq_eq_some_iff.mp found with ⟨mem, newer⟩
    simp only [newestSeq_eq_some_iff, mem_append, mem_singleton, Option.some.injEq]
    constructor
    · intro ⟨among, above⟩
      refine ⟨among.imp_right fun (eq : greatest = newest) => eq ▸ mem, ?_⟩
      intro seq isSeq
      rcases isSeq with inFront | inRest
      · exact above seq (.inl inFront)
      · exact (newer seq inRest).trans (above newest (.inr rfl))
    · intro ⟨among, above⟩
      have newestBelow := above newest (.inr mem)
      refine ⟨among.imp_right fun inRest => (newer _ inRest).antisymm newestBelow, ?_⟩
      intro seq isSeq
      rcases isSeq with inFront | eq
      · exact above seq (.inl inFront)
      · exact eq ▸ newestBelow

structure MetadataState.OwnRowsOf (rows : MetadataState) (inodeId : InodeId) : Prop where
  inodes : ∀ record ∈ rows.inodes, record.inodeId = inodeId
  binds : ∀ record ∈ rows.direntryBinds, record.childInodeId = inodeId
  tombstones : ∀ record ∈ rows.subtreeTombstones, record.rootInodeId = inodeId
  revisions : ∀ record ∈ rows.revisions, record.inodeId = inodeId
  attributes : ∀ record ∈ rows.attributesRevisions, record.inodeId = inodeId
  access : ∀ record ∈ rows.accessRevisions, record.inodeId = inodeId

theorem MetadataState.deltaRows_ownRowsOf (header : CommitHeader) (delta : WalDelta) :
    (deltaRows header delta).OwnRowsOf delta.touchedInode := by
  constructor <;> cases delta <;> simp [deltaRows, WalDelta.touchedInode]

def WalDelta.WritesTouch : WalDelta → Prop
  | .createInode .. => False
  | .bindDirentry _ _ _ _ childInodeId .. => childInodeId ≠ rootInodeId
  | .unbindDirentry _ _ _ _ childInodeId .. => childInodeId ≠ rootInodeId
  | _ => True

namespace Snapshot

structure SameOwn (left right : Snapshot) (inodeId : InodeId) : Prop where
  inode : left.inode inodeId = right.inode inodeId
  child : left.child inodeId = right.child inodeId
  tombstone : left.tombstone inodeId = right.tombstone inodeId
  revision : left.revision inodeId = right.revision inodeId
  attributes : left.attributes inodeId = right.attributes inodeId
  access : left.access inodeId = right.access inodeId

namespace SameOwn

theorem refl (snapshot : Snapshot) (inodeId : InodeId) : SameOwn snapshot snapshot inodeId :=
  ⟨rfl, rfl, rfl, rfl, rfl, rfl⟩

theorem trans (first : SameOwn left middle inodeId) (second : SameOwn middle right inodeId) :
    SameOwn left right inodeId where
  inode := first.inode.trans second.inode
  child := first.child.trans second.child
  tombstone := first.tombstone.trans second.tombstone
  revision := first.revision.trans second.revision
  attributes := first.attributes.trans second.attributes
  access := first.access.trans second.access

theorem binding (same : SameOwn left right inodeId) :
    left.binding inodeId = right.binding inodeId := by
  simp [Snapshot.binding, same.child]

end SameOwn

section

variable (snapshot : Snapshot) (inodeId : InodeId)

def ownSeqs : List (Option ChangeSeq) := [
  (snapshot.child inodeId).map DirentryBindingRecord.committedSeq,
  (snapshot.tombstone inodeId).map SubtreeTombstoneRecord.committedSeq,
  (snapshot.revision inodeId).map RevisionRecord.committedSeq,
  (snapshot.attributes inodeId).map AttributesRevisionRecord.committedSeq,
  (snapshot.access inodeId).map AccessRevisionRecord.committedSeq]

def TouchedAt (seq : ChangeSeq) : Prop := some seq ∈ snapshot.ownSeqs inodeId

def OwnersPresent : Prop :=
  ∀ inodeId, snapshot.inode inodeId = none →
    snapshot.attributes inodeId = none ∧ snapshot.access inodeId = none

end

variable {snapshot : Snapshot} {header : CommitHeader} {delta : WalDelta}

theorem SameOwn.touchedAt (same : SameOwn snapshot other inodeId) :
    snapshot.TouchedAt inodeId seq ↔ other.TouchedAt inodeId seq := by
  simp only [TouchedAt, ownSeqs, same.child, same.tombstone, same.revision, same.attributes,
    same.access]

theorem TouchedAt.le {rows : FamilyRows} (touched : (rows.snapshotAt bound).TouchedAt inodeId seq) :
    seq ≤ bound := by
  have found : ∀ {Row Key : Type} [LinearOrder Key] {key : Row → Key} {index : Row → InodeId}
      {committedSeq : Row → ChangeSeq} {rows : List Row},
      some seq = (newestOf key index (rows.filter fun row => committedSeq row ≤ bound)
        inodeId).map committedSeq → seq ≤ bound := by
    intro Row Key _ key index committedSeq rows eq
    rcases Option.map_eq_some_iff.mp eq.symm with ⟨row, isNewest, rfl⟩
    simpa using (mem_filter.mp (newestOf_isNewest isNewest).1).2
  simp only [TouchedAt, ownSeqs, mem_cons, not_mem_nil, or_false,
    snapshotAt_child, snapshotAt_tombstone, snapshotAt_revision, snapshotAt_attributes,
    snapshotAt_access] at touched
  rcases touched with eq | eq | eq | eq | eq <;> exact found eq

/-! ## One delta -/

theorem addRows_sameOwn {rows : MetadataState} (own : rows.OwnRowsOf owner)
    (ne : owner ≠ inodeId) : SameOwn (snapshot.addRows rows) snapshot inodeId := by
  constructor
  case inode => exact putAll_of_forall_ne fun row mem => own.inodes row mem ▸ ne
  case child =>
    exact putAll_of_forall_ne fun row mem => own.binds row (mem_of_mem_filter mem) ▸ ne
  case tombstone =>
    exact putAll_of_forall_ne fun row mem => own.tombstones row mem ▸ ne
  case revision => exact putAll_of_forall_ne fun row mem => own.revisions row mem ▸ ne
  case attributes =>
    exact putAll_of_forall_ne fun row mem => own.attributes row mem ▸ ne
  case access => exact putAll_of_forall_ne fun row mem => own.access row mem ▸ ne

theorem addRows_touchedAt (writes : delta.WritesTouch) :
    (snapshot.addRows (MetadataState.deltaRows header delta)).TouchedAt delta.touchedInode
      header.committedSeq := by
  cases delta <;>
    simp_all [TouchedAt, ownSeqs, addRows, MetadataState.deltaRows, WalDelta.touchedInode,
      WalDelta.WritesTouch, DirentryBindingRecord.isBindingEvent,
      DirentryBindingRecord.isBound, DirentryBindingRecord.position]

theorem addRows_ownSeqs (writesNone : ¬delta.WritesTouch) :
    (snapshot.addRows (MetadataState.deltaRows header delta)).ownSeqs = snapshot.ownSeqs := by
  funext inodeId
  cases delta <;>
    simp_all [ownSeqs, addRows, MetadataState.deltaRows, WalDelta.WritesTouch,
      DirentryBindingRecord.isBindingEvent, DirentryBindingRecord.isBound]

theorem TouchedAt.addRows (touched : snapshot.TouchedAt inodeId header.committedSeq) :
    (snapshot.addRows (MetadataState.deltaRows header delta)).TouchedAt inodeId
      header.committedSeq := by
  by_cases same : delta.touchedInode = inodeId
  · by_cases writes : delta.WritesTouch
    · exact same ▸ addRows_touchedAt writes
    · rw [TouchedAt, addRows_ownSeqs writes]
      exact touched
  · have own := deltaRows_ownRowsOf header delta
    exact (addRows_sameOwn own same).touchedAt.mpr touched

/-! ## The deltas of a commit -/

theorem TouchedAt.addDeltas (touched : snapshot.TouchedAt inodeId header.committedSeq) :
    (snapshot.addDeltas header deltas).TouchedAt inodeId header.committedSeq := by
  induction deltas generalizing snapshot with
  | nil => exact touched
  | cons delta rest induction => exact induction touched.addRows

theorem addDeltas_sameOwn (untouched : ∀ delta ∈ deltas, delta.touchedInode ≠ inodeId) :
    SameOwn (snapshot.addDeltas header deltas) snapshot inodeId := by
  induction deltas generalizing snapshot with
  | nil => exact .refl snapshot inodeId
  | cons delta rest induction =>
    have restUntouched : ∀ other ∈ rest, other.touchedInode ≠ inodeId :=
      fun other mem => untouched other (mem_cons_of_mem _ mem)
    have own := deltaRows_ownRowsOf header delta
    exact (induction restUntouched).trans (addRows_sameOwn own (untouched delta (by simp)))

theorem addDeltas_touchedAt (mem : delta ∈ deltas) (writes : delta.WritesTouch) :
    (snapshot.addDeltas header deltas).TouchedAt delta.touchedInode header.committedSeq := by
  induction deltas generalizing snapshot with
  | nil => cases mem
  | cons head rest induction =>
    rcases mem_cons.mp mem with eq | mem
    · subst eq
      exact (addRows_touchedAt writes).addDeltas
    · exact induction mem

end Snapshot

open Snapshot

theorem Effect.writesTouch (effect : Effect snapshot header first deltas) :
    ∀ delta ∈ deltas, ∃ writer ∈ deltas, writer.WritesTouch ∧
      writer.touchedInode = delta.touchedInode := by
  cases effect with
  | createDirectory child parent nameKey displayName fresh placeable =>
    have notRoot := placeable.relocatable.notRoot
    simp [WalDelta.WritesTouch, WalDelta.touchedInode, notRoot]
  | createFile child parent nameKey displayName contentRef layout appendOffset fresh placeable =>
    have notRoot := placeable.relocatable.notRoot
    simp [WalDelta.WritesTouch, WalDelta.touchedInode, notRoot]
  | move inode source parent nameKey displayName summary detached placeable carried =>
    have notRoot := placeable.relocatable.notRoot
    simp [WalDelta.WritesTouch, WalDelta.touchedInode, notRoot, detached.child]
  | remove inode source detached =>
    simp [WalDelta.WritesTouch, WalDelta.touchedInode, detached.child]
  | restore inode deletion parent nameKey displayName summary found deleted past placeable
      carried =>
      have notRoot := placeable.relocatable.notRoot
      simp [WalDelta.WritesTouch, WalDelta.touchedInode, notRoot]
  | revise | attributes | access => simp [WalDelta.WritesTouch]

theorem Effect.ownersPresent (effect : Effect snapshot header first deltas)
    (owners : snapshot.OwnersPresent) : (snapshot.addDeltas header deltas).OwnersPresent := by
  intro inodeId absent
  cases effect with
  | createDirectory child | createFile child =>
    apply owners
    by_cases same : inodeId = child
    · simp [addDeltas, MetadataState.deltaRows, Snapshot.addRows, same] at absent
    · simpa [addDeltas, MetadataState.deltaRows, Snapshot.addRows, same] using absent
  | revise | move | remove | restore => exact owners inodeId absent
  | attributes owner revisionNo attributes isPresent =>
    have ne : inodeId ≠ owner := fun same => isPresent (same ▸ absent)
    have before := owners inodeId absent
    simpa [addDeltas, MetadataState.deltaRows, Snapshot.addRows, ne] using before
  | access owner revisionNo boundary grants isPresent =>
    have ne : inodeId ≠ owner := fun same => isPresent (same ▸ absent)
    have before := owners inodeId absent
    simpa [addDeltas, MetadataState.deltaRows, Snapshot.addRows, ne] using before

theorem CommitSteps.touches {start : MetadataState} (steps : CommitSteps header start deltas)
    (ready : Ready header start 0) :
    (∀ delta ∈ deltas, ((start.applyCommittedWalDeltas header deltas).snapshotAt
      header.committedSeq).TouchedAt delta.touchedInode header.committedSeq) ∧
    ∀ inodeId, (∀ delta ∈ deltas, delta.touchedInode ≠ inodeId) →
      SameOwn ((start.applyCommittedWalDeltas header deltas).snapshotAt header.committedSeq)
        (start.snapshotAt header.committedSeq) inodeId := by
  induction steps with
  | start => exact ⟨by simp, fun inodeId _ => .refl _ inodeId⟩
  | @operation before deltas steps effect induction =>
    rw [applyCommittedWalDeltas_append, ((steps.ready ready).effect effect).2]
    refine ⟨fun delta mem => ?_, fun inodeId untouched => ?_⟩
    · rcases mem_append.mp mem with past | added
      · exact (induction.1 delta past).addDeltas
      · rcases effect.writesTouch delta added with ⟨writer, isDelta, writes, same⟩
        exact same ▸ addDeltas_touchedAt isDelta writes
    · have past := induction.2 inodeId fun delta mem =>
        untouched delta (mem_append_left _ mem)
      have added : ∀ delta ∈ deltas, delta.touchedInode ≠ inodeId :=
        fun delta mem => untouched delta (mem_append_right _ mem)
      exact (addDeltas_sameOwn added).trans past

/-! ## Along a history -/

def TouchedBetween (history : List WalCommitPayload) (afterSeq throughSeq : ChangeSeq)
    (inodeId : InodeId) : Prop :=
  ∃ record ∈ history, afterSeq < record.committedSeq ∧ record.committedSeq ≤ throughSeq ∧
    inodeId ∈ touchedInodes record.deltas

namespace Reachable

section

variable (reachable : Reachable policy history state)

include reachable

theorem ownersPresent : ∀ seq ≤ history.length, (state.snapshotAt seq).OwnersPresent := by
  apply reachable.induct fun state head => ∀ seq ≤ head, (state.snapshotAt seq).OwnersPresent
  case genesis =>
    intro createdAtMs rootGrants seq le inodeId absent
    rw [Nat.le_zero.mp le] at absent ⊢
    have notRoot : inodeId ≠ rootInodeId := by
      intro isRoot
      rw [isRoot] at absent
      cases absent
    have access : ∀ record ∈ (MetadataState.bootstrap createdAtMs rootGrants).accessRevisions,
        record.inodeId ≠ inodeId := by
      intro record mem
      simp only [MetadataState.bootstrap] at mem
      split at mem
      · cases mem
      · cases mem_singleton.mp mem
        exact notRoot.symm
    constructor
    · rfl
    · simp only [MetadataState.snapshotAt, snapshotAt_access]
      rw [newestOf_eq_none_iff]
      intro record mem
      exact access record (mem_of_mem_filter mem)
  case begins =>
    intro state head settled held seq le
    rcases Nat.lt_or_eq_of_le le with less | eq
    · exact held seq (Nat.lt_succ_iff.mp less)
    · rw [eq, settled.snapshotAt_eq (Nat.le_succ head)]
      exact held head le_rfl
  case effect =>
    intro header state first deltas ready effect held seq le
    rcases Nat.lt_or_eq_of_le le with less | eq
    · rw [state.snapshotAt_applyDeltas_earlier deltas less]
      exact held seq le
    · rw [eq, (ready.effect effect).2]
      exact effect.ownersPresent (held _ le_rfl)
  case ends => simp

theorem commits_eq : state.commits = history := by
  induction reachable with
  | genesis => rfl
  | @commit history state record before numbered accepted induction =>
    have kept := family_applyDeltas append_commits state
      record.header (record.deltas.map (·.delta))
    have none : ∀ delta, (MetadataState.deltaRows record.header delta).commits = [] := by
      intro delta
      cases delta <;> rfl
    rw [flatMap_eq_nil_iff.mpr fun delta _ => none delta, append_nil, induction] at kept
    rw [MetadataState.applyCommittedWalRecord, append_commits, kept]

theorem sequences : history.map (·.committedSeq) = List.range' 1 history.length := by
  induction reachable with
  | genesis => rfl
  | commit _ numbered _ induction =>
    rw [map_append, induction, length_append, length_singleton,
      List.range'_concat, map_singleton, numbered]
    simp [Nat.add_comm]

theorem exists_commit (positive : 0 < seq) (le : seq ≤ history.length) :
    ∃ record ∈ history, record.committedSeq = seq := by
  apply mem_map.mp
  rw [reachable.sequences, mem_range'_1]
  exact ⟨positive, Nat.lt_one_add_iff.mpr le⟩

end

section

variable (reachable : Reachable policy history state)

include reachable

theorem commit_seq (mem : record ∈ history) :
    0 < record.committedSeq ∧ record.committedSeq ≤ history.length := by
  have isSeq := mem_map_of_mem (f := (·.committedSeq)) mem
  rw [reachable.sequences, mem_range'_1] at isSeq
  exact ⟨isSeq.1, Nat.lt_one_add_iff.mp isSeq.2⟩

theorem commits_ordered : state.familyRows.CommitsOrdered := by
  have sorted : (history.map (·.committedSeq)).Pairwise (· < ·) := by
    rw [reachable.sequences]
    exact pairwise_lt_range' ..
  change state.commits.Pairwise _
  rw [reachable.commits_eq]
  exact pairwise_map.mp sorted

theorem commit_touches : ∀ record ∈ history, ∀ head, record.committedSeq = head + 1 →
      (∀ inodeId ∈ touchedInodes record.deltas,
        (state.snapshotAt (head + 1)).TouchedAt inodeId (head + 1)) ∧
      ∀ inodeId ∉ touchedInodes record.deltas,
        SameOwn (state.snapshotAt (head + 1)) (state.snapshotAt head) inodeId := by
  induction reachable with
  | genesis => simp
  | @commit history state last before numbered accepted induction =>
    intro record mem head isNext
    have sequence : last.header.committedSeq = history.length + 1 := numbered
    simp only [MetadataState.applyCommittedWalRecord, snapshotAt_appendCommit]
    have past : ∀ seq ≤ history.length, (state.applyCommittedWalDeltas last.header
        (last.deltas.map (·.delta))).snapshotAt seq = state.snapshotAt seq := by
      intro seq le
      apply state.snapshotAt_applyDeltas_earlier
      rw [sequence]
      exact Nat.lt_succ_iff.mpr le
    rcases mem_append.mp mem with isBefore | isLast
    · have le := (before.commit_seq isBefore).2
      rw [isNext] at le
      rw [past _ le, past _ ((Nat.le_succ head).trans le)]
      exact induction record isBefore head isNext
    · cases mem_singleton.mp isLast
      have same : head = history.length := Nat.succ.inj (isNext.symm.trans numbered)
      subst same
      have ready := before.settled.ready sequence
      rcases (accepted.steps ready).touches ready with ⟨touches, keeps⟩
      rw [sequence] at touches keeps
      rw [past _ le_rfl]
      constructor
      · intro inodeId touched
        rcases mem_touchedInodes.mp touched with ⟨delta, isDelta, eq⟩
        exact eq ▸ touches delta.delta (mem_map_of_mem isDelta)
      · intro inodeId untouched
        have same := keeps inodeId (by
          intro delta isDelta eq
          rcases mem_map.mp isDelta with ⟨commitDelta, isCommitDelta, rfl⟩
          exact untouched (mem_touchedInodes.mpr ⟨commitDelta, isCommitDelta, eq⟩))
        rwa [before.settled.snapshotAt_eq (Nat.le_succ _)] at same

end

section

variable (reachable : Reachable policy history state)

include reachable

theorem sameOwn_of_untouched (fromLe : fromSeq ≤ toSeq) (toLe : toSeq ≤ history.length)
    (untouched : ¬TouchedBetween history fromSeq toSeq inodeId) :
    SameOwn (state.snapshotAt toSeq) (state.snapshotAt fromSeq) inodeId := by
  induction toSeq, fromLe using Nat.le_induction with
  | base => exact .refl _ inodeId
  | succ head le induction =>
    rcases reachable.exists_commit (Nat.succ_pos head) toLe with ⟨record, mem, isNext⟩
    have notHere : inodeId ∉ touchedInodes record.deltas := fun touched =>
      untouched ⟨record, mem, isNext ▸ Nat.lt_succ_of_le le, isNext.le, touched⟩
    have notEarlier : ¬TouchedBetween history fromSeq head inodeId := by
      intro ⟨other, isCommit, above, below, touched⟩
      exact untouched ⟨other, isCommit, above, below.trans (Nat.le_succ head), touched⟩
    exact ((reachable.commit_touches record mem head isNext).2 inodeId notHere).trans
      (induction ((Nat.le_succ head).trans toLe) notEarlier)

theorem commit_unique (mem : record ∈ history) (otherMem : other ∈ history)
    (same : record.committedSeq = other.committedSeq) : record = other := by
  have distinct : (history.map (·.committedSeq)).Nodup := by
    rw [reachable.sequences]
    exact nodup_range'
  exact inj_on_of_nodup_map distinct mem otherMem same

theorem exists_lastTouch (toLe : toSeq ≤ history.length)
    (touched : TouchedBetween history 0 toSeq inodeId) :
    ∃ record ∈ history, inodeId ∈ touchedInodes record.deltas ∧
      (state.snapshotAt toSeq).TouchedAt inodeId record.committedSeq ∧
      (∀ seq, (state.snapshotAt toSeq).TouchedAt inodeId seq → seq ≤ record.committedSeq) ∧
      ∀ other ∈ history, other.committedSeq ≤ toSeq → inodeId ∈ touchedInodes other.deltas →
        other.committedSeq ≤ record.committedSeq := by
  induction toSeq with
  | zero =>
    rcases touched with ⟨record, _, above, below, _⟩
    exact absurd below (not_le.mpr above)
  | succ head induction =>
    rcases reachable.exists_commit (Nat.succ_pos head) toLe with ⟨record, mem, isNext⟩
    have step := reachable.commit_touches record mem head isNext
    by_cases here : inodeId ∈ touchedInodes record.deltas
    · refine ⟨record, mem, here, ?_, ?_, ?_⟩
      · rw [isNext]
        exact step.1 inodeId here
      · intro seq touchedAt
        exact isNext ▸ touchedAt.le
      · intro other _ le _
        exact isNext ▸ le
    · have past : ∀ other ∈ history, other.committedSeq ≤ head + 1 →
          inodeId ∈ touchedInodes other.deltas → other.committedSeq ≤ head := by
        intro other isCommit le touches
        rcases Nat.lt_or_eq_of_le le with less | eq
        · exact Nat.lt_succ_iff.mp less
        · have same := reachable.commit_unique isCommit mem (eq.trans isNext.symm)
          exact absurd (same ▸ touches) here
      have touchedEarlier : TouchedBetween history 0 head inodeId := by
        rcases touched with ⟨other, isCommit, above, below, touches⟩
        exact ⟨other, isCommit, above, past other isCommit below touches, touches⟩
      have same := step.2 inodeId here
      rcases induction ((Nat.le_succ head).trans toLe) touchedEarlier with
        ⟨last, isLast, touches, touchedAt, newest, latest⟩
      refine ⟨last, isLast, touches, same.touchedAt.mpr touchedAt, ?_, ?_⟩
      · intro seq touchedLater
        exact newest seq (same.touchedAt.mp touchedLater)
      · intro other isCommit le otherTouches
        exact latest other isCommit (past other isCommit le otherTouches) otherTouches

end

end Reachable

variable {rows : FamilyRows}

theorem Snapshot.Consistent.revision_eq_none {snapshot : Snapshot}
    (consistent : snapshot.Consistent)
    (notFile : ∀ inode, snapshot.inode inodeId = some inode → inode.inodeKind ≠ .file) :
    snapshot.revision inodeId = none := by
  cases revised : snapshot.revision inodeId with
  | none => rfl
  | some revision =>
    rcases consistent.revision_file inodeId revision revised with ⟨inode, found, isFile⟩
    exact absurd isFile (notFile inode found)

theorem FamilyRows.revisionsAt_newest (consistent : (rows.snapshotAt seq).Consistent)
    (owners : (rows.snapshotAt seq).OwnersPresent) (inodeId : InodeId) :
    ((rows.inodeAtSeq seq inodeId).map fun inode =>
        rows.revisionsAt seq inodeId inode.inodeKind).bind Prod.snd =
      newestSeq [((rows.snapshotAt seq).revision inodeId).map RevisionRecord.committedSeq,
        ((rows.snapshotAt seq).attributes inodeId).map AttributesRevisionRecord.committedSeq,
        ((rows.snapshotAt seq).access inodeId).map AccessRevisionRecord.committedSeq] := by
  cases found : rows.inodeAtSeq seq inodeId with
  | none =>
    have noRevision := consistent.revision_eq_none fun inode isInode => by
      cases found.symm.trans isInode
    rw [noRevision, (owners inodeId found).1, (owners inodeId found).2]
    rfl
  | some inode =>
    cases kind : inode.inodeKind with
    | file =>
      simp only [Option.map_some, Option.bind_some, kind]
      rfl
    | directory =>
      have noRevision := consistent.revision_eq_none fun other isInode => by
        cases found.symm.trans isInode
        simp [kind]
      simp only [Option.map_some, Option.bind_some, kind, noRevision]
      rfl

theorem FamilyRows.lastTouchSeq_eq (consistent : (rows.snapshotAt seq).Consistent)
    (owners : (rows.snapshotAt seq).OwnersPresent) (inodeId : InodeId) :
    (rows.touchedInodeAt seq inodeId).lastTouchSeq =
      newestSeq ((rows.snapshotAt seq).ownSeqs inodeId) := by
  simp only [touchedInodeAt, revisionsAt_newest consistent owners]
  exact newestSeq_append_newest [_, _] _

end LoonFs
