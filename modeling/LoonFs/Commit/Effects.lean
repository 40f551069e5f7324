import LoonFs.Commit.Checks

/-! # What an accepted operation does

One case for each kind of change, with what validation established before it.
-/

namespace LoonFs

open Foundation

namespace Snapshot

variable (snapshot : Snapshot)

/-- A binding that an operation takes away: what its slot holds now, under a
visible inode. -/
structure Source (inode : InodeRecord) (source : ResolvedBinding) : Prop where
  found : snapshot.inode inode.inodeId = some inode
  child : source.childInodeId = inode.inodeId
  occupies : ∃ existing,
    snapshot.occupant (source.parentInodeId, source.nameKey) = some existing ∧
    existing.childInodeId = inode.inodeId ∧ existing.bindPosition = source.bindPosition
  clear : ¬snapshot.Covered inode.inodeId

structure Placeable (inodeId : InodeId) (slot : InodeId × NameKey) : Prop where
  relocatable : snapshot.tree.Relocatable rootInodeId inodeId (some slot) none
  clear : ¬snapshot.Covered slot.1

end Snapshot

inductive Effect (snapshot : Snapshot) (header : CommitHeader) (first : Nat) : List WalDelta → Prop
  | createDirectory (child parent : InodeId) (nameKey : NameKey) (displayName : DisplayName)
      (fresh : snapshot.inode child = none)
      (placeable : snapshot.Placeable child (parent, nameKey)) :
      Effect snapshot header first [
        .createInode first child .directory,
        .bindDirentry (first + 1) parent nameKey displayName child .directory header.actorId
          header.committedAtMs none]
  | createFile (child parent : InodeId) (nameKey : NameKey) (displayName : DisplayName)
      (contentRef : ContentRef) (layout : Option ContentLayout) (appendOffset : Option Nat)
      (fresh : snapshot.inode child = none)
      (placeable : snapshot.Placeable child (parent, nameKey)) :
      Effect snapshot header first [
        .createInode first child .file,
        .bindDirentry (first + 1) parent nameKey displayName child .file header.actorId
          header.committedAtMs (some
            { revisionNo := 1
              sizeBytes := contentRef.sizeBytes
              revisionCommittedBy := header.actorId
              revisionCommittedAtMs := header.committedAtMs }),
        .appendFileRevision (first + 2) child parent nameKey displayName
          ⟨header.committedSeq, first + 1⟩ header.actorId header.committedAtMs 1 contentRef
          layout appendOffset]
  | revise (inodeId : InodeId) (edge : DirentryBindingRecord) (newest : RevisionRecord)
      (contentRef : ContentRef) (layout : Option ContentLayout) (appendOffset : Option Nat)
      (isFile : ∃ inode, snapshot.inode inodeId = some inode ∧ inode.inodeKind = .file)
      (bound : snapshot.binding inodeId = some edge)
      (clear : ¬snapshot.Covered inodeId)
      (current : snapshot.revision inodeId = some newest) :
      Effect snapshot header first [
        .appendFileRevision first edge.childInodeId edge.parentInodeId edge.nameKey
          (edge.displayName.getD "") edge.bindPosition edge.childCreatedBy
          edge.childCreatedAtMs (newest.revisionNo + 1) contentRef layout appendOffset]
  | move (inode : InodeRecord) (source : ResolvedBinding) (parent : InodeId)
      (nameKey : NameKey) (displayName : DisplayName) (summary : Option RevisionSummary)
      (detached : snapshot.Source inode source)
      (placeable : snapshot.Placeable inode.inodeId (parent, nameKey))
      (carried : snapshot.SummaryOf inode summary) :
      Effect snapshot header first [
        .unbindDirentry first source.parentInodeId source.nameKey source.displayName
          source.childInodeId inode.inodeKind inode.committedBy inode.committedAtMs
          source.bindPosition,
        .bindDirentry (first + 1) parent nameKey displayName inode.inodeId inode.inodeKind
          inode.committedBy inode.committedAtMs summary]
  | remove (inode : InodeRecord) (source : ResolvedBinding)
      (detached : snapshot.Source inode source) :
      Effect snapshot header first [
        .unbindDirentry first source.parentInodeId source.nameKey source.displayName
          source.childInodeId inode.inodeKind inode.committedBy inode.committedAtMs
          source.bindPosition,
        .tombstoneSubtree (first + 1) inode.inodeId inode.inodeKind
          { parentInodeId := source.parentInodeId
            nameKey := source.nameKey
            displayName := source.displayName }]
  | restore (inode : InodeRecord) (deletion : SubtreeTombstoneRecord) (parent : InodeId)
      (nameKey : NameKey) (displayName : DisplayName) (summary : Option RevisionSummary)
      (found : snapshot.inode inode.inodeId = some inode)
      (deleted : snapshot.deletion inode.inodeId = some deletion)
      (earlier : deletion.committedSeq < header.committedSeq)
      (placeable : snapshot.Placeable inode.inodeId (parent, nameKey))
      (carried : snapshot.SummaryOf inode summary) :
      Effect snapshot header first [
        .revokeSubtreeTombstone first inode.inodeId deletion.position,
        .bindDirentry (first + 1) parent nameKey displayName inode.inodeId inode.inodeKind
          inode.committedBy inode.committedAtMs summary]
  | attributes (inodeId : InodeId) (revisionNo : AttributesRevisionNo)
      (attributes : Attributes)
      (isPresent : snapshot.inode inodeId ≠ none) (clear : ¬snapshot.Covered inodeId)
      (numbered : revisionNo = ((snapshot.attributes inodeId).map
        AttributesRevisionRecord.attributesRevisionNo).getD 0 + 1) :
      Effect snapshot header first [
        .appendAttributesRevision first inodeId revisionNo attributes]
  | access (inodeId : InodeId) (revisionNo : AccessRevisionNo) (boundary : Bool)
      (grants : AccessGrants)
      (isPresent : snapshot.inode inodeId ≠ none) (clear : ¬snapshot.Covered inodeId)
      (numbered : revisionNo = ((snapshot.access inodeId).map
        AccessRevisionRecord.accessRevisionNo).getD 0 + 1) :
      Effect snapshot header first [
        .appendAccessRevision first inodeId revisionNo boundary grants]

namespace MetadataView

variable {view : MetadataView}

theorem placeable_of_checks (consistent : view.snapshot.Consistent) (notRoot : node ≠ rootInodeId)
    (directory : ∃ inode, view.snapshot.inode parent = some inode ∧ inode.inodeKind = .directory)
    (absent : ∀ existing, view.reads.VisibleBinding parent nameKey existing →
      rebinding = some existing.childInodeId)
    (rebinds : ∀ other, rebinding = some other → other = node)
    (outside : ¬AtOrBelow view.snapshot.parent parent node)
    (clear : ¬view.snapshot.Covered parent) : view.snapshot.Placeable node (parent, nameKey) := by
  refine ⟨⟨notRoot, by simp, ?_, ?_, ?_⟩, clear⟩
  · rintro slot ⟨⟩
    exact directory
  · rintro slot ⟨⟩
    rwa [Snapshot.tree_parent]
  · rintro slot ⟨⟩
    cases occupies : view.snapshot.occupant (parent, nameKey) with
    | none => simp [Snapshot.tree, occupies]
    | some row =>
      right
      have visible : view.reads.VisibleBinding parent nameKey row :=
        consistent.visibleBinding_of_occupant _ occupies clear
      simp [Snapshot.tree, occupies, rebinds _ (absent row visible)]

end MetadataView

theorem reserveDeltaIndex_eq_ok {numbering : CommitNumbering}
    (reserved : numbering.reserveDeltaIndex = .ok (index, next)) :
    index = numbering.nextDeltaIndex ∧ next.nextDeltaIndex = numbering.nextDeltaIndex + 1 := by
  rw [CommitNumbering.reserveDeltaIndex] at reserved
  split at reserved
  · cases reserved
    exact ⟨rfl, rfl⟩
  · cases reserved

theorem nextOrdinal_eq_ok (found : nextOrdinal base overflow = .ok next) : next = base + 1 := by
  rw [nextOrdinal, nextPublicOrdinal] at found
  by_cases small : base + 1 ≤ maxPublicInteger
  · simpa [small, eq_comm] using found
  · simp [small] at found

namespace MetadataView

variable {view : MetadataView} {header : CommitHeader} {numbering next : CommitNumbering}
  {deltas : List WalDelta} {source : ResolvedBinding}

def Yields (view : MetadataView) (header : CommitHeader) (numbering : CommitNumbering)
    (deltas : List WalDelta) (next : CommitNumbering) : Prop :=
  Effect view.snapshot header numbering.nextDeltaIndex deltas ∧
    next.nextDeltaIndex = numbering.nextDeltaIndex + deltas.length

private theorem delete_yields (detached : view.snapshot.Source inode source)
    (written : deleteDeltas numbering inode source = .ok (deltas, next)) :
    view.Yields header numbering deltas next := by
  simp only [deleteDeltas, unbindDelta, bind_eq_ok, Prod.exists] at written
  rcases written with ⟨_, _, ⟨_, first, reservedFirst, unbound⟩, _, second, reserved, written⟩
  rcases reserveDeltaIndex_eq_ok reservedFirst with ⟨rfl, firstIndex⟩
  cases unbound
  rcases reserveDeltaIndex_eq_ok reserved with ⟨rfl, secondIndex⟩
  cases written
  rw [Yields, firstIndex]
  exact ⟨.remove inode source detached, by simp [secondIndex, firstIndex]⟩

section

variable (consistent : view.snapshot.Consistent)

include consistent

theorem validateCreate_yields (fresh : view.snapshot.inode child = none)
    (accepted : view.validateCreate policy header numbering child parent displayName newChild =
      .ok (deltas, next)) : view.Yields header numbering deltas next := by
  have walkable : view.reads.Walkable := consistent.walkable _
  simp only [validateCreate, bind_eq_ok] at accepted
  rcases accepted with ⟨nameKey, named, _, _, _, uncovered, accepted⟩
  rcases (resolveNameAbsent_eq_ok walkable).mp named with ⟨rfl, directory, absent⟩
  have clear := (ensureNotCoveredByTombstone_eq_ok walkable).mp uncovered
  -- A new inode has nothing below it.
  have notPresent : ¬view.snapshot.tree.present child := not_not.mpr fresh
  have notRoot : child ≠ rootInodeId := by
    rintro rfl
    exact notPresent (consistent.tree.directory_present _ consistent.tree.root_directory)
  have outside : ¬AtOrBelow view.snapshot.parent parent child := by
    rw [← Snapshot.tree_parent]
    intro below
    exact notPresent (consistent.tree.below_present
      (consistent.tree.directory_present _ directory) below)
  have placeable := placeable_of_checks consistent notRoot directory absent (by simp)
    outside clear
  rcases bind_eq_ok.mp accepted with ⟨⟨createIndex, first⟩, reserved, accepted⟩
  rcases reserveDeltaIndex_eq_ok reserved with ⟨rfl, firstIndex⟩
  rcases bind_eq_ok.mp accepted with ⟨⟨bindIndex, second⟩, reserved, accepted⟩
  rcases reserveDeltaIndex_eq_ok reserved with ⟨rfl, secondIndex⟩
  cases newChild with
  | directory =>
    cases accepted
    rw [Yields, firstIndex]
    exact ⟨.createDirectory child parent _ displayName fresh placeable,
      by simp [secondIndex, firstIndex]⟩
  | file contentRef =>
    rcases bind_eq_ok.mp accepted with ⟨⟨revisionIndex, third⟩, reserved, accepted⟩
    rcases reserveDeltaIndex_eq_ok reserved with ⟨rfl, thirdIndex⟩
    cases accepted
    rw [Yields, secondIndex, firstIndex]
    exact ⟨.createFile child parent _ displayName contentRef none none fresh placeable,
      by simp [thirdIndex, secondIndex, firstIndex]⟩

private theorem revise_yields
    (based : view.ensureFileBaseRevisionIs node baseRevisionNo operand = .ok ())
    (numbered : revisionNo = baseRevisionNo + 1)
    (uncovered : view.ensureNotCoveredByTombstone node operand = .ok ())
    (bound : view.resolveCurrentBinding node operand = .ok edge)
    (written : revisionDelta numbering edge revisionNo contentRef appendOffset = .ok (delta,
      next)) : view.Yields header numbering [delta] next := by
  rcases ensureFileBaseRevisionIs_eq_ok.mp based with ⟨isFile, base⟩
  rcases Option.map_eq_some_iff.mp base with ⟨newest, current, rfl⟩
  rcases bind_eq_ok.mp written with ⟨⟨index, after⟩, reserved, written⟩
  rcases reserveDeltaIndex_eq_ok reserved with ⟨rfl, advanced⟩
  cases written
  subst numbered
  exact ⟨.revise node edge newest contentRef none appendOffset isFile
    (resolveCurrentBinding_eq_ok.mp bound)
    ((ensureNotCoveredByTombstone_eq_ok (consistent.walkable _)).mp uncovered)
    current, advanced⟩

theorem validateReplaceFile_yields
    (accepted : view.validateReplaceFile numbering node baseRevisionNo contentRef appendOffset =
      .ok (deltas, next)) : view.Yields header numbering deltas next := by
  simp only [validateReplaceFile, bind_eq_ok, Prod.exists] at accepted
  rcases accepted with ⟨_, based, revisionNo, numbered, _, uncovered, edge, bound, delta, after,
    written, accepted⟩
  cases accepted
  exact revise_yields consistent based (nextOrdinal_eq_ok numbered) uncovered bound written

theorem validateRestoreRevision_yields
    (accepted : view.validateRestoreRevision numbering node sourceRevisionNo baseRevisionNo =
      .ok (deltas, next)) : view.Yields header numbering deltas next := by
  simp only [validateRestoreRevision, bind_eq_ok, Prod.exists] at accepted
  rcases accepted with ⟨_, based, source, _, revisionNo, numbered, _, uncovered, edge, bound,
    delta, after, written, accepted⟩
  cases accepted
  exact revise_yields consistent based (nextOrdinal_eq_ok numbered) uncovered bound written

theorem source_of_checks (isChild : node = source.childInodeId)
    (observed : view.ensureSourceBinding source = .ok ())
    (found : view.snapshot.inode node = some inode) (clear : ¬view.snapshot.Covered node) :
    view.snapshot.Source inode source := by
  have isInode := consistent.inode_id _ _ found
  subst isInode
  rcases (ensureSourceBinding_eq_ok (consistent.walkable _)).mp observed with
    ⟨existing, visible, _, _, sameChild, samePosition⟩
  exact ⟨found, isChild.symm, ⟨existing, visible.2.1, sameChild.trans isChild.symm,
    samePosition⟩, clear⟩

theorem validateDeleteFile_yields (isChild : node = source.childInodeId)
    (accepted : view.validateDeleteFile numbering node source = .ok (deltas, next)) :
    view.Yields header numbering deltas next := by
  have walkable : view.reads.Walkable := consistent.walkable _
  simp only [validateDeleteFile, bind_eq_ok] at accepted
  rcases accepted with ⟨_, observed, inode, resolved, _, uncovered, accepted⟩
  have clear := (ensureNotCoveredByTombstone_eq_ok walkable).mp uncovered
  exact delete_yields (source_of_checks consistent isChild observed
    (resolveInodeKind_eq_ok.mp resolved).1 clear) accepted

theorem validateDeleteSubtree_yields (isChild : node = source.childInodeId)
    (accepted : view.validateDeleteSubtree numbering node source requireEmpty = .ok (deltas,
      next)) : view.Yields header numbering deltas next := by
  have walkable : view.reads.Walkable := consistent.walkable _
  simp only [validateDeleteSubtree, bind_eq_ok] at accepted
  rcases accepted with ⟨_, observed, inode, resolved, occupied, _, accepted⟩
  rw [guard_eq_ok fun _ => refuse_ne_ok] at accepted
  rcases bind_eq_ok.mp accepted.2 with ⟨_, uncovered, accepted⟩
  have clear := (ensureNotCoveredByTombstone_eq_ok walkable).mp uncovered
  exact delete_yields (source_of_checks consistent isChild observed
    (resolveInodeKind_eq_ok.mp resolved).1 clear) accepted

theorem not_below_file (found : view.snapshot.inode inodeId = some inode)
    (isFile : inode.inodeKind ≠ .directory) (directory : view.snapshot.tree.directory parent) :
    ¬AtOrBelow view.snapshot.parent parent inodeId := by
  have notDirectory : ¬view.snapshot.tree.directory inodeId := by
    rintro ⟨other, foundOther, kind⟩
    rw [found] at foundOther
    cases foundOther
    exact isFile kind
  intro below
  apply notDirectory
  rw [← Snapshot.tree_parent] at below
  refine below.induct directory fun lower upper pointer _ => ?_
  rcases Option.map_eq_some_iff.mp pointer with ⟨slot, place, rfl⟩
  exact consistent.tree.place_directory lower slot place

theorem validateRename_yields (isChild : node = source.childInodeId)
    (accepted : view.validateRename policy numbering node source newParent newName =
      .ok (deltas, next)) : view.Yields header numbering deltas next := by
  have walkable : view.reads.Walkable := consistent.walkable _
  simp only [validateRename, bind_eq_ok] at accepted
  rcases accepted with ⟨_, observed, inode, resolved, nameKey, named, _, _, _, acyclic, _,
    sourceUncovered, _, targetUncovered, summary, summarized, written⟩
  have found := resolveInode_eq_ok.mp resolved
  have isInode := consistent.inode_id _ _ found
  subst isInode
  have sourceClear := (ensureNotCoveredByTombstone_eq_ok walkable).mp sourceUncovered
  have targetClear := (ensureNotCoveredByTombstone_eq_ok walkable).mp targetUncovered
  have detached := source_of_checks consistent isChild observed found sourceClear
  rcases (resolveNameAbsent_eq_ok walkable).mp named with ⟨rfl, directory, absent⟩
  have notRoot : inode.inodeId ≠ rootInodeId := by
    rcases detached.occupies with ⟨existing, occupies, sameChild, _⟩
    intro isRoot
    have place := (consistent.tree.occupant_iff (source.parentInodeId, source.nameKey)
      inode.inodeId).mp (by simp [Snapshot.tree, occupies, sameChild])
    rw [isRoot, consistent.tree.root_place] at place
    cases place
  have outside : ¬AtOrBelow view.snapshot.parent newParent inode.inodeId := by
    by_cases kind : inode.inodeKind = .directory
    · exact (ensureRenameDoesNotCycle_eq_ok walkable).mp acyclic kind
    · exact not_below_file consistent found kind directory
  have placeable := placeable_of_checks consistent notRoot directory absent
    (fun other same => (Option.some.inj same).symm) outside targetClear
  simp only [renameDeltas, unbindDelta, bindDelta, bind_eq_ok, Prod.exists] at written
  rcases written with ⟨_, _, ⟨_, first, reservedFirst, unbound⟩, _, _,
    ⟨_, second, reserved, bound⟩, written⟩
  rcases reserveDeltaIndex_eq_ok reservedFirst with ⟨rfl, firstIndex⟩
  cases unbound
  rcases reserveDeltaIndex_eq_ok reserved with ⟨rfl, secondIndex⟩
  cases bound
  cases written
  rw [Yields, firstIndex]
  exact ⟨.move inode source newParent _ newName summary detached placeable
    (resolveRevisionSummary_eq_ok.mp summarized), by simp [secondIndex, firstIndex]⟩

theorem validateUndelete_yields (sameSeq : view.visibleSeq = header.committedSeq)
    (accepted : view.validateUndelete policy numbering node deletionSeq parent displayName =
      .ok (deltas, next)) : view.Yields header numbering deltas next := by
  have walkable : view.reads.Walkable := consistent.walkable _
  simp only [validateUndelete, bind_eq_ok] at accepted
  rcases accepted with ⟨inode, resolved, deletion, recovered, nameKey, named, _, _, _, uncovered,
    summary, summarized, written⟩
  have found := resolveInode_eq_ok.mp resolved
  have isInode := consistent.inode_id _ _ found
  subst isInode
  have clear := (ensureNotCoveredByTombstone_eq_ok walkable).mp uncovered
  rcases resolveRecoverableDeletion_eq_ok.mp recovered with ⟨deleted, same, _, past⟩
  rcases (resolveNameAbsent_eq_ok walkable).mp named with ⟨rfl, directory, absent⟩
  have notRoot : inode.inodeId ≠ rootInodeId := by
    intro isRoot
    have kept := consistent.tree.root_deletion
    rw [← isRoot] at kept
    simp [Snapshot.tree, deleted] at kept
  -- A parent below the deleted root would be covered by the tombstone that is revoked.
  have outside : ¬AtOrBelow view.snapshot.parent parent inode.inodeId := fun below =>
    clear ⟨inode.inodeId, below, by simp [deleted]⟩
  have placeable := placeable_of_checks consistent notRoot directory absent (by simp)
    outside clear
  simp only [undeleteDeltas, bindDelta, bind_eq_ok, Prod.exists] at written
  rcases written with ⟨_, first, reservedFirst, _, _, ⟨_, second, reserved, bound⟩, written⟩
  rcases reserveDeltaIndex_eq_ok reservedFirst with ⟨rfl, firstIndex⟩
  rcases reserveDeltaIndex_eq_ok reserved with ⟨rfl, secondIndex⟩
  cases bound
  cases written
  rw [Yields, firstIndex]
  exact ⟨.restore inode deletion parent _ displayName summary found deleted
    (by rw [same, ← sameSeq]; exact past) placeable
    (resolveRevisionSummary_eq_ok.mp summarized), by simp [secondIndex, firstIndex]⟩

theorem validateUpdateAttributes_yields
    (accepted : view.validateUpdateAttributes numbering node baseNo attributes = .ok (deltas,
      next)) : view.Yields header numbering deltas next := by
  simp only [validateUpdateAttributes, bind_eq_ok, Prod.exists] at accepted
  rcases accepted with ⟨_, visible, _, based, revisionNo, numbered, index, after, reserved,
    accepted⟩
  rcases reserveDeltaIndex_eq_ok reserved with ⟨rfl, advanced⟩
  have shown := (ensureTargetVisible_eq_ok (consistent.walkable _)).mp visible
  have base := ensureInodeAttributesRevisionIs_eq_ok.mp based
  have next := nextOrdinal_eq_ok numbered
  cases accepted
  refine ⟨.attributes node revisionNo attributes shown.1 shown.2 ?_, advanced⟩
  change ((view.snapshot.attributes node).map (·.attributesRevisionNo)).getD 0 = baseNo at base
  rw [next, ← base]

theorem validateUpdateAccess_yields
    (accepted : view.validateUpdateAccess numbering node baseNo boundary grants = .ok (deltas,
      next)) : view.Yields header numbering deltas next := by
  simp only [validateUpdateAccess, bind_eq_ok, Prod.exists] at accepted
  rcases accepted with ⟨_, visible, _, based, revisionNo, numbered, index, after, reserved,
    accepted⟩
  rcases reserveDeltaIndex_eq_ok reserved with ⟨rfl, advanced⟩
  have shown := (ensureTargetVisible_eq_ok (consistent.walkable _)).mp visible
  have base := ensureInodeAccessRevisionIs_eq_ok.mp based
  have next := nextOrdinal_eq_ok numbered
  cases accepted
  refine ⟨.access node revisionNo boundary grants shown.1 shown.2 ?_, advanced⟩
  change ((view.snapshot.access node).map (·.accessRevisionNo)).getD 0 = baseNo at base
  rw [next, ← base]

end

end MetadataView

/-- A create takes an unused inode ID, and a deletion or rename names its source's child. -/
def CommitOperation.PlannedOver (rows : FamilyRows) : CommitOperation → Prop
  | .createDirectory child _ _ | .createFile child _ _ _ =>
    ∀ record ∈ rows.inodes, record.inodeId ≠ child
  | .deleteFile inodeId source | .rename inodeId source _ _ | .deleteSubtree inodeId source _ =>
    inodeId = source.childInodeId
  | _ => True

variable {header : CommitHeader}

theorem MetadataView.validateOperation_yields {view : MetadataView} {op : CommitOperation}
    (consistent : view.snapshot.Consistent) (sameSeq : view.visibleSeq = header.committedSeq)
    (planned : op.PlannedOver view.rows)
    (accepted : view.validateOperation policy header numbering op = .ok (deltas, next)) :
    view.Yields header numbering deltas next := by
  have fresh : ∀ child, (∀ record ∈ view.rows.inodes, record.inodeId ≠ child) →
      view.snapshot.inode child = none := by
    intro child unused
    refine List.find?_eq_none.mpr fun record mem => ?_
    simp [unused record mem]
  cases op with
  | createDirectory | createFile =>
    exact validateCreate_yields consistent (fresh _ planned) accepted
  | replaceFile => exact validateReplaceFile_yields consistent accepted
  | restoreRevision => exact validateRestoreRevision_yields consistent accepted
  | deleteFile => exact validateDeleteFile_yields consistent planned accepted
  | rename => exact validateRename_yields consistent planned accepted
  | deleteSubtree => exact validateDeleteSubtree_yields consistent planned accepted
  | undelete => exact validateUndelete_yields consistent sameSeq accepted
  | updateAttributes => exact validateUpdateAttributes_yields consistent accepted
  | updateAccess => exact validateUpdateAccess_yields consistent accepted

theorem Effect.withLayout (effect : Effect snapshot header first deltas)
    (revisionLayout : ContentRef → Option ContentLayout) :
    Effect snapshot header first (deltas.map (WalDelta.withLayout revisionLayout)) := by
  cases effect with
  | createDirectory child parent nameKey displayName fresh placeable =>
    exact .createDirectory child parent nameKey displayName fresh placeable
  | createFile child parent nameKey displayName contentRef _ appendOffset fresh placeable =>
    exact .createFile child parent nameKey displayName contentRef _ appendOffset fresh
      placeable
  | revise node edge newest contentRef _ appendOffset isFile bound clear current =>
    exact .revise node edge newest contentRef _ appendOffset isFile bound clear current
  | move inode source parent nameKey displayName summary detached placeable carried =>
    exact .move inode source parent nameKey displayName summary detached placeable carried
  | remove inode source detached => exact .remove inode source detached
  | restore inode deletion parent nameKey displayName summary found deleted past placeable
        carried =>
      exact .restore inode deletion parent nameKey displayName summary found deleted past
        placeable carried
  | attributes node revisionNo attributes isPresent clear numbered =>
    exact .attributes node revisionNo attributes isPresent clear numbered
  | access node revisionNo boundary grants isPresent clear numbered =>
    exact .access node revisionNo boundary grants isPresent clear numbered

end LoonFs
