import LoonFs.Metadata.SnapshotTree

/-! # Consistent snapshots -/

namespace LoonFs

open Foundation

/-- The fields of a revision that its file's edge repeats. -/
def RevisionRecord.summary (record : RevisionRecord) : RevisionSummary where
  revisionNo := record.revisionNo
  sizeBytes := record.contentRef.sizeBytes
  revisionCommittedBy := record.committedBy
  revisionCommittedAtMs := record.committedAtMs

theorem DirentryBindingRecord.edge_eq_iff {left right : DirentryBindingRecord} :
    left.edge = right.edge ↔ left.slot = right.slot ∧ left.childInodeId = right.childInodeId := by
  simp [edge, slot, and_assoc]

namespace Snapshot

variable (snapshot : Snapshot)

def SummaryOf (inode : InodeRecord) (summary : Option RevisionSummary) : Prop :=
  (inode.inodeKind = .directory ∧ summary = none) ∨
  (inode.inodeKind = .file ∧ ∃ revision,
    snapshot.revision inode.inodeId = some revision ∧ summary = some revision.summary)

structure Copies (row : DirentryBindingRecord) : Prop where
  event : ∃ event, snapshot.binding row.childInodeId = some event ∧
    event.slot = row.slot ∧ event.displayName = row.displayName ∧
    event.position = row.bindPosition
  inode : ∃ inode, snapshot.inode row.childInodeId = some inode ∧
    row.childKind = inode.inodeKind ∧ row.childCreatedBy = inode.committedBy ∧
    row.childCreatedAtMs = inode.committedAtMs ∧ snapshot.SummaryOf inode row.revision

/-- The rows of the snapshot agree with each other, after every single row. -/
structure Coherent : Prop where
  inode_id : ∀ inodeId inode, snapshot.inode inodeId = some inode → inode.inodeId = inodeId
  /-- A current binding event is a bind at its own position, and copies the
  child's inode row. -/
  binding_event : ∀ inodeId event, snapshot.binding inodeId = some event →
    event.childInodeId = inodeId ∧ event.position = event.bindPosition ∧
    ∃ inode, snapshot.inode inodeId = some inode ∧
      event.childCreatedBy = inode.committedBy ∧
      event.childCreatedAtMs = inode.committedAtMs
  occupant_slot : ∀ slot row, snapshot.occupant slot = some row → row.slot = slot
  copies : ∀ slot row, snapshot.occupant slot = some row → snapshot.Copies row
  slot_event : ∀ slot, (snapshot.slotEvent slot).filter DirentryBindingRecord.isBound =
    (snapshot.occupant slot).bind fun row => snapshot.binding row.childInodeId
  edge_key : ∀ edge row, snapshot.edge edge = some row → row.edge = edge
  /-- The bound edges are the edges of the slots' bound values. -/
  edge_bound : ∀ edge row, snapshot.edge edge = some row → row.isBound = true →
    snapshot.occupant row.slot = some row
  occupant_edge : ∀ slot row, snapshot.occupant slot = some row →
    snapshot.edge row.edge = some row
  revision_file : ∀ inodeId revision, snapshot.revision inodeId = some revision →
    ∃ inode, snapshot.inode inodeId = some inode ∧ inode.inodeKind = .file

structure Consistent : Prop extends Coherent snapshot where
  tree : snapshot.tree.WellFormed rootInodeId
  file_revision : ∀ inodeId inode, snapshot.inode inodeId = some inode →
    inode.inodeKind = .file → snapshot.revision inodeId ≠ none

theorem SummaryOf.putRevision {snapshot : Snapshot} {inode : InodeRecord}
    {revision : RevisionRecord} (carried : snapshot.SummaryOf inode summary)
    (other : inode.inodeId ≠ revision.inodeId) :
    (snapshot.putRevision revision).SummaryOf inode summary := by
  rcases carried with directory | ⟨isFile, newest, current, eq⟩
  · exact .inl directory
  · exact .inr ⟨isFile, newest, by simpa [Snapshot.putRevision, other] using current, eq⟩

theorem update_eq_some {Key Value : Type} [DecidableEq Key] {table : Key → Option Value}
    {key found : Key} {value row : Value}
    (holds : Function.update table key (some value) found = some row) :
    found = key ∧ value = row ∨ found ≠ key ∧ table found = some row := by
  by_cases same : found = key
  · subst same
    exact .inl ⟨rfl, by simpa using holds⟩
  · exact .inr ⟨same, by rwa [Function.update_of_ne same] at holds⟩

theorem update_ite_eq_some {Key Value : Type} [DecidableEq Key] {table : Key → Option Value}
    {key found : Key} {value row : Value} {shown : Bool}
    (holds : Function.update table key (if shown then some value else none) found = some row) :
    found = key ∧ shown = true ∧ value = row ∨ found ≠ key ∧ table found = some row := by
  by_cases same : found = key
  · subst same
    exact .inl ⟨rfl, by simpa using holds⟩
  · exact .inr ⟨same, by rwa [Function.update_of_ne same] at holds⟩

namespace Coherent

variable {snapshot} (coherent : snapshot.Coherent)

include coherent

theorem occupant_injective (leftOccupies : snapshot.occupant left = some leftRow)
    (rightOccupies : snapshot.occupant right = some rightRow)
    (sameChild : leftRow.childInodeId = rightRow.childInodeId) : left = right := by
  rcases (coherent.copies _ _ leftOccupies).event with ⟨event, bound, leftSlot, _⟩
  rcases (coherent.copies _ _ rightOccupies).event with ⟨other, otherBound, rightSlot, _⟩
  rw [sameChild, otherBound] at bound
  cases bound
  rw [← coherent.occupant_slot _ _ leftOccupies, ← coherent.occupant_slot _ _ rightOccupies,
    ← leftSlot, rightSlot]

theorem putInode {record : InodeRecord} (fresh : snapshot.inode record.inodeId = none) :
    (snapshot.putInode record).Coherent := by
  -- The new row is found only at its own ID, which no other row names.
  have kept : ∀ node inode, snapshot.inode node = some inode →
      (snapshot.putInode record).inode node = some inode := by
    intro node inode found
    have ne : node ≠ record.inodeId := by
      rintro rfl
      rw [fresh] at found
      cases found
    simpa [Snapshot.putInode, ne] using found
  constructor
  case inode_id =>
    intro node inode found
    rcases update_eq_some found with ⟨rfl, rfl⟩ | ⟨_, found⟩
    · rfl
    · exact coherent.inode_id node inode found
  case binding_event =>
    intro node event bound
    rcases coherent.binding_event node event bound with ⟨child, position, inode, found, copied⟩
    exact ⟨child, position, inode, kept _ _ found, copied⟩
  case copies =>
    intro slot row occupies
    rcases coherent.copies slot row occupies with ⟨event, inode, found, copied⟩
    exact ⟨event, inode, kept _ _ found, copied⟩
  case revision_file =>
    intro node revision current
    rcases coherent.revision_file node revision current with ⟨inode, found, isFile⟩
    exact ⟨inode, kept _ _ found, isFile⟩
  case occupant_slot => exact coherent.occupant_slot
  case slot_event => exact coherent.slot_event
  case edge_key => exact coherent.edge_key
  case edge_bound => exact coherent.edge_bound
  case occupant_edge => exact coherent.occupant_edge

theorem putBinding_edge_key (record : DirentryBindingRecord) :
    ∀ edge row, (snapshot.putBinding record).edge edge = some row → row.edge = edge := by
  intro edge row newest
  rcases update_eq_some newest with ⟨rfl, rfl⟩ | ⟨_, newest⟩
  · rfl
  · exact coherent.edge_key edge row newest

variable {record : DirentryBindingRecord}

theorem putBinding_occupant_slot :
    ∀ slot row, (snapshot.putBinding record).occupant slot = some row → row.slot = slot := by
  intro slot row occupies
  rw [occupant_putBinding] at occupies
  rcases update_ite_eq_some occupies with ⟨rfl, _, rfl⟩ | ⟨_, occupies⟩
  · rfl
  · exact coherent.occupant_slot slot row occupies

theorem putBinding_occupant_edge :
    ∀ slot row, (snapshot.putBinding record).occupant slot = some row →
      (snapshot.putBinding record).edge row.edge = some row := by
  intro slot row occupies
  rw [occupant_putBinding] at occupies
  rcases update_ite_eq_some occupies with ⟨rfl, _, rfl⟩ | ⟨otherSlot, occupies⟩
  · simp [putBinding]
  · have otherEdge : row.edge ≠ record.edge := by
      rw [Ne, DirentryBindingRecord.edge_eq_iff, coherent.occupant_slot _ _ occupies]
      exact fun same => otherSlot same.1
    simpa [putBinding, otherEdge] using coherent.occupant_edge slot row occupies

theorem putBinding_edge_bound
    (otherSlot : ∀ edge row, edge ≠ record.edge → snapshot.edge edge = some row →
      snapshot.occupant row.slot = some row → row.slot ≠ record.slot) :
    ∀ edge row, (snapshot.putBinding record).edge edge = some row → row.isBound = true →
      (snapshot.putBinding record).occupant row.slot = some row := by
  intro edge row newest isBound
  rw [occupant_putBinding]
  rcases update_eq_some newest with ⟨rfl, rfl⟩ | ⟨other, newest⟩
  · rw [Function.update_self, if_pos isBound]
  · have occupies := coherent.edge_bound edge row newest isBound
    rw [Function.update_of_ne (otherSlot edge row other newest occupies), occupies]

variable {existing : DirentryBindingRecord}

theorem otherSlot_of_occupant (occupies : snapshot.occupant record.slot = some existing)
    (sameChild : existing.childInodeId = record.childInodeId) (edge : DirectoryEdge)
    (row : DirentryBindingRecord) (other : edge ≠ record.edge)
    (newest : snapshot.edge edge = some row) (occupiesToo : snapshot.occupant row.slot = some row) :
    row.slot ≠ record.slot := by
  intro sameSlot
  rw [sameSlot, occupies] at occupiesToo
  cases occupiesToo
  exact other ((coherent.edge_key edge _ newest).symm.trans
    (DirentryBindingRecord.edge_eq_iff.mpr ⟨sameSlot, sameChild⟩))

/-- The slot and the child of the row lose what they had, and get the row if it is bound. -/
private theorem putEvent (event : record.isBindingEvent = true)
    (notRoot : record.childInodeId ≠ rootInodeId)
    (apart : ∀ {slot row}, slot ≠ record.slot → snapshot.occupant slot = some row →
      row.childInodeId ≠ record.childInodeId)
    (otherSlot : ∀ edge row, edge ≠ record.edge → snapshot.edge edge = some row →
      snapshot.occupant row.slot = some row → row.slot ≠ record.slot)
    (position : record.isBound = true → record.position = record.bindPosition)
    (copied : record.isBound = true → ∃ inode, snapshot.inode record.childInodeId = some inode ∧
      record.childKind = inode.inodeKind ∧ record.childCreatedBy = inode.committedBy ∧
      record.childCreatedAtMs = inode.committedAtMs ∧ snapshot.SummaryOf inode record.revision) :
    (snapshot.putBinding record).Coherent := by
  have slots := snapshot.occupant_putBinding record
  have bindings := snapshot.binding_putBinding event notRoot
  constructor
  case inode_id => exact coherent.inode_id
  case binding_event =>
    intro node current boundNow
    rw [bindings] at boundNow
    rcases update_ite_eq_some boundNow with ⟨rfl, bound, rfl⟩ | ⟨_, boundNow⟩
    · rcases copied bound with ⟨inode, found, _, createdBy, createdAt, _⟩
      exact ⟨rfl, position bound, inode, found, createdBy, createdAt⟩
    · exact coherent.binding_event node current boundNow
  case occupant_slot => exact coherent.putBinding_occupant_slot
  case copies =>
    intro slot row occupies
    rw [slots] at occupies
    rcases update_ite_eq_some occupies with ⟨rfl, bound, rfl⟩ | ⟨same, occupies⟩
    · exact ⟨⟨record, by simp [bindings, bound], rfl, rfl, position bound⟩, copied bound⟩
    · rcases coherent.copies slot row occupies with ⟨⟨current, bound, copies⟩, inode⟩
      exact ⟨⟨current, by rw [bindings, Function.update_of_ne (apart same occupies), bound],
        copies⟩, inode⟩
  case slot_event =>
    intro slot
    rw [snapshot.slotEvent_putBinding event, slots, bindings]
    by_cases same : slot = record.slot
    · cases bound : record.isBound <;> simp [same, bound, Option.filter_some]
    · rw [Function.update_of_ne same, Function.update_of_ne same, coherent.slot_event]
      cases occupies : snapshot.occupant slot with
      | none => rfl
      | some row => simp [apart same occupies]
  case edge_key => exact coherent.putBinding_edge_key record
  case edge_bound => exact coherent.putBinding_edge_bound otherSlot
  case occupant_edge => exact coherent.putBinding_occupant_edge
  case revision_file => exact coherent.revision_file

theorem unbind (unbound : record.isBound = false) (notRoot : record.childInodeId ≠ rootInodeId)
    (occupies : snapshot.occupant record.slot = some existing)
    (sameChild : existing.childInodeId = record.childInodeId) :
    (snapshot.putBinding record).Coherent := by
  refine coherent.putEvent (DirentryBindingRecord.isBindingEvent_of_unbound unbound) notRoot ?_
    (coherent.otherSlot_of_occupant occupies sameChild) (by simp [unbound]) (by simp [unbound])
  intro slot row otherSlot occupiedBefore same
  exact otherSlot (coherent.occupant_injective occupiedBefore occupies
    (same.trans sameChild.symm))

variable {inode : InodeRecord}

theorem bind (position : record.position = record.bindPosition)
    (notRoot : record.childInodeId ≠ rootInodeId) (free : snapshot.occupant record.slot = none)
    (single : snapshot.binding record.childInodeId = none)
    (found : snapshot.inode record.childInodeId = some inode)
    (kind : record.childKind = inode.inodeKind)
    (createdBy : record.childCreatedBy = inode.committedBy)
    (createdAt : record.childCreatedAtMs = inode.committedAtMs)
    (carried : snapshot.SummaryOf inode record.revision) :
    (snapshot.putBinding record).Coherent := by
  refine coherent.putEvent (by simp [DirentryBindingRecord.isBindingEvent, position]) notRoot
    ?_ ?_ (fun _ => position) fun _ => ⟨inode, found, kind, createdBy, createdAt, carried⟩
  · intro slot row _ occupies sameChild
    rcases (coherent.copies slot row occupies).event with ⟨current, bound, _⟩
    rw [sameChild, single] at bound
    cases bound
  · intro edge row _ _ occupies sameSlot
    rw [sameSlot, free] at occupies
    cases occupies

theorem withOthers (tombstone : InodeId → Option SubtreeTombstoneRecord)
    (attributes : InodeId → Option AttributesRevisionRecord)
    (access : InodeId → Option AccessRevisionRecord) :
    ({ snapshot with tombstone, attributes, access } : Snapshot).Coherent :=
  { coherent with copies := fun slot row occupies =>
      have copies := coherent.copies slot row occupies
      ⟨copies.event, copies.inode⟩ }

variable {revision : RevisionRecord}

private theorem putRevision_revision_file
    (found : snapshot.inode revision.inodeId = some inode) (isFile : inode.inodeKind = .file) :
    ∀ node current, (snapshot.putRevision revision).revision node = some current →
      ∃ inode, snapshot.inode node = some inode ∧ inode.inodeKind = .file := by
  intro node current newest
  by_cases same : node = revision.inodeId
  · exact ⟨inode, same ▸ found, isFile⟩
  · exact coherent.revision_file node current (by simpa [putRevision, same] using newest)

theorem putRevision (found : snapshot.inode revision.inodeId = some inode)
    (isFile : inode.inodeKind = .file) (unbound : snapshot.binding revision.inodeId = none) :
    (snapshot.putRevision revision).Coherent := by
  refine { coherent with copies := ?_, revision_file := ?_ }
  · intro slot row occupies
    rcases coherent.copies slot row occupies with
      ⟨⟨event, bound, copied⟩, other, otherFound, kind, createdBy, createdAt, carried⟩
    refine ⟨⟨event, bound, copied⟩, other, otherFound, kind, createdBy, createdAt,
      SummaryOf.putRevision carried ?_⟩
    rw [coherent.inode_id _ _ otherFound]
    intro same
    rw [same, unbound] at bound
    cases bound
  · exact coherent.putRevision_revision_file found isFile

theorem revise (found : snapshot.inode revision.inodeId = some inode)
    (isFile : inode.inodeKind = .file) (occupies : snapshot.occupant record.slot = some existing)
    (child : record.childInodeId = revision.inodeId)
    (sameChild : existing.childInodeId = record.childInodeId) (bound : record.isBound = true)
    (summary : record.isBindingEvent = false) (name : record.displayName = existing.displayName)
    (position : record.bindPosition = existing.bindPosition) (kind : record.childKind = .file)
    (createdBy : record.childCreatedBy = inode.committedBy)
    (createdAt : record.childCreatedAtMs = inode.committedAtMs)
    (carried : record.revision = some revision.summary) :
    ((snapshot.putRevision revision).putBinding record).Coherent := by
  have slots : ((snapshot.putRevision revision).putBinding record).occupant =
      Function.update snapshot.occupant record.slot (some record) := by
    rw [occupant_putBinding, bound, if_pos rfl]
    rfl
  have bindings : ((snapshot.putRevision revision).putBinding record).binding =
      snapshot.binding := binding_putBinding_summary _ summary
  have revisionId := coherent.inode_id _ _ found
  constructor
  case inode_id => exact coherent.inode_id
  case binding_event =>
    intro node current boundNow
    rw [bindings] at boundNow
    exact coherent.binding_event node current boundNow
  case occupant_slot => exact coherent.putBinding_occupant_slot
  case copies =>
    intro slot row occupiesNow
    rw [slots] at occupiesNow
    rcases update_eq_some occupiesNow with ⟨rfl, rfl⟩ | ⟨same, occupiesNow⟩
    · rcases (coherent.copies _ _ occupies).event with
        ⟨event, boundBefore, eventSlot, eventName, eventPosition⟩
      refine ⟨⟨event, ?_, ?_, by rw [eventName, name], by rw [eventPosition, position]⟩,
        inode, child ▸ found, kind.trans isFile.symm, createdBy, createdAt, ?_⟩
      · rw [bindings, ← sameChild]
        exact boundBefore
      · rw [eventSlot, coherent.occupant_slot _ _ occupies]
      · refine .inr ⟨isFile, revision, ?_, carried⟩
        rw [revisionId]
        simp [putBinding, Snapshot.putRevision]
    · rcases coherent.copies slot row occupiesNow with
        ⟨⟨event, boundBefore, copied⟩, other, otherFound, otherKind, otherBy, otherAt, otherCarried⟩
      refine ⟨⟨event, by rw [bindings]; exact boundBefore, copied⟩, other, otherFound,
        otherKind, otherBy, otherAt, SummaryOf.putRevision otherCarried ?_⟩
      rw [coherent.inode_id _ _ otherFound, ← child, ← sameChild]
      exact fun sameInode => same (coherent.occupant_injective occupiesNow occupies sameInode)
  case slot_event =>
    intro slot
    have events : ((snapshot.putRevision revision).putBinding record).slotEvent =
        snapshot.slotEvent := by
      simp [putBinding, summary, Snapshot.putRevision]
    rw [events, coherent.slot_event, slots, bindings]
    by_cases same : slot = record.slot
    · simp [same, occupies, sameChild]
    · simp [same]
  case edge_key => exact coherent.putBinding_edge_key record
  case edge_bound =>
    exact coherent.putBinding_edge_bound (coherent.otherSlot_of_occupant occupies sameChild)
  case occupant_edge => exact coherent.putBinding_occupant_edge
  case revision_file => exact coherent.putRevision_revision_file found isFile

end Coherent

end Snapshot

namespace Snapshot.Consistent

variable {rows : FamilyRows} (consistent : (rows.snapshotAt seq).Consistent)

include consistent

theorem walkable (floor : ChangeSeq) : (rows.readsAt seq floor).Walkable := by
  apply FamilyRows.readsAt_walkable
  change Acyclic (rows.snapshotAt seq).parent
  rw [← Snapshot.tree_parent]
  exact consistent.tree.acyclic

theorem visibleBinding_of_occupant (floor : ChangeSeq)
    (occupies : (rows.snapshotAt seq).occupant (parentInodeId, nameKey) = some row)
    (clear : ¬(rows.snapshotAt seq).Covered parentInodeId) :
    (rows.readsAt seq floor).VisibleBinding parentInodeId nameKey row := by
  have occupant : (rows.snapshotAt seq).tree.occupant (parentInodeId, nameKey) =
      some row.childInodeId := Option.map_eq_some_iff.mpr ⟨row, occupies, rfl⟩
  have place := (consistent.tree.occupant_iff _ _).mp occupant
  refine ⟨⟨consistent.tree.place_directory _ _ place, clear⟩, occupies,
    consistent.tree.place_present _ _ place, ?_⟩
  change ¬(rows.snapshotAt seq).Covered row.childInodeId
  rw [← Snapshot.tree_covered] at clear ⊢
  exact consistent.tree.occupant_not_covered occupant clear

theorem covered_of_occupant {slot : InodeId × NameKey}
    (occupies : (rows.snapshotAt seq).occupant slot = some row)
    (covered : (rows.snapshotAt seq).Covered slot.1) :
    (rows.snapshotAt seq).Covered row.childInodeId := by
  rcases (consistent.copies _ _ occupies).event with ⟨event, bound, sameSlot, _⟩
  have parent : (rows.snapshotAt seq).parent row.childInodeId = some slot.1 := by
    rw [Snapshot.parent, bound, ← consistent.occupant_slot _ _ occupies, ← sameSlot]
    rfl
  rcases covered with ⟨ancestor, below, deleted⟩
  exact ⟨ancestor, .head parent below, deleted⟩

end Snapshot.Consistent

end LoonFs
