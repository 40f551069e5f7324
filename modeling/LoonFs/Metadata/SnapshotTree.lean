import LoonFs.Foundation.DirectoryTree
import LoonFs.Metadata.Replay

/-! # Snapshots as directory trees -/

namespace LoonFs

open Foundation DirectoryTree Function

theorem DirentryBindingRecord.isBindingEvent_of_unbound {record : DirentryBindingRecord}
    (unbound : record.isBound = false) : record.isBindingEvent = true := by
  simp [isBindingEvent, unbound]

namespace Snapshot

variable (snapshot : Snapshot)

def putInode (record : InodeRecord) : Snapshot :=
  { snapshot with inode := Function.update snapshot.inode record.inodeId (some record) }

def putBinding (record : DirentryBindingRecord) : Snapshot :=
  { snapshot with
    slot := Function.update snapshot.slot record.slot (some record)
    slotEvent :=
      if record.isBindingEvent then
        Function.update snapshot.slotEvent record.slot (some record)
      else snapshot.slotEvent
    edge := Function.update snapshot.edge record.edge (some record)
    child :=
      if record.isBindingEvent ∧ record.childInodeId ≠ rootInodeId then
        Function.update snapshot.child record.childInodeId (some record)
      else snapshot.child }

def putTombstone (record : SubtreeTombstoneRecord) : Snapshot :=
  { snapshot with
    tombstone := Function.update snapshot.tombstone record.rootInodeId (some record) }

def putRevision (record : RevisionRecord) : Snapshot :=
  { snapshot with
    revision := Function.update snapshot.revision record.inodeId (some record) }

theorem addRows_inode (record : InodeRecord) :
    snapshot.addRows { inodes := [record] } = snapshot.putInode record := rfl

theorem addRows_tombstone (record : SubtreeTombstoneRecord) :
    snapshot.addRows { subtreeTombstones := [record] } = snapshot.putTombstone record := rfl

theorem addRows_binding (record : DirentryBindingRecord) :
    snapshot.addRows { direntryBinds := [record] } = snapshot.putBinding record := by
  simp only [addRows, putBinding, putAll_singleton, putAll_nil, List.filter_cons, List.filter_nil]
  by_cases event : record.isBindingEvent = true <;>
    by_cases notRoot : record.childInodeId = rootInodeId <;> simp [event, notRoot]

theorem addRows_revision (layouts : List ContentLayoutRecord) (revision : RevisionRecord)
    (summary : DirentryBindingRecord) : snapshot.addRows
        { contentLayouts := layouts, revisions := [revision], direntryBinds := [summary] } =
      (snapshot.putRevision revision).putBinding summary :=
  (snapshot.putRevision revision).addRows_binding summary

theorem occupant_putBinding (record : DirentryBindingRecord) :
    (snapshot.putBinding record).occupant = Function.update snapshot.occupant record.slot
        (if record.isBound then some record else none) := by
  funext slot
  by_cases same : slot = record.slot
  · subst same
    simp [occupant, putBinding, Option.filter_some]
  · simp [occupant, putBinding, same]

variable {record : DirentryBindingRecord}

theorem slotEvent_putBinding (event : record.isBindingEvent = true) :
    (snapshot.putBinding record).slotEvent =
      Function.update snapshot.slotEvent record.slot (some record) := by
  simp [putBinding, event]

theorem binding_putBinding (event : record.isBindingEvent = true)
    (notRoot : record.childInodeId ≠ rootInodeId) :
    (snapshot.putBinding record).binding = Function.update snapshot.binding record.childInodeId
        (if record.isBound then some record else none) := by
  funext node
  by_cases same : node = record.childInodeId
  · subst same
    simp [binding, putBinding, event, notRoot, Option.filter_some]
  · simp [binding, putBinding, event, notRoot, same]

theorem binding_putBinding_summary (summary : record.isBindingEvent = false) :
    (snapshot.putBinding record).binding = snapshot.binding := by
  funext node
  simp [binding, putBinding, summary]

theorem deletion_putTombstone (record : SubtreeTombstoneRecord) :
    (snapshot.putTombstone record).deletion = Function.update snapshot.deletion record.rootInodeId
        (if record.action.hidesSubtree then some record else none) := by
  funext node
  by_cases same : node = record.rootInodeId
  · subst same
    simp [deletion, putTombstone, Option.filter_some]
  · simp [deletion, putTombstone, same]

def tree : DirectoryTree InodeId NameKey ChangeSeq where
  present inodeId := snapshot.inode inodeId ≠ none
  directory inodeId := ∃ inode, snapshot.inode inodeId = some inode ∧ inode.inodeKind = .directory
  place inodeId := (snapshot.binding inodeId).map DirentryBindingRecord.slot
  occupant slot := (snapshot.occupant slot).map DirentryBindingRecord.childInodeId
  deletion inodeId := (snapshot.deletion inodeId).map SubtreeTombstoneRecord.committedSeq

@[simp] theorem tree_parent : snapshot.tree.parent = snapshot.parent := by
  funext node
  simp [DirectoryTree.parent, tree, parent, comp_def, DirentryBindingRecord.slot]

@[simp] theorem tree_covered : snapshot.tree.Covered = snapshot.Covered := by
  funext node
  rw [DirectoryTree.Covered, tree_parent]
  simp [Covered, tree]

variable {snapshot}

theorem tree_putInode {record : InodeRecord} (fresh : ¬snapshot.tree.present record.inodeId)
    (unplaced : snapshot.tree.place record.inodeId = none)
    (kept : snapshot.tree.deletion record.inodeId = none) : (snapshot.putInode record).tree =
      snapshot.tree.relocate record.inodeId none none (record.inodeKind = .directory) := by
  have absent : snapshot.inode record.inodeId = none := not_not.mp fresh
  apply DirectoryTree.ext
  case present =>
    funext other
    by_cases same : other = record.inodeId <;> simp [tree, putInode, relocate, same]
  case directory =>
    funext other
    by_cases same : other = record.inodeId
    · subst same
      simp [tree, putInode, relocate, absent]
    · simp [tree, putInode, relocate, same]
  case place => exact (update_eq_self_iff.mpr unplaced.symm).symm
  case occupant =>
    funext slot
    simp only [relocate, unplaced, reduceCtorEq, if_false]
    rfl
  case deletion => exact (update_eq_self_iff.mpr kept.symm).symm

theorem tree_putBinding (event : record.isBindingEvent = true)
    (notRoot : record.childInodeId ≠ rootInodeId)
    (isPresent : snapshot.tree.present record.childInodeId)
    (placed : snapshot.tree.place record.childInodeId =
      if record.isBound then none else some record.slot)
    (kept : snapshot.tree.deletion record.childInodeId = none) :
    (snapshot.putBinding record).tree = snapshot.tree.relocate record.childInodeId
      (if record.isBound then some record.slot else none) none False := by
  apply DirectoryTree.ext
  case present => exact (relocate_present isPresent).symm
  case directory => rw [relocate_directory]; rfl
  case place =>
    funext other
    simp only [tree, snapshot.binding_putBinding event notRoot]
    cases bound : record.isBound <;> by_cases same : other = record.childInodeId <;>
      simp [relocate, same]
  case occupant =>
    funext slot
    simp only [relocate, placed]
    cases bound : record.isBound <;> by_cases same : slot = record.slot <;>
      simp [tree, occupant_putBinding, bound, same, Ne.symm]
  case deletion => exact (update_eq_self_iff.mpr kept.symm).symm

theorem tree_putTombstone {record : SubtreeTombstoneRecord}
    (isPresent : snapshot.tree.present record.rootInodeId)
    (unplaced : snapshot.tree.place record.rootInodeId = none) :
    (snapshot.putTombstone record).tree = snapshot.tree.relocate record.rootInodeId none
        (if record.action.hidesSubtree then some record.committedSeq else none) False := by
  apply DirectoryTree.ext
  case present => exact (relocate_present isPresent).symm
  case directory => rw [relocate_directory]; rfl
  case place => exact (update_eq_self_iff.mpr unplaced.symm).symm
  case occupant =>
    funext slot
    simp only [relocate, unplaced, reduceCtorEq, if_false]
    rfl
  case deletion =>
    funext other
    simp only [tree, deletion_putTombstone, relocate]
    by_cases same : other = record.rootInodeId
    · subst same
      by_cases hides : record.action.hidesSubtree = true <;> simp [hides]
    · simp [same]

end Snapshot

end LoonFs
