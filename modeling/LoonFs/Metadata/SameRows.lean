import LoonFs.Metadata.Replay

/-! # Lookups over the same rows -/

namespace LoonFs

open Foundation

namespace FamilyRows

structure SameRows (left right : FamilyRows) : Prop where
  inodes : left.inodes.Perm right.inodes
  direntryBinds : left.direntryBinds.Perm right.direntryBinds
  direntryChildBinds : left.direntryChildBinds.Perm right.direntryChildBinds
  revisions : left.revisions.Perm right.revisions
  tombstones : left.tombstones.Perm right.tombstones
  attributes : left.attributes.Perm right.attributes
  access : left.access.Perm right.access

structure Distinct (rows : FamilyRows) : Prop where
  inodes : KeysDistinct InodeRecord.inodeId rows.inodes
  direntryBinds : KeysDistinct DirentryBindingRecord.position rows.direntryBinds
  direntryChildBinds : KeysDistinct DirentryBindingRecord.position rows.direntryChildBinds
  revisions : KeysDistinct RevisionRecord.position rows.revisions
  tombstones : KeysDistinct SubtreeTombstoneRecord.position rows.tombstones
  attributes : KeysDistinct AttributesRevisionRecord.position rows.attributes
  access : KeysDistinct AccessRevisionRecord.position rows.access

variable {Row Key : Type} {key : Row → Key}

private theorem keysDistinct_of_comp {Part : Type} {part : Row → Part} {rows : List Row}
    (distinct : KeysDistinct part rows)
    (determines : ∀ left right, key left = key right → part left = part right) :
    KeysDistinct key rows :=
  fun left leftMem right rightMem eq =>
    distinct left leftMem right rightMem (determines left right eq)

private theorem newestOf_perm {Index : Type} [DecidableEq Index] [LinearOrder Key]
    {index : Row → Index} {left right : List Row} (distinct : KeysDistinct key right)
    (same : left.Perm right) : newestOf key index left = newestOf key index right := by
  funext slot
  exact maxByKey_congr (distinct.filter _) fun row => (same.filter _).mem_iff

variable {left right : FamilyRows}

theorem SameRows.inodeAtSeq (same : left.SameRows right) (distinct : right.Distinct)
    (seq : ChangeSeq) : left.inodeAtSeq seq = right.inodeAtSeq seq := by
  funext node
  cases found : right.inodeAtSeq seq node with
  | none =>
    rw [FamilyRows.inodeAtSeq, List.find?_eq_none] at found ⊢
    exact fun record mem => found record (same.inodes.mem_iff.mp mem)
  | some record =>
    rcases mem_of_inode found with ⟨isRow, sameId, visible⟩
    cases other : left.inodeAtSeq seq node with
    | none =>
      rw [FamilyRows.inodeAtSeq, List.find?_eq_none] at other
      have hidden := other record (same.inodes.mem_iff.mpr isRow)
      simp [sameId, visible] at hidden
    | some otherRecord =>
      rcases mem_of_inode other with ⟨otherRow, otherId, _⟩
      rw [distinct.inodes otherRecord (same.inodes.mem_iff.mp otherRow) record isRow
        (otherId.trans sameId.symm)]

theorem SameRows.snapshotAt (same : left.SameRows right) (distinct : right.Distinct)
    (seq : ChangeSeq) : left.snapshotAt seq = right.snapshotAt seq := by
  apply Snapshot.ext
  case inode => exact same.inodeAtSeq distinct seq
  case slot =>
    rw [snapshotAt_slot, snapshotAt_slot]
    exact newestOf_perm (distinct.direntryBinds.filter _) (same.direntryBinds.filter _)
  case slotEvent =>
    exact newestOf_perm ((distinct.direntryBinds.filter _).filter _)
      ((same.direntryBinds.filter _).filter _)
  case edge => exact newestOf_perm (distinct.direntryBinds.filter _) (same.direntryBinds.filter _)
  case child =>
    rw [snapshotAt_child, snapshotAt_child]
    exact newestOf_perm ((distinct.direntryChildBinds.filter _).filter _)
      ((same.direntryChildBinds.filter _).filter _)
  case tombstone =>
    rw [snapshotAt_tombstone, snapshotAt_tombstone]
    exact newestOf_perm (distinct.tombstones.filter _) (same.tombstones.filter _)
  case revision =>
    rw [snapshotAt_revision, snapshotAt_revision]
    refine newestOf_perm (keysDistinct_of_comp (distinct.revisions.filter _) ?_)
      (same.revisions.filter _)
    exact fun _ _ eq => congrArg (fun key => (ofLex key).2) eq
  case attributes =>
    rw [snapshotAt_attributes, snapshotAt_attributes]
    refine newestOf_perm (keysDistinct_of_comp (distinct.attributes.filter _) ?_)
      (same.attributes.filter _)
    exact fun _ _ eq => congrArg (fun key => (ofLex key).2) eq
  case access =>
    rw [snapshotAt_access, snapshotAt_access]
    refine newestOf_perm (keysDistinct_of_comp (distinct.access.filter _) ?_)
      (same.access.filter _)
    exact fun _ _ eq => congrArg (fun key => (ofLex key).2) eq

end FamilyRows

theorem MetadataState.Ordered.distinct {state : MetadataState} {bound : DeltaPosition}
    (ordered : state.Ordered bound) : state.familyRows.Distinct where
  inodes := ordered.inodes_distinct
  direntryBinds := ordered.binds.keysDistinct
  direntryChildBinds := ordered.binds.keysDistinct.filter _
  revisions := ordered.revisions.keysDistinct
  tombstones := ordered.tombstones.keysDistinct
  attributes := ordered.attributes.keysDistinct
  access := ordered.access.keysDistinct

end LoonFs
