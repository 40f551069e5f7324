import LoonFs.Metadata.Consistency

/-! # What a directory page lists -/

namespace LoonFs

open Foundation MetadataVisibilityReads List DirentryBindingRecord

namespace DirentryBindingRecord

theorem slotEdgeKey_eq_iff {left right : DirentryBindingRecord} :
    left.slotEdgeKey = right.slotEdgeKey ↔ left.edge = right.edge := by
  simp [slotEdgeKey, edge]

end DirentryBindingRecord

namespace FamilyRows

variable {rows : FamilyRows} {seq floor : ChangeSeq} {parentInodeId : InodeId}
  {startAfter : Option NameKey}

structure Listed (rows : FamilyRows) (seq : ChangeSeq) (parentInodeId : InodeId)
    (startAfter : Option NameKey) (row : DirentryBindingRecord) : Prop where
  parent : row.parentInodeId = parentInodeId
  after : startAfter.all (fun nameKey => nameKey < row.nameKey) = true
  newest : (rows.snapshotAt seq).edge row.edge = some row
  bound : row.isBound = true
  clear : ¬(rows.snapshotAt seq).Covered row.childInodeId

def unreadRows (rows : FamilyRows) (parentInodeId : InodeId) (startAfter : Option NameKey) :
    List DirentryBindingRecord :=
  (rows.directoryRows parentInodeId).filter fun record =>
    startAfter.all fun nameKey => nameKey < record.nameKey

theorem unreadRows_sorted (distinct : (rows.direntryBinds.map (·.position)).Nodup) :
    GroupSorted (·.slotEdgeKey) (·.position) (rows.unreadRows parentInodeId startAfter) := by
  have kept : ((rows.direntryBinds.filter fun record =>
      record.parentInodeId = parentInodeId).map (·.position)).Nodup :=
    distinct.sublist (filter_sublist.map _)
  exact (inKeyOrder_sorted kept).sublist filter_sublist

theorem mem_edgeValues (distinct : (rows.direntryBinds.map (·.position)).Nodup)
    (row : DirentryBindingRecord) :
    row ∈ edgeValues seq (rows.unreadRows parentInodeId startAfter) ↔
      row.parentInodeId = parentInodeId ∧
      startAfter.all (fun nameKey => nameKey < row.nameKey) = true ∧
      (rows.snapshotAt seq).edge row.edge = some row := by
  have keys : KeysDistinct (·.position) rows.direntryBinds :=
    fun left leftMem right rightMem => inj_on_of_nodup_map distinct leftMem rightMem
  have unread : ∀ record, record ∈ rows.unreadRows parentInodeId startAfter ↔
      record ∈ rows.direntryBinds ∧ record.parentInodeId = parentInodeId ∧
        startAfter.all (fun nameKey => nameKey < record.nameKey) = true := by
    intro record
    simp [unreadRows, directoryRows, and_assoc]
  rw [edgeValues, mem_firstSelected (unreadRows_sorted distinct) (by simp), snapshotAt_edge,
    newestOf_eq_some_iff (keys.filter _)]
  simp only [unread, mem_filter, decide_eq_true_eq, slotEdgeKey_eq_iff]
  constructor
  · intro ⟨⟨mem, sameParent, after⟩, visible, _, newest⟩
    refine ⟨sameParent, after, ⟨mem, visible⟩, trivial, ?_⟩
    intro other ⟨otherMem, otherVisible⟩ sameEdge
    have fields := edge_eq_iff.mp sameEdge
    have slot := Prod.ext_iff.mp fields.1
    refine newest other ⟨otherMem, slot.1.trans sameParent, ?_⟩ sameEdge otherVisible
    rw [show other.nameKey = row.nameKey from slot.2]
    exact after
  · intro ⟨sameParent, after, ⟨mem, visible⟩, _, newest⟩
    exact ⟨⟨mem, sameParent, after⟩, visible, by simp,
      fun other otherMem sameEdge otherVisible =>
        newest other ⟨otherMem.1, otherVisible⟩ sameEdge⟩

/-- Whether a listing shows the value of an edge. -/
def Shows (reads : MetadataVisibilityReads) (row : DirentryBindingRecord) : Prop :=
  row.isBound = true ∧ ¬reads.Covered row.childInodeId

open Classical in
theorem takeVisible_eq {reads : MetadataVisibilityReads} (walkable : reads.Walkable)
    (values : List DirentryBindingRecord) : ∀ limit, takeVisible reads limit values =
      .ok ((values.filter fun row => Shows reads row).take limit) := by
  induction values with
  | nil => intro limit; cases limit <;> simp [takeVisible]
  | cons row rest induction =>
    intro limit
    cases limit with
    | zero => simp [takeVisible]
    | succ limit =>
      rw [takeVisible]
      rcases visiblePageChild_cases walkable row with ⟨result, shown⟩ | ⟨result, hidden⟩
      · have shows : Shows reads row := shown
        rw [result, filter_cons, if_pos (decide_eq_true shows), take_succ_cons]
        simp [induction limit]
      · have skipped : ¬decide (Shows reads row) = true := by
          rw [decide_eq_true_eq]
          exact hidden
        rw [result, filter_cons, if_neg skipped]
        exact induction (limit + 1)

theorem exists_listing (startAfter : Option NameKey)
    (distinct : (rows.direntryBinds.map (·.position)).Nodup)
    (walkable : (rows.readsAt seq floor).Walkable)
    (visible : (rows.readsAt seq floor).VisibleDirectory parentInodeId) :
    ∃ listing : List DirentryBindingRecord,
      listing.Pairwise (fun left right => left.slotEdgeKey < right.slotEdgeKey) ∧
      (∀ row, row ∈ listing ↔ rows.Listed seq parentInodeId startAfter row) ∧
      ∀ limit, rows.visibleChildrenPageByNameKey seq floor parentInodeId startAfter limit =
        .ok (listing.take limit) := by
  classical
  rcases visible with ⟨⟨parent, found, isDirectory⟩, clear⟩
  let values := (edgeValues seq (rows.unreadRows parentInodeId startAfter)).filter
    (·.isBound)
  refine ⟨values.filter fun row => Shows (rows.readsAt seq floor) row, ?_, ?_, ?_⟩
  · have taken : (edgeValues seq (rows.unreadRows parentInodeId startAfter)).Pairwise
        fun left right => left.slotEdgeKey < right.slotEdgeKey :=
      firstSelected_pairwise (unreadRows_sorted distinct) (by simp)
    exact taken.sublist (filter_sublist.trans filter_sublist)
  · intro row
    simp only [values, mem_filter, mem_edgeValues distinct, decide_eq_true_eq]
    constructor
    · intro ⟨⟨⟨sameParent, after, newest⟩, bound⟩, _, uncovered⟩
      exact ⟨sameParent, after, newest, bound, uncovered⟩
    · intro listed
      exact ⟨⟨⟨listed.parent, listed.after, listed.newest⟩, listed.bound⟩, listed.bound,
        listed.clear⟩
  · intro limit
    rw [visibleChildrenPageByNameKey, (visibleInode_eq_some_iff walkable).mpr ⟨found, clear⟩]
    simp only [ok_bind, isDirectory, ne_eq, not_true_eq_false, if_false]
    exact takeVisible_eq walkable values limit

theorem page_of_hidden (walkable : (rows.readsAt seq floor).Walkable)
    (hidden : ¬(rows.readsAt seq floor).VisibleDirectory parentInodeId) (limit : Nat) :
    rows.visibleChildrenPageByNameKey seq floor parentInodeId startAfter limit = .ok [] := by
  rw [visibleChildrenPageByNameKey]
  rcases visibleInode_cases walkable parentInodeId with ⟨result, clear⟩ | ⟨result, _⟩
  · rw [result]
    cases found : (rows.readsAt seq floor).findInode parentInodeId with
    | none => rfl
    | some parent =>
      have notDirectory : parent.inodeKind ≠ .directory := fun isDirectory =>
        hidden ⟨⟨parent, found, isDirectory⟩, clear⟩
      simp only [ok_bind, if_pos notDirectory]
      rfl
  · rw [result]
    rfl

end FamilyRows

end LoonFs
