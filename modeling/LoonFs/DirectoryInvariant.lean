import LoonFs.Execution
import LoonFs.Reference.Mirror

/-! # The directory tree invariant

One directory tree at every sequence: the indexes agree on its edges, and parents lead to
the root without a cycle.
-/

namespace LoonFs

open Foundation DirentryBindingRecord MetadataVisibilityReads List Option Snapshot

namespace FamilyRows

variable (rows : FamilyRows) (seq : ChangeSeq)

def SlotIndexBinds (edge : DirectoryEdge) : Prop :=
  ∃ row, newestOf DirentryBindingRecord.position DirentryBindingRecord.edge
    (rows.direntryBinds.filter fun record => record.committedSeq ≤ seq) edge = some row ∧
      row.isBound = true

def ChildIndexBinds (edge : DirectoryEdge) : Prop :=
  ∃ row, newestOf DirentryBindingRecord.position DirentryBindingRecord.edge
    (rows.direntryChildBinds.filter fun record => record.committedSeq ≤ seq) edge = some row ∧
      row.isBound = true

structure TreeInvariant : Prop where
  /-- An inode has at most one current parent binding. -/
  one_parent : ∀ left right, rows.SlotIndexBinds seq left → rows.SlotIndexBinds seq right →
    left.childInodeId = right.childInodeId → left = right
  /-- A slot has at most one bound child. -/
  one_child : ∀ left right, rows.SlotIndexBinds seq left → rows.SlotIndexBinds seq right →
    left.parentInodeId = right.parentInodeId → left.nameKey = right.nameKey → left = right
  same_events : rows.direntryChildBinds.Perm
    (rows.direntryBinds.filter DirentryBindingRecord.isBindingEvent)
  indexes_agree : ∀ edge, rows.SlotIndexBinds seq edge ↔ rows.ChildIndexBinds seq edge
  /-- The lookups by slot and by child find exactly the current edges. -/
  slot_lookup : ∀ edge, rows.SlotIndexBinds seq edge ↔
    ∃ row, (rows.readsAt seq 0).activeChildBinding edge.parentInodeId edge.nameKey = some row ∧
      row.edge = edge
  child_lookup : ∀ edge, rows.SlotIndexBinds seq edge ↔
    ∃ row, (rows.readsAt seq 0).currentParentBindingForChild edge.childInodeId = some row ∧
      row.edge = edge
  never_revisits : ∀ inodeId, ∃ ancestry,
    Chain (rows.readsAt seq 0).parentOf inodeId ancestry ∧ ancestry.Nodup
  visible_reaches_root : ∀ inodeId inode,
    (rows.readsAt seq 0).visibleInode inodeId = .ok (some inode) →
    AtOrBelow (rows.readsAt seq 0).parentOf inodeId rootInodeId
  /-- What is bound under a visible directory exists and is visible. -/
  bound_visible : ∀ parentInodeId parent nameKey row,
    (rows.readsAt seq 0).visibleInode parentInodeId = .ok (some parent) →
    parent.inodeKind = .directory →
    (rows.readsAt seq 0).activeChildBinding parentInodeId nameKey = some row →
    ∃ child, (rows.readsAt seq 0).visibleInode row.childInodeId = .ok (some child)

end FamilyRows

namespace Snapshot.Consistent

variable {state : MetadataState} {edge : DirectoryEdge}

theorem slotIndexBinds_iff (consistent : (state.snapshotAt seq).Consistent) :
    state.familyRows.SlotIndexBinds seq edge ↔
      ∃ row, (state.snapshotAt seq).occupant (edge.parentInodeId, edge.nameKey) = some row ∧
        row.edge = edge := by
  constructor
  · rintro ⟨row, newest, bound⟩
    have sameEdge := consistent.edge_key edge row newest
    have occupies := consistent.edge_bound edge row newest bound
    have slot : row.slot = (edge.parentInodeId, edge.nameKey) := by
      rw [← sameEdge]
      rfl
    exact ⟨row, slot ▸ occupies, sameEdge⟩
  · rintro ⟨row, occupies, rfl⟩
    exact ⟨row, consistent.occupant_edge _ row occupies, (filter_eq_some_iff.mp occupies).2⟩

theorem binding_iff (consistent : (state.snapshotAt seq).Consistent) :
    (∃ row, (state.snapshotAt seq).occupant (edge.parentInodeId, edge.nameKey) = some row ∧
        row.edge = edge) ↔ ∃ event, (state.snapshotAt seq).binding edge.childInodeId = some event ∧
        event.edge = edge := by
  constructor
  · rintro ⟨row, occupies, rfl⟩
    rcases (consistent.copies _ row occupies).event with ⟨event, bound, slot, _⟩
    exact ⟨event, bound, edge_eq_iff.mpr ⟨slot, (consistent.binding_event _ _ bound).1⟩⟩
  · rintro ⟨event, bound, rfl⟩
    have placed : (state.snapshotAt seq).tree.place event.childInodeId = some event.slot := by
      change (state.snapshotAt seq).binding event.childInodeId = some event at bound
      simp [Snapshot.tree, bound]
    rcases map_eq_some_iff.mp ((consistent.tree.occupant_iff _ _).mpr placed) with
      ⟨row, occupies, child⟩
    exact ⟨row, occupies, edge_eq_iff.mpr ⟨consistent.occupant_slot _ _ occupies, child⟩⟩

theorem indexes_agree (settled : state.Ordered bound)
    (consistent : (state.snapshotAt seq).Consistent) (edge : DirectoryEdge) :
    state.familyRows.SlotIndexBinds seq edge ↔ state.familyRows.ChildIndexBinds seq edge := by
  have distinct := settled.binds.keysDistinct
  have distinctEvents : KeysDistinct (·.position)
      state.familyRows.direntryChildBinds := distinct.filter _
  constructor
  · intro slotBinds
    rcases consistent.binding_iff.mp (consistent.slotIndexBinds_iff.mp slotBinds) with
      ⟨event, current, rfl⟩
    refine ⟨event, ?_, binding_isBound current⟩
    rw [Snapshot.binding] at current
    split at current
    · cases current
    rename_i notRoot
    have newest := (filter_eq_some_iff.mp current).1
    change (state.familyRows.snapshotAt seq).child event.childInodeId = some event at newest
    rw [FamilyRows.snapshotAt_child] at newest
    rcases newestOf_isNewest newest with ⟨mem, _, newer⟩
    rw [newestOf_eq_some_iff (distinctEvents.filter _)]
    refine ⟨?_, rfl, fun row isRow sameEdge => newer row ?_ ?_⟩
    · simp only [mem_filter] at mem ⊢
      exact ⟨mem.1.1, mem.2⟩
    · have sameChild : row.childInodeId = event.childInodeId := (edge_eq_iff.mp sameEdge).2
      simp only [mem_filter] at isRow ⊢
      exact ⟨⟨isRow.1, decide_eq_true (sameChild ▸ notRoot)⟩, isRow.2⟩
    · exact (edge_eq_iff.mp sameEdge).2
  · rintro ⟨event, newest, bound⟩
    rcases newestOf_isNewest newest with ⟨mem, sameEdge, newer⟩
    have isRow : event ∈ state.direntryBinds.filter fun record => record.committedSeq ≤ seq := by
      have kept := mem_filter.mp mem
      exact mem_filter.mpr ⟨mem_of_mem_filter kept.1, kept.2⟩
    cases found : newestOf (·.position) (·.edge)
        (state.direntryBinds.filter fun record => record.committedSeq ≤ seq) edge with
    | none => exact absurd sameEdge (newestOf_eq_none_iff.mp found event isRow)
    | some row =>
      refine ⟨row, found, ?_⟩
      by_contra unbound
      rw [Bool.not_eq_true] at unbound
      rcases newestOf_isNewest found with ⟨rowMember, rowEdge, rowNewer⟩
      have kept := mem_filter.mp rowMember
      have older := newer row (mem_filter.mpr ⟨mem_filter.mpr
        ⟨kept.1, isBindingEvent_of_unbound unbound⟩, kept.2⟩) rowEdge
      have same := distinct row kept.1 event (mem_of_mem_filter isRow)
        (le_antisymm older (rowNewer event isRow sameEdge))
      rw [same, bound] at unbound
      cases unbound

theorem treeInvariant (settled : state.Ordered bound)
    (consistent : (state.snapshotAt seq).Consistent) : state.familyRows.TreeInvariant seq := by
  have walkable : (state.familyRows.readsAt seq 0).Walkable := consistent.walkable 0
  have parents : (state.familyRows.readsAt seq 0).parentOf =
      (state.snapshotAt seq).tree.parent := (tree_parent (state.snapshotAt seq)).symm
  constructor
  case one_parent =>
    intro left right leftBinds rightBinds sameChild
    rcases consistent.binding_iff.mp (consistent.slotIndexBinds_iff.mp leftBinds) with
      ⟨event, current, rfl⟩
    rcases consistent.binding_iff.mp (consistent.slotIndexBinds_iff.mp rightBinds) with
      ⟨other, otherCurrent, rfl⟩
    rw [sameChild, otherCurrent] at current
    rw [Option.some.inj current]
  case one_child =>
    intro left right leftBinds rightBinds sameParent sameName
    rcases consistent.slotIndexBinds_iff.mp leftBinds with ⟨row, occupies, rfl⟩
    rcases consistent.slotIndexBinds_iff.mp rightBinds with ⟨other, otherOccupies, rfl⟩
    rw [sameParent, sameName, otherOccupies] at occupies
    rw [Option.some.inj occupies]
  case same_events => exact List.Perm.refl _
  case indexes_agree => exact consistent.indexes_agree settled
  case slot_lookup => exact fun edge => consistent.slotIndexBinds_iff
  case child_lookup => exact fun edge => consistent.slotIndexBinds_iff.trans consistent.binding_iff
  case never_revisits =>
    intro inodeId
    rcases walkable.acyclic inodeId with ⟨ancestry, chain⟩
    exact ⟨ancestry, chain, chain.nodup⟩
  case visible_reaches_root =>
    intro inodeId inode visible
    rcases (visibleInode_eq_some_iff walkable).mp visible with ⟨found, clear⟩
    have present : (state.snapshotAt seq).tree.present inodeId :=
      ne_none_iff_exists'.mpr ⟨inode, found⟩
    rw [parents]
    exact (consistent.tree.not_covered_iff present).mp (by rwa [tree_covered])
  case bound_visible =>
    intro parentInodeId parent nameKey row visible isDirectory active
    rcases (visibleInode_eq_some_iff walkable).mp visible with ⟨found, clear⟩
    rcases (consistent.copies (parentInodeId, nameKey) row active).inode with ⟨child, childFound, _⟩
    refine ⟨child, (visibleInode_eq_some_iff walkable).mpr ⟨childFound, ?_⟩⟩
    have occupies : (state.snapshotAt seq).tree.occupant (parentInodeId, nameKey) =
        some row.childInodeId := map_eq_some_iff.mpr ⟨row, active, rfl⟩
    change ¬(state.snapshotAt seq).Covered row.childInodeId
    rw [← tree_covered]
    exact consistent.tree.occupant_not_covered occupies (by rwa [tree_covered])

end Snapshot.Consistent

/-- Every committed history keeps the directory tree at every sequence that can be read. -/
theorem reachable_treeInvariant {policy : NamePolicy} {history : List WalCommitPayload}
    {state : MetadataState} (reachable : Reachable policy history state) :
    (∀ seq ≤ history.length, state.familyRows.TreeInvariant seq) ∧
    ∃ createdAtMs model,
      (Reference.MetadataState.bootstrapMetadataState createdAtMs).replay history =
        .ok model ∧
      Reference.Mirrors model state ∧
      ∀ seq ≤ history.length, model.verifyBindings seq = .ok () := by
  have settled := reachable.settled
  rcases Reference.replay_mirrors reachable with ⟨createdAtMs, model, replayed, mirrors⟩
  refine ⟨fun seq le => (settled.consistent seq le).treeInvariant settled.ordered,
    createdAtMs, model, replayed, mirrors, fun seq le => ?_⟩
  exact Reference.Mirrors.ConsistentAt.verifyBindings_eq_ok
    ⟨mirrors, settled.root_unbound, settled.consistent seq le⟩

theorem sampleRun_treeInvariant :
    Reachable .plain sampleRun.history sampleRun.state ∧
      sampleRun.state.familyRows.TreeInvariant 2 := by
  refine ⟨sampleRun_reachable, (reachable_treeInvariant sampleRun_reachable).1 2 ?_⟩
  decide +kernel

end LoonFs
