import LoonFs.History
import LoonFs.Reference.Model

/-! # The reference model mirrors the rows -/

namespace LoonFs.Reference

open Foundation List Option

def DirentryBindingState.ofState : LoonFs.DirentryBindingState → DirentryBindingState
  | .bound displayName _ => .bound displayName
  | .unbound => .unbound

def DirentryBindingRecord.ofEvent (row : LoonFs.DirentryBindingRecord) : DirentryBindingRecord where
  parentInodeId := row.parentInodeId
  nameKey := row.nameKey
  childInodeId := row.childInodeId
  committedSeq := row.committedSeq
  deltaIndex := row.deltaIndex
  state := .ofState row.state

open LoonFs.Reference.DirentryBindingRecord

@[simp] theorem ofEvent_isBound (row : LoonFs.DirentryBindingRecord) :
    (ofEvent row).isBound = row.isBound := by
  simp only [ofEvent, isBound, LoonFs.DirentryBindingRecord.isBound]
  cases row.state <;> rfl

theorem ofEvent_position (row : LoonFs.DirentryBindingRecord) :
    (ofEvent row).position = row.position := rfl

variable {row : LoonFs.DirentryBindingRecord}

theorem ofEvent_state_bound (named : row.displayName = some name) :
    (ofEvent row).state = .bound name := by
  rw [LoonFs.DirentryBindingRecord.displayName] at named
  change DirentryBindingState.ofState row.state = .bound name
  split at named
  · rename_i isState
    rw [isState, DirentryBindingState.ofState, Option.some.inj named]
  · cases named

theorem ofEvent_state_unbound (unbound : row.isBound = false) : (ofEvent row).state = .unbound := by
  rw [LoonFs.DirentryBindingRecord.isBound] at unbound
  change DirentryBindingState.ofState row.state = .unbound
  split at unbound
  · cases unbound
  · rename_i isState
    rw [isState, DirentryBindingState.ofState]

structure Mirrors (model : MetadataState) (state : LoonFs.MetadataState) : Prop where
  inodes : model.inodes = state.inodes
  direntryBinds : model.direntryBinds =
    (state.direntryBinds.filter LoonFs.DirentryBindingRecord.isBindingEvent).map ofEvent
  subtreeTombstones : model.subtreeTombstones = state.subtreeTombstones

namespace Mirrors

variable {model : MetadataState} {state : LoonFs.MetadataState} {seq : ChangeSeq}

theorem slotValue (mirrors : Mirrors model state) (parentInodeId : InodeId) (nameKey : NameKey) :
    model.slotValue parentInodeId nameKey seq =
      ((state.snapshotAt seq).slotEvent (parentInodeId, nameKey)).map ofEvent := by
  rw [MetadataState.slotValue, mirrors.direntryBinds, List.filter_map,
    maxByKey_map ofEvent_position, LoonFs.MetadataState.snapshotAt,
    FamilyRows.snapshotAt_slotEvent, newestOf_filter]
  congr 2
  apply filter_congr
  intro row _
  rw [Bool.eq_iff_iff]
  simp only [Function.comp, Bool.and_eq_true, decide_eq_true_eq]
  simp [ofEvent, LoonFs.DirentryBindingRecord.slot, and_assoc]

theorem parentBinding (mirrors : Mirrors model state)
    (rootUnbound : ∀ row ∈ state.direntryBinds, row.childInodeId ≠ rootInodeId) (child : InodeId) :
    model.parentBinding child seq = ((state.snapshotAt seq).binding child).map ofEvent := by
  rw [MetadataState.parentBinding, mirrors.direntryBinds, List.filter_map,
    maxByKey_map ofEvent_position, Snapshot.binding]
  by_cases isRoot : child = rootInodeId
  · have none_bound : (state.direntryBinds.filter
        (·.isBindingEvent)).filter
        ((fun row => decide (row.childInodeId = child ∧ row.committedSeq ≤ seq)) ∘
          ofEvent) = [] := by
      rw [filter_eq_nil_iff]
      intro row mem
      have notRoot := rootUnbound row (mem_of_mem_filter mem)
      simp [ofEvent, isRoot, notRoot]
    rw [none_bound, if_pos isRoot]
    rfl
  · rw [if_neg isRoot]
    change _ = (((state.familyRows.latestParentBindingForChild seq child).filter _).map _)
    rw [FamilyRows.latestParentBindingForChild, if_neg isRoot]
    change ((maxByKey _ (state.familyRows.childRows seq child)).map _).filter _ = _
    cases maxByKey (·.position)
        (state.familyRows.childRows seq child) with
    | none => rfl
    | some event =>
      simp only [map_some, filter_some, ofEvent_isBound]
      split <;> rfl

theorem isHiddenRoot (mirrors : Mirrors model state) (node : InodeId) :
    model.isHiddenRoot node seq = ((state.snapshotAt seq).deletion node).isSome := by
  rw [MetadataState.isHiddenRoot, mirrors.subtreeTombstones, Snapshot.deletion, isSome_filter]
  rfl

/-- What the lookups need to know about the mirrored state at one sequence. -/
structure ConsistentAt (model : MetadataState) (state : LoonFs.MetadataState)
    (seq : ChangeSeq) : Prop extends Mirrors model state where
  root_unbound : ∀ row ∈ state.direntryBinds, row.childInodeId ≠ rootInodeId
  consistent : (state.snapshotAt seq).Consistent

end Mirrors

namespace Mirrors.ConsistentAt

variable {model : MetadataState} {state : LoonFs.MetadataState}
  (mirrors : ConsistentAt model state seq)

include mirrors

theorem acyclic : Acyclic (state.snapshotAt seq).parent := by
  rw [← Snapshot.tree_parent]
  exact mirrors.consistent.tree.acyclic

theorem parentBinding_eq (node : InodeId) :
    model.parentBinding node seq = ((state.snapshotAt seq).binding node).map ofEvent :=
  mirrors.toMirrors.parentBinding mirrors.root_unbound node

theorem ancestryLoop_of_chain (chain : Chain (state.snapshotAt seq).parent current ancestry) :
    ∀ (budget : Nat) (passed : List InodeId), ancestry.length ≤ budget →
      (∀ ancestor ∈ ancestry.tail, ancestor ∉ passed) →
      model.ancestryLoop seq budget passed current = .ok (passed ++ ancestry.tail) := by
  induction chain with
  | @last node top =>
    intro budget passed enough unseen
    cases budget with
    | zero => cases enough
    | succ budget =>
      have noBinding : (state.snapshotAt seq).binding node = none := by
        simpa [Snapshot.parent] using top
      simp [MetadataState.ancestryLoop, mirrors.parentBinding_eq, noBinding]
  | @step node above rest pointer upper induction =>
    intro budget passed enough unseen
    cases budget with
    | zero => cases enough
    | succ budget =>
      rcases map_eq_some_iff.mp pointer with ⟨event, bound, rfl⟩
      rcases upper.exists_tail with ⟨tail, rfl⟩
      have notPassed : event.parentInodeId ∉ passed := unseen _ (by simp)
      have distinct := nodup_cons.mp upper.nodup
      simp only [MetadataState.ancestryLoop, mirrors.parentBinding_eq, bound, map_some]
      change (if event.parentInodeId ∈ passed then _ else _) = _
      rw [if_neg notPassed]
      refine (induction budget (passed ++ [event.parentInodeId])
        (Nat.le_of_succ_le_succ enough) ?_).trans ?_
      · intro ancestor mem
        rw [mem_append, mem_singleton, not_or]
        refine ⟨unseen ancestor (mem_cons_of_mem _ mem), ?_⟩
        rintro rfl
        exact distinct.1 mem
      · simp

theorem ancestry_of_chain (chain : Chain (state.snapshotAt seq).parent node ancestry) :
    model.ancestry node seq = .ok ancestry := by
  have bounded : ∀ mem above, (state.snapshotAt seq).parent mem = some above →
      mem ∈ model.direntryBinds.map (·.childInodeId) := by
    intro mem above pointer
    rcases map_eq_some_iff.mp pointer with ⟨event, bound, _⟩
    rcases LoonFs.MetadataState.binding_mem bound with ⟨isRow, isEvent, _⟩
    rw [mirrors.direntryBinds, List.map_map, List.mem_map]
    exact ⟨event, List.mem_filter.mpr ⟨isRow, isEvent⟩,
      (mirrors.consistent.binding_event _ _ bound).1⟩
  have enough := chain.length_le bounded
  rw [length_map] at enough
  rcases chain.exists_tail with ⟨tail, rfl⟩
  refine mirrors.ancestryLoop_of_chain chain _ [node] enough ?_
  intro ancestor mem same
  rw [mem_singleton] at same
  exact (nodup_cons.mp chain.nodup).1 (same ▸ mem)

theorem slotValue_bound (parentInodeId : InodeId) (nameKey : NameKey) :
    (model.slotValue parentInodeId nameKey seq).filter (·.isBound) =
      (((state.snapshotAt seq).occupant (parentInodeId, nameKey)).bind fun row =>
        (state.snapshotAt seq).binding row.childInodeId).map ofEvent := by
  rw [mirrors.toMirrors.slotValue, ← mirrors.consistent.slot_event]
  cases (state.snapshotAt seq).slotEvent (parentInodeId, nameKey) with
  | none => rfl
  | some event =>
    simp only [map_some, filter_some, ofEvent_isBound]
    split <;> rfl

theorem mem_byChild : value ∈ model.byChild seq ↔ ∃ node event,
      (state.snapshotAt seq).binding node = some event ∧ ofEvent event = value := by
  simp only [MetadataState.byChild, mem_filterMap, mem_insertionSort,
    mem_dedup, mirrors.parentBinding_eq, map_eq_some_iff]
  constructor
  · rintro ⟨node, _, event, bound, eq⟩
    exact ⟨node, event, bound, eq⟩
  · rintro ⟨node, event, bound, eq⟩
    refine ⟨node, ?_, event, bound, eq⟩
    rcases LoonFs.MetadataState.binding_mem bound with ⟨isRow, isEvent, _⟩
    rw [mirrors.direntryBinds, List.map_map, List.mem_map]
    exact ⟨event, List.mem_filter.mpr ⟨isRow, isEvent⟩,
      (mirrors.consistent.binding_event _ _ bound).1⟩

theorem mem_bySlot : value ∈ model.bySlot seq ↔ ∃ node event,
      (state.snapshotAt seq).binding node = some event ∧ ofEvent event = value := by
  simp only [MetadataState.bySlot, mem_filterMap, mem_insertionSort,
    mem_dedup, mirrors.slotValue_bound, map_eq_some_iff, bind_eq_some_iff]
  constructor
  · rintro ⟨slot, _, event, ⟨row, _, bound⟩, eq⟩
    exact ⟨row.childInodeId, event, bound, eq⟩
  · rintro ⟨node, event, bound, eq⟩
    rcases LoonFs.MetadataState.binding_mem bound with ⟨isRow, isEvent, _⟩
    have placed : (state.snapshotAt seq).tree.place node = some event.slot := by
      simp [Snapshot.tree, bound]
    rcases map_eq_some_iff.mp ((mirrors.consistent.tree.occupant_iff _ _).mpr placed)
      with ⟨row, occupies, child⟩
    refine ⟨toLex event.slot, ?_, event, ⟨row, occupies, child ▸ bound⟩, eq⟩
    rw [mirrors.direntryBinds, List.map_map, List.mem_map]
    exact ⟨event, List.mem_filter.mpr ⟨isRow, isEvent⟩, rfl⟩

end Mirrors.ConsistentAt

theorem MetadataState.firstRepeated_eq_none [DecidableEq Key]
    {key : DirentryBindingRecord → Key} {rows : List DirentryBindingRecord} :
    ∀ {seen : List (Key × DeltaPosition)}, (rows.map key).Nodup →
      (∀ row ∈ rows, seen.lookup (key row) = none) →
      MetadataState.firstRepeated key seen rows = none := by
  induction rows with
  | nil => intros; rfl
  | cons row rest induction =>
    intro seen distinct unseen
    rw [map_cons, nodup_cons] at distinct
    rw [MetadataState.firstRepeated, unseen row (by simp)]
    apply induction distinct.2
    intro other mem
    have ne : key other ≠ key row := fun eq => distinct.1 (eq ▸ mem_map_of_mem mem)
    simpa [lookup_cons, beq_eq_false_iff_ne.mpr ne] using
      unseen other (mem_cons_of_mem _ mem)

namespace Mirrors.ConsistentAt

variable {model : MetadataState} {state : LoonFs.MetadataState}
  (mirrors : ConsistentAt model state seq)

include mirrors

theorem verifyAncestries_eq_ok (values : List DirentryBindingRecord) :
    model.verifyAncestries seq values = .ok () := by
  induction values with
  | nil => rfl
  | cons value rest induction =>
    rcases mirrors.acyclic value.childInodeId with ⟨ancestry, chain⟩
    rw [MetadataState.verifyAncestries, mirrors.ancestry_of_chain chain]
    exact induction

theorem bySlot_nodup : ((model.bySlot seq).map (·.childInodeId)).Nodup := by
  rw [MetadataState.bySlot, List.map_filterMap]
  refine List.Nodup.filterMap ?_
    ((List.perm_insertionSort _ _).nodup_iff.mpr (List.nodup_dedup _))
  intro left right child
  simp only [mirrors.slotValue_bound, Option.map_map, Option.mem_def, Option.map_eq_some_iff,
    Option.bind_eq_some_iff]
  rintro ⟨event, ⟨row, occupies, bound⟩, eventChild⟩
    ⟨other, ⟨otherRow, otherOccupies, otherBound⟩, otherChild⟩
  have rowChild := (mirrors.consistent.binding_event _ _ bound).1
  have otherRowChild := (mirrors.consistent.binding_event _ _ otherBound).1
  have sameChild := rowChild.symm.trans ((eventChild.trans otherChild.symm).trans otherRowChild)
  exact mirrors.consistent.occupant_injective occupies otherOccupies sameChild

theorem byChild_nodup : ((model.byChild seq).map (·.slot)).Nodup := by
  rw [MetadataState.byChild, List.map_filterMap]
  refine List.Nodup.filterMap ?_
    ((List.perm_insertionSort _ _).nodup_iff.mpr (List.nodup_dedup _))
  intro left right slot
  simp only [mirrors.parentBinding_eq, Option.map_map, Option.mem_def, Option.map_eq_some_iff]
  rintro ⟨event, bound, eventSlot⟩ ⟨other, otherBound, otherSlot⟩
  have placed : (state.snapshotAt seq).tree.place left = some event.slot := by
    simp [Snapshot.tree, bound]
  have otherPlaced : (state.snapshotAt seq).tree.place right = some other.slot := by
    simp [Snapshot.tree, otherBound]
  have sameSlot : event.slot = other.slot := eventSlot.trans otherSlot.symm
  have occupies := (mirrors.consistent.tree.occupant_iff _ _).mpr placed
  have otherOccupies := (mirrors.consistent.tree.occupant_iff _ _).mpr otherPlaced
  rw [sameSlot, otherOccupies] at occupies
  exact (Option.some.inj occupies).symm

theorem positions_agree : MetadataState.firstDifference ((model.bySlot seq).map (·.position))
      ((model.byChild seq).map (·.position)) = none := by
  have same : ∀ position, position ∈ (model.bySlot seq).map (·.position) ↔
        position ∈ (model.byChild seq).map (·.position) := by
    intro position
    simp only [List.mem_map, mirrors.mem_bySlot, mirrors.mem_byChild]
  have leftOnly : ((model.bySlot seq).map (·.position)).filter
      (· ∉ (model.byChild seq).map (·.position)) = [] := by
    rw [filter_eq_nil_iff]
    intro position mem
    simpa using (same position).mp mem
  have rightOnly : ((model.byChild seq).map (·.position)).filter
      (· ∉ (model.bySlot seq).map (·.position)) = [] := by
    rw [filter_eq_nil_iff]
    intro position mem
    simpa using (same position).mpr mem
  rw [MetadataState.firstDifference, leftOnly, rightOnly]
  rfl

theorem verifyBindings_eq_ok : model.verifyBindings seq = .ok () := by
  have slots : MetadataState.firstRepeated (·.childInodeId) []
      (model.bySlot seq) = none :=
    MetadataState.firstRepeated_eq_none mirrors.bySlot_nodup fun _ _ => rfl
  have children : MetadataState.firstRepeated (·.slot) []
      (model.byChild seq) = none :=
    MetadataState.firstRepeated_eq_none mirrors.byChild_nodup fun _ _ => rfl
  simp only [MetadataState.verifyBindings, slots, children, mirrors.positions_agree]
  exact mirrors.verifyAncestries_eq_ok _

end Mirrors.ConsistentAt

namespace Mirrors

variable {state : LoonFs.MetadataState}

theorem applyDelta {delta : WalDelta} (mirrors : Mirrors model state)
    (summary : delta.WritesSummary header) :
    Mirrors (model.applyDelta header delta) (state.applyCommittedWalDelta header delta) := by
  rcases mirrors with ⟨inodes, direntryBinds, subtreeTombstones⟩
  cases delta with
  | appendFileRevision deltaIndex node parentInodeId nameKey displayName bindPosition =>
    refine ⟨?_, ?_, ?_⟩ <;>
      simp [MetadataState.applyDelta, LoonFs.MetadataState.applyCommittedWalDelta,
        LoonFs.MetadataState.deltaRows, inodes, direntryBinds, subtreeTombstones]
    have moved := Ne.symm summary
    simp [LoonFs.DirentryBindingRecord.isBindingEvent, LoonFs.DirentryBindingRecord.isBound,
      LoonFs.DirentryBindingRecord.position, moved]
  | _ =>
    refine ⟨?_, ?_, ?_⟩ <;>
      simp [MetadataState.applyDelta, LoonFs.MetadataState.applyCommittedWalDelta,
        LoonFs.MetadataState.deltaRows, inodes, direntryBinds, subtreeTombstones,
        LoonFs.DirentryBindingRecord.isBindingEvent, LoonFs.DirentryBindingRecord.isBound,
        LoonFs.DirentryBindingRecord.position, ofEvent, DirentryBindingState.ofState]

theorem applyDeltas :
    ∀ {model : MetadataState} {state : LoonFs.MetadataState}, Mirrors model state →
      (∀ delta ∈ deltas, delta.WritesSummary header) →
      Mirrors (deltas.foldl (fun state delta => state.applyDelta header delta) model)
        (state.applyCommittedWalDeltas header deltas) := by
  induction deltas with
  | nil => intro model state mirrors _; exact mirrors
  | cons delta rest induction =>
    intro model state mirrors summaries
    exact induction (mirrors.applyDelta (summaries delta (by simp)))
      fun later mem => summaries later (mem_cons_of_mem _ mem)

theorem appendCommit (mirrors : Mirrors model state) (commits : List WalCommitPayload)
    (commitReceipts : List CommitReceiptRecord) :
    Mirrors model (state ++ { commits, commitReceipts }) := by
  refine ⟨?_, ?_, ?_⟩
  · simpa using mirrors.inodes
  · simpa using mirrors.direntryBinds
  · simpa using mirrors.subtreeTombstones

end Mirrors

theorem MetadataState.replay_append (first second : List WalCommitPayload) :
    ∀ state : MetadataState,
      state.replay (first ++ second) = state.replay first >>= fun next => next.replay second := by
  induction first with
  | nil => intro state; rfl
  | cons record rest induction =>
    intro state
    simp only [cons_append, MetadataState.replay]
    cases state.applyCommittedWalDeltas record.header
        (record.deltas.map (·.delta)) with
    | error failure => rfl
    | ok next => exact induction next

theorem replay_mirrors {state : LoonFs.MetadataState} (reachable : Reachable policy history state) :
    ∃ createdAtMs model,
      (MetadataState.bootstrapMetadataState createdAtMs).replay history = .ok model ∧
        Mirrors model state := by
  induction reachable with
  | genesis createdAtMs rootGrants => exact ⟨createdAtMs, _, rfl, rfl, rfl, rfl⟩
  | @commit history state record before numbered accepted induction =>
    rcases induction with ⟨createdAtMs, model, replayed, mirrors⟩
    have settled := before.settled
    have steps := accepted.steps (settled.ready numbered)
    have nextMirrors := mirrors.applyDeltas
      (steps.writesSummary (settled.ready numbered))
    have nextSettled := steps.settled settled numbered
    have verified := Mirrors.ConsistentAt.verifyBindings_eq_ok
      ⟨nextMirrors, nextSettled.root_unbound,
        nextSettled.consistent record.committedSeq numbered.le⟩
    have applied : model.applyCommittedWalDeltas record.header
        (record.deltas.map (·.delta)) = .ok ((record.deltas.map
          (·.delta)).foldl (fun state delta => state.applyDelta record.header
            delta) model) := by
      rw [MetadataState.applyCommittedWalDeltas]
      change (MetadataState.verifyBindings _ record.committedSeq >>= _) = _
      rw [verified]
      rfl
    refine ⟨createdAtMs, _, ?_, nextMirrors.appendCommit _ _⟩
    rw [MetadataState.replay_append, replayed]
    simp only [ok_bind, MetadataState.replay, applied]

end LoonFs.Reference
