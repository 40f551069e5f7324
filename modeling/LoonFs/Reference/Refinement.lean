import LoonFs.DirectoryInvariant
import LoonFs.Metadata.Listing

/-! # The core's reads refine the reference model -/

namespace LoonFs.Reference

open Foundation List Option MetadataVisibilityReads
open LoonFs.Reference.DirentryBindingRecord

structure SameEntry (row : LoonFs.DirentryBindingRecord) (entry : MetadataState.ListedEntry) :
    Prop where
  parent : entry.binding.parentInodeId = row.parentInodeId
  name : entry.binding.nameKey = row.nameKey
  binding_child : entry.binding.childInodeId = row.childInodeId
  position : entry.binding.position = row.bindPosition
  state : entry.binding.state = .bound entry.displayName
  displayName : row.displayName = some entry.displayName
  child : entry.child.inodeId = row.childInodeId
  kind : entry.child.inodeKind = row.childKind
  createdBy : entry.child.committedBy = row.childCreatedBy
  createdAt : entry.child.committedAtMs = row.childCreatedAtMs

/-- A path resolution of the core and one of the model say the same. -/
def SameResolution : Except VisiblePathError ResolvedVisiblePath →
    MetadataState.ResolvedPath → Prop
  | .ok resolved, .found absolutePath inode binding =>
    resolved.absolutePath.toText = absolutePath ∧ resolved.inodeId = inode.inodeId ∧
    resolved.inodeKind = inode.inodeKind ∧ resolved.createdBy = inode.committedBy ∧
    resolved.createdAtMs = inode.committedAtMs ∧
    resolved.parentInodeId = binding.map DirentryBindingRecord.parentInodeId ∧
    resolved.bindingVersion = binding.map DirentryBindingRecord.position ∧
    match binding with
    | none => resolved.displayName = ""
    | some binding => binding.state = .bound resolved.displayName
  | .error (.pathNotFound absolutePath), .notFound expected => absolutePath = expected
  | .error (.pathComponentNotDirectory absolutePath inodeId inodeKind),
      .notADirectory expected inode =>
      absolutePath = expected ∧ inodeId = inode.inodeId ∧ inodeKind = inode.inodeKind
  | _, _ => False

structure ReadsRefine (policy : NamePolicy) (rows : FamilyRows) (seq floor : ChangeSeq)
    (model : MetadataState) : Prop where
  visible_inode : ∀ inodeId, ∃ answer,
    (rows.readsAt seq floor).visibleInode inodeId = .ok answer ∧
      model.visibleInode inodeId seq = .ok answer
  visible_child : ∀ parentInodeId nameKey, ∃ row entry,
    (rows.readsAt seq floor).visibleChild parentInodeId nameKey = .ok row ∧
      model.visibleEntry parentInodeId nameKey seq = .ok entry ∧
      Option.Rel SameEntry row entry
  /-- A listing decides a child without the lookups of `visibleChild`. -/
  visible_page_child : ∀ parentInodeId nameKey,
    (rows.readsAt seq floor).visibleChild parentInodeId nameKey =
      match (rows.readsAt seq floor).activeChildBinding parentInodeId nameKey with
      | none => .ok none
      | some direntry => (rows.readsAt seq floor).visiblePageChild direntry
  listing : ∀ parentInodeId startAfter limit, ∃ children entries,
    rows.visibleChildrenPageByNameKey seq floor parentInodeId startAfter limit =
        .ok children ∧
      model.listDirectory parentInodeId seq = .ok entries ∧
      List.Forall₂ SameEntry children ((entries.filter fun entry =>
        startAfter.all fun nameKey => nameKey < entry.binding.nameKey).take limit)
  resolve_path : ∀ path, ∃ expected,
    model.resolvePath policy path seq = .ok expected ∧
      SameResolution ((rows.readsAt seq floor).resolveVisiblePath policy path) expected
  would_create_cycle : ∀ inodeId newParentInodeId, ∃ answer,
    (rows.readsAt seq floor).wouldCreateDirectoryCycle inodeId newParentInodeId =
        .ok answer ∧
      model.wouldCreateCycle inodeId newParentInodeId seq = .ok answer

namespace Mirrors.ConsistentAt

variable {model : MetadataState} {state : LoonFs.MetadataState}
  (mirrors : ConsistentAt model state seq)

include mirrors

theorem walkable (floor : ChangeSeq) : (state.familyRows.readsAt seq floor).Walkable :=
  mirrors.consistent.walkable floor

theorem covered_iff (inodeId : InodeId)
    (chain : Chain (state.snapshotAt seq).parent inodeId ancestry) :
    (ancestry.any fun mem => model.isHiddenRoot mem seq) = true ↔
      (state.snapshotAt seq).Covered inodeId := by
  simp only [List.any_eq_true, mirrors.toMirrors.isHiddenRoot, Option.isSome_iff_ne_none,
    chain.mem_iff]
  rfl

theorem visibleInode_cases (inodeId : InodeId) :
    (model.visibleInode inodeId seq = .ok ((state.snapshotAt seq).inode inodeId) ∧
      ¬(state.snapshotAt seq).Covered inodeId) ∨
    (model.visibleInode inodeId seq = .ok none ∧ (state.snapshotAt seq).Covered inodeId) := by
  have found : (model.inodes.find? fun inode =>
      inode.inodeId = inodeId ∧ inode.committedSeq ≤ seq) =
        (state.snapshotAt seq).inode inodeId := by
    rw [mirrors.inodes]
    rfl
  rcases mirrors.acyclic inodeId with ⟨ancestry, chain⟩
  have covered := mirrors.covered_iff inodeId chain
  rw [MetadataState.visibleInode, found, mirrors.ancestry_of_chain chain]
  by_cases hidden : (state.snapshotAt seq).Covered inodeId
  · refine .inr ⟨?_, hidden⟩
    cases (state.snapshotAt seq).inode inodeId with
    | none => rfl
    | some inode => simp only [ok_bind, covered.mpr hidden, if_true]; rfl
  · refine .inl ⟨?_, hidden⟩
    cases (state.snapshotAt seq).inode inodeId with
    | none => rfl
    | some inode =>
      simp only [ok_bind, mt covered.mp hidden]
      rfl

theorem visibleInode_agrees (floor : ChangeSeq) (node : InodeId) : ∃ answer,
    (state.familyRows.readsAt seq floor).visibleInode node = .ok answer ∧
      model.visibleInode node seq = .ok answer := by
  rcases MetadataVisibilityReads.visibleInode_cases (mirrors.walkable floor) node with
    ⟨result, clear⟩ | ⟨result, covered⟩
  · rcases mirrors.visibleInode_cases node with ⟨expected, _⟩ | ⟨_, covered⟩
    · exact ⟨_, result, expected⟩
    · exact absurd covered clear
  · rcases mirrors.visibleInode_cases node with ⟨_, clear⟩ | ⟨expected, _⟩
    · exact absurd covered clear
    · exact ⟨_, result, expected⟩

theorem wouldCreateCycle_agrees (floor : ChangeSeq) (node newParentInodeId : InodeId) :
    ∃ answer, (state.familyRows.readsAt seq floor).wouldCreateDirectoryCycle node
        newParentInodeId = .ok answer ∧
      model.wouldCreateCycle node newParentInodeId seq = .ok answer := by
  rcases mirrors.acyclic newParentInodeId with ⟨ancestry, chain⟩
  have expected : model.wouldCreateCycle node newParentInodeId seq =
      .ok (decide (node ∈ ancestry)) := by
    rw [MetadataState.wouldCreateCycle, mirrors.ancestry_of_chain chain]
    rfl
  rcases wouldCreateDirectoryCycle_of_walkable
      (mirrors.walkable floor) node newParentInodeId with ⟨result, below⟩ | ⟨result, outside⟩
  · exact ⟨true, result, by rw [expected, decide_eq_true (chain.mem_iff.mpr below)]⟩
  · refine ⟨false, result, ?_⟩
    rw [expected, decide_eq_false (mt chain.mem_iff.mp outside)]

theorem slotValue_cases (parentInodeId : InodeId) (nameKey : NameKey) :
    (∃ row event displayName, (state.snapshotAt seq).occupant (parentInodeId, nameKey) = some row ∧
      (state.snapshotAt seq).binding row.childInodeId = some event ∧
      event.displayName = some displayName ∧
      model.slotValue parentInodeId nameKey seq = some (ofEvent event) ∧
      (ofEvent event).state = .bound displayName) ∨
    ((state.snapshotAt seq).occupant (parentInodeId, nameKey) = none ∧
      ∀ value, model.slotValue parentInodeId nameKey seq = some value →
        value.state = .unbound) := by
  have events := mirrors.consistent.slot_event (parentInodeId, nameKey)
  rw [mirrors.toMirrors.slotValue]
  cases occupies : (state.snapshotAt seq).occupant (parentInodeId, nameKey) with
  | none =>
    refine .inr ⟨rfl, ?_⟩
    intro value found
    rcases map_eq_some_iff.mp found with ⟨event, newest, isValue⟩
    rw [occupies, newest, filter_some, bind_none] at events
    have unbound : event.isBound = false := by
      by_contra bound
      rw [Bool.not_eq_false] at bound
      simp [bound] at events
    rw [← isValue]
    exact ofEvent_state_unbound unbound
  | some row =>
    rcases (mirrors.consistent.copies _ _ occupies).event with ⟨event, bound, _⟩
    rw [occupies, bind_some, bound] at events
    have newest := (filter_eq_some_iff.mp events).1
    rcases event.exists_displayName (Snapshot.binding_isBound bound) with ⟨displayName, named⟩
    exact .inl ⟨row, event, displayName, rfl, bound, named, by rw [newest]; rfl,
      ofEvent_state_bound named⟩

/-- The model's entry of a slot is the slot's bound value, unless a deletion
hides the child. -/
theorem visibleEntry_cases (parentInodeId : InodeId) (nameKey : NameKey) :
    (∃ row entry, (state.snapshotAt seq).occupant (parentInodeId, nameKey) = some row ∧
      ¬(state.snapshotAt seq).Covered row.childInodeId ∧
      model.visibleEntry parentInodeId nameKey seq = .ok (some entry) ∧ SameEntry row entry) ∨
    (model.visibleEntry parentInodeId nameKey seq = .ok none ∧
      ∀ row, (state.snapshotAt seq).occupant (parentInodeId, nameKey) = some row →
        (state.snapshotAt seq).Covered row.childInodeId) := by
  rcases mirrors.slotValue_cases parentInodeId nameKey with
    ⟨row, event, displayName, occupies, bound, named, found, isState⟩ | ⟨empty, unbound⟩
  · have copies := mirrors.consistent.copies _ _ occupies
    rcases copies.inode with ⟨inode, isInode, kind, createdBy, createdAt, _⟩
    rcases copies.event with ⟨copied, copiedBound, slot, name, position⟩
    rw [bound, Option.some.injEq] at copiedBound
    subst copiedBound
    have child := (mirrors.consistent.binding_event _ _ bound).1
    have entryIs : model.visibleEntry parentInodeId nameKey seq =
        (model.visibleInode row.childInodeId seq).map fun child =>
          child.map fun child => ⟨ofEvent event, displayName, child⟩ := by
      rw [MetadataState.visibleEntry, found]
      simp only [isState]
      rw [show (ofEvent event).childInodeId = row.childInodeId from child]
      cases model.visibleInode row.childInodeId seq <;> rfl
    rcases mirrors.visibleInode_cases row.childInodeId with ⟨visible, clear⟩ | ⟨hidden, covered⟩
    · refine .inl ⟨row, ⟨ofEvent event, displayName, inode⟩, occupies, clear, ?_, ?_⟩
      · rw [entryIs, visible, isInode]
        rfl
      · have sameSlot := Prod.ext_iff.mp slot
        exact ⟨sameSlot.1, sameSlot.2, child, position, isState, name ▸ named,
          mirrors.consistent.inode_id _ _ isInode, kind.symm, createdBy.symm, createdAt.symm⟩
    · refine .inr ⟨by rw [entryIs, hidden]; rfl, ?_⟩
      intro other otherOccupies
      rw [occupies, Option.some.injEq] at otherOccupies
      exact otherOccupies ▸ covered
  · refine .inr ⟨?_, fun row occupies => ?_⟩
    · rw [MetadataState.visibleEntry]
      cases found : model.slotValue parentInodeId nameKey seq with
      | none => rfl
      | some value => simp only [unbound value found]
    · rw [empty] at occupies
      cases occupies

theorem visibleChild_agrees (floor : ChangeSeq) (parentInodeId : InodeId)
    (nameKey : NameKey) : ∃ row entry,
    (state.familyRows.readsAt seq floor).visibleChild parentInodeId nameKey = .ok row ∧
      model.visibleEntry parentInodeId nameKey seq = .ok entry ∧
      Option.Rel SameEntry row entry := by
  have walkable := mirrors.walkable floor
  rcases mirrors.visibleEntry_cases parentInodeId nameKey with
    ⟨row, entry, occupies, clear, found, same⟩ | ⟨found, covered⟩
  · have parentClear := mt (mirrors.consistent.covered_of_occupant occupies) clear
    have visible := mirrors.consistent.visibleBinding_of_occupant floor occupies parentClear
    exact ⟨some row, some entry, (visibleChild_eq_some_iff walkable).mpr visible, found, .some same⟩
  · rcases visibleChild_cases walkable parentInodeId nameKey with ⟨row, _, visible⟩ | ⟨result, _⟩
    · exact absurd (covered row visible.2.1) visible.2.2.2
    · exact ⟨none, none, result, found, .none⟩

theorem visiblePageChild_agrees (floor : ChangeSeq) (parentInodeId : InodeId) (nameKey : NameKey) :
    (state.familyRows.readsAt seq floor).visibleChild parentInodeId nameKey =
      match (state.familyRows.readsAt seq floor).activeChildBinding parentInodeId nameKey with
      | none => .ok none
      | some direntry => (state.familyRows.readsAt seq floor).visiblePageChild direntry := by
  have walkable := mirrors.walkable floor
  cases active : (state.familyRows.readsAt seq floor).activeChildBinding parentInodeId
      nameKey with
  | none =>
    rcases visibleChild_cases walkable parentInodeId nameKey with ⟨row, _, visible⟩ | ⟨result, _⟩
    · have shown := visible.2.1
      rw [active] at shown
      cases shown
    · exact result
  | some row =>
    have occupies : (state.snapshotAt seq).occupant (parentInodeId, nameKey) = some row := active
    rcases visiblePageChild_cases walkable row with ⟨result, _, clear⟩ | ⟨result, hidden⟩
    · have parentClear := mt (mirrors.consistent.covered_of_occupant occupies) clear
      have visible := mirrors.consistent.visibleBinding_of_occupant floor occupies parentClear
      exact ((visibleChild_eq_some_iff walkable).mpr visible).trans
        result.symm
    · rcases visibleChild_cases walkable parentInodeId nameKey with
        ⟨other, _, visible⟩ | ⟨expected, _⟩
      · have same : row = other := Option.some.inj (active.symm.trans visible.2.1)
        exact absurd ⟨(filter_eq_some_iff.mp occupies).2, same ▸ visible.2.2.2⟩ hidden
      · exact expected.trans result.symm

theorem root_visible : ∃ root, (state.snapshotAt seq).inode rootInodeId = some root ∧
    root.inodeKind = .directory ∧ ¬(state.snapshotAt seq).Covered rootInodeId := by
  have tree := mirrors.consistent.tree
  rcases tree.root_directory with ⟨root, found, isDirectory⟩
  refine ⟨root, found, isDirectory, ?_⟩
  rw [← Snapshot.tree_covered, tree.not_covered_iff (tree.directory_present _ tree.root_directory)]
  exact .refl _

end Mirrors.ConsistentAt

def SamePlace (state : LoonFs.MetadataState) (seq : ChangeSeq) (names : AbsolutePath) :
    Option LoonFs.DirentryBindingRecord → InodeRecord → Option DirentryBindingRecord → Prop
  | none, inode, none => names = [] ∧ (state.snapshotAt seq).inode rootInodeId = some inode
  | some row, inode, some binding => ∃ displayName, SameEntry row ⟨binding, displayName, inode⟩
  | _, _, _ => False

namespace Mirrors.ConsistentAt

variable {model : MetadataState} {state : LoonFs.MetadataState}
  (mirrors : ConsistentAt model state seq)

include mirrors

theorem samePlace_fields (same : SamePlace state seq names last inode binding) :
    last.elim rootInodeId (·.childInodeId) = inode.inodeId ∧
      last.elim InodeKind.directory (·.childKind) = inode.inodeKind := by
  match last, binding, same with
  | none, none, ⟨_, found⟩ =>
    rcases mirrors.root_visible with ⟨root, isRoot, isDirectory, _⟩
    have eq := Option.some.inj (isRoot.symm.trans found)
    rw [← eq]
    exact ⟨(mirrors.consistent.inode_id _ _ isRoot).symm, isDirectory.symm⟩
  | some row, some binding, ⟨_, same⟩ => exact ⟨same.child.symm, same.kind.symm⟩

theorem resolveComponents_agrees (policy : NamePolicy) (floor : ChangeSeq)
    (components : List DisplayName) :
    ∀ (names : AbsolutePath) {last : Option LoonFs.DirentryBindingRecord}
      {inode : InodeRecord} {binding : Option DirentryBindingRecord},
      SamePlace state seq names last inode binding → ∃ expected,
        model.resolveComponents policy seq components names inode binding = .ok expected ∧
        match (state.familyRows.readsAt seq floor).resolveComponents policy components names
          last with
        | .ok (path, last) => ∃ inode binding, expected = .found path.toText inode binding ∧
              SamePlace state seq path last inode binding
        | .error error => SameResolution (.error error) expected := by
  induction components with
  | nil =>
    intro names last inode binding same
    exact ⟨_, rfl, inode, binding, rfl, same⟩
  | cons component rest induction =>
    intro names last inode binding same
    rcases mirrors.samePlace_fields same with ⟨sameInode, sameKind⟩
    rw [MetadataVisibilityReads.resolveComponents, MetadataState.resolveComponents]
    simp only [sameInode, sameKind]
    by_cases notDirectory : inode.inodeKind ≠ .directory
    · rw [if_pos notDirectory, if_pos notDirectory]
      exact ⟨_, rfl, rfl, rfl, rfl⟩
    rw [if_neg notDirectory, if_neg notDirectory]
    have walkable := mirrors.walkable floor
    rcases mirrors.visibleEntry_cases inode.inodeId
        (policy.nameKeyForDisplayName component) with
      ⟨row, entry, occupies, clear, found, sameEntry⟩ | ⟨found, covered⟩
    · have active : (state.familyRows.readsAt seq floor).activeChildBinding inode.inodeId
          (policy.nameKeyForDisplayName component) = some row := occupies
      have shown : (state.familyRows.readsAt seq floor).visiblePageChild row = .ok (some row) := by
        rcases visiblePageChild_cases walkable row with ⟨result, _⟩ | ⟨_, hidden⟩
        · exact result
        · exact absurd ⟨(filter_eq_some_iff.mp occupies).2, clear⟩ hidden
      simp only [found, active, shown, ok_bind, sameEntry.displayName, getD_some]
      exact induction _ ⟨entry.displayName, sameEntry⟩
    · refine ⟨.notFound (AbsolutePath.toText (names ++ [component])), ?_, ?_⟩
      · simp only [found, ok_bind]
        rfl
      · cases active : (state.familyRows.readsAt seq floor).activeChildBinding inode.inodeId
            (policy.nameKeyForDisplayName component) with
        | none => exact rfl
        | some row =>
          rcases visiblePageChild_cases walkable row with ⟨_, _, clear⟩ | ⟨result, _⟩
          · exact absurd (covered row active) clear
          · simp only [result, ok_bind]
            exact rfl

theorem resolvePath_agrees (policy : NamePolicy) (floor : ChangeSeq) (path : AbsolutePath) :
    ∃ expected, model.resolvePath policy path seq = .ok expected ∧
      SameResolution ((state.familyRows.readsAt seq floor).resolveVisiblePath policy path)
        expected := by
  rcases mirrors.root_visible with ⟨root, isRoot, _, clear⟩
  have modelRoot : model.visibleInode rootInodeId seq = .ok (some root) := by
    rcases mirrors.visibleInode_cases rootInodeId with ⟨visible, _⟩ | ⟨_, covered⟩
    · rw [visible, isRoot]
    · exact absurd covered clear
  have coreRoot : (state.familyRows.readsAt seq floor).visibleInode rootInodeId = .ok (some root) :=
    (visibleInode_eq_some_iff (mirrors.walkable floor)).mpr
      ⟨isRoot, clear⟩
  have atRoot : SamePlace state seq [] none root none := ⟨rfl, isRoot⟩
  rcases mirrors.resolveComponents_agrees policy floor path [] atRoot with
    ⟨expected, resolved, agrees⟩
  refine ⟨expected, by rw [MetadataState.resolvePath, modelRoot]; exact resolved, ?_⟩
  rw [MetadataVisibilityReads.resolveVisiblePath]
  cases followed : (state.familyRows.readsAt seq floor).resolveComponents policy path []
      none with
  | error error =>
    rw [followed] at agrees
    exact agrees
  | ok result =>
    rcases result with ⟨names, last⟩
    rw [followed] at agrees
    rcases agrees with ⟨inode, binding, rfl, same⟩
    match last, binding, same with
    | none, none, ⟨noNames, found⟩ =>
      subst noNames
      have eq := Option.some.inj (isRoot.symm.trans found)
      simp only [ok_bind, coreRoot]
      rw [← eq]
      exact ⟨rfl, (mirrors.consistent.inode_id _ _ isRoot).symm, rfl, rfl, rfl, rfl, rfl, rfl⟩
    | some row, some binding, ⟨displayName, same⟩ =>
      simp only [ok_bind]
      refine ⟨rfl, same.child.symm, same.kind.symm, same.createdBy.symm,
        same.createdAt.symm, ?_, ?_, ?_⟩
      · rw [map_some, same.parent]
      · rw [map_some, same.position]
      · rw [same.displayName]
        exact same.state

end Mirrors.ConsistentAt

open Classical in
noncomputable def shownRows (state : LoonFs.MetadataState) (seq : ChangeSeq)
    (parentInodeId : InodeId) (names : List NameKey) : List LoonFs.DirentryBindingRecord :=
  names.filterMap fun nameKey =>
    ((state.snapshotAt seq).occupant (parentInodeId, nameKey)).filter fun row =>
      ¬(state.snapshotAt seq).Covered row.childInodeId

def MetadataState.listedNames (model : MetadataState) (parentInodeId : InodeId) : List NameKey :=
  ((model.direntryBinds.filter fun row => row.parentInodeId = parentInodeId).map
    DirentryBindingRecord.nameKey).dedup.insertionSort (· ≤ ·)

theorem listedNames_sorted (model : MetadataState) (parentInodeId : InodeId) :
    (model.listedNames parentInodeId).Pairwise (· < ·) := by
  have sorted : (model.listedNames parentInodeId).Pairwise (· ≤ ·) := pairwise_insertionSort _ _
  have nodup : (model.listedNames parentInodeId).Nodup :=
    (perm_insertionSort _ _).nodup_iff.mpr (nodup_dedup _)
  exact (sorted.and nodup).imp fun both => lt_of_le_of_ne both.1 both.2

namespace Mirrors.ConsistentAt

variable {model : MetadataState} {state : LoonFs.MetadataState}
  (mirrors : ConsistentAt model state seq)

include mirrors

theorem visibleEntries_agree (parentInodeId : InodeId) (names : List NameKey) :
    ∃ entries, model.visibleEntries parentInodeId seq names = .ok entries ∧
      List.Forall₂ SameEntry (shownRows state seq parentInodeId names) entries := by
  induction names with
  | nil => exact ⟨[], rfl, .nil⟩
  | cons nameKey rest induction =>
    rcases induction with ⟨entries, listed, same⟩
    rcases mirrors.visibleEntry_cases parentInodeId nameKey with
      ⟨row, entry, occupies, clear, found, sameEntry⟩ | ⟨found, covered⟩
    · refine ⟨entry :: entries, ?_, ?_⟩
      · simp only [MetadataState.visibleEntries, found, listed, ok_bind]
        rfl
      · simp only [shownRows, filterMap_cons, occupies, filter_some, clear,
          not_false_eq_true, decide_true, if_true]
        exact .cons sameEntry same
    · refine ⟨entries, ?_, ?_⟩
      · simp only [MetadataState.visibleEntries, found, listed, ok_bind]
        rfl
      · rw [shownRows, filterMap_cons]
        cases occupies : (state.snapshotAt seq).occupant (parentInodeId, nameKey) with
        | none => exact same
        | some row =>
          rw [filter_some, if_neg (by simp [covered row occupies])]
          exact same

variable {parentInodeId : InodeId}

theorem occupant_listedNames {nameKey : NameKey}
    (occupies : (state.snapshotAt seq).occupant (parentInodeId, nameKey) = some row) :
    nameKey ∈ model.listedNames parentInodeId := by
  rcases (mirrors.consistent.copies _ _ occupies).event with ⟨event, bound, slot, _⟩
  rcases LoonFs.MetadataState.binding_mem bound with ⟨isRow, isEvent, _⟩
  rw [mirrors.consistent.occupant_slot _ _ occupies] at slot
  have fields := Prod.ext_iff.mp slot
  rw [MetadataState.listedNames, List.mem_insertionSort, List.mem_dedup, List.mem_map]
  refine ⟨ofEvent event, List.mem_filter.mpr ⟨?_, decide_eq_true fields.1⟩, fields.2⟩
  rw [mirrors.direntryBinds]
  exact mem_map_of_mem (mem_filter.mpr ⟨isRow, isEvent⟩)

theorem mem_shownRows : row ∈ shownRows state seq parentInodeId (model.listedNames parentInodeId) ↔
      state.familyRows.Listed seq parentInodeId none row := by
  simp only [shownRows, mem_filterMap, filter_eq_some_iff, decide_eq_true_eq]
  constructor
  · intro ⟨nameKey, _, occupies, clear⟩
    have slot := Prod.ext_iff.mp (mirrors.consistent.occupant_slot _ _ occupies)
    exact ⟨slot.1, rfl, mirrors.consistent.occupant_edge _ _ occupies,
      (filter_eq_some_iff.mp occupies).2, clear⟩
  · intro listed
    have occupies := mirrors.consistent.edge_bound _ _ listed.newest listed.bound
    rw [LoonFs.DirentryBindingRecord.slot, listed.parent] at occupies
    exact ⟨row.nameKey, mirrors.occupant_listedNames occupies, occupies, listed.clear⟩

theorem shownRows_sorted (parentInodeId : InodeId) :
    (shownRows state seq parentInodeId (model.listedNames parentInodeId)).Pairwise
      fun left right => left.nameKey < right.nameKey := by
  refine List.Pairwise.filterMap _ ?_ (listedNames_sorted model parentInodeId)
  intro leftName rightName less left leftShown right rightShown
  have leftSlot := mirrors.consistent.occupant_slot _ _
    (filter_eq_some_iff.mp leftShown).1
  have rightSlot := mirrors.consistent.occupant_slot _ _
    (filter_eq_some_iff.mp rightShown).1
  rw [show left.nameKey = leftName from (Prod.ext_iff.mp leftSlot).2,
    show right.nameKey = rightName from (Prod.ext_iff.mp rightSlot).2]
  exact less

theorem listing_sorted {listing : List LoonFs.DirentryBindingRecord}
    (sorted : listing.Pairwise fun left right => left.slotEdgeKey < right.slotEdgeKey)
    (listed : ∀ row ∈ listing, state.familyRows.Listed seq parentInodeId startAfter row) :
    listing.Pairwise fun left right => left.nameKey < right.nameKey := by
  apply List.Pairwise.imp_of_mem _ sorted
  intro left right leftMem rightMem less
  have leftListed := listed left leftMem
  have rightListed := listed right rightMem
  have sameParent : left.parentInodeId = right.parentInodeId :=
    leftListed.parent.trans rightListed.parent.symm
  rcases Prod.Lex.toLex_lt_toLex.mp less with lessParent | ⟨_, lessRest⟩
  · exact absurd sameParent lessParent.ne
  rcases Prod.Lex.toLex_lt_toLex.mp lessRest with lessName | ⟨sameName, lessChild⟩
  · exact lessName
  · have sameSlot : left.slot = right.slot := Prod.ext sameParent sameName
    have leftOccupies := mirrors.consistent.edge_bound _ _ leftListed.newest leftListed.bound
    have rightOccupies := mirrors.consistent.edge_bound _ _ rightListed.newest rightListed.bound
    rw [sameSlot, rightOccupies, Option.some.injEq] at leftOccupies
    rw [leftOccupies] at lessChild
    exact absurd lessChild (lt_irrefl _)

theorem listing_agrees (floor : ChangeSeq) (distinct : (state.direntryBinds.map (·.position)).Nodup)
    (parentInodeId : InodeId) (startAfter : Option NameKey) (limit : Nat) : ∃ children entries,
      state.familyRows.visibleChildrenPageByNameKey seq floor parentInodeId startAfter limit =
        .ok children ∧ model.listDirectory parentInodeId seq = .ok entries ∧
      List.Forall₂ SameEntry children ((entries.filter fun entry =>
        startAfter.all fun nameKey => nameKey < entry.binding.nameKey).take limit) := by
  have walkable := mirrors.walkable floor
  rcases mirrors.visibleEntries_agree parentInodeId (model.listedNames parentInodeId) with
    ⟨entries, found, same⟩
  by_cases visible : (state.familyRows.readsAt seq floor).VisibleDirectory parentInodeId
  · rcases FamilyRows.exists_listing startAfter distinct walkable visible with
      ⟨listing, sorted, listed, page⟩
    refine ⟨listing.take limit, entries, page limit, found, forall₂_take limit ?_⟩
    have isShown : listing = (shownRows state seq parentInodeId
        (model.listedNames parentInodeId)).filter fun row =>
          startAfter.all fun nameKey => nameKey < row.nameKey := by
      apply eq_of_strictly_sorted
        (mirrors.listing_sorted sorted fun row mem => (listed row).mp mem)
        ((mirrors.shownRows_sorted parentInodeId).sublist filter_sublist)
      intro row
      rw [listed, mem_filter, mirrors.mem_shownRows]
      constructor
      · intro ⟨parent, after, newest, bound, clear⟩
        exact ⟨⟨parent, rfl, newest, bound, clear⟩, after⟩
      · intro ⟨⟨parent, _, newest, bound, clear⟩, after⟩
        exact ⟨parent, after, newest, bound, clear⟩
    rw [isShown]
    refine rel_filter ?_ same
    intro row entry sameEntry
    simp only [sameEntry.name]
  · refine ⟨[], entries, FamilyRows.page_of_hidden walkable visible limit, found, ?_⟩
    have noneShown : shownRows state seq parentInodeId (model.listedNames parentInodeId) = [] := by
      rw [eq_nil_iff_forall_not_mem]
      intro row mem
      have isListed := mirrors.mem_shownRows.mp mem
      have occupies := mirrors.consistent.edge_bound _ _ isListed.newest isListed.bound
      have parentClear := mt (mirrors.consistent.covered_of_occupant occupies) isListed.clear
      have shown := mirrors.consistent.visibleBinding_of_occupant floor occupies parentClear
      exact visible (isListed.parent ▸ shown.1)
    rw [noneShown] at same
    cases same
    simp

end Mirrors.ConsistentAt

/-- At every sequence of a history, the core's reads answer as the reference model does. -/
theorem reachable_readsRefine {policy : NamePolicy} {history : List WalCommitPayload}
    {state : LoonFs.MetadataState} (reachable : Reachable policy history state) :
    ∃ createdAtMs model,
      (MetadataState.bootstrapMetadataState createdAtMs).replay history = .ok model ∧
      ∀ seq ≤ history.length, ∀ floor,
        ReadsRefine policy state.familyRows seq floor model := by
  have settled := reachable.settled
  rcases replay_mirrors reachable with ⟨createdAtMs, model, replayed, mirrors⟩
  refine ⟨createdAtMs, model, replayed, fun seq le floor => ?_⟩
  have consistentAt : Mirrors.ConsistentAt model state seq :=
    ⟨mirrors, settled.root_unbound, settled.consistent seq le⟩
  exact {
    visible_inode := consistentAt.visibleInode_agrees floor
    visible_child := consistentAt.visibleChild_agrees floor
    visible_page_child := consistentAt.visiblePageChild_agrees floor
    listing := consistentAt.listing_agrees floor settled.ordered.binds.keys_nodup
    resolve_path := consistentAt.resolvePath_agrees policy floor
    would_create_cycle := consistentAt.wouldCreateCycle_agrees floor }

theorem sampleRun_readsRefine :
    Reachable .plain sampleRun.history sampleRun.state ∧
      ∃ model, ReadsRefine .plain sampleRun.state.familyRows 3 0 model := by
  rcases reachable_readsRefine sampleRun_reachable with ⟨_, model, _, refines⟩
  exact ⟨sampleRun_reachable, model, refines 3 (by decide +kernel) 0⟩

end LoonFs.Reference
