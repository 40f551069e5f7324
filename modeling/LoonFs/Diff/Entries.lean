import LoonFs.Diff.Touches

/-! # Entries -/

namespace LoonFs

open Foundation Option

/-- An inode at one sequence: absent, hidden, or visible under a parent and a name. -/
inductive InodeStatus where
  | absent
  | hidden
  | visible (edge : Option (InodeId × DisplayName)) (revisions : Revisions)

namespace Snapshot

variable (snapshot : Snapshot)

def revisions (inodeId : InodeId) : Revisions where
  revisionNo := (snapshot.revision inodeId).map RevisionRecord.revisionNo
  attributesRevisionNo :=
    ((snapshot.attributes inodeId).map AttributesRevisionRecord.attributesRevisionNo).getD 0
  accessRevisionNo := ((snapshot.access inodeId).map AccessRevisionRecord.accessRevisionNo).getD 0

def Visible (inodeId : InodeId) : Prop := snapshot.inode inodeId ≠ none ∧ ¬snapshot.Covered inodeId

open Classical in
noncomputable def status (inodeId : InodeId) : InodeStatus :=
  if snapshot.inode inodeId = none then .absent
  else if snapshot.Covered inodeId then .hidden
  else .visible (snapshot.namedEdge inodeId) (snapshot.revisions inodeId)

inductive Shows (inodeId : InodeId) : DiffState → Prop
  | absent : snapshot.inode inodeId = none → Shows inodeId .absent
  | hidden : snapshot.inode inodeId ≠ none → snapshot.Covered inodeId → Shows inodeId .hidden
  | visible (inode : InodeRecord) (path : AbsolutePath) :
      snapshot.inode inodeId = some inode → snapshot.VisibleAt inodeId path →
      Shows inodeId
        (.visible (.ofInode inodeId inode path (snapshot.binding inodeId)))

variable {snapshot}

theorem status_of_visible (isVisible : snapshot.Visible node) : snapshot.status node =
      .visible (snapshot.namedEdge node) (snapshot.revisions node) := by
  rw [status, if_neg isVisible.1, if_neg isVisible.2]

theorem VisibleAt.visible (isVisible : snapshot.VisibleAt inodeId path) :
    snapshot.Visible inodeId :=
  ⟨isVisible.1, isVisible.2.1⟩

theorem Consistent.attached_iff (consistent : snapshot.Consistent)
    (isPresent : snapshot.inode node ≠ none) :
    ¬snapshot.Covered node ↔ AtOrBelow (edgeParent snapshot.namedEdge) node rootInodeId := by
  have attached := consistent.tree.not_covered_iff isPresent
  rwa [tree_covered, tree_parent, ← edgeParent_namedEdge] at attached

theorem Consistent.exists_visibleAt (consistent : snapshot.Consistent)
    (isVisible : snapshot.Visible node) : ∃ path, snapshot.VisibleAt node path := by
  rcases exists_pathOf ((consistent.attached_iff isVisible.1).mp isVisible.2) with ⟨path, isPath⟩
  exact ⟨path, isVisible.1, isVisible.2, isPath⟩

end Snapshot

/-! ## Reading one end -/

section

variable {rows : FamilyRows}

theorem Snapshot.Consistent.diffState (consistent : (rows.snapshotAt seq).Consistent)
    (floor : ChangeSeq) (node : InodeId) :
    ∃ shown, (rows.readsAt seq floor).diffState node = .ok shown ∧
      (rows.snapshotAt seq).Shows node shown := by
  rw [MetadataVisibilityReads.diffState]
  cases found : (rows.readsAt seq floor).findInode node with
  | none => exact ⟨.absent, rfl, .absent found⟩
  | some inode =>
    have isPresent : (rows.snapshotAt seq).inode node = some inode := found
    rcases consistent.resolveVisibleInode_cases floor node with
      ⟨other, path, isInode, isVisible, result⟩ | ⟨hidden, result⟩
    · rw [result]
      exact ⟨_, rfl, .visible other path isInode isVisible⟩
    · rw [result]
      refine ⟨.hidden, rfl, .hidden (by simp [isPresent]) ?_⟩
      rcases hidden with absent | covered
      · rw [isPresent] at absent
        cases absent
      · exact covered

variable {inode : InodeRecord}

theorem Snapshot.Consistent.revisionsAt (consistent : (rows.snapshotAt seq).Consistent)
    (found : (rows.snapshotAt seq).inode inodeId = some inode) :
    (rows.revisionsAt seq inodeId inode.inodeKind).1 = (rows.snapshotAt seq).revisions inodeId := by
  cases kind : inode.inodeKind with
  | file => rfl
  | directory =>
    have noRevision := consistent.revision_eq_none fun other isInode => by
      cases found.symm.trans isInode
      simp [kind]
    simp only [Snapshot.revisions, noRevision]
    rfl

theorem Snapshot.Consistent.touchedRevisions (consistent : (rows.snapshotAt seq).Consistent)
    (found : (rows.snapshotAt seq).inode node = some inode) :
    (rows.touchedInodeAt seq node).revisions = some ((rows.snapshotAt seq).revisions node) := by
  have isInode : rows.inodeAtSeq seq node = some inode := found
  simp only [FamilyRows.touchedInodeAt, isInode, map_some]
  rw [consistent.revisionsAt found]

end

theorem ResolvedVisiblePath.edge_ofInode_eq_iff {node : InodeId} :
    (ofInode node inode path binding).edge = (ofInode node otherInode otherPath otherBinding).edge ↔
      binding.map (fun row => (row.parentInodeId, row.displayName.getD "")) =
        otherBinding.map fun row => (row.parentInodeId, row.displayName.getD "") := by
  cases binding <;> cases otherBinding <;> simp [edge, ofInode]

/-! ## How an inode's states differ -/

namespace Snapshot

def Differs (before after : Snapshot) (inodeId : InodeId) : DiffEntryKind → Prop
  | .created => before.inode inodeId = none ∧ after.Visible inodeId
  | .undeleted => before.inode inodeId ≠ none ∧ before.Covered inodeId ∧ after.Visible inodeId
  | .deleted => before.Visible inodeId ∧ ¬after.Visible inodeId
  | .moved =>
    before.Visible inodeId ∧ after.Visible inodeId ∧
      before.namedEdge inodeId ≠ after.namedEdge inodeId
  | .changed =>
    before.Visible inodeId ∧ after.Visible inodeId ∧
      before.namedEdge inodeId = after.namedEdge inodeId ∧
      before.revisions inodeId ≠ after.revisions inodeId

variable {before : Snapshot}

theorem Differs.shown (differs : before.Differs after inodeId kind) :
    before.Visible inodeId ∨ after.Visible inodeId := by
  cases kind with
  | created => exact .inr differs.2
  | undeleted => exact .inr differs.2.2
  | deleted | moved | changed => exact .inl differs.1

theorem Differs.unique (differs : before.Differs after node kind)
    (otherwise : before.Differs after node other) : kind = other := by
  cases kind <;> cases other <;> simp_all [Differs, Visible]

theorem exists_differs_iff :
    (∃ kind, before.Differs after inodeId kind) ↔ before.status inodeId ≠ after.status inodeId ∧
        (before.Visible inodeId ∨ after.Visible inodeId) := by
  by_cases shownAfter : after.Visible inodeId
  · by_cases shownBefore : before.Visible inodeId
    · rw [status_of_visible shownBefore, status_of_visible shownAfter]
      by_cases sameEdge : before.namedEdge inodeId = after.namedEdge inodeId
      · constructor
        · intro ⟨kind, differs⟩
          refine ⟨?_, .inl shownBefore⟩
          cases kind with
          | created => exact absurd differs.1 shownBefore.1
          | undeleted => exact absurd differs.2.1 shownBefore.2
          | deleted => exact absurd shownAfter differs.2
          | moved => exact absurd sameEdge differs.2.2
          | changed => simp [differs.2.2.2]
        · intro ⟨ne, _⟩
          refine ⟨.changed, shownBefore, shownAfter, sameEdge, fun same => ne ?_⟩
          rw [sameEdge, same]
      · refine ⟨fun _ => ⟨by simp [sameEdge], .inl shownBefore⟩, fun _ => ?_⟩
        exact ⟨.moved, shownBefore, shownAfter, sameEdge⟩
    · have ne : before.status inodeId ≠ after.status inodeId := by
        rw [status_of_visible shownAfter, status]
        split
        · simp
        · split
          · simp
          · rename_i isPresent clear
            exact absurd ⟨isPresent, clear⟩ shownBefore
      refine ⟨fun _ => ⟨ne, .inr shownAfter⟩, fun _ => ?_⟩
      by_cases absent : before.inode inodeId = none
      · exact ⟨.created, absent, shownAfter⟩
      · have covered : before.Covered inodeId := by
          by_contra clear
          exact shownBefore ⟨absent, clear⟩
        exact ⟨.undeleted, absent, covered, shownAfter⟩
  · by_cases shownBefore : before.Visible inodeId
    · have ne : before.status inodeId ≠ after.status inodeId := by
        rw [status_of_visible shownBefore, status]
        split
        · simp
        · split
          · simp
          · rename_i isPresent clear
            exact absurd ⟨isPresent, clear⟩ shownAfter
      exact ⟨fun _ => ⟨ne, .inl shownBefore⟩, fun _ => ⟨.deleted, shownBefore, shownAfter⟩⟩
    · constructor
      · intro ⟨kind, differs⟩
        exact absurd differs.shown (not_or.mpr ⟨shownBefore, shownAfter⟩)
      · intro ⟨_, shown⟩
        exact absurd shown (not_or.mpr ⟨shownBefore, shownAfter⟩)

end Snapshot

/-! ## Entries over the root -/

namespace Diff

variable {diff : Diff}

theorem showsAtOrBelow_root (isRoot : diff.subtree = []) (ends : List ResolvedVisiblePath) :
    diff.showsAtOrBelow ends = !ends.isEmpty := by
  cases ends <;> simp [showsAtOrBelow, isRoot, NamePolicy.isAtOrBelow]

structure Compares (diff : Diff) (before after : Snapshot) : Prop where
  fromSnapshot : diff.rows.snapshotAt diff.fromSeq = before
  toSnapshot : diff.rows.snapshotAt diff.toSeq = after
  fromConsistent : before.Consistent
  toConsistent : after.Consistent

theorem classify_visible (compares : diff.Compares before after)
    (found : before.inode inodeId = some inode)
    (otherFound : after.inode inodeId = some otherInode) (atOrBelow : Bool) :
    classify atOrBelow (fun kind => (diff.rows.revisionsAt diff.fromSeq inodeId kind).1)
        (diff.rows.touchedInodeAt diff.toSeq inodeId).revisions
        (.visible (.ofInode inodeId inode path (before.binding inodeId)))
        (.visible (.ofInode inodeId otherInode otherPath (after.binding inodeId))) =
      open Classical in if before.namedEdge inodeId ≠ after.namedEdge inodeId then
        some (.moved, some (before.revisions inodeId))
      else if atOrBelow = true ∧ before.revisions inodeId ≠ after.revisions inodeId then
        some (.changed, some (before.revisions inodeId)) else none := by
  have fromConsistent := compares.fromConsistent
  have toConsistent := compares.toConsistent
  rw [← compares.fromSnapshot] at fromConsistent found
  rw [← compares.toSnapshot] at toConsistent otherFound
  have fromRevisions := fromConsistent.revisionsAt found
  rw [compares.fromSnapshot] at fromRevisions
  have toRevisions := toConsistent.touchedRevisions otherFound
  rw [compares.toSnapshot] at toRevisions
  have edges : (ResolvedVisiblePath.ofInode inodeId inode path (before.binding inodeId)).edge ≠
      (ResolvedVisiblePath.ofInode inodeId otherInode otherPath (after.binding inodeId)).edge ↔
      before.namedEdge inodeId ≠ after.namedEdge inodeId :=
    not_congr ResolvedVisiblePath.edge_ofInode_eq_iff
  simp only [classify, edges, toRevisions]
  change (if _ then if _ then some (_, some (diff.rows.revisionsAt diff.fromSeq inodeId
    inode.inodeKind).1) else _ else _) = _
  by_cases differs : before.namedEdge inodeId ≠ after.namedEdge inodeId
  · simp [differs, fromRevisions]
  · cases atOrBelow <;>
      simp [differs, fromRevisions, ResolvedVisiblePath.ofInode]

theorem entryOf_root_cases (compares : diff.Compares before after) (isRoot : diff.subtree = [])
    (fromShows : before.Shows inodeId fromState) (toShows : after.Shows inodeId toState) :
    (∃ entry, diff.entryOf inodeId (diff.rows.touchedInodeAt diff.toSeq inodeId) fromState toState =
        some entry ∧ entry.inodeId = inodeId ∧ before.Differs after inodeId entry.kind) ∨
    (diff.entryOf inodeId (diff.rows.touchedInodeAt diff.toSeq inodeId) fromState toState = none ∧
      ∀ kind, ¬before.Differs after inodeId kind) := by
  have unseen : ¬before.Visible inodeId → ¬after.Visible inodeId →
      ∀ kind, ¬before.Differs after inodeId kind :=
    fun notBefore notAfter kind differs => differs.shown.elim notBefore notAfter
  simp only [entryOf, showsAtOrBelow_root isRoot]
  cases fromShows with
  | absent absent =>
    have notBefore : ¬before.Visible inodeId := fun shown => shown.1 absent
    cases toShows with
    | absent alsoAbsent => exact .inr ⟨rfl, unseen notBefore fun shown => shown.1 alsoAbsent⟩
    | hidden _ covered => exact .inr ⟨rfl, unseen notBefore fun shown => shown.2 covered⟩
    | visible inode path found shown => exact .inl ⟨_, rfl, rfl, absent, shown.visible⟩
  | hidden isPresent covered =>
    have notBefore : ¬before.Visible inodeId := fun shown => shown.2 covered
    cases toShows with
    | absent alsoAbsent => exact .inr ⟨rfl, unseen notBefore fun shown => shown.1 alsoAbsent⟩
    | hidden _ alsoCovered => exact .inr ⟨rfl, unseen notBefore fun shown => shown.2 alsoCovered⟩
    | visible inode path found shown => exact .inl ⟨_, rfl, rfl, isPresent, covered, shown.visible⟩
  | visible inode path found shown =>
    cases toShows with
    | absent absent =>
      exact .inl ⟨_, rfl, rfl, shown.visible, fun shownAfter => shownAfter.1 absent⟩
    | hidden _ covered =>
      exact .inl ⟨_, rfl, rfl, shown.visible, fun shownAfter => shownAfter.2 covered⟩
    | visible otherInode otherPath otherFound otherShown =>
      simp only [DiffState.visible?, List.filterMap_cons, List.filterMap_nil,
        List.isEmpty_cons, Bool.not_false, Bool.not_true, Bool.false_and,
        Bool.false_eq_true, if_false, classify_visible compares found otherFound]
      by_cases edgeDiffers : before.namedEdge inodeId ≠ after.namedEdge inodeId
      · rw [if_pos edgeDiffers]
        exact .inl ⟨_, rfl, rfl, shown.visible, otherShown.visible, edgeDiffers⟩
      rw [if_neg edgeDiffers]
      have sameEdge := not_not.mp edgeDiffers
      by_cases revised : before.revisions inodeId ≠ after.revisions inodeId
      · rw [if_pos ⟨trivial, revised⟩]
        exact .inl ⟨_, rfl, rfl, shown.visible, otherShown.visible, sameEdge, revised⟩
      · rw [if_neg fun both => revised both.2]
        refine .inr ⟨rfl, fun kind differs => ?_⟩
        cases kind with
        | created => exact shown.1 differs.1
        | undeleted => exact shown.2.1 differs.2.1
        | deleted => exact differs.2 otherShown.visible
        | moved => exact differs.2.2 sameEdge
        | changed => exact revised differs.2.2.2

/-! ## Entries under a path -/

def AppliesBelow (kind : DiffEntryKind) : Prop :=
  kind = .moved ∨ kind = .deleted ∨ kind = .undeleted

instance (kind : DiffEntryKind) : Decidable (AppliesBelow kind) :=
  inferInstanceAs (Decidable (_ ∨ _))

def Keeps (diff : Diff) (ends : List ResolvedVisiblePath) (entry : DiffEntry) : Prop :=
  diff.showsAtOrBelow ends = true ∨ diff.showsAbove ends = true ∧ AppliesBelow entry.kind

instance (diff : Diff) (ends : List ResolvedVisiblePath) (entry : DiffEntry) :
    Decidable (diff.Keeps ends entry) :=
  inferInstanceAs (Decidable (_ ∨ _))

def overRoot (diff : Diff) : Diff := { diff with subtree := [] }

theorem classify_eq_filter (atOrBelow : Bool) (fromRevisions : InodeKind → Revisions)
    (toRevisions : Option Revisions) (fromState toState : DiffState) :
    classify atOrBelow fromRevisions toRevisions fromState toState =
      (classify true fromRevisions toRevisions fromState toState).filter fun classified =>
        atOrBelow = true ∨ AppliesBelow classified.1 := by
  cases atOrBelow with
  | true => cases classify true fromRevisions toRevisions fromState toState <;> rfl
  | false =>
    cases fromState with
    | absent | hidden => cases toState <;> rfl
    | visible fromPath =>
      cases toState with
      | absent | hidden => rfl
      | visible toPath =>
        by_cases same : fromPath.edge = toPath.edge
        · by_cases revised : some (fromRevisions fromPath.inodeKind) = toRevisions <;>
            simp [classify, same, revised, AppliesBelow, filter_some]
        · simp [classify, same, AppliesBelow, filter_some]

theorem buildEntry_kind {entry : DiffEntry}
    (built : diff.buildEntry node kind fromRevisions toRevisions fromPath toPath = some entry) :
    entry.kind = kind := by
  rcases map_eq_some_iff.mp built with ⟨shown, _, rfl⟩
  rfl

theorem entryOf_eq_filter (node : InodeId) (touched : TouchedInode)
    (fromState toState : DiffState) : diff.entryOf node touched fromState toState =
      (diff.overRoot.entryOf node touched fromState toState).filter fun entry =>
        diff.Keeps ([fromState, toState].filterMap DiffState.visible?) entry := by
  simp only [entryOf, showsAtOrBelow_root (show diff.overRoot.subtree = [] from rfl)]
  cases [fromState, toState].filterMap DiffState.visible? with
  | nil => simp [showsAtOrBelow, showsAbove]
  | cons first rest =>
    rw [classify_eq_filter]
    simp only [overRoot, List.isEmpty_cons, Bool.not_false, Bool.not_true, Bool.false_and,
      Bool.false_eq_true, if_false]
    cases classify true (fun kind => (diff.rows.revisionsAt diff.fromSeq node kind).1)
        touched.revisions fromState toState with
    | none => simp
    | some classified =>
      change _ = (diff.buildEntry node classified.1 classified.2 touched.revisions
        fromState.visible? toState.visible?).filter _
      cases built : diff.buildEntry node classified.1 classified.2 touched.revisions
          fromState.visible? toState.visible? with
      | none =>
        cases diff.showsAtOrBelow (first :: rest) <;>
          by_cases applies : AppliesBelow classified.1 <;>
          simp [filter_some, applies, built]
      | some entry =>
        have kind := buildEntry_kind built
        cases atOrBelow : diff.showsAtOrBelow (first :: rest) <;>
          cases above : diff.showsAbove (first :: rest) <;>
          by_cases applies : AppliesBelow classified.1 <;>
          simp [filter_some, Keeps, kind, applies, built, atOrBelow, above]

end Diff

namespace Snapshot.Shows

variable {snapshot : Snapshot}

theorem visible? (shows : snapshot.Shows node shown) (isResolved : shown.visible? = some resolved) :
    snapshot.VisibleAt node resolved.absolutePath ∧
      ∃ inode, snapshot.inode node = some inode ∧ resolved.inodeKind = inode.inodeKind := by
  cases shows with
  | absent | hidden => cases isResolved
  | visible inode path found isVisible =>
    cases isResolved
    exact ⟨isVisible, inode, found, rfl⟩

theorem of_visibleAt (shows : snapshot.Shows node shown)
    (isVisible : snapshot.VisibleAt node path) :
    ∃ resolved, shown.visible? = some resolved ∧ resolved.absolutePath = path := by
  cases shows with
  | absent absent => exact absurd absent isVisible.1
  | hidden _ covered => exact absurd covered isVisible.2.1
  | visible inode otherPath found otherVisible =>
    refine ⟨_, rfl, ?_⟩
    exact otherVisible.2.2.unique snapshot.namedEdge_root isVisible.2.2

end Snapshot.Shows

/-! ## Ancestors that explain a difference -/

namespace Snapshot

variable {before after snapshot : Snapshot}

theorem Consistent.visible_of_attached (consistent : snapshot.Consistent)
    (attached : AtOrBelow (edgeParent snapshot.namedEdge) inodeId rootInodeId) :
    snapshot.Visible inodeId := by
  have isPresent : snapshot.inode inodeId ≠ none := by
    have below := attached
    rw [edgeParent_namedEdge, ← tree_parent] at below
    rcases below.cases with isRoot | ⟨above, pointer, _⟩
    · exact isRoot ▸ consistent.tree.directory_present _ consistent.tree.root_directory
    · rcases map_eq_some_iff.mp pointer with ⟨slot, place, _⟩
      exact consistent.tree.place_present _ _ place
  exact ⟨isPresent, (consistent.attached_iff isPresent).mpr attached⟩

theorem Consistent.visible_iff_attached (consistent : snapshot.Consistent) :
    snapshot.Visible node ↔ AtOrBelow (edgeParent snapshot.namedEdge) node rootInodeId :=
  ⟨fun shown => (consistent.attached_iff shown.1).mp shown.2, consistent.visible_of_attached⟩

theorem Consistent.above_present (consistent : snapshot.Consistent)
    (isPresent : snapshot.inode node ≠ none)
    (below : AtOrBelow (edgeParent snapshot.namedEdge) node top) : snapshot.inode top ≠ none := by
  rw [edgeParent_namedEdge, ← tree_parent] at below
  exact consistent.tree.below_present isPresent below

theorem exists_differs_above (fromConsistent : before.Consistent) (toConsistent : after.Consistent)
    (differ : ¬(before.VisibleAt inodeId path ↔ after.VisibleAt inodeId path)) :
    ∃ top kind, before.Differs after top kind ∧ ¬SameOwn after before top ∧ (top = inodeId ∨
        (AtOrBelow before.parent inodeId top ∨ AtOrBelow after.parent inodeId top) ∧
          Diff.AppliesBelow kind) := by
  have edges : ∀ {top}, before.namedEdge top ≠ after.namedEdge top → ¬SameOwn after before top := by
    intro top ne same
    exact ne (by rw [namedEdge, namedEdge, same.binding])
  by_cases shownBefore : before.Visible inodeId
  · by_cases shownAfter : after.Visible inodeId
    · rcases fromConsistent.exists_visibleAt shownBefore with ⟨fromPath, fromShown⟩
      rcases toConsistent.exists_visibleAt shownAfter with ⟨toPath, toShown⟩
      have pathsDiffer : fromPath ≠ toPath := by
        intro same
        subst same
        apply differ
        constructor
        · intro shown
          exact fromShown.2.2.unique before.namedEdge_root shown.2.2 ▸ toShown
        · intro shown
          exact toShown.2.2.unique after.namedEdge_root shown.2.2 ▸ fromShown
      rcases exists_redirected_of_path_ne after.namedEdge_root fromShown.2.2 toShown.2.2
          pathsDiffer with ⟨top, below, fromAttached, toAttached, ne⟩
      rw [edgeParent_namedEdge] at below
      exact ⟨top, .moved, ⟨fromConsistent.visible_of_attached fromAttached,
        toConsistent.visible_of_attached toAttached, ne⟩, edges ne,
        .inr ⟨.inl below, .inl rfl⟩⟩
    · have detached := mt toConsistent.visible_of_attached shownAfter
      rcases exists_redirected_of_detached (by
            rw [edgeParent_namedEdge, ← tree_parent]
            exact toConsistent.tree.acyclic)
          (fromConsistent.visible_iff_attached.mp shownBefore) detached with
        ⟨top, below, fromAttached, toDetached, ne⟩
      rw [edgeParent_namedEdge] at below
      exact ⟨top, .deleted, ⟨fromConsistent.visible_of_attached fromAttached,
        fun shown => toDetached (toConsistent.visible_iff_attached.mp shown)⟩, edges ne,
        .inr ⟨.inr below, .inr (.inl rfl)⟩⟩
  · have shownAfter : after.Visible inodeId := by
      by_contra notShown
      exact differ ⟨fun shown => absurd shown.visible shownBefore,
        fun shown => absurd shown.visible notShown⟩
    by_cases absent : before.inode inodeId = none
    · refine ⟨inodeId, .created, ⟨absent, shownAfter⟩, ?_, .inl rfl⟩
      exact fun same => shownAfter.1 (same.inode.trans absent)
    · have detached := mt fromConsistent.visible_of_attached shownBefore
      rcases exists_redirected_of_detached (by
            rw [edgeParent_namedEdge, ← tree_parent]
            exact fromConsistent.tree.acyclic)
          (toConsistent.visible_iff_attached.mp shownAfter) detached with
        ⟨top, below, toAttached, fromDetached, ne⟩
      have isPresent := fromConsistent.above_present absent below
      have covered : before.Covered top := by
        by_contra clear
        exact fromDetached ((fromConsistent.attached_iff isPresent).mp clear)
      rw [edgeParent_namedEdge] at below
      exact ⟨top, .undeleted, ⟨isPresent, covered,
        toConsistent.visible_of_attached toAttached⟩, edges ne.symm,
        .inr ⟨.inl below, .inr (.inr rfl)⟩⟩

end Snapshot

end LoonFs
