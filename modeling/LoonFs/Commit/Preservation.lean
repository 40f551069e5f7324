import LoonFs.Commit.Effects

/-! # What an accepted operation preserves -/

namespace LoonFs

open Foundation Function DirentryBindingRecord FamilyRows

namespace Snapshot

def addDeltas (header : CommitHeader) (snapshot : Snapshot) (deltas : List WalDelta) : Snapshot :=
  deltas.foldl (fun snapshot delta =>
    snapshot.addRows (MetadataState.deltaRows header delta)) snapshot

def Admits (snapshot : Snapshot) : WalDelta → Prop
  | .createInode _ inodeId _ => snapshot.inode inodeId = none
  | .appendFileRevision _ inodeId _ _ _ _ _ _ revisionNo _ _ _ =>
    ∀ current, snapshot.revision inodeId = some current → current.revisionNo < revisionNo
  | .appendAttributesRevision _ inodeId revisionNo _ =>
    ∀ current, snapshot.attributes inodeId = some current →
      current.attributesRevisionNo < revisionNo
  | .appendAccessRevision _ inodeId revisionNo _ _ =>
    ∀ current, snapshot.access inodeId = some current →
      current.accessRevisionNo < revisionNo
  | _ => True

def Replayable (header : CommitHeader) : Nat → Snapshot → List WalDelta → Prop
  | _, _, [] => True
  | first, snapshot, delta :: rest =>
    delta.deltaIndex = first ∧ snapshot.Admits delta ∧
      Replayable header (first + 1)
        (snapshot.addRows (MetadataState.deltaRows header delta)) rest

end Snapshot

namespace MetadataState

variable {state : MetadataState} {header : CommitHeader}

private theorem revisionNo_lt {Row : Type} {inodeOf number committedSeq : Row → Nat}
    {position : Row → DeltaPosition} {rows : List Row} {node next seq : Nat}
    (visible : ∀ row ∈ rows, committedSeq row ≤ seq) (numbered : ∀ current,
      newestOf (fun row => (toLex (number row, position row) : RevisionOrderKey)) inodeOf
        (rows.filter fun row => committedSeq row ≤ seq) node = some current →
      number current < next) : ∀ row ∈ rows, inodeOf row = node → number row < next := by
  intro row mem same
  have shown : row ∈ rows.filter fun row => committedSeq row ≤ seq :=
    List.mem_filter.mpr ⟨mem, by simpa using visible row mem⟩
  cases newest : newestOf (fun row => (toLex (number row, position row) : RevisionOrderKey))
      inodeOf (rows.filter fun row => committedSeq row ≤ seq) node with
  | none => exact absurd same (newestOf_eq_none_iff.mp newest row shown)
  | some current =>
    have le := (newestOf_isNewest newest).2.2 row shown same
    have numberLe : number row ≤ number current := by
      rcases Prod.Lex.le_iff.mp le with less | ⟨eq, _⟩
      · exact le_of_lt less
      · exact le_of_eq eq
    exact lt_of_le_of_lt numberLe (numbered current newest)

theorem Ordered.admits {first : Nat} {delta : WalDelta}
    (ordered : state.Ordered ⟨header.committedSeq, first⟩)
    (admits : (state.snapshotAt header.committedSeq).Admits delta) : state.Admits delta := by
  have visible : ∀ {position : DeltaPosition}, position < ⟨header.committedSeq, first⟩ →
      position.seq ≤ header.committedSeq :=
    fun below => DeltaPosition.seq_le_of_le (le_of_lt below)
  cases delta with
  | createInode index node kind =>
    intro record mem same
    have absent := List.find?_eq_none.mp admits record mem
    simp [same, ordered.inodes_seq_le record mem] at absent
  | appendFileRevision =>
    simp only [Snapshot.Admits, snapshotAt, snapshotAt_revision] at admits
    exact revisionNo_lt (fun row mem => visible (ordered.revisions.below row mem)) admits
  | appendAttributesRevision =>
    simp only [Snapshot.Admits, snapshotAt, snapshotAt_attributes] at admits
    exact revisionNo_lt (fun row mem => visible (ordered.attributes.below row mem)) admits
  | appendAccessRevision =>
    simp only [Snapshot.Admits, snapshotAt, snapshotAt_access] at admits
    exact revisionNo_lt (fun row mem => visible (ordered.access.below row mem)) admits
  | _ => trivial

theorem Ordered.replay :
    ∀ {first : Nat} {state : MetadataState}, state.Ordered ⟨header.committedSeq, first⟩ →
      Snapshot.Replayable header first (state.snapshotAt header.committedSeq) deltas →
      (state.applyCommittedWalDeltas header deltas).Ordered
          ⟨header.committedSeq, first + deltas.length⟩ ∧
        (state.applyCommittedWalDeltas header deltas).snapshotAt header.committedSeq =
          (state.snapshotAt header.committedSeq).addDeltas header deltas := by
  induction deltas with
  | nil =>
    intro first state ordered _
    exact ⟨ordered, rfl⟩
  | cons delta rest induction =>
    intro first state ordered replayable
    rcases replayable with ⟨rfl, admits, replayable⟩
    have admitted := ordered.admits admits
    have step := snapshotAt_applyDelta ordered admitted (le_refl header.committedSeq)
    rw [← step] at replayable
    rcases induction (ordered.applyDelta admitted) replayable with ⟨orderedAfter, eq⟩
    rw [step] at eq
    refine ⟨?_, eq⟩
    rw [List.length_cons, Nat.add_comm rest.length, ← Nat.add_assoc]
    exact orderedAfter

end MetadataState

variable {record : DirentryBindingRecord}

theorem DirentryBindingRecord.exists_displayName (bound : record.isBound = true) :
    ∃ name, record.displayName = some name := by
  cases state : record.state with
  | bound name revision => exact ⟨name, by simp [displayName, state]⟩
  | unbound => simp [isBound, state] at bound

theorem DirentryBindingRecord.isBindingEvent_eq_false (bound : record.isBound = true)
    (moved : record.position ≠ record.bindPosition) : record.isBindingEvent = false := by
  simp [isBindingEvent, bound, moved]

namespace Snapshot

variable {snapshot moved : Snapshot} {record : DirentryBindingRecord}

theorem tree_bind
    (taken : moved.tree = snapshot.tree.relocate record.childInodeId none none wasDirectory)
    (bound : record.isBound = true) (position : record.position = record.bindPosition)
    (notRoot : record.childInodeId ≠ rootInodeId) : (moved.putBinding record).tree =
      snapshot.tree.relocate record.childInodeId (some record.slot) none
        (wasDirectory ∨ False) := by
  have event : record.isBindingEvent = true := by
    simp [DirentryBindingRecord.isBindingEvent, position]
  rw [tree_putBinding event notRoot, taken, DirectoryTree.relocate_relocate, if_pos bound]
  · rw [taken]
    exact .inl rfl
  · simp [taken, DirectoryTree.relocate, bound]
  · simp [taken, DirectoryTree.relocate]

theorem tree_delete {record : SubtreeTombstoneRecord} (taken : moved.tree =
      snapshot.tree.relocate record.rootInodeId none none wasDirectory)
    (hides : record.action.hidesSubtree = true) : (moved.putTombstone record).tree =
      snapshot.tree.relocate record.rootInodeId none (some record.committedSeq)
        (wasDirectory ∨ False) := by
  rw [tree_putTombstone, taken, DirectoryTree.relocate_relocate, hides, if_pos rfl]
  · rw [taken]
    exact .inl rfl
  · simp [taken, DirectoryTree.relocate]

theorem tree_putBinding_summary (summary : record.isBindingEvent = false)
    (bound : record.isBound = true) (occupies : snapshot.occupant record.slot = some existing)
    (sameChild : existing.childInodeId = record.childInodeId) :
    (snapshot.putBinding record).tree = snapshot.tree := by
  apply DirectoryTree.ext
  case place =>
    funext node
    simp only [tree, snapshot.binding_putBinding_summary summary]
  case occupant =>
    funext slot
    by_cases same : slot = record.slot
    · simp [tree, occupant_putBinding, bound, same, occupies, sameChild]
    · simp [tree, occupant_putBinding, same]
  case present => rfl
  case directory => rfl
  case deletion => rfl

theorem binding_eq_none (unplaced : snapshot.tree.place node = none) :
    snapshot.binding node = none := by
  simpa [tree] using unplaced

theorem binding_isBound (found : snapshot.binding node = some event) : event.isBound = true := by
  rw [binding] at found
  split at found
  · cases found
  · exact (Option.filter_eq_some_iff.mp found).2

namespace Consistent

variable (consistent : snapshot.Consistent)

include consistent

variable {slot : InodeId × NameKey}

theorem place_of_occupant (occupies : snapshot.occupant slot = some row) :
    snapshot.tree.place row.childInodeId = some slot :=
  (consistent.tree.occupant_iff slot _).mp (by simp [Snapshot.tree, occupies])

theorem unplaced_of_absent (absent : snapshot.inode node = none) :
    snapshot.tree.place node = none ∧ snapshot.tree.deletion node = none := by
  constructor
  · by_contra placed
    rcases Option.ne_none_iff_exists'.mp placed with ⟨slot, place⟩
    exact consistent.tree.place_present node slot place absent
  · by_contra deleted
    exact consistent.tree.deletion_present node deleted absent

theorem not_covered_of_absent (absent : snapshot.inode inodeId = none) :
    ¬snapshot.Covered inodeId := by
  rcases consistent.unplaced_of_absent absent with ⟨unplaced, notDeleted⟩
  intro ⟨ancestor, below, deleted⟩
  have top : snapshot.parent inodeId = none := by
    rw [← tree_parent, DirectoryTree.parent, unplaced]
    rfl
  cases below.eq_of_top top
  exact deleted (by simpa [Snapshot.tree] using notDeleted)

theorem atOrBelow_root (isPresent : snapshot.inode node ≠ none) (clear : ¬snapshot.Covered node) :
    AtOrBelow snapshot.tree.parent node rootInodeId := by
  rw [← tree_covered] at clear
  exact (consistent.tree.not_covered_iff isPresent).mp clear

theorem reaches_root (placeable : snapshot.Placeable node slot) :
    AtOrBelow snapshot.tree.parent slot.1 rootInodeId :=
  consistent.atOrBelow_root
    (consistent.tree.directory_present _ (placeable.relocatable.directory slot rfl))
    placeable.clear

end Consistent

end Snapshot

def WalDelta.WritesSummary (header : CommitHeader) : WalDelta → Prop
  | .appendFileRevision deltaIndex _ _ _ _ bindPosition _ _ _ _ _ _ =>
    bindPosition ≠ ⟨header.committedSeq, deltaIndex⟩
  | _ => True

namespace Effect

open Snapshot MetadataState

variable {snapshot : Snapshot} {header : CommitHeader} {first : Nat} {deltas : List WalDelta}

theorem replayable (effect : Effect snapshot header first deltas)
    (consistent : snapshot.Consistent) : Replayable header first snapshot deltas := by
  cases effect with
  | createDirectory child parent nameKey displayName fresh placeable =>
    exact ⟨rfl, fresh, rfl, trivial, trivial⟩
  | createFile child parent nameKey displayName contentRef layout appendOffset fresh
        placeable =>
      refine ⟨rfl, fresh, rfl, trivial, rfl, ?_, trivial⟩
      intro current newest
      rcases consistent.revision_file child current newest with ⟨inode, found, _⟩
      rw [fresh] at found
      cases found
  | revise node edge newest contentRef layout appendOffset isFile bound clear current =>
    refine ⟨rfl, ?_, trivial⟩
    intro other otherNewest
    rw [(consistent.binding_event _ _ bound).1, current] at otherNewest
    cases otherNewest
    exact Nat.lt_succ_self _
  | move | remove | restore => exact ⟨rfl, trivial, rfl, trivial, trivial⟩
  | attributes node revisionNo attributes isPresent clear numbered =>
    refine ⟨rfl, ?_, trivial⟩
    intro current newest
    rw [numbered, newest]
    exact Nat.lt_succ_self _
  | access node revisionNo boundary grants isPresent clear numbered =>
    refine ⟨rfl, ?_, trivial⟩
    intro current newest
    rw [numbered, newest]
    exact Nat.lt_succ_self _

abbrev TreeStep (snapshot : Snapshot) (header : CommitHeader) :
    DirectoryTree InodeId NameKey ChangeSeq → Prop :=
  Relation.ReflGen (DirectoryTree.Change rootInodeId (· = header.committedSeq)) snapshot.tree

/-- What an effect leaves behind. -/
structure Leaves (snapshot : Snapshot) (header : CommitHeader) (after : Snapshot) : Prop where
  tree : TreeStep snapshot header after.tree
  coherent : after.Coherent

variable {inode : InodeRecord} {record : DirentryBindingRecord}

private theorem bind_leaves {moved : Snapshot} (consistent : snapshot.Consistent)
    (movedCoherent : moved.Coherent)
    (taken : moved.tree = snapshot.tree.relocate record.childInodeId none none wasDirectory)
    (placeable : snapshot.Placeable record.childInodeId record.slot)
    (movable : ¬snapshot.Covered record.childInodeId ∨ snapshot.tree.deletion record.childInodeId
      ≠ none) (bound : record.isBound = true) (position : record.position = record.bindPosition)
    (found : moved.inode record.childInodeId = some inode)
    (kind : record.childKind = inode.inodeKind)
    (createdBy : record.childCreatedBy = inode.committedBy)
    (createdAt : record.childCreatedAtMs = inode.committedAtMs)
    (carried : moved.SummaryOf inode record.revision) :
    Leaves snapshot header (moved.putBinding record) := by
  have notRoot := placeable.relocatable.notRoot
  have single : moved.binding record.childInodeId = none := by
    apply binding_eq_none
    simp [taken, DirectoryTree.relocate]
  have free : moved.occupant record.slot = none := by
    have empty : moved.tree.occupant record.slot = none := by
      rw [taken]
      simp only [DirectoryTree.relocate, reduceCtorEq, if_false]
      split
      · rfl
      · rename_i elsewhere
        rcases placeable.relocatable.free record.slot rfl with empty | own
        · exact empty
        · exact absurd ((consistent.tree.occupant_iff _ _).mp own) elsewhere
    simpa [Snapshot.tree] using empty
  constructor
  case tree =>
    rw [tree_bind taken bound position notRoot]
    refine .single (.place _ _ _ placeable.relocatable (consistent.reaches_root placeable) ?_)
    rwa [tree_covered]
  case coherent =>
    exact movedCoherent.bind position notRoot free single found kind createdBy createdAt
      carried

variable {source : ResolvedBinding}

private theorem unbind_leaves (consistent : snapshot.Consistent)
    (detached : snapshot.Source inode source) (unbound : record.isBound = false)
    (slot : record.slot = (source.parentInodeId, source.nameKey))
    (child : record.childInodeId = inode.inodeId) :
    (snapshot.putBinding record).Coherent ∧ (snapshot.putBinding record).tree =
        snapshot.tree.relocate record.childInodeId none none False ∧
      record.childInodeId ≠ rootInodeId := by
  rcases detached.occupies with ⟨existing, occupies, sameChild, _⟩
  have place := consistent.place_of_occupant occupies
  rw [sameChild, ← child] at place
  have notRoot : record.childInodeId ≠ rootInodeId := by
    intro isRoot
    rw [isRoot, consistent.tree.root_place] at place
    cases place
  have kept : snapshot.tree.deletion record.childInodeId = none := by
    by_contra deleted
    rw [consistent.tree.deletion_place _ deleted] at place
    cases place
  rw [← slot] at occupies place
  have isPresent := consistent.tree.place_present _ _ place
  have taken := tree_putBinding (isBindingEvent_of_unbound unbound) notRoot isPresent
    (by simp [unbound, place]) kept
  simp only [unbound, Bool.false_eq_true, if_false] at taken
  exact ⟨consistent.toCoherent.unbind unbound notRoot occupies (sameChild.trans child.symm),
    taken, notRoot⟩

variable {unbound bound : DirentryBindingRecord}

private theorem move_leaves (consistent : snapshot.Consistent)
    (detached : snapshot.Source inode source) (isUnbound : unbound.isBound = false)
    (unboundSlot : unbound.slot = (source.parentInodeId, source.nameKey))
    (unboundChild : unbound.childInodeId = inode.inodeId)
    (boundChild : bound.childInodeId = inode.inodeId)
    (placeable : snapshot.Placeable bound.childInodeId bound.slot)
    (isBound : bound.isBound = true) (position : bound.position = bound.bindPosition)
    (kind : bound.childKind = inode.inodeKind)
    (createdBy : bound.childCreatedBy = inode.committedBy)
    (createdAt : bound.childCreatedAtMs = inode.committedAtMs)
    (carried : snapshot.SummaryOf inode bound.revision) :
    Leaves snapshot header ((snapshot.putBinding unbound).putBinding bound) := by
  rcases unbind_leaves consistent detached isUnbound unboundSlot unboundChild with
    ⟨coherent, taken, _⟩
  rw [unboundChild, ← boundChild] at taken
  exact bind_leaves consistent coherent taken placeable (.inl (boundChild ▸ detached.clear))
    isBound position (boundChild ▸ detached.found) kind createdBy createdAt carried

private theorem remove_leaves {tombstone : SubtreeTombstoneRecord}
    (consistent : snapshot.Consistent) (detached : snapshot.Source inode source)
    (isUnbound : unbound.isBound = false)
    (unboundSlot : unbound.slot = (source.parentInodeId, source.nameKey))
    (unboundChild : unbound.childInodeId = inode.inodeId)
    (hides : tombstone.action.hidesSubtree = true) (root : tombstone.rootInodeId = inode.inodeId)
    (stamped : tombstone.committedSeq = header.committedSeq) :
    Leaves snapshot header ((snapshot.putBinding unbound).putTombstone tombstone) := by
  rcases unbind_leaves consistent detached isUnbound unboundSlot unboundChild with
    ⟨coherent, taken, notRoot⟩
  rw [unboundChild, ← root] at taken
  refine ⟨?_, coherent.withOthers _ _ _⟩
  rw [tree_delete taken hides, stamped, false_or]
  refine .single (.delete _ _ (by rwa [root, ← unboundChild]) rfl ?_)
  rw [root, tree_covered]
  exact detached.clear

variable {revision : RevisionRecord}

private theorem revise_leaves {bound : Snapshot} {existing : DirentryBindingRecord}
    (before : Leaves snapshot header bound) (found : bound.inode revision.inodeId = some inode)
    (isFile : inode.inodeKind = .file) (occupies : bound.occupant record.slot = some existing)
    (child : record.childInodeId = revision.inodeId)
    (sameChild : existing.childInodeId = record.childInodeId) (isBound : record.isBound = true)
    (summary : record.isBindingEvent = false) (name : record.displayName = existing.displayName)
    (position : record.bindPosition = existing.bindPosition) (kind : record.childKind = .file)
    (createdBy : record.childCreatedBy = inode.committedBy)
    (createdAt : record.childCreatedAtMs = inode.committedAtMs)
    (carried : record.revision = some revision.summary) :
    Leaves snapshot header ((bound.putRevision revision).putBinding record) := by
  refine ⟨?_, before.coherent.revise found isFile occupies child sameChild isBound summary name
    position kind createdBy createdAt carried⟩
  have sameTree : ((bound.putRevision revision).putBinding record).tree = bound.tree :=
    tree_putBinding_summary summary isBound occupies sameChild
  rw [sameTree]
  exact before.tree

private theorem putBinding_putRevision (snapshot : Snapshot) (record : DirentryBindingRecord)
    (revision : RevisionRecord) : (snapshot.putBinding record).putRevision revision =
      ((snapshot.putRevision revision).putBinding record).putRevision revision := by
  simp [putBinding, putRevision]

private theorem createFile_leaves {summary : DirentryBindingRecord}
    (consistent : snapshot.Consistent) (fresh : snapshot.inode inode.inodeId = none)
    (isFile : inode.inodeKind = .file) (revised : revision.inodeId = inode.inodeId)
    (boundChild : bound.childInodeId = inode.inodeId)
    (placeable : snapshot.Placeable bound.childInodeId bound.slot)
    (isBound : bound.isBound = true) (boundPosition : bound.position = bound.bindPosition)
    (boundKind : bound.childKind = inode.inodeKind)
    (boundBy : bound.childCreatedBy = inode.committedBy)
    (boundAt : bound.childCreatedAtMs = inode.committedAtMs)
    (boundSummary : bound.revision = some revision.summary) (sameSlot : summary.slot = bound.slot)
    (sameChild : summary.childInodeId = bound.childInodeId)
    (summaryBound : summary.isBound = true) (isSummary : summary.isBindingEvent = false)
    (name : summary.displayName = bound.displayName)
    (position : summary.bindPosition = bound.bindPosition) (kind : summary.childKind = .file)
    (createdBy : summary.childCreatedBy = inode.committedBy)
    (createdAt : summary.childCreatedAtMs = inode.committedAtMs)
    (carried : summary.revision = some revision.summary) : Leaves snapshot header
      ((((snapshot.putInode inode).putBinding bound).putRevision revision).putBinding summary) := by
  have unused := consistent.unplaced_of_absent fresh
  have found : (snapshot.putInode inode).inode revision.inodeId = some inode := by
    rw [revised]
    exact update_self _ _ _
  have filed : ((snapshot.putInode inode).putRevision revision).Coherent :=
    (consistent.toCoherent.putInode fresh).putRevision found isFile
      (by rw [revised]; exact binding_eq_none unused.1)
  have placed : Leaves snapshot header
      (((snapshot.putInode inode).putRevision revision).putBinding bound) := by
    have taken := tree_putInode (not_not.mpr fresh) unused.1 unused.2
    rw [← boundChild] at taken
    refine bind_leaves consistent filed taken placeable
      (.inl (boundChild ▸ consistent.not_covered_of_absent fresh)) isBound boundPosition
      ((boundChild.trans revised.symm) ▸ found) boundKind boundBy boundAt
      (.inr ⟨isFile, revision, ?_, boundSummary⟩)
    rw [← revised]
    exact update_self _ _ _
  rw [putBinding_putRevision]
  refine revise_leaves placed found isFile ?_ (by rw [sameChild, boundChild, revised])
    sameChild.symm summaryBound isSummary name position kind createdBy createdAt carried
  rw [occupant_putBinding, isBound, sameSlot]
  exact update_self _ _ _

theorem leaves (effect : Effect snapshot header first deltas) (consistent : snapshot.Consistent)
    (below : ∀ node event, snapshot.binding node = some event →
      event.position < ⟨header.committedSeq, first⟩) :
    Leaves snapshot header (snapshot.addDeltas header deltas) := by
  cases effect with
  | createDirectory child parent nameKey displayName fresh placeable =>
    have unused := consistent.unplaced_of_absent fresh
    simp only [addDeltas, List.foldl, deltaRows, addRows_inode, addRows_binding]
    exact bind_leaves consistent (consistent.toCoherent.putInode fresh)
      (tree_putInode (not_not.mpr fresh) unused.1 unused.2) placeable
      (.inl (consistent.not_covered_of_absent fresh)) rfl rfl
      (update_self _ _ _) rfl rfl rfl (.inl ⟨rfl, rfl⟩)
  | createFile child parent nameKey displayName contentRef layout appendOffset fresh
        placeable =>
      simp only [addDeltas, List.foldl, deltaRows, addRows_inode, addRows_binding, addRows_revision]
      refine createFile_leaves consistent fresh rfl rfl rfl placeable rfl rfl rfl rfl rfl rfl rfl
        rfl rfl ?_ rfl rfl rfl rfl rfl rfl
      exact isBindingEvent_eq_false rfl (by
        simp [DirentryBindingRecord.position])
  | revise node edge newest contentRef layout appendOffset isFile bound clear current =>
    rcases isFile with ⟨inode, found, isFile⟩
    rcases consistent.binding_event _ _ bound with
      ⟨rfl, position, other, otherFound, createdBy, createdAt⟩
    rw [found] at otherFound
    cases otherFound
    have placed : snapshot.tree.place edge.childInodeId = some edge.slot := by
      simp [Snapshot.tree, bound]
    rcases Option.map_eq_some_iff.mp ((consistent.tree.occupant_iff _ _).mpr placed) with
      ⟨existing, occupies, sameChild⟩
    rcases (consistent.copies _ _ occupies).event with
      ⟨event, eventBound, _, eventName, eventPosition⟩
    rw [sameChild, bound] at eventBound
    cases eventBound
    rcases edge.exists_displayName (binding_isBound bound) with ⟨name, hasName⟩
    simp only [addDeltas, List.foldl, deltaRows, addRows_revision]
    refine revise_leaves ⟨.refl, consistent.toCoherent⟩ found isFile occupies rfl sameChild
      rfl ?_ ?_ (position.symm.trans eventPosition) rfl createdBy createdAt rfl
    · -- The bind of the edge lies before the revision.
      refine isBindingEvent_eq_false rfl ?_
      rw [← position]
      exact ne_of_gt (below _ _ bound)
    · rw [← eventName, hasName]
      rfl
  | move inode source parent nameKey displayName summary detached placeable carried =>
    simp only [addDeltas, List.foldl, deltaRows, addRows_binding]
    exact move_leaves consistent detached rfl rfl detached.child rfl placeable rfl rfl rfl rfl
      rfl carried
  | remove inode source detached =>
    simp only [addDeltas, List.foldl, deltaRows, addRows_binding, addRows_tombstone]
    exact remove_leaves consistent detached rfl rfl detached.child rfl rfl rfl
  | restore inode deletion parent nameKey displayName summary found deleted past placeable
        carried =>
      simp only [addDeltas, List.foldl, deltaRows, addRows_binding, addRows_tombstone]
      have isDeleted : snapshot.tree.deletion inode.inodeId ≠ none := by
        simp [Snapshot.tree, deleted]
      refine bind_leaves consistent (consistent.toCoherent.withOthers _ _ _)
        (tree_putTombstone (consistent.tree.deletion_present _ isDeleted)
          (consistent.tree.deletion_place _ isDeleted))
        placeable (.inr isDeleted) rfl rfl found rfl rfl rfl carried
  | attributes node revisionNo attributes isPresent clear numbered =>
    exact ⟨.refl, consistent.toCoherent.withOthers _ _ _⟩
  | access node revisionNo boundary grants isPresent clear numbered =>
    exact ⟨.refl, consistent.toCoherent.withOthers _ _ _⟩

theorem Leaves.wellFormed (leaves : Leaves snapshot header after)
    (consistent : snapshot.Consistent) : after.tree.WellFormed rootInodeId := by
  rcases Relation.reflGen_iff _ _ _ |>.mp leaves.tree with same | change
  · exact same ▸ consistent.tree
  · exact change.wellFormed consistent.tree

section

variable (effect : Effect snapshot header first deltas)

include effect

private theorem file_revision (consistent : snapshot.Consistent) :
    ∀ node inode, (snapshot.addDeltas header deltas).inode node = some inode →
      inode.inodeKind = .file → (snapshot.addDeltas header deltas).revision node ≠ none := by
  intro node inode found isFile
  cases effect with
  | createDirectory child =>
    by_cases same : node = child
    · subst same
      have created := (update_self _ _ _).symm.trans found
      cases created
      cases isFile
    · exact consistent.file_revision node inode
        ((update_of_ne same _ _).symm.trans found) isFile
  | createFile child =>
    by_cases same : node = child
    · subst same
      simp [addDeltas, deltaRows, addRows, putAll]
    · have before := consistent.file_revision node inode
        ((update_of_ne same _ _).symm.trans found) isFile
      simpa [addDeltas, deltaRows, addRows, putAll, same] using before
  | revise reviseId edge =>
    by_cases same : node = edge.childInodeId
    · subst same
      simp [addDeltas, deltaRows, addRows, putAll]
    · have before := consistent.file_revision node inode found isFile
      simpa [addDeltas, deltaRows, addRows, putAll, same] using before
  | move | remove | restore | attributes | access =>
    exact consistent.file_revision node inode found isFile

theorem consistent (consistent : snapshot.Consistent)
    (below : ∀ node event, snapshot.binding node = some event →
      event.position < ⟨header.committedSeq, first⟩) :
    (snapshot.addDeltas header deltas).Consistent :=
  have leaves := effect.leaves consistent below
  { leaves.coherent with
    tree := leaves.wellFormed consistent
    file_revision := effect.file_revision consistent }

theorem root_unbound (consistent : snapshot.Consistent) :
    ∀ delta ∈ deltas, ∀ row ∈ (deltaRows header delta).direntryBinds,
      row.childInodeId ≠ rootInodeId := by
  have source_ne_root : ∀ {inode source}, snapshot.Source inode source →
      source.childInodeId ≠ rootInodeId := by
    intro inode source detached isRoot
    rcases detached.occupies with ⟨existing, occupies, sameChild, _⟩
    have place := consistent.place_of_occupant occupies
    rw [sameChild, ← detached.child, isRoot, consistent.tree.root_place] at place
    cases place
  cases effect with
  | createDirectory child parent nameKey displayName fresh placeable =>
    simpa [deltaRows] using placeable.relocatable.notRoot
  | createFile child parent nameKey displayName contentRef layout appendOffset fresh
        placeable =>
      simpa [deltaRows] using placeable.relocatable.notRoot
  | revise node edge newest contentRef layout appendOffset isFile bound clear current =>
    have child := (consistent.binding_event _ _ bound).1
    have notRoot : edge.childInodeId ≠ rootInodeId := by
      intro isRoot
      rw [← child, isRoot, Snapshot.binding, if_pos rfl] at bound
      cases bound
    simpa [deltaRows] using notRoot
  | move inode source parent nameKey displayName summary detached placeable carried =>
    simpa [deltaRows] using ⟨source_ne_root detached, placeable.relocatable.notRoot⟩
  | remove inode source detached => simpa [deltaRows] using source_ne_root detached
  | restore inode deletion parent nameKey displayName summary found deleted past placeable
        carried =>
      simpa [deltaRows] using placeable.relocatable.notRoot
  | attributes | access => simp [deltaRows]

theorem writesSummary (consistent : snapshot.Consistent)
    (below : ∀ node event, snapshot.binding node = some event →
      event.position < ⟨header.committedSeq, first⟩) :
    ∀ delta ∈ deltas, delta.WritesSummary header := by
  cases effect with
  | createFile => simp [WalDelta.WritesSummary]
  | revise node edge newest contentRef layout appendOffset isFile bound clear current =>
    have position := (consistent.binding_event _ _ bound).2.1
    have past := ne_of_lt (position ▸ below _ _ bound)
    simpa [WalDelta.WritesSummary] using past
  | _ => simp [WalDelta.WritesSummary]

end

end Effect

end LoonFs
