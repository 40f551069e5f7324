import LoonFs.Foundation.Newest
import LoonFs.Metadata.State
import LoonFs.Metadata.Visibility
import Mathlib.Data.List.Dedup
import Mathlib.Data.List.Sort

/-! # The reference model -/

namespace LoonFs.Reference

open Foundation

inductive DirentryBindingState where
  | bound (displayName : DisplayName)
  | unbound
deriving DecidableEq

structure DirentryBindingRecord where
  parentInodeId : InodeId
  nameKey : NameKey
  childInodeId : InodeId
  committedSeq : ChangeSeq
  deltaIndex : Nat
  state : DirentryBindingState
deriving DecidableEq

namespace DirentryBindingRecord

def position (record : DirentryBindingRecord) : DeltaPosition :=
  ⟨record.committedSeq, record.deltaIndex⟩

def isBound (record : DirentryBindingRecord) : Bool :=
  match record.state with
  | .bound _ => true
  | .unbound => false

def slot (record : DirentryBindingRecord) : InodeId × NameKey :=
  (record.parentInodeId, record.nameKey)

end DirentryBindingRecord

structure MetadataState where
  inodes : List InodeRecord := []
  direntryBinds : List DirentryBindingRecord := []
  revisions : List RevisionRecord := []
  contentLayouts : List ContentLayoutRecord := []
  subtreeTombstones : List SubtreeTombstoneRecord := []
  attributeRevisions : List AttributesRevisionRecord := []
  accessRevisions : List AccessRevisionRecord := []
deriving DecidableEq

inductive ModelError where
  | childHasTwoParents (seq : ChangeSeq) (childInodeId : InodeId)
      (bindings : DeltaPosition × DeltaPosition)
  | slotHasTwoChildren (seq : ChangeSeq) (parentInodeId : InodeId) (nameKey : NameKey)
      (bindings : DeltaPosition × DeltaPosition)
  | bindingIndexesDisagree (seq : ChangeSeq) (binding : DeltaPosition)
  | ancestorCycle (seq : ChangeSeq) (inodeId : InodeId)
  /-- Only the bounded walk of this embedding can return this. -/
  | walkUnfinished
deriving DecidableEq

namespace MetadataState

variable (state : MetadataState)

/-! ## Bindings -/

def slotValue (parentInodeId : InodeId) (nameKey : NameKey) (seq : ChangeSeq) :
    Option DirentryBindingRecord :=
  maxByKey DirentryBindingRecord.position (state.direntryBinds.filter fun row =>
    row.parentInodeId = parentInodeId ∧ row.nameKey = nameKey ∧ row.committedSeq ≤ seq)

def parentBinding (childInodeId : InodeId) (seq : ChangeSeq) : Option DirentryBindingRecord :=
  (maxByKey DirentryBindingRecord.position (state.direntryBinds.filter fun row =>
    row.childInodeId = childInodeId ∧ row.committedSeq ≤ seq)).filter
      DirentryBindingRecord.isBound

def ancestryLoop (seq : ChangeSeq) : Nat → List InodeId → InodeId → Except ModelError (List InodeId)
  | 0, _, _ => .error .walkUnfinished
  | budget + 1, ancestry, current =>
    match state.parentBinding current seq with
    | none => .ok ancestry
    | some binding =>
      if binding.parentInodeId ∈ ancestry then
        .error (.ancestorCycle seq binding.parentInodeId)
      else
        ancestryLoop seq budget (ancestry ++ [binding.parentInodeId])
          binding.parentInodeId

def ancestry (inodeId : InodeId) (seq : ChangeSeq) : Except ModelError (List InodeId) :=
  state.ancestryLoop seq (state.direntryBinds.length + 1) [inodeId] inodeId

def bySlot (seq : ChangeSeq) : List DirentryBindingRecord :=
  ((state.direntryBinds.map fun row => toLex row.slot).dedup.insertionSort (· ≤ ·)).filterMap
    fun slot => (state.slotValue (ofLex slot).1 (ofLex slot).2 seq).filter
      DirentryBindingRecord.isBound

def byChild (seq : ChangeSeq) : List DirentryBindingRecord :=
  ((state.direntryBinds.map DirentryBindingRecord.childInodeId).dedup.insertionSort
    (· ≤ ·)).filterMap fun child => state.parentBinding child seq

/-- Inserts rows in turn and returns the first one whose key the map already has. -/
def firstRepeated [DecidableEq Key] (key : DirentryBindingRecord → Key) :
    List (Key × DeltaPosition) → List DirentryBindingRecord →
    Option (DeltaPosition × DirentryBindingRecord)
  | _, [] => none
  | seen, value :: rest =>
    match seen.lookup (key value) with
    | some other => some (other, value)
    | none => firstRepeated key ((key value, value.position) :: seen) rest

def firstDifference (left right : List DeltaPosition) : Option DeltaPosition :=
  ((left.filter (· ∉ right) ++ right.filter (· ∉ left)).insertionSort (· ≤ ·)).head?

def verifyAncestries (seq : ChangeSeq) : List DirentryBindingRecord → Except ModelError Unit
  | [] => .ok ()
  | value :: rest => do
      let _ ← state.ancestry value.childInodeId seq
      verifyAncestries seq rest

def verifyBindings (seq : ChangeSeq) : Except ModelError Unit :=
  let bySlot := state.bySlot seq
  let byChild := state.byChild seq
  match firstRepeated DirentryBindingRecord.childInodeId [] bySlot with
  | some (other, value) =>
    .error (.childHasTwoParents seq value.childInodeId (other, value.position))
  | none =>
    match firstRepeated DirentryBindingRecord.slot [] byChild with
    | some (other, value) =>
      .error (.slotHasTwoChildren seq value.parentInodeId value.nameKey
        (other, value.position))
    | none =>
      match firstDifference (bySlot.map DirentryBindingRecord.position)
          (byChild.map DirentryBindingRecord.position) with
      | some binding => .error (.bindingIndexesDisagree seq binding)
      | none => state.verifyAncestries seq byChild

/-! ## Replay -/

def applyDelta (header : CommitHeader) : WalDelta → MetadataState
  | .createInode _ inodeId inodeKind =>
    { state with
      inodes := state.inodes ++ [
        { inodeId, inodeKind
          committedSeq := header.committedSeq
          commitId := header.commitId
          committedBy := header.actorId
          committedAtMs := header.committedAtMs }] }
  | .bindDirentry deltaIndex parentInodeId nameKey displayName childInodeId _ _ _ _ =>
    { state with
      direntryBinds := state.direntryBinds ++ [
        { parentInodeId, nameKey, childInodeId, deltaIndex
          committedSeq := header.committedSeq
          state := .bound displayName }] }
  | .unbindDirentry deltaIndex parentInodeId nameKey _ childInodeId _ _ _ _ =>
    { state with
      direntryBinds := state.direntryBinds ++ [
        { parentInodeId, nameKey, childInodeId, deltaIndex
          committedSeq := header.committedSeq
          state := .unbound }] }
  | .appendFileRevision deltaIndex inodeId _ _ _ _ _ _ revisionNo contentRef layout _ =>
    { state with
      contentLayouts := state.contentLayouts ++ layout.toList.map fun layout =>
        { contentId := contentRef.contentId
          committedSeq := header.committedSeq
          sizeBytes := layout.sizeBytes
          layout }
      revisions := state.revisions ++ [
        { inodeId, revisionNo, deltaIndex, contentRef
          committedSeq := header.committedSeq
          commitId := header.commitId
          committedBy := header.actorId
          committedAtMs := header.committedAtMs }] }
  | .tombstoneSubtree deltaIndex rootInodeId rootKind deletedBinding =>
    { state with
      subtreeTombstones := state.subtreeTombstones ++ [
        { rootInodeId, deltaIndex
          committedSeq := header.committedSeq
          commitId := header.commitId
          committedBy := header.actorId
          committedAtMs := header.committedAtMs
          action := .set rootKind deletedBinding }] }
  | .revokeSubtreeTombstone deltaIndex rootInodeId target =>
    { state with
      subtreeTombstones := state.subtreeTombstones ++ [
        { rootInodeId, deltaIndex
          committedSeq := header.committedSeq
          commitId := header.commitId
          committedBy := header.actorId
          committedAtMs := header.committedAtMs
          action := .revoke target }] }
  | .appendAttributesRevision deltaIndex inodeId attributesRevisionNo attributes =>
    { state with
      attributeRevisions := state.attributeRevisions ++ [
        { inodeId, attributesRevisionNo, deltaIndex, attributes
          committedSeq := header.committedSeq
          commitId := header.commitId
          committedBy := header.actorId
          committedAtMs := header.committedAtMs }] }
  | .appendAccessRevision deltaIndex inodeId accessRevisionNo boundary grants =>
    { state with
      accessRevisions := state.accessRevisions ++ [
        { inodeId, accessRevisionNo, deltaIndex, boundary, grants
          committedSeq := header.committedSeq
          commitId := header.commitId
          committedBy := header.actorId
          committedAtMs := header.committedAtMs }] }

/-- Appends the rows of one commit, then checks the binding rules at its
sequence. -/
def applyCommittedWalDeltas (header : CommitHeader) (deltas : List WalDelta) :
    Except ModelError MetadataState := do
  let next := deltas.foldl (fun state delta => state.applyDelta header delta) state
  next.verifyBindings header.committedSeq
  return next

def bootstrapMetadataState (createdAtMs : Nat) : MetadataState where
  inodes := [
    { inodeId := rootInodeId
      inodeKind := .directory
      committedSeq := 0
      commitId := genesisCommitId
      committedBy := "loonfs"
      committedAtMs := createdAtMs }]

def replay : MetadataState → List WalCommitPayload → Except ModelError MetadataState
  | state, [] => .ok state
  | state, record :: rest => do
      let next ← state.applyCommittedWalDeltas record.header
        (record.deltas.map WalCommitDelta.delta)
      replay next rest

/-! ## Visibility -/

def isHiddenRoot (rootInodeId : InodeId) (seq : ChangeSeq) : Bool :=
  (maxByKey SubtreeTombstoneRecord.position (state.subtreeTombstones.filter fun event =>
    event.rootInodeId = rootInodeId ∧ event.committedSeq ≤ seq)).any fun event =>
      event.action.hidesSubtree

def visibleInode (inodeId : InodeId) (seq : ChangeSeq) : Except ModelError (Option InodeRecord) :=
  match state.inodes.find? fun inode => inode.inodeId = inodeId ∧ inode.committedSeq ≤ seq with
  | none => .ok none
  | some inode => do
      let ancestry ← state.ancestry inodeId seq
      return if ancestry.any fun member => state.isHiddenRoot member seq then none
        else some inode

structure ListedEntry where
  binding : DirentryBindingRecord
  displayName : DisplayName
  child : InodeRecord
deriving DecidableEq

def visibleEntry (parentInodeId : InodeId) (nameKey : NameKey) (seq : ChangeSeq) :
    Except ModelError (Option ListedEntry) :=
  match state.slotValue parentInodeId nameKey seq with
  | none => .ok none
  | some binding =>
    match binding.state with
    | .unbound => .ok none
    | .bound displayName => do
        let child ← state.visibleInode binding.childInodeId seq
        return child.map fun child => { binding, displayName, child }

inductive ResolvedPath where
  | found (absolutePath : String) (inode : InodeRecord)
      (binding : Option DirentryBindingRecord)
  | notFound (absolutePath : String)
  | notADirectory (absolutePath : String) (inode : InodeRecord)
deriving DecidableEq

def resolveComponents (policy : NamePolicy) (seq : ChangeSeq) :
    List DisplayName → AbsolutePath → InodeRecord → Option DirentryBindingRecord →
    Except ModelError ResolvedPath
  | [], names, inode, binding => .ok (.found (AbsolutePath.toText names) inode binding)
  | component :: rest, names, inode, _ =>
    if inode.inodeKind ≠ .directory then
      .ok (.notADirectory (AbsolutePath.toText names) inode)
    else do
      let nameKey := policy.nameKeyForDisplayName component
      match ← state.visibleEntry inode.inodeId nameKey seq with
      | none => return .notFound (AbsolutePath.toText (names ++ [component]))
      | some entry =>
        resolveComponents policy seq rest (names ++ [entry.displayName]) entry.child
          (some entry.binding)

def resolvePath (policy : NamePolicy) (path : AbsolutePath) (seq : ChangeSeq) :
    Except ModelError ResolvedPath := do
  match ← state.visibleInode rootInodeId seq with
  | none => return .notFound (AbsolutePath.toText [])
  | some root => state.resolveComponents policy seq path [] root none

def visibleEntries (parentInodeId : InodeId) (seq : ChangeSeq) :
    List NameKey → Except ModelError (List ListedEntry)
  | [] => .ok []
  | nameKey :: rest => do
      let entry ← state.visibleEntry parentInodeId nameKey seq
      return entry.toList ++ (← visibleEntries parentInodeId seq rest)

def listDirectory (parentInodeId : InodeId) (seq : ChangeSeq) :
    Except ModelError (List ListedEntry) :=
  state.visibleEntries parentInodeId seq
    (((state.direntryBinds.filter fun row => row.parentInodeId = parentInodeId).map
      DirentryBindingRecord.nameKey).dedup.insertionSort (· ≤ ·))

/-- Whether binding `inodeId` under `newParentInodeId` would place it under
itself. -/
def wouldCreateCycle (inodeId newParentInodeId : InodeId) (seq : ChangeSeq) :
    Except ModelError Bool := do
  return inodeId ∈ (← state.ancestry newParentInodeId seq)

end MetadataState

end LoonFs.Reference
