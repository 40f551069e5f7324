import LoonFs.MetadataRows

/-! # Visibility rules -/

namespace LoonFs

/-- Folding of display names, with the Unicode tables as parameters. -/
structure NamePolicy where
  normalize : String → String
  foldString : String → String

def NamePolicy.nameKeyForDisplayName (policy : NamePolicy) (displayName : DisplayName) : NameKey :=
  policy.normalize (policy.foldString (policy.normalize displayName))

/-- A path as its components, without the root. -/
abbrev AbsolutePath := List DisplayName

def AbsolutePath.toText (path : AbsolutePath) : String := "/" ++ String.intercalate "/" path

inductive VisiblePathError where
  | rootMissing
  | parentBindingCycle (inodeId : InodeId)
  | pathNotFound (absolutePath : String)
  | pathComponentNotDirectory (absolutePath : String) (inodeId : InodeId)
      (inodeKind : InodeKind)
  /-- Only the model's walk returns this, when its step budget is too small. -/
  | walkUnfinished
deriving DecidableEq

/-- Storage lookups scoped to one read sequence. -/
structure MetadataVisibilityReads where
  retentionFloorSeq : ChangeSeq
  findInode : InodeId → Option InodeRecord
  findLatestSlotBinding : InodeId → NameKey → Option DirentryBindingRecord
  findLatestParentBindingForChild : InodeId → Option DirentryBindingRecord
  findHidingSubtreeTombstone : InodeId → Option SubtreeTombstoneRecord
  findAccessRow : InodeId → Option AccessRevisionRecord
  /-- How many steps a walk may take; the source bounds it by its seen set. -/
  walkBudget : Nat

structure ResolvedVisiblePath where
  absolutePath : AbsolutePath
  inodeId : InodeId
  inodeKind : InodeKind
  createdBy : ActorId
  createdAtMs : Nat
  parentInodeId : Option InodeId
  displayName : String
  bindingVersion : Option DeltaPosition
deriving DecidableEq

inductive NextAncestor where
  | inode (inodeId : InodeId)
  | parentOf (childInodeId : InodeId)
deriving DecidableEq

structure AncestorWalk where
  next : Option NextAncestor
  seen : List InodeId
  followed : Option DirentryBindingRecord

namespace MetadataVisibilityReads

variable (reads : MetadataVisibilityReads)

def currentParentBindingForChild (childInodeId : InodeId) : Option DirentryBindingRecord :=
  if childInodeId = rootInodeId then none
  else (reads.findLatestParentBindingForChild childInodeId).filter
    DirentryBindingRecord.isBound

def activeChildBinding (parentInodeId : InodeId) (nameKey : NameKey) :
    Option DirentryBindingRecord :=
  (reads.findLatestSlotBinding parentInodeId nameKey).filter
    DirentryBindingRecord.isBound

end MetadataVisibilityReads

namespace AncestorWalk

def new (inodeId : InodeId) : AncestorWalk :=
  { next := some (.inode inodeId), seen := [], followed := none }

def visit (walk : AncestorWalk) (inodeId : InodeId)
    (followed : Option DirentryBindingRecord) :
    Except VisiblePathError (Option InodeId × AncestorWalk) :=
  if inodeId ∈ walk.seen then .error (.parentBindingCycle inodeId)
  else .ok (some inodeId,
    { next := some (.parentOf inodeId), seen := inodeId :: walk.seen, followed })

def advance (reads : MetadataVisibilityReads) (walk : AncestorWalk) :
    Except VisiblePathError (Option InodeId × AncestorWalk) :=
  match walk.next with
  | none => .ok (none, walk)
  | some (.inode inodeId) => walk.visit inodeId none
  | some (.parentOf childInodeId) =>
    match reads.currentParentBindingForChild childInodeId with
    | none => .ok (none, { walk with next := none, followed := none })
    | some binding => walk.visit binding.parentInodeId (some binding)

def climb (reads : MetadataVisibilityReads) (found : InodeId → Option Answer) :
    Nat → AncestorWalk → Except VisiblePathError (Option Answer)
  | 0, _ => .error .walkUnfinished
  | budget + 1, walk =>
    match walk.advance reads with
    | .error error => .error error
    | .ok (none, _) => .ok none
    | .ok (some ancestor, walk) =>
      match found ancestor with
      | some answer => .ok (some answer)
      | none => climb reads found budget walk

end AncestorWalk

namespace MetadataVisibilityReads

variable (reads : MetadataVisibilityReads)

def climbFrom (found : InodeId → Option Answer) (inodeId : InodeId) :
    Except VisiblePathError (Option Answer) :=
  AncestorWalk.climb reads found reads.walkBudget (AncestorWalk.new inodeId)

def coveringSubtreeTombstone (inodeId : InodeId) :
    Except VisiblePathError (Option SubtreeTombstoneRecord) :=
  reads.climbFrom reads.findHidingSubtreeTombstone inodeId

def wouldCreateDirectoryCycle (inodeId newParentInodeId : InodeId) : Except VisiblePathError Bool :=
  (reads.climbFrom (fun ancestor => if ancestor = inodeId then some () else none)
    newParentInodeId).map Option.isSome

def visibleInode (inodeId : InodeId) : Except VisiblePathError (Option InodeRecord) :=
  match reads.findInode inodeId with
  | none => .ok none
  | some inode => do
      let tombstone ← reads.coveringSubtreeTombstone inodeId
      return if tombstone.isSome then none else some inode

def visibleChild (parentInodeId : InodeId) (nameKey : NameKey) :
    Except VisiblePathError (Option DirentryBindingRecord) := do
  match ← reads.visibleInode parentInodeId with
  | none => return none
  | some parent =>
    if parent.inodeKind ≠ .directory then return none
    else
      match reads.activeChildBinding parentInodeId nameKey with
      | none => return none
      | some direntry =>
        let child ← reads.visibleInode direntry.childInodeId
        return if child.isNone then none else some direntry

/-- The child of a slot value under a visible directory, without the inode lookup. -/
def visiblePageChild (direntry : DirentryBindingRecord) :
    Except VisiblePathError (Option DirentryBindingRecord) :=
  if direntry.isBound then do
    let tombstone ← reads.coveringSubtreeTombstone direntry.childInodeId
    return if tombstone.isSome then none else some direntry
  else .ok none

/-- The loop of `resolveVisiblePath` over the components still to resolve. -/
def resolveComponents (policy : NamePolicy) :
    List DisplayName → AbsolutePath → Option DirentryBindingRecord →
    Except VisiblePathError (AbsolutePath × Option DirentryBindingRecord)
  | [], path, last => .ok (path, last)
  | displayName :: rest, path, last => do
      let parentInodeId := last.elim rootInodeId DirentryBindingRecord.childInodeId
      let parentKind := last.elim InodeKind.directory DirentryBindingRecord.childKind
      if parentKind ≠ .directory then
        .error (.pathComponentNotDirectory path.toText parentInodeId parentKind)
      else
        let notFound : VisiblePathError :=
          .pathNotFound (AbsolutePath.toText (path ++ [displayName]))
        match reads.activeChildBinding parentInodeId
            (policy.nameKeyForDisplayName displayName) with
        | none => .error notFound
        | some direntry =>
          match ← reads.visiblePageChild direntry with
          | none => .error notFound
          | some direntry =>
            resolveComponents policy rest
              (path ++ [direntry.displayName.getD ""]) (some direntry)

def resolveVisiblePath (policy : NamePolicy) (absolutePath : AbsolutePath) :
    Except VisiblePathError ResolvedVisiblePath := do
  match ← reads.resolveComponents policy absolutePath [] none with
  | (_, none) =>
    match ← reads.visibleInode rootInodeId with
    | none => .error .rootMissing
    | some root =>
      return {
        absolutePath := []
        inodeId := rootInodeId
        inodeKind := root.inodeKind
        createdBy := root.committedBy
        createdAtMs := root.committedAtMs
        parentInodeId := none
        displayName := ""
        bindingVersion := none }
  | (path, some last) =>
    return {
      absolutePath := path
      inodeId := last.childInodeId
      inodeKind := last.childKind
      createdBy := last.childCreatedBy
      createdAtMs := last.childCreatedAtMs
      parentInodeId := some last.parentInodeId
      displayName := last.displayName.getD ""
      bindingVersion := some last.bindPosition }

end MetadataVisibilityReads

end LoonFs
