import LoonFs.Format.Text
import LoonFs.MetadataRows

/-! # Row keys -/

namespace LoonFs

def u32Max : Nat := 2 ^ 32 - 1

def u64Max : Nat := 2 ^ 64 - 1

def inodeIdBody (inodeId : InodeId) : String := encodeGeneratedIdBody inodeId

def contentIdBody (contentId : ContentId) : String := String.ofList (contentId.toList.drop 4)

def hexEncodeRowKeyComponent (value : String) : String := hexEncodeBytes (utf8 value)

namespace LookupKeys

def inodeRowPrefix : String := "inode-"
def revisionRowPrefix : String := "revision-"
def commitRowPrefix : String := "commit-"
def direntryBindRowPrefix : String := "direntry-bind-"
def direntryChildBindRowPrefix : String := "direntry-child-bind-"
def tombstoneRowPrefix : String := "tombstone-"
def activeDeletionRowPrefix : String := "active-deletion-"
def contentLayoutRowPrefix : String := "content-layout-"
def commitReceiptRowPrefix : String := "commit-receipt-"
def attributeRowPrefix : String := "attribute-"
def accessRowPrefix : String := "access-"
def mergeRowPrefix : String := "merge-"

def afterRowKey (rowKey : String) : String := rowKey ++ "\x00"

def commitRowKey (seq : ChangeSeq) : String := commitRowPrefix ++ zeroPadded 20 seq

def inodeKey (inodeId : InodeId) : String := inodeRowPrefix ++ inodeIdBody inodeId

def direntryParentProbe (parentInodeId : InodeId) : String :=
  direntryBindRowPrefix ++ inodeIdBody parentInodeId

def direntryParentPrefix (parentInodeId : InodeId) : String :=
  direntryParentProbe parentInodeId ++ "-"

def direntryBindProbe (parentInodeId : InodeId) (nameKey : NameKey) : String :=
  direntryParentPrefix parentInodeId ++ hexEncodeRowKeyComponent nameKey

def direntryBindPrefix (parentInodeId : InodeId) (nameKey : NameKey) : String :=
  direntryBindProbe parentInodeId nameKey ++ "-"

def direntryBindEdgePrefix (parentInodeId : InodeId) (nameKey : NameKey)
    (childInodeId : InodeId) : String :=
  direntryBindPrefix parentInodeId nameKey ++ inodeIdBody childInodeId ++ "-"

/-- The complemented position that ends the keys of a row history. -/
def descendingPosition (committedSeq : ChangeSeq) (deltaIndex : Nat) : String :=
  zeroPadded 20 (u64Max - committedSeq) ++ "-" ++ zeroPadded 10 (u32Max - deltaIndex)

def direntryBindRowKey (parentInodeId : InodeId) (nameKey : NameKey) (childInodeId : InodeId)
    (committedSeq : ChangeSeq) (deltaIndex : Nat) : String :=
  direntryBindEdgePrefix parentInodeId nameKey childInodeId ++
    descendingPosition committedSeq deltaIndex

def direntryChildProbe (childInodeId : InodeId) : String :=
  direntryChildBindRowPrefix ++ inodeIdBody childInodeId

def direntryChildPrefix (childInodeId : InodeId) : String := direntryChildProbe childInodeId ++ "-"

def direntryChildBindEdgePrefix (childInodeId parentInodeId : InodeId)
    (nameKey : NameKey) : String :=
  direntryChildPrefix childInodeId ++ inodeIdBody parentInodeId ++ "-" ++
    hexEncodeRowKeyComponent nameKey ++ "-"

def direntryChildBindRowKey (childInodeId parentInodeId : InodeId) (nameKey : NameKey)
    (committedSeq : ChangeSeq) (deltaIndex : Nat) : String :=
  direntryChildBindEdgePrefix childInodeId parentInodeId nameKey ++
    descendingPosition committedSeq deltaIndex

def tombstoneProbe (rootInodeId : InodeId) : String := tombstoneRowPrefix ++ inodeIdBody rootInodeId

def tombstonePrefix (rootInodeId : InodeId) : String := tombstoneProbe rootInodeId ++ "-"

def tombstoneRowKey (rootInodeId : InodeId) (committedSeq : ChangeSeq)
    (deltaIndex : Nat) : String :=
  tombstonePrefix rootInodeId ++ descendingPosition committedSeq deltaIndex

def activeDeletionRankRemoved : Nat := 0

def activeDeletionRankListed : Nat := 1

def activeDeletionProbe (deletionSeq : ChangeSeq) (rootInodeId : InodeId) : String :=
  activeDeletionRowPrefix ++ zeroPadded 20 deletionSeq ++ "-" ++ inodeIdBody rootInodeId

def activeDeletionRowKey (deletionSeq : ChangeSeq) (rootInodeId : InodeId)
    (sortRank : Nat) : String :=
  activeDeletionProbe deletionSeq rootInodeId ++ "-" ++ zeroPadded 10 sortRank

def contentLayoutProbe (contentId : ContentId) : String :=
  contentLayoutRowPrefix ++ contentIdBody contentId

def contentLayoutPrefix (contentId : ContentId) : String := contentLayoutProbe contentId ++ "-"

def contentLayoutRowKey (contentId : ContentId) (sizeBytes : Nat)
    (committedSeq : ChangeSeq) : String :=
  contentLayoutPrefix contentId ++ zeroPadded 20 (u64Max - sizeBytes) ++ "-" ++
    zeroPadded 20 (u64Max - committedSeq)

def commitReceiptProbe (commitId : CommitId) : String :=
  commitReceiptRowPrefix ++ hexEncodeRowKeyComponent commitId

def commitReceiptPrefix (commitId : CommitId) : String := commitReceiptProbe commitId ++ "-"

def commitReceiptRowKey (commitId : CommitId) (committedSeq : ChangeSeq) : String :=
  commitReceiptPrefix commitId ++ zeroPadded 20 committedSeq

def mergeProbe (sourceNamespaceId : NamespaceId) : String :=
  mergeRowPrefix ++ hexEncodeRowKeyComponent sourceNamespaceId

def mergePrefix (sourceNamespaceId : NamespaceId) : String := mergeProbe sourceNamespaceId ++ "-"

def mergeRowKey (sourceNamespaceId : NamespaceId) (committedSeq : ChangeSeq) : String :=
  mergePrefix sourceNamespaceId ++ zeroPadded 20 (u64Max - committedSeq)

def revisionProbe (inodeId : InodeId) : String := revisionRowPrefix ++ inodeIdBody inodeId

def revisionPrefix (inodeId : InodeId) : String := revisionProbe inodeId ++ "-"

def revisionNoPrefix (inodeId : InodeId) (revisionNo : RevisionNo) : String :=
  revisionPrefix inodeId ++ zeroPadded 20 (u64Max - revisionNo) ++ "-"

def revisionRowKey (inodeId : InodeId) (revisionNo : RevisionNo) (committedSeq : ChangeSeq)
    (deltaIndex : Nat) : String :=
  revisionNoPrefix inodeId revisionNo ++ descendingPosition committedSeq deltaIndex

def attributesProbe (inodeId : InodeId) : String := attributeRowPrefix ++ inodeIdBody inodeId

def attributesPrefix (inodeId : InodeId) : String := attributesProbe inodeId ++ "-"

def attributesRowKey (inodeId : InodeId) (attributesRevisionNo : AttributesRevisionNo)
    (committedSeq : ChangeSeq) (deltaIndex : Nat) : String :=
  attributesPrefix inodeId ++ zeroPadded 20 (u64Max - attributesRevisionNo) ++ "-" ++
    descendingPosition committedSeq deltaIndex

def accessProbe (inodeId : InodeId) : String := accessRowPrefix ++ inodeIdBody inodeId

def accessPrefix (inodeId : InodeId) : String := accessProbe inodeId ++ "-"

def accessRowKey (inodeId : InodeId) (accessRevisionNo : AccessRevisionNo)
    (committedSeq : ChangeSeq) (deltaIndex : Nat) : String :=
  accessPrefix inodeId ++ zeroPadded 20 (u64Max - accessRevisionNo) ++ "-" ++
    descendingPosition committedSeq deltaIndex

end LookupKeys

open LookupKeys

/-- The fixed text before the first component of a family's keys. -/
def MetadataRowFamily.rowKeyPrefix : MetadataRowFamily → String
  | .inodes => inodeRowPrefix
  | .direntryBinds => direntryBindRowPrefix
  | .direntryChildBinds => direntryChildBindRowPrefix
  | .revisions => revisionRowPrefix
  | .tombstones => tombstoneRowPrefix
  | .activeDeletions => activeDeletionRowPrefix
  | .commitReceipts => commitReceiptRowPrefix
  | .commits => commitRowPrefix
  | .contentLayouts => contentLayoutRowPrefix
  | .attributes => attributeRowPrefix
  | .access => accessRowPrefix
  | .merges => mergeRowPrefix

def ActiveDeletionRowAction.sortRank : ActiveDeletionRowAction → Nat
  | .removed _ => activeDeletionRankRemoved
  | .listed _ _ _ _ => activeDeletionRankListed

namespace MetadataRow

def rowKeyForFamily (row : MetadataRow) (family : MetadataRowFamily) : Option String :=
  match row with
  | .inode record => some (inodeKey record.inodeId)
  | .direntryBinding record =>
    match family with
    | .direntryBinds =>
      some (direntryBindRowKey record.parentInodeId record.nameKey record.childInodeId
        record.committedSeq record.deltaIndex)
    | .direntryChildBinds =>
      some (direntryChildBindRowKey record.childInodeId record.parentInodeId record.nameKey
        record.committedSeq record.deltaIndex)
    | _ => none
  | .fileRevision record =>
    some (revisionRowKey record.inodeId record.revisionNo record.committedSeq record.deltaIndex)
  | .tombstone record =>
    some (tombstoneRowKey record.rootInodeId record.committedSeq record.deltaIndex)
  | .activeDeletion record =>
    some (activeDeletionRowKey record.deletionSeq record.rootInodeId record.action.sortRank)
  | .commitReceipt record => some (commitReceiptRowKey record.commitId record.committedSeq)
  | .commit record => some (commitRowKey record.committedSeq)
  | .merge record => some (mergeRowKey record.sourceNamespaceId record.committedSeq)
  | .contentLayout record =>
    some (contentLayoutRowKey record.contentId record.sizeBytes record.committedSeq)
  | .attributesRevision record =>
    some (attributesRowKey record.inodeId record.attributesRevisionNo record.committedSeq
      record.deltaIndex)
  | .accessRevision record =>
    some (accessRowKey record.inodeId record.accessRevisionNo record.committedSeq
      record.deltaIndex)

def filterKeyForFamily (row : MetadataRow) (family : MetadataRowFamily) : Option String :=
  match row with
  | .inode _ => row.rowKeyForFamily family
  | .direntryBinding record =>
    match family with
    | .direntryBinds => some (direntryBindProbe record.parentInodeId record.nameKey)
    | .direntryChildBinds => some (direntryChildProbe record.childInodeId)
    | _ => none
  | .fileRevision record => some (revisionProbe record.inodeId)
  | .tombstone record => some (tombstoneProbe record.rootInodeId)
  | .activeDeletion record => some (activeDeletionProbe record.deletionSeq record.rootInodeId)
  | .commitReceipt record => some (commitReceiptProbe record.commitId)
  | .commit _ => row.rowKeyForFamily family
  | .merge record => some (mergeProbe record.sourceNamespaceId)
  | .contentLayout record => some (contentLayoutProbe record.contentId)
  | .attributesRevision record => some (attributesProbe record.inodeId)
  | .accessRevision record => some (accessProbe record.inodeId)

def parentFilterKeyForFamily (row : MetadataRow) (family : MetadataRowFamily) : Option String :=
  match row, family with
  | .direntryBinding record, .direntryBinds => some (direntryParentProbe record.parentInodeId)
  | _, _ => none

end MetadataRow

end LoonFs
