import LoonFs.History.Numbering
import LoonFs.Segment.RunScans

/-! # Lookups of the newest fact -/

namespace LoonFs

open Foundation LookupKeys

def foreignRow (expectedKind : String) (row : MetadataRow) : CoreError :=
  .namespaceCorrupt ("manifest segment scan expected `" ++ expectedKind ++
    "` rows but found foreign row `" ++ (row.rowKeyForFamily .direntryBinds).getD "" ++ "`")

def direntryBindingFromManifestRow : MetadataRow → Except CoreError DirentryBindingRecord
  | .direntryBinding record => .ok record
  | other => .error (foreignRow "direntry_binding" other)

def revisionFromManifestRow : MetadataRow → Except CoreError RevisionRecord
  | .fileRevision record => .ok record
  | other => .error (foreignRow "file_revision" other)

def tombstoneFromManifestRow : MetadataRow → Except CoreError SubtreeTombstoneRecord
  | .tombstone record => .ok record
  | other => .error (foreignRow "tombstone" other)

def mergeIndexFromManifestRow : MetadataRow → Except CoreError MergeIndexRecord
  | .merge record => .ok record
  | other => .error (foreignRow "merge" other)

def attributesRevisionFromManifestRow : MetadataRow → Except CoreError AttributesRevisionRecord
  | .attributesRevision record => .ok record
  | other => .error (foreignRow "attributes_revision" other)

def accessRevisionFromManifestRow : MetadataRow → Except CoreError AccessRevisionRecord
  | .accessRevision record => .ok record
  | other => .error (foreignRow "access_revision" other)

def wholeStateRawScanLimit : Nat := 16

section

variable {Record : Type} (decode : MetadataRow → Except CoreError Record)
  (committedSeq : Record → ChangeSeq)

def firstVisible (visibleSeq : ChangeSeq) : List StoredRow → Except CoreError (Option Record)
  | [] => .ok none
  | stored :: rest => do
      let record ← decode stored.2
      if committedSeq record ≤ visibleSeq then return some record
      else firstVisible visibleSeq rest

def newestRowFrom (page : String → List StoredRow) (visibleSeq : ChangeSeq) :
    Nat → String → Except CoreError (Option Record)
  | 0, _ => .error .unfinished
  | fuel + 1, lowerBound => do
      let rows := page lowerBound
      match ← firstVisible decode committedSeq visibleSeq rows with
      | some record => return some record
      | none =>
        if rows.length < wholeStateRawScanLimit then return none
        else
          match rows.getLast? with
          | none => return none
          | some last => newestRowFrom page visibleSeq fuel (afterRowKey last.1)

def newestRowUnderPrefix (admits : MetadataSegmentRef → ProbedScan → Bool)
    (runs : List MetadataRunRef) (lookup : LookupPrefix) (filterProbe : String)
    (visibleSeq : ChangeSeq) (fuel : Nat) : Except CoreError (Option Record) :=
  if everyRowIsVisibleAt runs visibleSeq then
    match (scanPrefixInNewestRunForLookup admits (lookup.scanFrom filterProbe lookup.text) 1
        runs).head? with
    | none => .ok none
    | some stored => (decode stored.2).map some
  else
    newestRowFrom decode committedSeq (fun lowerBound =>
      scanRange admits runs (lookup.scanFrom filterProbe lowerBound) wholeStateRawScanLimit)
      visibleSeq fuel lookup.text

end

section

variable (admits : MetadataSegmentRef → ProbedScan → Bool) (runs : List MetadataRunRef)

def latestRevisionByInode (inodeId : InodeId) (visibleSeq : ChangeSeq) (fuel : Nat) :
    Except CoreError (Option RevisionRecord) :=
  newestRowUnderPrefix revisionFromManifestRow RevisionRecord.committedSeq admits runs
    (.revision inodeId) (revisionProbe inodeId) visibleSeq fuel

def newestTombstoneForRoot (rootInodeId : InodeId) (visibleSeq : ChangeSeq) (fuel : Nat) :
    Except CoreError (Option SubtreeTombstoneRecord) :=
  newestRowUnderPrefix tombstoneFromManifestRow SubtreeTombstoneRecord.committedSeq admits runs
    (.tombstone rootInodeId) (tombstoneProbe rootInodeId) visibleSeq fuel

def newestMerge (sourceNamespaceId : NamespaceId) (visibleSeq : ChangeSeq) (fuel : Nat) :
    Except CoreError (Option MergeIndexRecord) :=
  newestRowUnderPrefix mergeIndexFromManifestRow MergeIndexRecord.committedSeq admits runs
    (.merge sourceNamespaceId) (mergeProbe sourceNamespaceId) visibleSeq fuel

def attributesByInode (inodeId : InodeId) (visibleSeq : ChangeSeq) (fuel : Nat) :
    Except CoreError (Option AttributesRevisionRecord) :=
  newestRowUnderPrefix attributesRevisionFromManifestRow AttributesRevisionRecord.committedSeq
    admits runs (.attributes inodeId) (attributesProbe inodeId) visibleSeq fuel

def accessByInode (inodeId : InodeId) (visibleSeq : ChangeSeq) (fuel : Nat) :
    Except CoreError (Option AccessRevisionRecord) :=
  newestRowUnderPrefix accessRevisionFromManifestRow AccessRevisionRecord.committedSeq admits
    runs (.access inodeId) (accessProbe inodeId) visibleSeq fuel

end

def edgeWalkPageRows : Nat := 16

def prefixEnd (lookup : LookupPrefix) : String := (stringPrefixUpperBound lookup.text).getD ""

def slotEdge (record : DirentryBindingRecord) : LookupPrefix :=
  .direntryBindEdge record.parentInodeId record.nameKey record.childInodeId

def childEdge (record : DirentryBindingRecord) : LookupPrefix :=
  .direntryChildBindEdge record.childInodeId record.parentInodeId record.nameKey

def slotEdgeEnd (record : DirentryBindingRecord) : String := prefixEnd (slotEdge record)

def childEdgeEnd (record : DirentryBindingRecord) : String := prefixEnd (childEdge record)

section

variable (edgeEnd : DirentryBindingRecord → String) (visibleSeq : ChangeSeq)

/-- The records that a walk takes from one page: the first that it may see of each edge. -/
def walkPage : Option String → List StoredRow →
    Except CoreError (List DirentryBindingRecord × Option String)
  | readEdgeEnd, [] => .ok ([], readEdgeEnd)
  | readEdgeEnd, stored :: rest =>
    if readEdgeEnd.any fun edgeEnd => decide (utf8 stored.1 < utf8 edgeEnd) then
      walkPage readEdgeEnd rest
    else do
      let record ← direntryBindingFromManifestRow stored.2
      if visibleSeq < record.committedSeq then walkPage readEdgeEnd rest
      else
        let walked ← walkPage (some (edgeEnd record)) rest
        return (record :: walked.1, walked.2)

/-- Where the page after a full one starts. -/
def nextLowerBound (last : StoredRow) (readEdgeEnd : Option String) : String :=
  match readEdgeEnd with
  | none => afterRowKey last.1
  | some edgeEnd => if utf8 (afterRowKey last.1) ≤ utf8 edgeEnd then edgeEnd else afterRowKey last.1

def newestEdgeRowsFrom (page : String → List StoredRow) :
    Nat → String → Except CoreError (List DirentryBindingRecord)
  | 0, _ => .error .unfinished
  | fuel + 1, lowerBound =>
    let rows := page lowerBound
    match rows.getLast? with
    | none => .ok []
    | some last => do
        let walked ← walkPage edgeEnd visibleSeq none rows
        if rows.length = edgeWalkPageRows then
          let more ← newestEdgeRowsFrom page fuel (nextLowerBound last walked.2)
          return walked.1 ++ more
        else return walked.1

def newestEdgeRows (admits : MetadataSegmentRef → ProbedScan → Bool)
    (runs : List MetadataRunRef) (lookup : LookupPrefix) (filterProbe : String) (fuel : Nat) :
    Except CoreError (List DirentryBindingRecord) :=
  newestEdgeRowsFrom edgeEnd visibleSeq (fun lowerBound =>
    let scan := lookup.scanFrom filterProbe lowerBound
    if everyRowIsVisibleAt runs visibleSeq then
      scanPrefixInNewestRunForLookup admits scan edgeWalkPageRows runs
    else scanRange admits runs scan edgeWalkPageRows) fuel lookup.text

end

def direntryBindsForParentName (admits : MetadataSegmentRef → ProbedScan → Bool)
    (runs : List MetadataRunRef) (parentInodeId : InodeId) (nameKey : NameKey)
    (visibleSeq : ChangeSeq) (fuel : Nat) : Except CoreError (List DirentryBindingRecord) :=
  newestEdgeRows slotEdgeEnd visibleSeq admits runs (.direntryBind parentInodeId nameKey)
    (direntryBindProbe parentInodeId nameKey) fuel

def direntryBindsForChild (admits : MetadataSegmentRef → ProbedScan → Bool)
    (runs : List MetadataRunRef) (childInodeId : InodeId) (visibleSeq : ChangeSeq)
    (fuel : Nat) : Except CoreError (List DirentryBindingRecord) :=
  newestEdgeRows childEdgeEnd visibleSeq admits runs (.direntryChild childInodeId)
    (direntryChildProbe childInodeId) fuel

end LoonFs
