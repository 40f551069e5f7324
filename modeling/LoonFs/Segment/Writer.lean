import LoonFs.Format.SegmentRoundTrip

/-! # The metadata segment writer -/

namespace LoonFs

open Foundation SegmentBlocksBuilder
open List hiding after count

structure MetadataRunPolicy where
  maxRowsPerSegment : Nat
  targetSegmentBytes : Nat

def defaultTargetBlockBytes : Nat := 64 * 1024

def contentBlobName (contentId : ContentId) : String := contentId

def contentSpanName (contentId : ContentId) (start finish : Nat) : String :=
  contentId ++ "-" ++ zeroPadded 20 start ++ "-" ++ zeroPadded 20 finish

def extentObjectName (extent : ContentExtent) : String :=
  match extent.object with
  | .whole => contentBlobName extent.contentId
  | .span start finish => contentSpanName extent.contentId start finish

def segmentBlocksBuilder (family : MetadataRowFamily) : SegmentBlocksBuilder :=
  start defaultTargetBlockBytes (family == .contentLayouts)

structure MetadataSegmentWriter where
  family : MetadataRowFamily
  builder : SegmentBlocksBuilder
  /-- The parent filter key that the open segment's last row added. -/
  lastParentFilterKey : Option String
  segments : List BuiltSegmentBlocks

namespace MetadataSegmentWriter

variable (codecs : SegmentCodecs MetadataRow)

def new (family : MetadataRowFamily) : MetadataSegmentWriter where
  family := family
  builder := segmentBlocksBuilder family
  lastParentFilterKey := none
  segments := []

def pushParentFilterKey (writer : MetadataSegmentWriter) (row : MetadataRow) :
    MetadataSegmentWriter :=
  match row.parentFilterKeyForFamily writer.family with
  | none => writer
  | some parentFilterKey =>
    if writer.lastParentFilterKey = some parentFilterKey then
      writer
    else
      { writer with
        builder := writer.builder.pushFilterKey codecs parentFilterKey
        lastParentFilterKey := some parentFilterKey }

def pushExtentNames (builder : SegmentBlocksBuilder) :
    List ContentExtent → Except SegmentBlockCodecError SegmentBlocksBuilder
  | [] => .ok builder
  | extent :: extents => do
      pushExtentNames (← builder.pushExtentName codecs (extentObjectName extent)) extents

def rowExtents : MetadataRow → List ContentExtent
  | .contentLayout record => record.layout.extents
  | _ => []

def push (writer : MetadataSegmentWriter) (row : MetadataRow) :
    Except SegmentBlockCodecError MetadataSegmentWriter := do
  let writer := writer.pushParentFilterKey codecs row
  let builder ← pushExtentNames codecs writer.builder (rowExtents row)
  match row.rowKeyForFamily writer.family, row.filterKeyForFamily writer.family with
  | some rowKey, some filterKey => do
      let builder ← builder.push codecs rowKey filterKey row
      pure { writer with builder }
  | _, _ => throw (.stopped "a binding row should use a binding family")

/-- Ends the open segment. The next one has a filter of its own. -/
def writeSegment (writer : MetadataSegmentWriter) :
    Except SegmentBlockCodecError MetadataSegmentWriter := do
  let built ← writer.builder.build codecs
  pure { writer with
    builder := segmentBlocksBuilder writer.family
    lastParentFilterKey := none
    segments := writer.segments ++ [built] }

def rollFullSegments (policy : MetadataRunPolicy) (writer : MetadataSegmentWriter) :
    Except SegmentBlockCodecError MetadataSegmentWriter :=
  if writer.builder.rowCount ≥ policy.maxRowsPerSegment ∨
      writer.builder.openDecodedDataBytes ≥ policy.targetSegmentBytes then
    writer.writeSegment codecs
  else
    .ok writer

def finish (writer : MetadataSegmentWriter) :
    Except SegmentBlockCodecError (List BuiltSegmentBlocks) := do
  if writer.builder.rowCount > 0 then
    pure (← writer.writeSegment codecs).segments
  else
    pure writer.segments

def pushAll (policy : MetadataRunPolicy) (writer : MetadataSegmentWriter) :
    List MetadataRow → Except SegmentBlockCodecError MetadataSegmentWriter
  | [] => .ok writer
  | row :: rows => do
      let writer ← writer.push codecs row
      (← writer.rollFullSegments codecs policy).pushAll policy rows

def familySegments (policy : MetadataRunPolicy) (family : MetadataRowFamily)
    (rows : List MetadataRow) : Except SegmentBlockCodecError (List BuiltSegmentBlocks) := do
  (← (new family).pushAll codecs policy rows).finish codecs

end MetadataSegmentWriter

def MetadataRow.HasFilterKey (row : MetadataRow) (family : MetadataRowFamily) (key : String) :
    Prop :=
  row.filterKeyForFamily family = some key ∨ row.parentFilterKeyForFamily family = some key

def FilterAdmits (codecs : SegmentCodecs MetadataRow) (family : MetadataRowFamily)
    (segment : BuiltSegmentBlocks) (rows : List MetadataRow) : Prop :=
  ∃ filter, decodeFilterBlock codecs (segment.filter.slice segment.bytes) segment.filter =
      .ok filter ∧
    ∀ row ∈ rows, ∀ key, row.HasFilterKey family key → filter.mayContain codecs key = true

theorem Closed.filter_admits {Row : Type} {codecs : SegmentCodecs Row}
    {builder : SegmentBlocksBuilder} {built : BuiltSegmentBlocks}
    (closed : Closed codecs builder built) :
    ∃ filter, decodeFilterBlock codecs (built.filter.slice built.bytes) built.filter = .ok filter ∧
      ∀ key, filterKeyHashes codecs key ∈ builder.filterHashes →
        filter.mayContain codecs key = true := by
  rcases buildFilterPayload_spec builder.filterHashes filterBitsPerKey with
    ⟨filter, decoded, admits⟩
  refine ⟨filter, ?_, fun key inserted => admits _ inserted⟩
  rw [decodeFilterBlock, closed.filter.decode codecs nofun, ok_bind]
  exact decoded

namespace MetadataSegmentWriter

variable {codecs : SegmentCodecs MetadataRow} {family : MetadataRowFamily}
  {writer : MetadataSegmentWriter} {groups : List (List MetadataRow)}
  {openRows : List MetadataRow}

structure Wrote (codecs : SegmentCodecs MetadataRow) (family : MetadataRowFamily)
    (writer : MetadataSegmentWriter) (groups : List (List MetadataRow))
    (openRows : List MetadataRow) : Prop where
  sameFamily : writer.family = family
  written : List.Forall₂ (FilterAdmits codecs family) writer.segments groups
  inserted : ∀ row ∈ openRows, ∀ key, row.HasFilterKey family key →
    filterKeyHashes codecs key ∈ writer.builder.filterHashes
  parentInserted : ∀ key, writer.lastParentFilterKey = some key →
    filterKeyHashes codecs key ∈ writer.builder.filterHashes
  rowCount : writer.builder.rowCount = openRows.length

theorem pushExtentNames_ok {builder : SegmentBlocksBuilder}
    (pushed : pushExtentNames codecs builder extents = .ok after) :
    after.filterHashes = builder.filterHashes ∧ after.rowCount = builder.rowCount := by
  induction extents generalizing builder with
  | nil =>
    cases pushed
    exact ⟨rfl, rfl⟩
  | cons extent extents induction =>
    rcases bind_eq_ok.mp pushed with ⟨middle, named, rest⟩
    rw [pushExtentName] at named
    split at named
    case h_1 =>
      cases named
      exact @induction { builder with extentHashes := some _ } rest
    case h_2 => cases named

namespace Wrote

theorem initial (codecs : SegmentCodecs MetadataRow) (family : MetadataRowFamily) :
    Wrote codecs family (new family) [] [] := by
  refine ⟨rfl, .nil, by simp, (fun _ impossible => nomatch impossible), ?_⟩
  rw [new, segmentBlocksBuilder, start]
  split <;> rfl

theorem pushParentFilterKey (wrote : Wrote codecs family writer groups openRows)
    (row : MetadataRow) :
    Wrote codecs family (writer.pushParentFilterKey codecs row) groups openRows ∧
      ∀ key, row.parentFilterKeyForFamily family = some key → filterKeyHashes codecs key ∈
          (writer.pushParentFilterKey codecs row).builder.filterHashes := by
  rw [MetadataSegmentWriter.pushParentFilterKey, wrote.sameFamily]
  split
  case h_1 noParent =>
    refine ⟨wrote, fun key isKey => ?_⟩
    cases noParent.symm.trans isKey
  case h_2 parentFilterKey isParent =>
    split
    case isTrue same =>
      refine ⟨wrote, fun key isKey => ?_⟩
      cases isParent.symm.trans isKey
      exact wrote.parentInserted _ same
    case isFalse =>
      refine ⟨⟨rfl, wrote.written, ?_, ?_, wrote.rowCount⟩, ?_⟩
      · intro past mem key hasKey
        exact mem_append_left _ (wrote.inserted past mem key hasKey)
      · intro key isKey
        cases isKey
        exact mem_append_right _ (mem_singleton_self _)
      · intro key isKey
        cases isParent.symm.trans isKey
        exact mem_append_right _ (mem_singleton_self _)

variable {after : MetadataSegmentWriter}

section

variable (wrote : Wrote codecs family writer groups openRows)

include wrote

theorem push (pushed : writer.push codecs row = .ok after) :
    Wrote codecs family after groups (openRows ++ [row]) := by
  rcases wrote.pushParentFilterKey row with ⟨wroteParent, hasParent⟩
  rw [MetadataSegmentWriter.push] at pushed
  rcases bind_eq_ok.mp pushed with ⟨builder, named, rest⟩
  rcases pushExtentNames_ok named with ⟨sameHashes, sameCount⟩
  rw [wroteParent.sameFamily] at rest
  split at rest
  case h_2 => cases rest
  case h_1 rowKey filterKey isKey isFilterKey =>
    rcases bind_eq_ok.mp rest with ⟨builder', added, result⟩
    cases result
    rcases push_keeps codecs added with ⟨hashes, count, _⟩
    rw [sameHashes] at hashes
    rw [sameCount] at count
    refine ⟨rfl, wroteParent.written, ?_, ?_, ?_⟩
    · intro member mem key hasKey
      rw [hashes]
      rcases mem_append.mp mem with past | new
      · exact mem_append_left _ (wroteParent.inserted member past key hasKey)
      · rw [mem_singleton.mp new] at hasKey
        rcases hasKey with isOwn | isParent
        · cases isFilterKey.symm.trans isOwn
          exact mem_append_right _ (mem_singleton_self _)
        · exact mem_append_left _ (hasParent key isParent)
    · intro key isKey
      rw [hashes]
      exact mem_append_left _ (wroteParent.parentInserted key isKey)
    · rw [count, wroteParent.rowCount, length_append]
      rfl

theorem writeSegment (ended : writer.writeSegment codecs = .ok after) :
    Wrote codecs family after (groups ++ [openRows]) [] := by
  rcases bind_eq_ok.mp ended with ⟨segment, isBuilt, result⟩
  cases result
  rcases build_closed isBuilt with ⟨middle, finished, closed⟩
  have sameHashes := (finishDataBlock_keeps codecs finished).1
  have fresh := initial codecs family
  refine ⟨wrote.sameFamily, ?_, by simp, (fun _ impossible => nomatch impossible), ?_⟩
  · rcases closed.filter_admits with ⟨filter, decoded, admits⟩
    apply rel_append wrote.written
    refine .cons ⟨filter, decoded, fun row mem key hasKey => admits key ?_⟩ .nil
    rw [sameHashes]
    exact wrote.inserted row mem key hasKey
  · rw [wrote.sameFamily]
    exact fresh.rowCount

theorem rollFullSegments (rolled : writer.rollFullSegments codecs policy = .ok after) :
    ∃ groups' openRows', Wrote codecs family after groups' openRows' ∧
      groups'.flatten ++ openRows' = groups.flatten ++ openRows := by
  rw [MetadataSegmentWriter.rollFullSegments] at rolled
  split at rolled
  · exact ⟨_, _, wrote.writeSegment rolled, by simp⟩
  · cases rolled
    exact ⟨_, _, wrote, rfl⟩

theorem pushAll (pushed : writer.pushAll codecs policy rows = .ok after) :
    ∃ groups' openRows', Wrote codecs family after groups' openRows' ∧
      groups'.flatten ++ openRows' = groups.flatten ++ openRows ++ rows := by
  induction rows generalizing writer groups openRows with
  | nil =>
    cases pushed
    exact ⟨groups, openRows, wrote, (append_nil _).symm⟩
  | cons row rows induction =>
    rcases bind_eq_ok.mp pushed with ⟨middle, first, rest⟩
    rcases bind_eq_ok.mp rest with ⟨rolled, rolling, others⟩
    rcases (wrote.push first).rollFullSegments rolling with ⟨_, _, wroteRow, sameRows⟩
    rcases induction wroteRow others with ⟨groups', openRows', wroteAll, allRows⟩
    refine ⟨groups', openRows', wroteAll, ?_⟩
    rw [allRows, sameRows]
    simp

end

end Wrote

theorem familySegments_ok {segments : List BuiltSegmentBlocks}
    (written : familySegments codecs policy family rows = .ok segments) :
    ∃ groups, groups.flatten = rows ∧
      List.Forall₂ (FilterAdmits codecs family) segments groups := by
  rcases bind_eq_ok.mp written with ⟨writer, pushed, finished⟩
  rcases (Wrote.initial codecs family).pushAll pushed with ⟨groups, openRows, wrote, allRows⟩
  rw [flatten_nil, nil_append, nil_append] at allRows
  rw [finish] at finished
  split at finished
  case isTrue =>
    rcases bind_eq_ok.mp finished with ⟨ended, ending, result⟩
    cases result
    exact ⟨_, by simpa using allRows, (wrote.writeSegment ending).written⟩
  case isFalse noRows =>
    cases finished
    have isEmpty : openRows = [] := by
      apply eq_nil_of_length_eq_zero
      rw [← wrote.rowCount]
      omega
    rw [isEmpty, append_nil] at allRows
    exact ⟨groups, allRows, wrote.written⟩

end MetadataSegmentWriter

end LoonFs
