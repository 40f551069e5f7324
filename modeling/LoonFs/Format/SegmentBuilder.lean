import LoonFs.Format.SegmentEntries
import LoonFs.Format.SegmentFilter
import LoonFs.Foundation.Tiling
import Mathlib.Data.List.Forall2

/-! # The segment builder -/

namespace LoonFs

open Foundation
open List hiding after count isEmpty

variable {Row : Type} (codecs : SegmentCodecs Row)

/-! ## Sections -/

structure Holds (bytes : Bytes) (handle : BlockHandle) (compressed : Bool) (payload : Bytes) :
    Prop where
  located : ∀ rest, handle.slice (bytes ++ rest) = storedForm codecs payload compressed
  storedBytes : handle.storedBytes = (storedForm codecs payload compressed).length
  decodedBytes : handle.decodedBytes = payload.length
  checksum : handle.crc32c = codecs.crc32c (storedForm codecs payload compressed)

variable {handle : BlockHandle} {bytes payload : Bytes} {compressed : Bool}

theorem Holds.append (holds : Holds codecs bytes handle compressed payload) (more : Bytes) :
    Holds codecs (bytes ++ more) handle compressed payload := by
  refine { holds with located := fun rest => ?_ }
  rw [append_assoc]
  exact holds.located (more ++ rest)

theorem Holds.decode (holds : Holds codecs bytes handle compressed payload)
    (restores : compressed = true → codecs.decompress (codecs.compress payload) = .ok payload) :
    decodeSection codecs (handle.slice bytes) handle compressed = .ok payload := by
  have located := holds.located []
  rw [append_nil] at located
  rw [decodeSection, located, holds.storedBytes, holds.decodedBytes, holds.checksum]
  cases compressed with
  | true =>
    have whole : payload.take (payload.length + 1) = payload := take_of_length_le (Nat.le_succ _)
    simp [storedForm, restores rfl, whole, pure, Except.pure, bind, Except.bind]
  | false => simp [storedForm, pure, Except.pure, bind, Except.bind]

/-- What a successful append leaves behind. -/
structure Appended (bytes payload : Bytes) (compressed : Bool) (after : Bytes)
    (handle : BlockHandle) : Prop where
  grows : ∃ stored, after = bytes ++ stored ∧ handle.storedBytes = stored.length
  offset : handle.offset = bytes.length
  fits : payload.length ≤ u32Max
  holds : Holds codecs after handle compressed payload

/-- A payload that does not fit a handle, or whose stored form does not, is the only thing that
an append refuses. -/
def TooLong (payload : Bytes) (compressed : Bool) (failure : SegmentBlockCodecError) : Prop :=
  ∃ length, (length = payload.length ∨ length = (storedForm codecs payload compressed).length) ∧
    u32Max < length ∧ failure = .malformed s!"a {length}-byte block does not fit a handle"

theorem handleBytes_cases (length : Nat) : (handleBytes length = .ok length ∧ length ≤ u32Max) ∨
      handleBytes length = .error (.malformed s!"a {length}-byte block does not fit a handle") ∧
        u32Max < length := by
  rw [handleBytes]
  split
  case isTrue fits => exact .inl ⟨rfl, fits⟩
  case isFalse long => exact .inr ⟨rfl, not_le.mp long⟩

theorem appendSection_cases (bytes payload : Bytes) (compressed : Bool) :
    (∃ after handle, appendSection codecs bytes payload compressed = .ok (after, handle) ∧
      Appended codecs bytes payload compressed after handle) ∨
    ∃ failure, appendSection codecs bytes payload compressed = .error failure ∧
      TooLong codecs payload compressed failure := by
  generalize stored_eq : storedForm codecs payload compressed = stored
  rcases handleBytes_cases stored.length with ⟨storedOk, _⟩ | ⟨refused, long⟩
  · rcases handleBytes_cases payload.length with ⟨payloadOk, fits⟩ | ⟨refused, long⟩
    · refine .inl ⟨bytes ++ stored,
        ⟨bytes.length, stored.length, payload.length, codecs.crc32c stored⟩, ?_,
        ⟨⟨stored, rfl, rfl⟩, rfl, fits, ?_⟩⟩
      · rw [appendSection, stored_eq, storedOk, payloadOk]
        rfl
      · subst stored_eq
        refine ⟨fun rest => ?_, rfl, rfl, rfl⟩
        rw [BlockHandle.slice, append_assoc, drop_left, take_left]
    · refine .inr ⟨_, ?_, _, .inl rfl, long, rfl⟩
      rw [appendSection, stored_eq, storedOk, refused]
      rfl
  · subst stored_eq
    refine .inr ⟨_, ?_, _, .inr rfl, long, rfl⟩
    rw [appendSection, refused]
    rfl

theorem appendSection_ok
    (appended : appendSection codecs bytes payload compressed = .ok (after, handle)) :
    Appended codecs bytes payload compressed after handle := by
  rcases appendSection_cases codecs bytes payload compressed with
    ⟨_, _, accepted, facts⟩ | ⟨_, refused, _⟩
  · cases appended.symm.trans accepted
    exact facts
  · cases appended.symm.trans refused

/-! ## Data blocks -/

def blockPayload (rows : List (String × Row)) : Bytes :=
  encodeEntries codecs 0 "" rows ++ (restartOffsets codecs 0 0 "" rows).flatMap (leBytes 4) ++
    leBytes 4 (restartOffsets codecs 0 0 "" rows).length

variable {rows : List (String × Row)}

theorem restartOffsets_le (mem : restart ∈ restartOffsets codecs count offset previousKey rows) :
    restart ≤ offset + (encodeEntries codecs count previousKey rows).length := by
  induction rows generalizing count offset previousKey with
  | nil => cases mem
  | cons row rows induction =>
    rw [encodeEntries, length_append]
    have later : restart ∈ restartOffsets codecs (count + 1)
        (offset + (entryBytes codecs count previousKey row).length) row.1 rows →
        restart ≤ offset + ((entryBytes codecs count previousKey row).length +
          (encodeEntries codecs (count + 1) row.1 rows).length) := by
      intro mem
      have within := induction mem
      omega
    simp only [restartOffsets] at mem
    split at mem
    · rcases mem_cons.mp mem with eq | mem
      · omega
      · exact later mem
    · exact later mem

theorem length_le_encodeEntries (count : Nat) (previousKey : String) (rows : List (String × Row)) :
    rows.length ≤ (encodeEntries codecs count previousKey rows).length := by
  induction rows generalizing count previousKey with
  | nil => exact Nat.zero_le _
  | cons row rows induction =>
    have nonempty := length_pos_of_ne_nil (entryBytes_ne_nil codecs count previousKey row)
    have later := induction (count + 1) row.1
    rw [encodeEntries, length_append, length_cons]
    omega

theorem decodeDataBlockRows_payload [LawfulSegmentCodecs codecs]
    (section_eq : decodeSection codecs stored handle true = .ok (blockPayload codecs rows))
    (ascend : KeysAscend "" rows) (fits : (blockPayload codecs rows).length ≤ u32Max) :
    decodeDataBlockRows codecs stored handle = .ok rows := by
  generalize entries_eq : encodeEntries codecs 0 "" rows = entries
  generalize restarts_eq : restartOffsets codecs 0 0 "" rows = restarts
  have payload : blockPayload codecs rows =
      entries ++ restarts.flatMap (leBytes 4) ++ leBytes 4 restarts.length := by
    rw [blockPayload, entries_eq, restarts_eq]
  have size : (blockPayload codecs rows).length = entries.length + restarts.length * 4 + 4 := by
    rw [payload, length_append, length_append, length_flatMap_leBytes, length_leBytes]
  have bound : entries.length + restarts.length * 4 + 4 < 2 ^ 32 := by
    rw [size, u32Max] at fits
    omega
  have body : (blockPayload codecs rows).take ((blockPayload codecs rows).length - 4) =
      entries ++ restarts.flatMap (leBytes 4) := by
    rw [size, payload]
    apply take_left'
    rw [length_append, length_flatMap_leBytes]
    omega
  have count : fromLeBytes
      ((blockPayload codecs rows).drop ((blockPayload codecs rows).length - 4)) =
        restarts.length := by
    rw [size, payload, drop_left']
    · exact fromLeBytes_leBytes (by omega)
    · rw [length_append, length_flatMap_leBytes]
      omega
  have words : leWords32 (restarts.flatMap (leBytes 4)) = restarts := by
    apply leWords32_flatMap
    intro restart mem
    have within := restartOffsets_le codecs (restarts_eq.symm ▸ mem)
    rw [entries_eq] at within
    omega
  rw [decodeDataBlockRows, section_eq]
  simp only [ok_bind, body, count]
  rw [size, if_neg (by omega)]
  have bodyLength : (entries ++ restarts.flatMap (leBytes 4)).length - restarts.length * 4 =
      entries.length := by
    rw [length_append, length_flatMap_leBytes]
    omega
  have enough := length_le_encodeEntries codecs 0 "" rows
  have decoded := decodeEntries_encodeEntries codecs ascend (Nat.zero_le 0)
    (by omega : entries.length < 2 ^ 64) (by rw [entries_eq]; omega) (entries_eq ▸ enough)
  rw [if_neg (by rw [length_append, length_flatMap_leBytes]; omega), bodyLength,
    take_left, drop_left, words, ← restarts_eq]
  rw [entries_eq] at decoded
  exact decoded

/-! ## Closed blocks -/

structure StoredBlock (bytes : Bytes) (entry : SegmentIndexEntry)
    (block : List (String × Row)) : Prop where
  nonempty : block ≠ []
  lastRowKey : entry.lastRowKey = lastKey "" block
  fits : (blockPayload codecs block).length ≤ u32Max
  holds : Holds codecs bytes entry.block true (blockPayload codecs block)

theorem StoredBlock.append (stored : StoredBlock codecs bytes entry block) (more : Bytes) :
    StoredBlock codecs (bytes ++ more) entry block :=
  ⟨stored.nonempty, stored.lastRowKey, stored.fits, stored.holds.append codecs more⟩

def SegmentIndexEntry.run (entry : SegmentIndexEntry) : Foundation.Run :=
  ⟨entry.block.offset, entry.block.storedBytes⟩

abbrev Tiles (start : Nat) (index : List SegmentIndexEntry) (finish : Nat) : Prop :=
  Tiling start (index.map SegmentIndexEntry.run) finish

/-! ## The builder's invariant -/

def firstKey (rows : List (String × Row)) : String := (rows.head?.map Prod.fst).getD ""

structure Represents (builder : SegmentBlocksBuilder) (blocks : List (List (String × Row)))
    (openRows : List (String × Row)) : Prop where
  stored : List.Forall₂ (StoredBlock codecs builder.bytes) builder.index blocks
  tiles : Tiles 0 builder.index builder.bytes.length
  entries : builder.entries = encodeEntries codecs 0 "" openRows
  restarts : builder.restarts = restartOffsets codecs 0 0 "" openRows
  entryCount : builder.entryCount = openRows.length
  rowCount : builder.rowCount = (blocks.flatten ++ openRows).length
  previousKey : builder.previousKey = lastKey "" (blocks.flatten ++ openRows)
  minRowKey : builder.minRowKey = firstKey (blocks.flatten ++ openRows)
  ascend : KeysAscend "" (blocks.flatten ++ openRows)

variable {builder after : SegmentBlocksBuilder}

/-- What neither a row's entry nor the end of a block changes. -/
structure SameSettings (builder after : SegmentBlocksBuilder) : Prop where
  target : after.targetBlockBytes = builder.targetBlockBytes
  extentHashes : after.extentHashes = builder.extentHashes

theorem finishDataBlock_keeps (finished : builder.finishDataBlock codecs = .ok after) :
    after.filterHashes = builder.filterHashes ∧ after.rowCount = builder.rowCount ∧
      SameSettings builder after := by
  rw [SegmentBlocksBuilder.finishDataBlock] at finished
  split at finished
  case isTrue =>
    cases finished
    exact ⟨rfl, rfl, rfl, rfl⟩
  case isFalse =>
    split at finished
    case isTrue => cases finished
    case isFalse =>
      rcases bind_eq_ok.mp finished with ⟨_, _, result⟩
      cases result
      exact ⟨rfl, rfl, rfl, rfl⟩

variable {rowKey : String}

theorem appendEntry_keeps (appended : builder.appendEntry rowKey rowBytes = .ok after) :
    after.filterHashes = builder.filterHashes ∧ after.rowCount = builder.rowCount + 1 ∧
      SameSettings builder after := by
  rw [SegmentBlocksBuilder.appendEntry] at appended
  split at appended
  case isTrue => cases appended
  case isFalse =>
    cases appended
    exact ⟨rfl, rfl, rfl, rfl⟩

theorem push_keeps (pushed : builder.push codecs rowKey filterKey row = .ok after) :
    after.filterHashes = builder.filterHashes ++ [filterKeyHashes codecs filterKey] ∧
      after.rowCount = builder.rowCount + 1 ∧ SameSettings builder after := by
  rw [SegmentBlocksBuilder.push] at pushed
  split at pushed
  case isTrue => cases pushed
  case isFalse =>
    rcases bind_eq_ok.mp pushed with ⟨middle, appended, rest⟩
    have added : middle.filterHashes = builder.filterHashes ++ [filterKeyHashes codecs filterKey] ∧
          middle.rowCount = builder.rowCount + 1 ∧ SameSettings builder middle := by
      rcases appendEntry_keeps appended with ⟨hashes, count, target, extents⟩
      simp only [SegmentBlocksBuilder.pushFilterKey] at hashes count target extents
      split at hashes <;> exact ⟨hashes, by simp_all, by simp_all, by simp_all⟩
    split at rest
    case isTrue =>
      rcases finishDataBlock_keeps codecs rest with ⟨sameHashes, sameCount, same⟩
      rw [sameHashes, sameCount]
      exact ⟨added.1, added.2.1, same.target.trans added.2.2.target,
        same.extentHashes.trans added.2.2.extentHashes⟩
    case isFalse =>
      cases rest
      exact added

/-- Why a data block is refused: its section is too long, or it has too many restarts. -/
inductive BlockRefusal (block : List (String × Row)) : SegmentBlockCodecError → Prop
  | tooLong {failure} : TooLong codecs (blockPayload codecs block) true failure →
      BlockRefusal block failure
  | restartCount : u32Max < (restartOffsets codecs 0 0 "" block).length →
      BlockRefusal block (.stopped "a block's restart count should fit u32")

namespace Represents

open SegmentBlocksBuilder

variable {codecs} {builder after : SegmentBlocksBuilder} {blocks : List (List (String × Row))}
  {openRows : List (String × Row)}

theorem initial (targetBlockBytes : Nat) (hasExtentFilter : Bool) :
    Represents codecs (start targetBlockBytes hasExtentFilter) [] [] := by
  cases hasExtentFilter <;>
    exact ⟨.nil, rfl, rfl, rfl, rfl, rfl, rfl, rfl, pairwise_singleton _ _⟩

section

variable (represents : Represents codecs builder blocks openRows)

include represents

theorem congr (bytes : after.bytes = builder.bytes) (index : after.index = builder.index)
    (entries : after.entries = builder.entries) (restarts : after.restarts = builder.restarts)
    (entryCount : after.entryCount = builder.entryCount)
    (rowCount : after.rowCount = builder.rowCount)
    (previousKey : after.previousKey = builder.previousKey)
    (minRowKey : after.minRowKey = builder.minRowKey) :
    Represents codecs after blocks openRows := by
  constructor
  · rw [bytes, index]
    exact represents.stored
  · rw [bytes, index]
    exact represents.tiles
  · exact entries.trans represents.entries
  · exact restarts.trans represents.restarts
  · exact entryCount.trans represents.entryCount
  · exact rowCount.trans represents.rowCount
  · exact previousKey.trans represents.previousKey
  · exact minRowKey.trans represents.minRowKey
  · exact represents.ascend

theorem openRows_nil_iff : builder.entries = [] ↔ openRows = [] := by
  rw [represents.entries]
  cases openRows with
  | nil => simp [encodeEntries]
  | cons row rows => simp [encodeEntries, entryBytes_ne_nil]

theorem previousKey_open (someRows : openRows ≠ []) :
    builder.previousKey = lastKey "" openRows := by
  rw [represents.previousKey, lastKey, List.getLast?_append_of_ne_nil _ someRows, lastKey]

theorem finishDataBlock_nil (nothing : openRows = []) :
    builder.finishDataBlock codecs = .ok builder := by
  rw [SegmentBlocksBuilder.finishDataBlock, represents.openRows_nil_iff.mpr nothing]
  rfl

theorem finishDataBlock_cases (someRows : openRows ≠ []) :
    (∃ after, builder.finishDataBlock codecs = .ok after ∧
      Represents codecs after (blocks ++ [openRows]) []) ∨
    ∃ failure, builder.finishDataBlock codecs = .error failure ∧
      BlockRefusal codecs openRows failure := by
  have nonempty : ¬builder.entries.isEmpty = true := fun isEmpty =>
    someRows (represents.openRows_nil_iff.mp (isEmpty_iff.mp isEmpty))
  have payload : builder.entries ++ builder.restarts.flatMap (leBytes 4) ++
      leBytes 4 builder.restarts.length = blockPayload codecs openRows := by
    rw [represents.entries, represents.restarts, blockPayload]
  rw [SegmentBlocksBuilder.finishDataBlock, if_neg nonempty]
  split
  case isTrue many => exact .inr ⟨_, rfl, .restartCount (represents.restarts ▸ many)⟩
  case isFalse =>
    simp only [payload]
    rcases appendSection_cases codecs builder.bytes (blockPayload codecs openRows) true with
      ⟨bytes, block, appended, facts⟩ | ⟨failure, refused, long⟩
    swap
    · simp only [refused]
      exact .inr ⟨failure, rfl, .tooLong long⟩
    simp only [appended, ok_bind]
    rcases facts.grows with ⟨stored, grown, storedBytes⟩
    have openLast := represents.previousKey_open someRows
    have sameRows : (blocks ++ [openRows]).flatten ++ [] = blocks.flatten ++ openRows := by simp
    refine .inl ⟨_, rfl, ?_, ?_, rfl, rfl, rfl, ?_, ?_, ?_, ?_⟩
    · apply rel_append
      · rw [grown]
        exact represents.stored.imp fun _ _ storedBlock => storedBlock.append codecs stored
      · exact .cons ⟨someRows, openLast, facts.fits, facts.holds⟩ .nil
    · rw [Tiles, map_append]
      apply represents.tiles.append
      refine ⟨facts.offset, ?_⟩
      rw [grown, length_append, ← storedBytes]
      rfl
    · rw [sameRows]
      exact represents.rowCount
    · rw [sameRows]
      exact represents.previousKey
    · rw [sameRows]
      exact represents.minRowKey
    · rw [sameRows]
      exact represents.ascend

end

variable {rowKey : String}

theorem appendEntry_eq (appended : builder.appendEntry rowKey rowBytes = .ok after) : after =
      let entry := encodeEntry (entryShared builder.entryCount builder.previousKey rowKey)
        rowKey rowBytes
      { builder with
        entries := builder.entries ++ entry
        restarts := builder.restarts ++
          if builder.entryCount % restartInterval == 0 then [builder.entries.length] else []
        decodedDataBytes := builder.decodedDataBytes + entry.length
        entryCount := builder.entryCount + 1
        rowCount := builder.rowCount + 1
        previousKey := rowKey } := by
  rw [SegmentBlocksBuilder.appendEntry] at appended
  cases restart : builder.entryCount % restartInterval == 0 with
  | true =>
    simp only [restart, entryShared, if_true] at appended ⊢
    split at appended
    · cases appended
    · cases pure_eq_ok.mp appended
      rfl
  | false =>
    simp only [restart, entryShared, Bool.false_eq_true, false_and, if_false] at appended ⊢
    cases pure_eq_ok.mp appended
    simp

theorem nextEntry (represents : Represents codecs builder blocks openRows) (row : String × Row) :
    encodeEntry (entryShared builder.entryCount builder.previousKey row.1) row.1
        (codecs.encodeRow row.2) = entryBytes codecs openRows.length (lastKey "" openRows) row := by
  rw [represents.entryCount, entryBytes]
  by_cases nothing : openRows = []
  · subst nothing
    rfl
  · rw [represents.previousKey_open nothing]

variable {row : Row}

theorem appendEntry {minRowKey : String}
    (appended : builder.appendEntry rowKey (codecs.encodeRow row) = .ok after)
    (represents : Represents codecs { builder with minRowKey } blocks openRows)
    (ordered : utf8 builder.previousKey ≤ utf8 rowKey)
    (first : builder.minRowKey = firstKey (blocks.flatten ++ (openRows ++ [(rowKey, row)]))) :
    Represents codecs after blocks (openRows ++ [(rowKey, row)]) := by
  have entry := represents.nextEntry (rowKey, row)
  cases appendEntry_eq appended
  refine ⟨represents.stored, represents.tiles, ?_, ?_, ?_, ?_, ?_, first, ?_⟩
  · rw [encodeEntries_concat, Nat.zero_add, ← entry, ← represents.entries]
  · rw [restartOffsets_concat, Nat.zero_add, Nat.zero_add, ← represents.restarts,
      ← represents.entries, ← represents.entryCount]
  · have count : builder.entryCount = _ := represents.entryCount
    simp [count]
  · have count : builder.rowCount = _ := represents.rowCount
    simp [count, Nat.add_assoc]
  · rw [← append_assoc, lastKey_concat]
  · rw [← append_assoc]
    exact represents.ascend.concat (represents.previousKey ▸ ordered)

theorem rowCount_eq_zero (represents : Represents codecs builder blocks openRows) :
    builder.rowCount = 0 ↔ blocks.flatten ++ openRows = [] := by
  rw [represents.rowCount, length_eq_zero_iff]

theorem firstKey_concat (someRows : rows ≠ []) (row : String × Row) :
    firstKey (rows ++ [row]) = firstKey rows := by
  cases rows with
  | nil => exact absurd rfl someRows
  | cons first rows => rfl

theorem appendEntry_error {failure : SegmentBlockCodecError}
    (refused : builder.appendEntry rowKey rowBytes = .error failure) :
    failure = .stopped "an unfinished data block should be below its target size" ∧
      u32Max < builder.entries.length := by
  rw [SegmentBlocksBuilder.appendEntry] at refused
  split at refused
  case isTrue long =>
    cases refused
    exact ⟨rfl, long.2⟩
  case isFalse => cases refused

/-- A push in key order adds its row to the open block and closes the block once that has
reached the target size. -/
theorem push_cases (represents : Represents codecs builder blocks openRows)
    (ordered : utf8 builder.previousKey ≤ utf8 rowKey) (filterKey : String) (row : Row) :
    let extended := openRows ++ [(rowKey, row)]
    let reached := builder.targetBlockBytes ≤ (encodeEntries codecs 0 "" extended).length
    (∃ after, builder.push codecs rowKey filterKey row = .ok after ∧
      (reached ∧ Represents codecs after (blocks ++ [extended]) [] ∨
        ¬reached ∧ Represents codecs after blocks extended)) ∨
    ∃ failure, builder.push codecs rowKey filterKey row = .error failure ∧
      (u32Max < (encodeEntries codecs 0 "" openRows).length ∧
          failure = .stopped "an unfinished data block should be below its target size" ∨
        reached ∧ BlockRefusal codecs extended failure) := by
  intro extended reached
  rw [SegmentBlocksBuilder.push, if_neg fun ⟨_, less⟩ => absurd less (not_lt.mpr ordered)]
  dsimp only
  generalize started_eq : (pushFilterKey codecs
    (if builder.rowCount = 0 then { builder with minRowKey := rowKey } else builder)
      filterKey) = started
  have first : started.minRowKey = firstKey (blocks.flatten ++ extended) := by
    rw [← started_eq, ← append_assoc]
    by_cases nothing : builder.rowCount = 0
    · rw [if_pos nothing, represents.rowCount_eq_zero.mp nothing]
      rfl
    · rw [if_neg nothing,
        firstKey_concat fun noRows => nothing (represents.rowCount_eq_zero.mpr noRows)]
      exact represents.minRowKey
  have startedRepresents :
      Represents codecs { started with minRowKey := builder.minRowKey } blocks openRows := by
    subst started_eq
    split <;> exact represents.congr rfl rfl rfl rfl rfl rfl rfl rfl
  have startedOrdered : utf8 started.previousKey ≤ utf8 rowKey := by
    subst started_eq
    split <;> exact ordered
  have target : started.targetBlockBytes = builder.targetBlockBytes := by
    subst started_eq
    split <;> rfl
  cases appended : started.appendEntry rowKey (codecs.encodeRow row) with
  | error failure =>
    rcases appendEntry_error appended with ⟨isFailure, long⟩
    have entries : started.entries = _ := startedRepresents.entries
    exact .inr ⟨failure, rfl, .inl ⟨entries ▸ long, isFailure⟩⟩
  | ok middle =>
    have middleRepresents := appendEntry appended startedRepresents startedOrdered first
    have middleTarget := (appendEntry_keeps appended).2.2.target.trans target
    simp only [ok_bind, middleRepresents.entries, middleTarget]
    split
    case isTrue isReached =>
      rcases middleRepresents.finishDataBlock_cases (by simp) with
        ⟨after, finished, closed⟩ | ⟨failure, refused, reason⟩
      · exact .inl ⟨after, finished, .inl ⟨isReached, closed⟩⟩
      · exact .inr ⟨failure, refused, .inr ⟨isReached, reason⟩⟩
    case isFalse below => exact .inl ⟨middle, rfl, .inr ⟨below, middleRepresents⟩⟩

end Represents

/-! ## Sections of the inputs

What a segment of given inputs consists of, without the builder.
-/

open SegmentBlocksBuilder

/-- The blocks that rows are cut into, with some rows in the open block already. -/
def cutBlocks (targetBlockBytes : Nat) :
    List (String × Row) → List (String × Row) → List (List (String × Row))
  | openRows, [] => if openRows.isEmpty then [] else [openRows]
  | openRows, row :: rows =>
    if targetBlockBytes ≤ (encodeEntries codecs 0 "" (openRows ++ [row])).length then
      (openRows ++ [row]) :: cutBlocks targetBlockBytes [] rows
    else cutBlocks targetBlockBytes (openRows ++ [row]) rows

def indexOf (offset : Nat) : List (List (String × Row)) → List SegmentIndexEntry
  | [] => []
  | block :: blocks =>
    let payload := blockPayload codecs block
    let stored := storedForm codecs payload true
    ⟨lastKey "" block, offset, stored.length, payload.length, codecs.crc32c stored⟩ ::
      indexOf (offset + stored.length) blocks

def filterHashesOf (inputs : List (Input Row)) : List (UInt64 × UInt64) :=
  inputs.filterMap fun
    | .row _ filterKey _ | .filterKey filterKey => some (filterKeyHashes codecs filterKey)
    | .extentName _ => none

def extentHashesOf (inputs : List (Input Row)) : List (UInt64 × UInt64) :=
  inputs.filterMap fun
    | .extentName name => some (filterKeyHashes codecs name)
    | _ => none

section

variable (targetBlockBytes : Nat) (hasExtentFilter : Bool) (inputs : List (Input Row))

/-- The payloads of a segment's sections, and whether each is stored compressed. -/
def sections : List (Bytes × Bool) :=
  let blocks := cutBlocks codecs targetBlockBytes [] (pushedRows inputs)
  blocks.map (fun block => (blockPayload codecs block, true)) ++
    (if hasExtentFilter then
      [(buildFilterPayload (extentHashesOf codecs inputs) extentFilterBitsPerKey, false)]
    else []) ++
    [(buildFilterPayload (filterHashesOf codecs inputs) filterBitsPerKey, false),
      (codecs.encodeIndex (indexOf codecs 0 blocks), true)]

def SectionsFit : Prop :=
  ∀ payload compressed,
    (payload, compressed) ∈ sections codecs targetBlockBytes hasExtentFilter inputs →
      payload.length ≤ u32Max ∧ (storedForm codecs payload compressed).length ≤ u32Max

/-- Why a builder refuses rows in key order. -/
inductive Refusal : SegmentBlockCodecError → Prop
  | tooLong {payload compressed failure} :
      (payload, compressed) ∈ sections codecs targetBlockBytes hasExtentFilter inputs →
      TooLong codecs payload compressed failure → Refusal failure
  | unfinishedBlock : u32Max < targetBlockBytes →
      block ∈ cutBlocks codecs targetBlockBytes [] (pushedRows inputs) →
      u32Max < (encodeEntries codecs 0 "" block).length →
      Refusal (.stopped "an unfinished data block should be below its target size")
  | restartCount : block ∈ cutBlocks codecs targetBlockBytes [] (pushedRows inputs) →
      u32Max < (restartOffsets codecs 0 0 "" block).length →
      Refusal (.stopped "a block's restart count should fit u32")
  | noExtentFilter : hasExtentFilter = false → .extentName name ∈ inputs →
      Refusal (.stopped
        "a segment builder should have an extent filter before it takes extent names")

variable {codecs targetBlockBytes hasExtentFilter inputs}

theorem block_section (isBlock : block ∈ cutBlocks codecs targetBlockBytes [] (pushedRows inputs)) :
    (blockPayload codecs block, true) ∈ sections codecs targetBlockBytes hasExtentFilter inputs :=
  mem_append_left _ (mem_append_left _ (mem_map_of_mem isBlock))

theorem BlockRefusal.refusal {failure : SegmentBlockCodecError}
    (reason : BlockRefusal codecs block failure)
    (isBlock : block ∈ cutBlocks codecs targetBlockBytes [] (pushedRows inputs)) :
    Refusal codecs targetBlockBytes hasExtentFilter inputs failure := by
  cases reason with
  | tooLong long => exact .tooLong (block_section isBlock) long
  | restartCount many => exact .restartCount isBlock many

/-- No refusal is left once the sections fit and extent names meet a filter. -/
theorem Refusal.not_fits {failure : SegmentBlockCodecError}
    (reason : Refusal codecs targetBlockBytes hasExtentFilter inputs failure)
    (fits : SectionsFit codecs targetBlockBytes hasExtentFilter inputs) :
    hasExtentFilter = false ∧ ∃ name, .extentName name ∈ inputs := by
  have payloadFits : ∀ block ∈ cutBlocks codecs targetBlockBytes [] (pushedRows inputs),
      (encodeEntries codecs 0 "" block).length + (restartOffsets codecs 0 0 "" block).length ≤
        u32Max := by
    intro block isBlock
    have within := (fits _ _ (block_section isBlock)).1
    rw [blockPayload, length_append, length_append, length_flatMap_leBytes] at within
    omega
  cases reason with
  | tooLong isSection long =>
    rcases fits _ _ isSection with ⟨payloadFits, storedFits⟩
    rcases long with ⟨_, rfl | rfl, long, _⟩ <;> omega
  | unfinishedBlock _ isBlock long =>
    have within := payloadFits _ isBlock
    omega
  | restartCount isBlock many =>
    have within := payloadFits _ isBlock
    omega
  | noExtentFilter noFilter isInput => exact ⟨noFilter, _, isInput⟩

theorem cutBlocks_flatten (codecs : SegmentCodecs Row) (targetBlockBytes : Nat)
    (openRows rows : List (String × Row)) :
    (cutBlocks codecs targetBlockBytes openRows rows).flatten = openRows ++ rows := by
  induction rows generalizing openRows with
  | nil => cases openRows <;> simp [cutBlocks]
  | cons row rows induction =>
    rw [cutBlocks]
    split <;> simp [induction]

/-- The open block only grows until it is cut. -/
theorem cutBlocks_open (targetBlockBytes : Nat) (rows : List (String × Row))
    (someRows : openRows ≠ []) :
    ∃ more, openRows ++ more ∈ cutBlocks codecs targetBlockBytes openRows rows := by
  induction rows generalizing openRows with
  | nil => exact ⟨[], by simp [cutBlocks, someRows]⟩
  | cons row rows induction =>
    rw [cutBlocks]
    split
    · exact ⟨[row], mem_cons_self⟩
    · rcases induction (by simp : openRows ++ [row] ≠ []) with ⟨more, isBlock⟩
      exact ⟨row :: more, by simpa using isBlock⟩

theorem encodeEntries_length_le (count : Nat) (previousKey : String)
    (rows more : List (String × Row)) : (encodeEntries codecs count previousKey rows).length ≤
      (encodeEntries codecs count previousKey (rows ++ more)).length := by
  induction rows generalizing count previousKey with
  | nil => exact Nat.zero_le _
  | cons row rows induction =>
    rw [cons_append, encodeEntries, encodeEntries, length_append, length_append]
    exact Nat.add_le_add_left (induction ..) _

theorem index_eq_indexOf {bytes : Bytes} {index : List SegmentIndexEntry}
    {blocks : List (List (String × Row))}
    (stored : List.Forall₂ (StoredBlock codecs bytes) index blocks)
    (tiles : Tiles offset index finish) : index = indexOf codecs offset blocks := by
  induction stored generalizing offset with
  | nil => rfl
  | @cons entry block index blocks first _ induction =>
    rcases tiles with ⟨atStart, tiles⟩
    have rest := induction tiles
    rcases entry with ⟨lastRowKey, _, storedBytes, decodedBytes, crc32c⟩
    rcases first with ⟨_, rfl, _, _, isStored, isDecoded, isChecksum⟩
    simp only [SegmentIndexEntry.run] at atStart rest isStored isDecoded isChecksum
    rw [indexOf, rest, atStart, isStored, isDecoded, isChecksum]

end

/-! ## Progress through the inputs -/

/-- A builder that has taken all inputs but the rest. -/
structure Progress (targetBlockBytes : Nat) (hasExtentFilter : Bool) (inputs : List (Input Row))
    (builder : SegmentBlocksBuilder) (blocks : List (List (String × Row)))
    (openRows : List (String × Row)) (rest : List (Input Row)) : Prop
    extends Represents codecs builder blocks openRows where
  target : builder.targetBlockBytes = targetBlockBytes
  below : openRows = [] ∨ (encodeEntries codecs 0 "" openRows).length < targetBlockBytes
  cut : cutBlocks codecs targetBlockBytes [] (pushedRows inputs) =
    blocks ++ cutBlocks codecs targetBlockBytes openRows (pushedRows rest)
  filterHashes : filterHashesOf codecs inputs = builder.filterHashes ++ filterHashesOf codecs rest
  extentHashes : (if hasExtentFilter then some (extentHashesOf codecs inputs) else none) =
    builder.extentHashes.map (· ++ extentHashesOf codecs rest)
  given : rest ⊆ inputs

namespace Progress

variable {codecs} {targetBlockBytes : Nat} {inputs rest : List (Input Row)}

theorem initial (targetBlockBytes : Nat) (hasExtentFilter : Bool) (inputs : List (Input Row)) :
    Progress codecs targetBlockBytes hasExtentFilter inputs
      (start targetBlockBytes hasExtentFilter) [] [] inputs := by
  refine ⟨.initial targetBlockBytes hasExtentFilter, ?_, .inl rfl, rfl, ?_, ?_, fun _ => id⟩ <;>
    cases hasExtentFilter <;> rfl

theorem rows_eq (progress : Progress codecs targetBlockBytes hasExtentFilter inputs builder blocks
    openRows rest) : pushedRows inputs = (blocks.flatten ++ openRows) ++ pushedRows rest := by
  have rows := congrArg flatten progress.cut
  rwa [flatten_append, cutBlocks_flatten, cutBlocks_flatten, nil_append, ← append_assoc] at rows

end Progress

end LoonFs
