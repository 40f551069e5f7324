import LoonFs.Format.Binary
import LoonFs.Format.RowKeys

/-! # Segment blocks -/

namespace LoonFs

def restartInterval : Nat := 16

def filterBitsPerKey : Nat := 10

def filterHashCount : Nat := 7

def extentFilterBitsPerKey : Nat := 20

def filterHashSeedOne : UInt64 := 0

def filterHashSeedTwo : UInt64 := 0x9e3779b97f4a7c15

/-- Locates one section of a segment. -/
structure BlockHandle where
  offset : Nat
  storedBytes : Nat
  decodedBytes : Nat
  crc32c : UInt32
deriving DecidableEq

structure SegmentIndexEntry where
  lastRowKey : String
  block : BlockHandle
deriving DecidableEq

structure BuiltSegmentBlocks where
  bytes : Bytes
  index : BlockHandle
  filter : BlockHandle
  extentFilter : Option BlockHandle
  rowCount : Nat
  minRowKey : String
  maxRowKey : String
deriving DecidableEq

inductive SegmentBlockCodecError where
  | emptySegment
  | rowKeysOutOfOrder (previous offered : String)
  | storedLengthMismatch (expected actual : Nat)
  | checksumMismatch (expected actual : UInt32)
  | decodedLengthMismatch (expected actual : Nat)
  | malformed (message : String)
  | codec (message : String)
  /-- A failed `expect`, which stops the process instead of returning. -/
  | stopped (message : String)
deriving DecidableEq

/-- The functions of other libraries that a segment is stored with. -/
structure SegmentCodecs (Row : Type) where
  encodeRow : Row → Bytes
  decodeRow : Bytes → Except String Row
  encodeIndex : List SegmentIndexEntry → Bytes
  decodeIndex : Bytes → Except String (List SegmentIndexEntry)
  compress : Bytes → Bytes
  decompress : Bytes → Except String Bytes
  crc32c : Bytes → UInt32
  xxh64 : Bytes → UInt64 → UInt64

/-- What is encoded decodes to what it was. -/
class LawfulSegmentCodecs {Row : Type} (codecs : SegmentCodecs Row) : Prop where
  decodeRow_encodeRow : ∀ row, codecs.decodeRow (codecs.encodeRow row) = .ok row
  decodeIndex_encodeIndex : ∀ index, codecs.decodeIndex (codecs.encodeIndex index) = .ok index
  decompress_compress : ∀ payload, codecs.decompress (codecs.compress payload) = .ok payload

section

variable {Row : Type} (codecs : SegmentCodecs Row)

/-! ## Sections -/

def handleBytes (length : Nat) : Except SegmentBlockCodecError Nat :=
  if length ≤ u32Max then
    .ok length
  else
    .error (.malformed s!"a {length}-byte block does not fit a handle")

/-- A payload as it is stored. -/
def storedForm (payload : Bytes) (compressed : Bool) : Bytes :=
  if compressed then codecs.compress payload else payload

def appendSection (bytes payload : Bytes) (compressed : Bool) :
    Except SegmentBlockCodecError (Bytes × BlockHandle) := do
  let stored := storedForm codecs payload compressed
  let storedBytes ← handleBytes stored.length
  let decodedBytes ← handleBytes payload.length
  pure (bytes ++ stored,
    { offset := bytes.length, storedBytes, decodedBytes, crc32c := codecs.crc32c stored })

def decodeSection (stored : Bytes) (handle : BlockHandle) (compressed : Bool) :
    Except SegmentBlockCodecError Bytes := do
  if stored.length ≠ handle.storedBytes then
    throw (.storedLengthMismatch handle.storedBytes stored.length)
  if codecs.crc32c stored ≠ handle.crc32c then
    throw (.checksumMismatch handle.crc32c (codecs.crc32c stored))
  let payload ←
    if compressed then
      match codecs.decompress stored with
      | .ok payload => pure (payload.take (handle.decodedBytes + 1))
      | .error message => throw (.codec message)
    else if stored.length ≠ handle.decodedBytes then
      throw (.decodedLengthMismatch handle.decodedBytes stored.length)
    else
      pure stored
  if payload.length ≠ handle.decodedBytes then
    throw (.decodedLengthMismatch handle.decodedBytes payload.length)
  pure payload

def BlockHandle.slice (handle : BlockHandle) (bytes : Bytes) : Bytes :=
  (bytes.drop handle.offset).take handle.storedBytes

end

/-! ## Filters -/

section

variable {Row : Type} (codecs : SegmentCodecs Row)

def filterKeyHashes (filterKey : String) : UInt64 × UInt64 :=
  (codecs.xxh64 (utf8 filterKey) filterHashSeedOne,
    codecs.xxh64 (utf8 filterKey) filterHashSeedTwo)

def filterBit (bitLen : Nat) (hashes : UInt64 × UInt64) (probe : Nat) : Nat :=
  (hashes.1 + UInt64.ofNat probe * hashes.2).toNat % bitLen

def bitMask (bit : Nat) : UInt8 := 1 <<< UInt8.ofNat (bit % 8)

structure SegmentFilterBuilder where
  bitLen : Nat
  bits : Bytes

def SegmentFilterBuilder.withBitsPerKey (expectedKeys bitsPerKey : Nat) : SegmentFilterBuilder :=
  let bitLen := max (min (expectedKeys * bitsPerKey) u64Max) 64
  { bitLen, bits := List.replicate ((bitLen + 7) / 8) 0 }

def SegmentFilterBuilder.insertBit (builder : SegmentFilterBuilder) (bit : Nat) :
    SegmentFilterBuilder :=
  { builder with bits := builder.bits.modify (bit / 8) (· ||| bitMask bit) }

def SegmentFilterBuilder.insertHashes (builder : SegmentFilterBuilder)
    (hashes : UInt64 × UInt64) : SegmentFilterBuilder :=
  (List.range filterHashCount).foldl
    (fun builder probe => builder.insertBit (filterBit builder.bitLen hashes probe)) builder

def SegmentFilterBuilder.finish (builder : SegmentFilterBuilder) : Bytes :=
  leBytes 4 filterHashCount ++ leBytes 8 builder.bitLen ++ builder.bits

def buildFilterPayload (hashes : List (UInt64 × UInt64)) (bitsPerKey : Nat) : Bytes :=
  (hashes.foldl SegmentFilterBuilder.insertHashes
    (.withBitsPerKey hashes.length bitsPerKey)).finish

structure SegmentFilter where
  hashCount : Nat
  bitLen : Nat
  bits : Bytes
deriving DecidableEq

namespace SegmentFilter

def fromPayload (payload : Bytes) : Except SegmentBlockCodecError SegmentFilter := do
  if payload.length < 12 then
    throw (.malformed "filter block shorter than its header")
  let hashCount := fromLeBytes (payload.take 4)
  let bitLen := fromLeBytes ((payload.drop 4).take 8)
  if hashCount ≠ filterHashCount then
    throw (.malformed "filter hash count must be seven")
  if bitLen < 64 then
    throw (.malformed "filter bit length must be at least 64")
  let bits := payload.drop 12
  if (bitLen + 7) / 8 ≠ bits.length then
    throw (.malformed "filter bit length disagrees with its bytes")
  pure { hashCount, bitLen, bits }

def mayContainHashes (filter : SegmentFilter) (hashes : UInt64 × UInt64) : Bool :=
  (List.range filter.hashCount).all fun probe =>
    let bit := filterBit filter.bitLen hashes probe
    filter.bits.getD (bit / 8) 0 &&& bitMask bit != 0

def mayContain (filter : SegmentFilter) (filterKey : String) : Bool :=
  filter.mayContainHashes (filterKeyHashes codecs filterKey)

end SegmentFilter

def decodeFilterBlock (stored : Bytes) (handle : BlockHandle) :
    Except SegmentBlockCodecError SegmentFilter := do
  SegmentFilter.fromPayload (← decodeSection codecs stored handle false)

end

/-! ## The builder -/

def commonPrefixLength : Bytes → Bytes → Nat
  | left :: lefts, right :: rights =>
    if left = right then commonPrefixLength lefts rights + 1 else 0
  | _, _ => 0

def backOffToBoundary (current : String) : Nat → Nat
  | 0 => 0
  | length + 1 =>
    if String.Pos.Raw.isValid current ⟨length + 1⟩ then
      length + 1
    else
      backOffToBoundary current length

def sharedPrefixLength (previous current : String) : Nat :=
  backOffToBoundary current (commonPrefixLength (utf8 previous) (utf8 current))

structure SegmentBlocksBuilder where
  targetBlockBytes : Nat
  entries : Bytes
  restarts : List Nat
  entryCount : Nat
  previousKey : String
  bytes : Bytes
  index : List SegmentIndexEntry
  decodedDataBytes : Nat
  filterHashes : List (UInt64 × UInt64)
  extentHashes : Option (List (UInt64 × UInt64))
  rowCount : Nat
  minRowKey : String

namespace SegmentBlocksBuilder

def new (targetBlockBytes : Nat) : SegmentBlocksBuilder where
  targetBlockBytes := targetBlockBytes
  entries := []
  restarts := []
  entryCount := 0
  previousKey := ""
  bytes := []
  index := []
  decodedDataBytes := 0
  filterHashes := []
  extentHashes := none
  rowCount := 0
  minRowKey := ""

def withExtentFilter (builder : SegmentBlocksBuilder) : SegmentBlocksBuilder :=
  { builder with extentHashes := some [] }

variable {Row : Type} (codecs : SegmentCodecs Row)

def pushExtentName (builder : SegmentBlocksBuilder) (name : String) :
    Except SegmentBlockCodecError SegmentBlocksBuilder :=
  match builder.extentHashes with
  | some hashes =>
    .ok { builder with extentHashes := some (hashes ++ [filterKeyHashes codecs name]) }
  | none =>
    .error (.stopped
      "a segment builder should have an extent filter before it takes extent names")

def pushFilterKey (builder : SegmentBlocksBuilder) (filterKey : String) : SegmentBlocksBuilder :=
  { builder with filterHashes := builder.filterHashes ++ [filterKeyHashes codecs filterKey] }

def finishDataBlock (builder : SegmentBlocksBuilder) :
    Except SegmentBlockCodecError SegmentBlocksBuilder := do
  if builder.entries.isEmpty then
    pure builder
  else
    if builder.restarts.length > u32Max then
      throw (.stopped "a block's restart count should fit u32")
    let payload := builder.entries ++ builder.restarts.flatMap (leBytes 4) ++
      leBytes 4 builder.restarts.length
    let (bytes, block) ← appendSection codecs builder.bytes payload true
    pure { builder with
      entries := []
      restarts := []
      entryCount := 0
      bytes
      index := builder.index ++ [{ lastRowKey := builder.previousKey, block }]
      decodedDataBytes := builder.decodedDataBytes + (builder.restarts.length + 1) * 4 }

def encodeEntry (sharedLength : Nat) (rowKey : String) (rowBytes : Bytes) : Bytes :=
  let suffix := (utf8 rowKey).drop sharedLength
  writeVarint sharedLength ++ writeVarint suffix.length ++ suffix ++
    writeVarint rowBytes.length ++ rowBytes

def appendEntry (builder : SegmentBlocksBuilder) (rowKey : String) (rowBytes : Bytes) :
    Except SegmentBlockCodecError SegmentBlocksBuilder := do
  let restart := builder.entryCount % restartInterval == 0
  if restart ∧ builder.entries.length > u32Max then
    throw (.stopped "an unfinished data block should be below its target size")
  let sharedLength := if restart then 0 else sharedPrefixLength builder.previousKey rowKey
  let entry := encodeEntry sharedLength rowKey rowBytes
  pure { builder with
    entries := builder.entries ++ entry
    restarts := if restart then builder.restarts ++ [builder.entries.length] else builder.restarts
    decodedDataBytes := builder.decodedDataBytes + entry.length
    entryCount := builder.entryCount + 1
    rowCount := builder.rowCount + 1
    previousKey := rowKey }

def push (builder : SegmentBlocksBuilder) (rowKey filterKey : String) (row : Row) :
    Except SegmentBlockCodecError SegmentBlocksBuilder := do
  if builder.rowCount > 0 ∧ utf8 rowKey < utf8 builder.previousKey then
    throw (.rowKeysOutOfOrder builder.previousKey rowKey)
  let builder := if builder.rowCount = 0 then { builder with minRowKey := rowKey } else builder
  let builder ← (builder.pushFilterKey codecs filterKey).appendEntry rowKey (codecs.encodeRow row)
  if builder.entries.length ≥ builder.targetBlockBytes then
    builder.finishDataBlock codecs
  else
    pure builder

def openDecodedDataBytes (builder : SegmentBlocksBuilder) : Nat :=
  builder.decodedDataBytes +
    if builder.entries.isEmpty then 0 else (builder.restarts.length + 1) * 4

def appendExtentFilter (builder : SegmentBlocksBuilder) :
    Except SegmentBlockCodecError (Bytes × Option BlockHandle) :=
  match builder.extentHashes with
  | some hashes => do
      let (bytes, handle) ← appendSection codecs builder.bytes
        (buildFilterPayload hashes extentFilterBitsPerKey) false
      pure (bytes, some handle)
  | none => pure (builder.bytes, none)

def build (builder : SegmentBlocksBuilder) : Except SegmentBlockCodecError BuiltSegmentBlocks := do
  if builder.rowCount = 0 then
    throw .emptySegment
  let builder ← builder.finishDataBlock codecs
  let (bytes, extentFilter) ← builder.appendExtentFilter codecs
  let (bytes, filter) ← appendSection codecs bytes
    (buildFilterPayload builder.filterHashes filterBitsPerKey) false
  let (bytes, index) ← appendSection codecs bytes (codecs.encodeIndex builder.index) true
  pure
    { bytes, index, filter, extentFilter
      rowCount := builder.rowCount
      minRowKey := builder.minRowKey
      maxRowKey := builder.previousKey }

/-- What a writer gives a builder between its creation and its end. -/
inductive Input (Row : Type) where
  | row (rowKey filterKey : String) (row : Row)
  | filterKey (filterKey : String)
  | extentName (name : String)

def accept (builder : SegmentBlocksBuilder) :
    Input Row → Except SegmentBlockCodecError SegmentBlocksBuilder
  | .row rowKey filterKey row => builder.push codecs rowKey filterKey row
  | .filterKey filterKey => .ok (builder.pushFilterKey codecs filterKey)
  | .extentName name => builder.pushExtentName codecs name

def acceptAll (builder : SegmentBlocksBuilder) :
    List (Input Row) → Except SegmentBlockCodecError SegmentBlocksBuilder
  | [] => .ok builder
  | input :: inputs => do (← builder.accept codecs input).acceptAll inputs

def start (targetBlockBytes : Nat) (hasExtentFilter : Bool) : SegmentBlocksBuilder :=
  if hasExtentFilter then (new targetBlockBytes).withExtentFilter else new targetBlockBytes

def segment (targetBlockBytes : Nat) (hasExtentFilter : Bool) (inputs : List (Input Row)) :
    Except SegmentBlockCodecError BuiltSegmentBlocks := do
  (← (start targetBlockBytes hasExtentFilter).acceptAll codecs inputs).build codecs

def pushedRows (inputs : List (Input Row)) : List (String × Row) :=
  inputs.filterMap fun
    | .row rowKey _ row => some (rowKey, row)
    | _ => none

end SegmentBlocksBuilder

/-! ## Readers -/

section

variable {Row : Type} (codecs : SegmentCodecs Row)

def checkIndexEntries (previous : Option (String × Nat)) :
    List SegmentIndexEntry → Except SegmentBlockCodecError Unit
  | [] => pure ()
  | entry :: rest => do
      let finish := entry.block.offset + entry.block.storedBytes
      if finish > u64Max then
        throw (.malformed s!"index block `{entry.lastRowKey}` byte range overflows")
      match previous with
      | some (previousKey, previousEnd) =>
        if utf8 entry.lastRowKey < utf8 previousKey then
          throw (.malformed
            s!"index blocks out of key order: `{entry.lastRowKey}` follows `{previousKey}`")
        if entry.block.offset ≠ previousEnd then
          throw (.malformed
            s!"index block `{entry.lastRowKey}` does not start where `{previousKey}` ends")
      | none => pure ()
      checkIndexEntries (some (entry.lastRowKey, finish)) rest

def decodeIndexBlock (stored : Bytes) (handle : BlockHandle) :
    Except SegmentBlockCodecError (List SegmentIndexEntry) := do
  let payload ← decodeSection codecs stored handle true
  match codecs.decodeIndex payload with
  | .ok entries => do
      checkIndexEntries none entries
      pure entries
  | .error message => throw (.codec message)

def readEntryLength (bytes : Bytes) : Except SegmentBlockCodecError (Nat × Bytes) :=
  match readVarint bytes with
  | .ok result => .ok result
  | .error .runsPastTheBlock => .error (.malformed "varint runs past the block")
  | .error .exceeds64Bits => .error (.malformed "varint exceeds 64 bits")

def takeSlice (bytes : Bytes) (length : Nat) : Except SegmentBlockCodecError (Bytes × Bytes) :=
  if length ≤ bytes.length then
    .ok (bytes.take length, bytes.drop length)
  else
    .error (.malformed "entry runs past the block")

def decodeEntry (restart : Bool) (previousKey : String) (bytes : Bytes) :
    Except SegmentBlockCodecError ((String × Row) × Bytes) := do
  let (sharedLength, bytes) ← readEntryLength bytes
  let (suffixLength, bytes) ← readEntryLength bytes
  if restart ∧ sharedLength ≠ 0 then
    throw (.malformed "restart entry has a shared prefix")
  if sharedLength > (utf8 previousKey).length ∨
      ¬String.Pos.Raw.isValid previousKey ⟨sharedLength⟩ then
    throw (.malformed "shared prefix exceeds previous key")
  let (suffix, bytes) ← takeSlice bytes suffixLength
  match fromUtf8 suffix, fromUtf8 ((utf8 previousKey).take sharedLength) with
  | some suffix, some shared => do
      let key := shared ++ suffix
      let (rowLength, bytes) ← readEntryLength bytes
      let (rowBytes, bytes) ← takeSlice bytes rowLength
      match codecs.decodeRow rowBytes with
      | .ok row => do
          if utf8 key < utf8 previousKey then
            throw (.malformed s!"rows out of row-key order: `{key}` follows `{previousKey}`")
          pure ((key, row), bytes)
      | .error message => throw (.codec message)
  | _, _ => throw (.malformed "row key is not utf-8")

def decodeEntries (length : Nat) : Nat → List Nat → Nat → String → Bytes →
    Except SegmentBlockCodecError (List (String × Row))
  | _, restarts, _, _, [] =>
    if restarts.isEmpty then
      .ok []
    else
      .error (.malformed "restart array contains unused offsets")
  | 0, _, _, _, _ :: _ => .error (.stopped "an entry should not be empty")
  | steps + 1, restarts, decoded, previousKey, byte :: bytes => do
      let restart := decoded % restartInterval == 0
      if restart ∧ restarts.head? ≠ some (length - (bytes.length + 1)) then
        throw (.malformed "restart offset disagrees with its entry")
      let ((key, row), rest) ← decodeEntry codecs restart previousKey (byte :: bytes)
      let later ← decodeEntries length steps (if restart then restarts.tail else restarts)
        (decoded + 1) key rest
      pure ((key, row) :: later)

def decodeDataBlockRows (stored : Bytes) (handle : BlockHandle) :
    Except SegmentBlockCodecError (List (String × Row)) := do
  let payload ← decodeSection codecs stored handle true
  if payload.length < 4 then
    throw (.malformed "data block shorter than its restart count")
  let body := payload.take (payload.length - 4)
  let restartsLength := fromLeBytes (payload.drop (payload.length - 4)) * 4
  if restartsLength > body.length then
    throw (.malformed "restart array exceeds block")
  let entries := body.take (body.length - restartsLength)
  let restarts := leWords32 (body.drop (body.length - restartsLength))
  decodeEntries codecs entries.length entries.length restarts 0 "" entries

end

/-! ## Range selection -/

/-- The number of leading elements that satisfy `holds`. -/
def partitionPoint {Element : Type} (holds : Element → Bool) (elements : List Element) : Nat :=
  (elements.takeWhile holds).length

def indexBlocksForKeyRange (index : List SegmentIndexEntry) (lowerBound : String)
    (upperBound : Option String) : Nat × Nat :=
  let start := partitionPoint (fun entry => utf8 entry.lastRowKey < utf8 lowerBound) index
  let finish :=
    match upperBound with
    | none => index.length
    | some upperBound =>
      min (partitionPoint (fun entry => utf8 entry.lastRowKey < utf8 upperBound) index + 1)
        index.length
  (start, max finish start)

end LoonFs
