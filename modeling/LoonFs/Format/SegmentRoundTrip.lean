import LoonFs.Format.SegmentBuilder

/-! # Segments read back as they were written -/

namespace LoonFs

open Foundation SegmentBlocksBuilder List

variable {Row : Type} (codecs : SegmentCodecs Row)

/-! ## Whole inputs -/

namespace Progress

variable {codecs} {targetBlockBytes : Nat}

section

variable {rowKey filterKey : String} {row : Row} {inputs rest : List (Input Row)}
  {builder after : SegmentBlocksBuilder} {blocks : List (List (String × Row))}
  {openRows : List (String × Row)} {hasExtentFilter : Bool}
  (progress : Progress codecs targetBlockBytes hasExtentFilter inputs builder blocks openRows
    (.row rowKey filterKey row :: rest))
include progress

/-- A row that was pushed is in the block that was closed with it, or in the open one. -/
theorem of_push (accepted : builder.push codecs rowKey filterKey row = .ok after)
    (outcome :
      targetBlockBytes ≤ (encodeEntries codecs 0 "" (openRows ++ [(rowKey, row)])).length ∧
          Represents codecs after (blocks ++ [openRows ++ [(rowKey, row)]]) [] ∨
        ¬targetBlockBytes ≤ (encodeEntries codecs 0 "" (openRows ++ [(rowKey, row)])).length ∧
          Represents codecs after blocks (openRows ++ [(rowKey, row)])) :
    ∃ blocks' openRows', Progress codecs targetBlockBytes hasExtentFilter inputs after blocks'
      openRows' rest := by
  rcases push_keeps codecs accepted with ⟨hashes, _, sameTarget, sameExtents⟩
  have target := sameTarget.trans progress.target
  have filterHashes : filterHashesOf codecs inputs =
      after.filterHashes ++ filterHashesOf codecs rest := by
    rw [hashes, append_assoc]
    exact progress.filterHashes
  have extentHashes := sameExtents ▸ progress.extentHashes
  have given : rest ⊆ inputs := fun _ mem => progress.given (mem_cons_of_mem _ mem)
  have cut : cutBlocks codecs targetBlockBytes [] (pushedRows inputs) = blocks ++
      cutBlocks codecs targetBlockBytes openRows ((rowKey, row) :: pushedRows rest) :=
    progress.cut
  rw [cutBlocks] at cut
  rcases outcome with ⟨reached, closed⟩ | ⟨below, opened⟩
  · rw [if_pos reached, ← singleton_append, ← append_assoc] at cut
    exact ⟨_, _, closed, target, .inl rfl, cut, filterHashes, extentHashes, given⟩
  · rw [if_neg below] at cut
    exact ⟨_, _, opened, target, .inr (not_le.mp below), cut, filterHashes, extentHashes, given⟩

theorem push_refusal {failure : SegmentBlockCodecError}
    (reason : u32Max < (encodeEntries codecs 0 "" openRows).length ∧
          failure = .stopped "an unfinished data block should be below its target size" ∨
        targetBlockBytes ≤ (encodeEntries codecs 0 "" (openRows ++ [(rowKey, row)])).length ∧
          BlockRefusal codecs (openRows ++ [(rowKey, row)]) failure) :
    Refusal codecs targetBlockBytes hasExtentFilter inputs failure := by
  have cut : cutBlocks codecs targetBlockBytes [] (pushedRows inputs) = blocks ++
      cutBlocks codecs targetBlockBytes openRows ((rowKey, row) :: pushedRows rest) :=
    progress.cut
  rcases reason with ⟨long, rfl⟩ | ⟨reached, reason⟩
  · have someRows : openRows ≠ [] := by
      rintro rfl
      exact Nat.not_lt_zero _ long
    rcases cutBlocks_open targetBlockBytes ((rowKey, row) :: pushedRows rest) someRows with
      ⟨more, isBlock⟩
    exact .unfinishedBlock (long.trans (progress.below.resolve_left someRows))
      (cut ▸ mem_append_right _ isBlock)
      (long.trans_le (encodeEntries_length_le 0 "" openRows more))
  · rw [cutBlocks, if_pos reached] at cut
    exact reason.refusal (cut ▸ mem_append_right _ mem_cons_self)

end

theorem accept_cases (progress : Progress codecs targetBlockBytes hasExtentFilter inputs builder
      blocks openRows (input :: rest)) (ascend : KeysAscend "" (pushedRows inputs)) :
    (∃ after blocks' openRows', builder.accept codecs input = .ok after ∧
      Progress codecs targetBlockBytes hasExtentFilter inputs after blocks' openRows' rest) ∨
    ∃ failure, builder.accept codecs input = .error failure ∧
      Refusal codecs targetBlockBytes hasExtentFilter inputs failure := by
  have given : rest ⊆ inputs := fun _ mem => progress.given (mem_cons_of_mem _ mem)
  cases input with
  | row rowKey filterKey row =>
    have pushed : (rowKey, row) ∈ pushedRows (.row rowKey filterKey row :: rest) := mem_cons_self
    have ordered : utf8 builder.previousKey ≤ utf8 rowKey := by
      rw [progress.previousKey]
      exact (progress.rows_eq ▸ ascend).lastKey_le pushed
    rcases progress.push_cases ordered filterKey row with
      ⟨after, accepted, outcome⟩ | ⟨failure, refused, reason⟩
    · rcases progress.of_push accepted (progress.target ▸ outcome) with
        ⟨blocks', openRows', afterProgress⟩
      exact .inl ⟨after, blocks', openRows', accepted, afterProgress⟩
    · exact .inr ⟨failure, refused, progress.push_refusal (progress.target ▸ reason)⟩
  | filterKey filterKey =>
    refine .inl ⟨_, blocks, openRows, rfl,
      progress.congr rfl rfl rfl rfl rfl rfl rfl rfl, progress.target, progress.below,
      progress.cut, ?_, progress.extentHashes, given⟩
    rw [pushFilterKey, append_assoc]
    exact progress.filterHashes
  | extentName name =>
    have extents := progress.extentHashes
    rw [accept, pushExtentName]
    split
    case h_1 hashes isHashes =>
      refine .inl ⟨_, blocks, openRows, rfl,
        progress.congr rfl rfl rfl rfl rfl rfl rfl rfl, progress.target, progress.below,
        progress.cut, progress.filterHashes, ?_, given⟩
      rw [extents, isHashes, Option.map_some, Option.map_some, append_assoc]
      rfl
    case h_2 noHashes =>
      refine .inr ⟨_, rfl, .noExtentFilter ?_ (progress.given mem_cons_self)⟩
      cases hasExtentFilter with
      | false => rfl
      | true =>
        rw [noHashes] at extents
        cases extents

theorem acceptAll_cases (progress : Progress codecs targetBlockBytes hasExtentFilter inputs builder
      blocks openRows rest) (ascend : KeysAscend "" (pushedRows inputs)) :
    (∃ after blocks' openRows', builder.acceptAll codecs rest = .ok after ∧
      Progress codecs targetBlockBytes hasExtentFilter inputs after blocks' openRows' []) ∨
    ∃ failure, builder.acceptAll codecs rest = .error failure ∧
      Refusal codecs targetBlockBytes hasExtentFilter inputs failure := by
  induction rest generalizing builder blocks openRows with
  | nil => exact .inl ⟨builder, blocks, openRows, rfl, progress⟩
  | cons input rest induction =>
    rcases progress.accept_cases ascend with
      ⟨middle, _, _, accepted, progress⟩ | ⟨failure, refused, reason⟩
    · rw [acceptAll, accepted]
      exact induction progress
    · refine .inr ⟨failure, ?_, reason⟩
      rw [acceptAll, refused]
      rfl

/-- After the last input only the open block is left to close. -/
theorem finishDataBlock_cases (progress : Progress codecs targetBlockBytes hasExtentFilter inputs
      builder blocks openRows []) :
    (∃ middle, builder.finishDataBlock codecs = .ok middle ∧ Represents codecs middle
      (cutBlocks codecs targetBlockBytes [] (pushedRows inputs)) []) ∨
    ∃ failure, builder.finishDataBlock codecs = .error failure ∧
      Refusal codecs targetBlockBytes hasExtentFilter inputs failure := by
  have cut : cutBlocks codecs targetBlockBytes [] (pushedRows inputs) =
      blocks ++ cutBlocks codecs targetBlockBytes openRows [] := progress.cut
  by_cases nothing : openRows = []
  · subst nothing
    rw [cut, cutBlocks, isEmpty_nil, if_pos rfl, append_nil]
    exact .inl ⟨builder, progress.finishDataBlock_nil rfl, progress.toRepresents⟩
  · rw [cutBlocks, if_neg (by simpa using nothing)] at cut
    rcases progress.toRepresents.finishDataBlock_cases nothing with
      ⟨middle, finished, closed⟩ | ⟨failure, refused, reason⟩
    · exact .inl ⟨middle, finished, cut ▸ closed⟩
    · refine .inr ⟨failure, refused, reason.refusal ?_⟩
      exact cut ▸ mem_append_right _ (mem_singleton_self _)

end Progress

/-! ## The index -/

section

variable {codecs} {bytes : Bytes} {index : List SegmentIndexEntry}
  {blocks : List (List (String × Row))} {block : List (String × Row)} {entry : SegmentIndexEntry}

private theorem lastRowKey_of_stored (stored : StoredBlock codecs bytes entry block)
    (previousKey : String) : entry.lastRowKey = lastKey previousKey block := by
  rw [stored.lastRowKey, lastKey, lastKey, getLast?_eq_some_getLast stored.nonempty]
  rfl

private theorem checkIndexEntries_after {previousKey : String} {start : Nat}
    (stored : List.Forall₂ (StoredBlock codecs bytes) index blocks)
    (ascend : KeysAscend previousKey blocks.flatten) (tiles : Tiles start index finish)
    (fits : finish ≤ u64Max) (previous : Option (String × Nat))
    (follows : ∀ key finish, previous = some (key, finish) → key = previousKey ∧ finish = start) :
    checkIndexEntries previous index = .ok () := by
  induction stored generalizing previousKey start previous with
  | nil => rfl
  | @cons entry block index blocks first _ induction =>
    rw [flatten_cons] at ascend
    have lastEqual := lastRowKey_of_stored first previousKey
    have later : checkIndexEntries
        (some (entry.lastRowKey, entry.block.offset + entry.block.storedBytes)) index = .ok () := by
      apply induction (lastEqual ▸ ascend.after) tiles.2
      intro key finish eq
      cases eq
      exact ⟨rfl, congrArg (· + entry.block.storedBytes) tiles.1⟩
    have noOverflow : ¬entry.block.offset + entry.block.storedBytes > u64Max := by
      have bound : start + entry.block.storedBytes ≤ finish := tiles.2.le
      have atStart : entry.block.offset = start := tiles.1
      omega
    rw [checkIndexEntries, if_neg noOverflow]
    cases previous with
    | none => exact later
    | some previous =>
      rcases follows previous.1 previous.2 rfl with ⟨sameKey, sameEnd⟩
      have inOrder : ¬utf8 entry.lastRowKey < utf8 previous.1 := by
        rcases lastKey_of_ne_nil first.nonempty previousKey with ⟨row, mem, lastRow⟩
        rw [lastEqual, lastRow, sameKey]
        exact not_lt.mpr ((pairwise_cons.mp ascend).1 row.1
          (mem_map_of_mem (mem_append_left _ mem)))
      have backToBack : ¬entry.block.offset ≠ previous.2 := not_not.mpr (tiles.1.trans sameEnd.symm)
      simp only [inOrder, backToBack, if_false]
      exact later

theorem checkIndexEntries_stored (stored : List.Forall₂ (StoredBlock codecs bytes) index blocks)
    (ascend : KeysAscend "" blocks.flatten) (tiles : Tiles 0 index finish)
    (fits : finish ≤ u64Max) : checkIndexEntries none index = .ok () :=
  checkIndexEntries_after stored ascend tiles fits none fun _ _ impossible => by
    cases impossible

theorem blocks_ordered (ascend : KeysAscend "" blocks.flatten) {past later : Nat}
    (before : past < later) {first second : List (String × Row)}
    (isFirst : blocks[past]? = some first) (isSecond : blocks[later]? = some second)
    {left right : String × Row} (inFirst : left ∈ first) (inSecond : right ∈ second) :
    utf8 left.1 ≤ utf8 right.1 := by
  have rows := (pairwise_cons.mp ascend).2
  rw [pairwise_map, pairwise_flatten] at rows
  rcases List.getElem?_eq_some_iff.mp isFirst with ⟨firstBound, firstEqual⟩
  rcases List.getElem?_eq_some_iff.mp isSecond with ⟨secondBound, secondEqual⟩
  have related := pairwise_iff_getElem.mp rows.2 past later firstBound secondBound before
  exact related left (firstEqual ▸ inFirst) right (secondEqual ▸ inSecond)

theorem block_ascend (ascend : KeysAscend "" blocks.flatten) (mem : block ∈ blocks) :
    KeysAscend "" block := by
  have rows := (pairwise_cons.mp ascend).2
  rw [pairwise_map, pairwise_flatten] at rows
  apply pairwise_cons.mpr
  refine ⟨fun key _ => prefix_le nil_prefix, ?_⟩
  rw [pairwise_map]
  exact rows.1 block mem

variable {position : Nat} {row : String × Row}

section

variable (stored : Forall₂ (StoredBlock codecs bytes) index blocks)

include stored

theorem decode_stored [LawfulSegmentCodecs codecs] (ascend : KeysAscend "" blocks.flatten) :
    List.Forall₂ (fun entry block =>
      decodeDataBlockRows codecs (entry.block.slice bytes) entry.block = .ok block)
      index blocks := by
  have inOrder : ∀ block ∈ blocks, KeysAscend "" block := fun _ => block_ascend ascend
  clear ascend
  induction stored with
  | nil => exact .nil
  | cons first _ induction =>
    refine .cons ?_ (induction fun block mem => inOrder block (by simp [mem]))
    exact decodeDataBlockRows_payload codecs
      (first.holds.decode codecs fun _ => LawfulSegmentCodecs.decompress_compress _)
      (inOrder _ (by simp)) first.fits

private theorem stored_at (isEntry : index[position]? = some entry)
    (isBlock : blocks[position]? = some block) : StoredBlock codecs bytes entry block := by
  rcases List.getElem?_eq_some_iff.mp isEntry with ⟨entryBound, entryEqual⟩
  rcases List.getElem?_eq_some_iff.mp isBlock with ⟨blockBound, blockEqual⟩
  have related := (forall₂_iff_get.mp stored).2 position entryBound blockBound
  rwa [get_eq_getElem, get_eq_getElem, entryEqual, blockEqual] at related

private theorem exists_block (isEntry : index[position]? = some entry) :
    ∃ block, blocks[position]? = some block ∧ StoredBlock codecs bytes entry block := by
  rcases List.getElem?_eq_some_iff.mp isEntry with ⟨bound, _⟩
  have blockBound := stored.length_eq ▸ bound
  exact ⟨_, List.getElem?_eq_getElem blockBound,
    stored_at stored isEntry (getElem?_eq_getElem blockBound)⟩

theorem index_bounds (ascend : KeysAscend "" blocks.flatten)
    (isBlock : blocks[position]? = some block) (mem : row ∈ block) :
    (∀ entry, index[position]? = some entry → utf8 row.1 ≤ utf8 entry.lastRowKey) ∧
      ∀ past < position, ∀ entry, index[past]? = some entry →
        utf8 entry.lastRowKey ≤ utf8 row.1 := by
  constructor
  · intro entry isEntry
    rw [(stored_at stored isEntry isBlock).lastRowKey]
    exact (block_ascend ascend (mem_of_getElem? isBlock)).le_lastKey mem
  · intro past before entry isEntry
    rcases exists_block stored isEntry with ⟨other, isOther, storedOther⟩
    rcases lastKey_of_ne_nil storedOther.nonempty "" with ⟨last, isLast, lastEqual⟩
    rw [storedOther.lastRowKey, lastEqual]
    exact blocks_ordered ascend before isOther isBlock isLast mem

end

/-! ## Range selection -/

theorem partitionPoint_le (isElement : elements[position]? = some element)
    (fails : test element = false) : partitionPoint test elements ≤ position := by
  induction elements generalizing position with
  | nil => simp at isElement
  | cons first elements induction =>
    rw [partitionPoint, takeWhile_cons]
    cases position with
    | zero =>
      rw [getElem?_cons_zero, Option.some.injEq] at isElement
      simp [isElement, fails]
    | succ position =>
      split
      · exact Nat.succ_le_succ (induction isElement)
      · exact Nat.zero_le _

theorem le_partitionPoint (inside : position ≤ elements.length)
    (passes : ∀ past < position, ∀ element, elements[past]? = some element → test element = true) :
    position ≤ partitionPoint test elements := by
  induction elements generalizing position with
  | nil => exact inside
  | cons first elements induction =>
    cases position with
    | zero => exact Nat.zero_le _
    | succ position =>
      rw [partitionPoint, takeWhile_cons, if_pos (passes 0 (Nat.succ_pos _) first rfl)]
      apply Nat.succ_le_succ
      apply induction (Nat.le_of_succ_le_succ inside)
      exact fun past before element isElement =>
        passes (past + 1) (Nat.succ_lt_succ before) element isElement

theorem indexBlocksForKeyRange_selects
    (stored : List.Forall₂ (StoredBlock codecs bytes) index blocks)
    (ascend : KeysAscend "" blocks.flatten) (isBlock : blocks[position]? = some block)
    (mem : row ∈ block) {lower : String} {upperBound : Option String}
    (above : utf8 lower ≤ utf8 row.1) (below : ∀ bound ∈ upperBound, utf8 row.1 < utf8 bound) :
    (indexBlocksForKeyRange index lower upperBound).1 ≤ position ∧
      position < (indexBlocksForKeyRange index lower upperBound).2 := by
  have inside := stored.length_eq ▸ (List.getElem?_eq_some_iff.mp isBlock).1
  have isEntry := List.getElem?_eq_getElem inside
  have bounds := index_bounds stored ascend isBlock mem
  constructor
  · apply partitionPoint_le isEntry
    exact decide_eq_false (not_lt.mpr (above.trans (bounds.1 _ isEntry)))
  · apply lt_max_of_lt_left
    cases upperBound with
    | none => exact inside
    | some bound =>
      apply Nat.lt_min.mpr
      refine ⟨Nat.lt_succ_of_le (le_partitionPoint inside.le ?_), inside⟩
      intro past before entry isEarlier
      exact decide_eq_true ((bounds.2 past before entry isEarlier).trans_lt (below bound rfl))

end

/-! ## The round trip -/

theorem firstKey_le (ascend : KeysAscend "" rows) (mem : row ∈ rows) :
    utf8 (firstKey rows) ≤ utf8 row.1 := by
  cases rows with
  | nil => cases mem
  | cons first rows =>
    rcases mem_cons.mp mem with eq | mem
    · exact eq ▸ le_rfl
    · exact (pairwise_cons.mp ascend.head.2).1 row.1 (mem_map_of_mem mem)

structure RoundTrips (built : BuiltSegmentBlocks) (rows : List (String × Row))
    (index : List SegmentIndexEntry) (blocks : List (List (String × Row))) : Prop where
  decodesIndex : decodeIndexBlock codecs (built.index.slice built.bytes) built.index = .ok index
  decodesBlocks : List.Forall₂ (fun entry block =>
    decodeDataBlockRows codecs (entry.block.slice built.bytes) entry.block = .ok block)
    index blocks
  allRows : blocks.flatten = rows
  rowCount : built.rowCount = rows.length
  firstRow : rows.head?.map Prod.fst = some built.minRowKey
  lastRow : rows.getLast?.map Prod.fst = some built.maxRowKey
  bounded : ∀ (position : Nat) (block : List (String × Row)) (row : String × Row),
    blocks[position]? = some block → row ∈ block →
      utf8 built.minRowKey ≤ utf8 row.1 ∧ utf8 row.1 ≤ utf8 built.maxRowKey ∧
        (∀ entry : SegmentIndexEntry, index[position]? = some entry →
          utf8 row.1 ≤ utf8 entry.lastRowKey) ∧
        ∀ earlier < position, ∀ entry : SegmentIndexEntry, index[earlier]? = some entry →
          utf8 entry.lastRowKey ≤ utf8 row.1
  selected : ∀ (position : Nat) (block : List (String × Row)) (row : String × Row),
    blocks[position]? = some block → row ∈ block →
      ∀ lowerBound upperBound, utf8 lowerBound ≤ utf8 row.1 →
      (∀ bound ∈ upperBound, utf8 row.1 < utf8 bound) →
      (indexBlocksForKeyRange index lowerBound upperBound).1 ≤ position ∧
        position < (indexBlocksForKeyRange index lowerBound upperBound).2

structure Closed (builder : SegmentBlocksBuilder) (built : BuiltSegmentBlocks) : Prop where
  grows : ∃ more, built.bytes = builder.bytes ++ more
  index : Holds codecs built.bytes built.index true (codecs.encodeIndex builder.index)
  filter : Holds codecs built.bytes built.filter false
    (buildFilterPayload builder.filterHashes filterBitsPerKey)
  rowCount : built.rowCount = builder.rowCount
  minRowKey : built.minRowKey = builder.minRowKey
  maxRowKey : built.maxRowKey = builder.previousKey

theorem Closed.roundTrips {codecs} [LawfulSegmentCodecs codecs] {builder : SegmentBlocksBuilder}
    {built : BuiltSegmentBlocks} {blocks : List (List (String × Row))}
    (closed : Closed codecs builder built) (represents : Represents codecs builder blocks [])
    (someRows : blocks.flatten ≠ []) (fits : built.bytes.length ≤ u64Max) :
    RoundTrips codecs built blocks.flatten builder.index blocks := by
  rcases closed.grows with ⟨more, grown⟩
  have stored : List.Forall₂ (StoredBlock codecs built.bytes) builder.index blocks := by
    rw [grown]
    exact represents.stored.imp fun _ _ storedBlock => storedBlock.append codecs more
  have ascend : KeysAscend "" blocks.flatten := by simpa using represents.ascend
  have dataFits : builder.bytes.length ≤ u64Max := by
    rw [grown, length_append] at fits
    omega
  have minEqual : built.minRowKey = firstKey blocks.flatten := by
    simpa using closed.minRowKey.trans represents.minRowKey
  have maxEqual : built.maxRowKey = lastKey "" blocks.flatten := by
    simpa using closed.maxRowKey.trans represents.previousKey
  refine ⟨?_, decode_stored stored ascend, rfl, ?_, ?_, ?_, ?_, ?_⟩
  · rw [decodeIndexBlock,
      closed.index.decode codecs fun _ => LawfulSegmentCodecs.decompress_compress _]
    simp only [ok_bind, LawfulSegmentCodecs.decodeIndex_encodeIndex]
    rw [checkIndexEntries_stored stored ascend represents.tiles dataFits]
    rfl
  · simpa using closed.rowCount.trans represents.rowCount
  · rw [minEqual, firstKey]
    cases rows : blocks.flatten with
    | nil => exact absurd rows someRows
    | cons row rows => rfl
  · rw [maxEqual, lastKey, getLast?_eq_some_getLast someRows]
    rfl
  · intro position block row isBlock mem
    have inRows := mem_flatten_of_mem (mem_of_getElem? isBlock) mem
    refine ⟨?_, ?_, index_bounds stored ascend isBlock mem⟩
    · rw [minEqual]
      exact firstKey_le ascend inRows
    · rw [maxEqual]
      exact ascend.le_lastKey inRows
  · intro position block row isBlock mem lower upperBound above below
    exact indexBlocksForKeyRange_selects stored ascend isBlock mem above below

section

variable {codecs} {builder : SegmentBlocksBuilder} {targetBlockBytes : Nat}
  {hasExtentFilter : Bool}

theorem appendExtentFilter_cases (codecs : SegmentCodecs Row) (builder : SegmentBlocksBuilder) :
    (∃ more handle, builder.appendExtentFilter codecs = .ok (builder.bytes ++ more, handle)) ∨
    ∃ hashes ∈ builder.extentHashes, ∃ failure, builder.appendExtentFilter codecs = .error failure ∧
      TooLong codecs (buildFilterPayload hashes extentFilterBitsPerKey) false failure := by
  rw [appendExtentFilter]
  split
  case h_1 hashes isHashes =>
    rcases appendSection_cases codecs builder.bytes
        (buildFilterPayload hashes extentFilterBitsPerKey) false with
      ⟨after, handle, appended, facts⟩ | ⟨failure, refused, long⟩
    · rcases facts.grows with ⟨stored, grown, _⟩
      refine .inl ⟨stored, some handle, ?_⟩
      rw [appended, grown]
      rfl
    · refine .inr ⟨hashes, isHashes, failure, ?_, long⟩
      rw [refused]
      rfl
  case h_2 => exact .inl ⟨[], none, by rw [append_nil]; rfl⟩

theorem build_closed (isBuilt : builder.build codecs = .ok built) :
    ∃ middle, builder.finishDataBlock codecs = .ok middle ∧ Closed codecs middle built := by
  rw [build] at isBuilt
  split at isBuilt
  case isTrue => cases isBuilt
  case isFalse =>
    rcases bind_eq_ok.mp isBuilt with ⟨middle, finished, sections⟩
    rcases bind_eq_ok.mp sections with ⟨⟨extended, extentHandle⟩, extending, sections⟩
    rcases bind_eq_ok.mp sections with ⟨⟨filtered, filterHandle⟩, filtering, sections⟩
    rcases bind_eq_ok.mp sections with ⟨⟨indexed, indexHandle⟩, indexing, result⟩
    cases result
    have filterFacts := appendSection_ok codecs filtering
    have indexFacts := appendSection_ok codecs indexing
    rcases filterFacts.grows with ⟨filterStored, filterGrown, _⟩
    rcases indexFacts.grows with ⟨indexStored, indexGrown, _⟩
    refine ⟨middle, finished, ?_, indexFacts.holds, ?_, rfl, rfl, rfl⟩
    · rcases appendExtentFilter_cases codecs middle with
        ⟨extents, handle, appended⟩ | ⟨_, _, failure, refused, _⟩
      · cases appended.symm.trans extending
        refine ⟨extents ++ filterStored ++ indexStored, ?_⟩
        simp only [indexGrown, filterGrown, append_assoc]
      · cases refused.symm.trans extending
    · simp only [indexGrown]
      exact filterFacts.holds.append codecs indexStored

theorem build_cases (progress : Progress codecs targetBlockBytes hasExtentFilter inputs builder
      blocks openRows []) (someRows : builder.rowCount ≠ 0) :
    (∃ middle built, builder.build codecs = .ok built ∧ Closed codecs middle built ∧
      Represents codecs middle (cutBlocks codecs targetBlockBytes [] (pushedRows inputs)) []) ∨
    ∃ failure, builder.build codecs = .error failure ∧
      Refusal codecs targetBlockBytes hasExtentFilter inputs failure := by
  rcases progress.finishDataBlock_cases with
    ⟨middle, finished, represents⟩ | ⟨failure, refused, reason⟩
  swap
  · rw [build, if_neg someRows]
    simp only [refused]
    exact .inr ⟨failure, rfl, reason⟩
  cases isBuilt : builder.build codecs with
  | ok built =>
    rcases build_closed isBuilt with ⟨_, sameFinished, closed⟩
    cases finished.symm.trans sameFinished
    exact .inl ⟨middle, built, rfl, closed, represents⟩
  | error failure =>
    refine .inr ⟨failure, rfl, ?_⟩
    rcases finishDataBlock_keeps codecs finished with ⟨sameHashes, _, _, sameExtents⟩
    have filterHashes : filterHashesOf codecs inputs = middle.filterHashes :=
      progress.filterHashes.trans ((append_nil _).trans sameHashes.symm)
    have extentHashes := progress.extentHashes
    rw [← sameExtents] at extentHashes
    have index := index_eq_indexOf represents.stored represents.tiles
    rw [build, if_neg someRows] at isBuilt
    simp only [finished, ok_bind] at isBuilt
    rcases appendExtentFilter_cases codecs middle with
      ⟨extents, extentHandle, extended⟩ | ⟨hashes, isHashes, _, refused, long⟩
    swap
    · simp only [refused] at isBuilt
      cases isBuilt
      rw [isHashes, Option.map_some] at extentHashes
      rcases Option.ite_none_right_eq_some.mp extentHashes with ⟨hasFilter, isAll⟩
      have same := (Option.some.inj isAll).trans (append_nil _)
      exact .tooLong (by simp [sections, hasFilter, same]) long
    simp only [extended, ok_bind] at isBuilt
    rcases appendSection_cases codecs (middle.bytes ++ extents)
        (buildFilterPayload middle.filterHashes filterBitsPerKey) false with
      ⟨filterBytes, filterHandle, filtered, _⟩ | ⟨_, refused, long⟩
    swap
    · simp only [refused] at isBuilt
      cases isBuilt
      exact .tooLong (by simp [sections, filterHashes]) long
    simp only [filtered, ok_bind] at isBuilt
    rcases appendSection_cases codecs filterBytes (codecs.encodeIndex middle.index) true with
      ⟨indexBytes, indexHandle, indexed, _⟩ | ⟨_, refused, long⟩
    · simp only [indexed, ok_bind] at isBuilt
      cases isBuilt
    · simp only [refused] at isBuilt
      cases isBuilt
      exact .tooLong (by simp [sections, index]) long

theorem segment_cases (codecs : SegmentCodecs Row) (targetBlockBytes : Nat)
    (hasExtentFilter : Bool) (ascend : KeysAscend "" (pushedRows inputs)) :
    (∃ middle built, segment codecs targetBlockBytes hasExtentFilter inputs = .ok built ∧
      Closed codecs middle built ∧ pushedRows inputs ≠ [] ∧
      Represents codecs middle (cutBlocks codecs targetBlockBytes [] (pushedRows inputs)) []) ∨
    ∃ failure, segment codecs targetBlockBytes hasExtentFilter inputs = .error failure ∧
      ((pushedRows inputs = [] ∧ failure = .emptySegment) ∨
        Refusal codecs targetBlockBytes hasExtentFilter inputs failure) := by
  rcases (Progress.initial targetBlockBytes hasExtentFilter inputs).acceptAll_cases ascend with
    ⟨builder, blocks, openRows, accepted, progress⟩ | ⟨failure, refused, reason⟩
  swap
  · rw [SegmentBlocksBuilder.segment, refused]
    exact .inr ⟨failure, rfl, .inr reason⟩
  have rows : pushedRows inputs = blocks.flatten ++ openRows :=
    progress.rows_eq.trans (append_nil _)
  rw [SegmentBlocksBuilder.segment, accepted]
  simp only [ok_bind]
  by_cases noRows : builder.rowCount = 0
  · rw [build, if_pos noRows]
    exact .inr ⟨_, rfl, .inl ⟨rows.trans (progress.rowCount_eq_zero.mp noRows), rfl⟩⟩
  have someRows : pushedRows inputs ≠ [] := by
    rw [rows]
    exact fun nothing => noRows (progress.rowCount_eq_zero.mpr nothing)
  rcases build_cases progress noRows with
    ⟨middle, built, isBuilt, closed, represents⟩ | ⟨failure, refused, reason⟩
  · exact .inl ⟨middle, built, isBuilt, closed, someRows, represents⟩
  · exact .inr ⟨failure, refused, .inr reason⟩

end

/-- The segment that a builder makes of rows in key order decodes to exactly those rows, and
its index bounds the keys of every block. A builder makes no segment only of no rows, because
a section of the rows does not fit a handle, or because of an extent name without a filter. -/
theorem segment_roundTrips [LawfulSegmentCodecs codecs] (targetBlockBytes : Nat)
    (hasExtentFilter : Bool) (inputs : List (Input Row))
    (ascend : KeysAscend "" (pushedRows inputs)) :
    (∀ built, segment codecs targetBlockBytes hasExtentFilter inputs = .ok built →
      built.bytes.length ≤ u64Max →
        ∃ index blocks, RoundTrips codecs built (pushedRows inputs) index blocks) ∧
    (∀ failure, segment codecs targetBlockBytes hasExtentFilter inputs = .error failure →
      (pushedRows inputs = [] ∧ failure = .emptySegment) ∨
        Refusal codecs targetBlockBytes hasExtentFilter inputs failure) ∧
    (pushedRows inputs ≠ [] → SectionsFit codecs targetBlockBytes hasExtentFilter inputs →
      (hasExtentFilter = true ∨ ∀ name, .extentName name ∉ inputs) →
        ∃ built, segment codecs targetBlockBytes hasExtentFilter inputs = .ok built) := by
  rcases segment_cases codecs targetBlockBytes hasExtentFilter ascend with
    ⟨middle, built, isBuilt, closed, someRows, represents⟩ | ⟨failure, refused, reason⟩
  · rw [isBuilt]
    refine ⟨?_, (fun _ impossible => nomatch impossible), fun _ _ _ => ⟨built, rfl⟩⟩
    intro _ same fits
    cases same
    have rows := cutBlocks_flatten codecs targetBlockBytes [] (pushedRows inputs)
    rw [nil_append] at rows
    have roundTrips := closed.roundTrips represents (rows.symm ▸ someRows) fits
    rw [rows] at roundTrips
    exact ⟨_, _, roundTrips⟩
  · rw [refused]
    refine ⟨(fun _ impossible => nomatch impossible), ?_, ?_⟩
    · intro _ same
      cases same
      exact reason
    · intro someRows fits names
      rcases reason with ⟨noRows, _⟩ | reason
      · exact absurd noRows someRows
      · rcases reason.not_fits fits with ⟨noFilter, name, isInput⟩
        rcases names with hasFilter | noNames
        · cases hasFilter.symm.trans noFilter
        · exact absurd isInput (noNames name)

/-! ## A segment of two blocks

The codecs here write numbers in unary, which is enough to run the builder.
-/

namespace Sample

/-- Each number is as many zeros, ended by a one. -/
def unary (numbers : List Nat) : Bytes :=
  numbers.flatMap fun number => List.replicate number 0 ++ [1]

def fromUnary (read : Nat) : Bytes → List Nat
  | [] => []
  | byte :: bytes => if byte = 0 then fromUnary (read + 1) bytes else read :: fromUnary 0 bytes

theorem fromUnary_replicate (read number : Nat) (bytes : Bytes) :
    fromUnary read (List.replicate number 0 ++ 1 :: bytes) =
      (read + number) :: fromUnary 0 bytes := by
  induction number generalizing read with
  | zero => rfl
  | succ number induction =>
    rw [replicate_succ, cons_append, fromUnary, if_pos rfl, induction]
    congr 1
    omega

theorem fromUnary_unary (numbers : List Nat) : fromUnary 0 (unary numbers) = numbers := by
  induction numbers with
  | nil => rfl
  | cons number numbers induction =>
    rw [unary, flatMap_cons, append_assoc, singleton_append, fromUnary_replicate, Nat.zero_add]
    rw [unary] at induction
    rw [induction]

def entryNumbers (entry : SegmentIndexEntry) : List Nat :=
  entry.block.offset :: entry.block.storedBytes :: entry.block.decodedBytes ::
    entry.block.crc32c.toNat :: entry.lastRowKey.length :: entry.lastRowKey.toList.map Char.toNat

def entriesFrom : Nat → List Nat → List SegmentIndexEntry
  | count + 1, offset :: storedBytes :: decodedBytes :: crc32c :: length :: rest =>
    { lastRowKey := String.ofList ((rest.take length).map Char.ofNat)
      block := { offset, storedBytes, decodedBytes, crc32c := UInt32.ofNat crc32c } } ::
      entriesFrom count (rest.drop length)
  | _, _ => []

theorem entriesFrom_entryNumbers (index : List SegmentIndexEntry) :
    entriesFrom index.length (index.flatMap entryNumbers) = index := by
  induction index with
  | nil => rfl
  | cons entry index induction =>
    have keyLength : (entry.lastRowKey.toList.map Char.toNat).length = entry.lastRowKey.length := by
      rw [length_map, String.length_toList]
    have key : String.ofList
        ((entry.lastRowKey.toList.map Char.toNat).map Char.ofNat) = entry.lastRowKey := by
      simp [map_map, Function.comp_def]
    rw [flatMap_cons, length_cons, entryNumbers]
    simp only [cons_append, entriesFrom]
    rw [← keyLength, take_left, drop_left, key, induction, UInt32.ofNat_toNat]

def unaryCodecs : SegmentCodecs Nat where
  encodeRow row := unary [row]
  decodeRow bytes := (fromUnary 0 bytes).head?.elim (.error "no row") .ok
  encodeIndex index := unary (index.length :: index.flatMap entryNumbers)
  decodeIndex bytes :=
    match fromUnary 0 bytes with
    | [] => .error "no index"
    | count :: numbers => .ok (entriesFrom count numbers)
  compress payload := payload
  decompress stored := .ok stored
  crc32c bytes := UInt32.ofNat bytes.length
  xxh64 bytes seed := seed + UInt64.ofNat bytes.length

instance : LawfulSegmentCodecs unaryCodecs where
  decodeRow_encodeRow row := by
    simp only [unaryCodecs, fromUnary_unary]
    rfl
  decodeIndex_encodeIndex index := by
    simp only [unaryCodecs, fromUnary_unary, entriesFrom_entryNumbers]
  decompress_compress _ := rfl

def inputs : List (Input Nat) :=
  [.row "inode-1" "inode-1" 2, .row "inode-1" "inode-1" 0, .row "inode-é" "inode-é" 1]

theorem inputs_ascend : KeysAscend "" (pushedRows inputs) := by
  rw [KeysAscend]
  decide +kernel

theorem sections_fit : SectionsFit unaryCodecs 20 false inputs := by
  have fits : ∀ part ∈ sections unaryCodecs 20 false inputs,
      part.1.length ≤ u32Max ∧ (storedForm unaryCodecs part.1 part.2).length ≤ u32Max := by
    decide +kernel
  exact fun payload compressed isSection => fits (payload, compressed) isSection

end Sample

theorem sampleSegment_roundTrips : ∃ built index blocks,
    segment Sample.unaryCodecs 20 false Sample.inputs = .ok built ∧
      RoundTrips Sample.unaryCodecs built (pushedRows Sample.inputs) index blocks := by
  have facts := segment_roundTrips Sample.unaryCodecs 20 false Sample.inputs Sample.inputs_ascend
  rcases facts.2.2 (by decide) Sample.sections_fit (.inr (by simp [Sample.inputs])) with
    ⟨built, isBuilt⟩
  have fits : (segment Sample.unaryCodecs 20 false Sample.inputs).toOption.any
      (fun built => built.bytes.length ≤ u64Max) = true := by decide +kernel
  rw [isBuilt] at fits
  rcases facts.1 built isBuilt (of_decide_eq_true fits) with ⟨index, blocks, roundTrips⟩
  exact ⟨built, index, blocks, isBuilt, roundTrips⟩

end LoonFs
