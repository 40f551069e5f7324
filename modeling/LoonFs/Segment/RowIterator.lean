import LoonFs.Format.SegmentBlocks
import LoonFs.Namespace.Errors
import LoonFs.Segment.ScanPage

/-! # Row iterators of a scan -/

namespace LoonFs

open Foundation List

structure ScanBlock (Row : Type) where
  entry : SegmentIndexEntry
  rows : List (String × Row)
deriving DecidableEq

structure ScanDescriptor (Row : Type) where
  segmentId : String
  minRowKey : String
  maxRowKey : String
  blocks : List (ScanBlock Row)
deriving DecidableEq

inductive BlocksPerRefill where
  | one
  | keyRange
deriving Repr, DecidableEq

/-- What the read working memory answers: its free bytes and its reservations. -/
structure WorkingMemory where
  availableBytes : Nat → Nat
  reserve : Nat → String → Nat → Nat → Nat

structure ScanLoader where
  memory : WorkingMemory
  blocksPerRefill : BlocksPerRefill
  lowerBound : String
  upperBound : Option String

structure SegmentRowIterator (Row : Type) where
  segment : ScanDescriptor Row
  /-- The index has been asked for. -/
  opened : Bool
  index : Option (List (ScanBlock Row))
  nextBlock : Nat
  /-- The rows of the loaded blocks that have not been taken. -/
  rows : List (String × Row)
deriving DecidableEq

section

variable {Row : Type}

def maxScanRefillBytes : Nat := 1024 * 1024

/-- How many of the entries fit in a refill, which holds its first block whatever its size. -/
def entriesWithin (maxDecodedBytes : Nat) : Nat → Nat → List SegmentIndexEntry → Nat
  | _, _, [] => 0
  | storedBytes, decodedBytes, entry :: entries =>
    let nextStoredBytes := storedBytes + entry.block.storedBytes
    let nextDecodedBytes := decodedBytes + entry.block.decodedBytes
    if 0 < storedBytes ∧
        (maxScanRefillBytes < nextStoredBytes ∨ maxDecodedBytes < nextDecodedBytes) then 0
    else 1 + entriesWithin maxDecodedBytes nextStoredBytes nextDecodedBytes entries

def ScanLoader.dataBlockCount (loader : ScanLoader) (entries : List SegmentIndexEntry)
    (maxDecodedBytes : Nat) : Nat :=
  match loader.blocksPerRefill with
  | .one => min entries.length 1
  | .keyRange =>
    let needed := indexBlocksForKeyRange entries "" loader.upperBound
    entriesWithin maxDecodedBytes 0 0 ((entries.take needed.2).drop needed.1)

def entriesGranted (grantedBytes : Nat) : Nat → List SegmentIndexEntry → Nat
  | _, [] => 0
  | keptBytes, entry :: entries =>
    if grantedBytes < keptBytes + entry.block.decodedBytes then 0
    else 1 + entriesGranted grantedBytes (keptBytes + entry.block.decodedBytes) entries

/-- The leading entries that the working memory has room for, at least one. -/
def ScanLoader.reserveRefill (loader : ScanLoader) (turn : Nat) (segmentId : String)
    (entries : List SegmentIndexEntry) : Nat :=
  match entries with
  | [] => 0
  | first :: rest =>
    let asked := (entries.map fun entry => entry.block.decodedBytes).sum
    let granted := loader.memory.reserve turn segmentId asked first.block.decodedBytes
    1 + entriesGranted granted first.block.decodedBytes rest

def ScanLoader.loadDataBlocks (loader : ScanLoader) (turn : Nat) (segmentId : String)
    (entries : List SegmentIndexEntry) : Nat :=
  match loader.blocksPerRefill with
  | .one => entries.length
  | .keyRange => loader.reserveRefill turn segmentId entries

namespace SegmentRowIterator

def start (segment : ScanDescriptor Row) : SegmentRowIterator Row :=
  { segment, opened := false, index := none, nextBlock := 0, rows := [] }

def loadedThroughKey (iterator : SegmentRowIterator Row) : Option String :=
  match iterator.index, iterator.nextBlock with
  | some index, loaded + 1 => index[loaded]?.map fun block => block.entry.lastRowKey
  | _, _ => none

def isExhausted (iterator : SegmentRowIterator Row) : Bool :=
  iterator.rows.isEmpty && iterator.opened &&
    iterator.index.all fun index => decide (index.length ≤ iterator.nextBlock)

def needsFill (iterator : SegmentRowIterator Row) : Bool :=
  iterator.rows.isEmpty && !iterator.isExhausted

/-- The index and its next block to load, of the open segment or the next one. -/
def nextBlocks (lowerBound : String) (iterator : SegmentRowIterator Row) :
    Option (List (ScanBlock Row) × Nat) :=
  let fromSegment :=
    if iterator.opened then none
    else some (iterator.segment.blocks, partitionPoint
      (fun block => decide (utf8 block.entry.lastRowKey < utf8 lowerBound))
      iterator.segment.blocks)
  match iterator.index with
  | some index => if iterator.nextBlock < index.length then some (index, iterator.nextBlock)
      else fromSegment
  | none => fromSegment

def pushBlocks (lowerBound : String) :
    List (String × Row) → List (ScanBlock Row) → List (String × Row)
  | rows, [] => rows
  | rows, block :: blocks =>
    let fromLower := block.rows.dropWhile fun row => decide (utf8 row.1 < utf8 lowerBound)
    if fromLower.isEmpty then pushBlocks lowerBound rows blocks
    else pushBlocks lowerBound (if rows.isEmpty then fromLower else rows ++ block.rows) blocks

def fill (loader : ScanLoader) (turn maxDecodedBytes : Nat) :
    Nat → SegmentRowIterator Row → Except CoreError (SegmentRowIterator Row)
  | 0, _ => .error .unfinished
  | fuel + 1, iterator =>
    if iterator.rows.isEmpty then
      match iterator.nextBlocks loader.lowerBound with
      | none => .ok { iterator with index := none }
      | some (index, nextBlock) =>
        let unread := index.drop nextBlock
        let count := loader.dataBlockCount (unread.map ScanBlock.entry) maxDecodedBytes
        if count = 0 then
          fill loader turn maxDecodedBytes fuel
            { iterator with opened := true, index := some index, nextBlock := index.length }
        else
          let asked := unread.take count
          let loaded := asked.take
            (loader.loadDataBlocks turn iterator.segment.segmentId (asked.map ScanBlock.entry))
          fill loader turn maxDecodedBytes fuel
            { iterator with
              opened := true
              index := some index
              nextBlock := nextBlock + loaded.length
              rows := pushBlocks loader.lowerBound [] loaded }
    else .ok iterator

end SegmentRowIterator

theorem entriesWithin_pos (some : entries ≠ []) :
    0 < entriesWithin maxDecodedBytes 0 0 entries := by
  cases entries with
  | nil => exact absurd rfl some
  | cons entry entries =>
    rw [entriesWithin, if_neg fun refused => lt_irrefl 0 refused.1]
    omega

theorem ScanLoader.dataBlockCount_pos (loader : ScanLoader) (maxDecodedBytes : Nat)
    (some : entries ≠ []) : 0 < loader.dataBlockCount entries maxDecodedBytes := by
  have length := length_pos_iff.mpr some
  unfold dataBlockCount
  split
  · omega
  · apply entriesWithin_pos
    have noneBelow : partitionPoint
        (fun entry : SegmentIndexEntry => decide (utf8 entry.lastRowKey < utf8 "")) entries =
          0 := by
      cases entries with
      | nil => rfl
      | cons entry entries =>
        have notBelow : ¬utf8 entry.lastRowKey < utf8 "" := not_lt_nil _
        simp [partitionPoint, notBelow]
    intro none
    have short := congrArg List.length none
    simp only [indexBlocksForKeyRange, noneBelow, drop_zero, length_take, length_nil] at short
    cases isUpper : loader.upperBound <;> simp only [isUpper] at short <;> omega

theorem ScanLoader.loadDataBlocks_pos (loader : ScanLoader) (turn : Nat) (segmentId : String)
    (some : entries ≠ []) : 0 < loader.loadDataBlocks turn segmentId entries := by
  unfold loadDataBlocks
  split
  · exact length_pos_iff.mpr some
  · cases entries with
    | nil => exact absurd rfl some
    | cons first rest =>
      rw [reserveRefill]
      omega

theorem drop_partitionPoint {Element : Type} (holds : Element → Bool) (elements : List Element) :
    elements.drop (partitionPoint holds elements) = elements.dropWhile holds := by
  have split : (elements.takeWhile holds ++ elements.dropWhile holds).drop
      (elements.takeWhile holds).length = elements.dropWhile holds := drop_left
  rwa [takeWhile_append_dropWhile] at split

namespace ScanDescriptor

def rows (segment : ScanDescriptor Row) : List (String × Row) :=
  segment.blocks.flatMap ScanBlock.rows

structure Sorted (segment : ScanDescriptor Row) : Prop where
  ordered : Ordered scanKey segment.rows
  lastKeys : ∀ block ∈ segment.blocks, ∃ last, block.rows.getLast? = some last ∧
    block.entry.lastRowKey = last.1
  least : ∀ row ∈ segment.rows, utf8 segment.minRowKey ≤ scanKey row
  greatest : ∃ last, segment.rows.getLast? = some last ∧ segment.maxRowKey = last.1

end ScanDescriptor

namespace SegmentRowIterator

variable {iterator : SegmentRowIterator Row} {lowerBound : String}

def unloaded (iterator : SegmentRowIterator Row) : List (ScanBlock Row) :=
  match iterator.index with
  | some index => index.drop iterator.nextBlock
  | none => if iterator.opened then [] else iterator.segment.blocks

def unread (lowerBound : String) (iterator : SegmentRowIterator Row) : List (String × Row) :=
  iterator.rows ++ atOrAfter scanKey (utf8 lowerBound)
    (iterator.unloaded.flatMap ScanBlock.rows)

def refillsLeft (iterator : SegmentRowIterator Row) : Nat :=
  iterator.unloaded.length + if iterator.opened then 0 else 1

structure Valid (lowerBound : String) (iterator : SegmentRowIterator Row) : Prop where
  sorted : iterator.segment.Sorted
  index : ∀ index, iterator.index = some index → index = iterator.segment.blocks ∧
    iterator.opened = true ∧ ∀ block ∈ index.drop iterator.nextBlock,
      utf8 lowerBound ≤ utf8 block.entry.lastRowKey
  unopened : iterator.opened = false → iterator.index = none
  unread : iterator.unread lowerBound <:+ atOrAfter scanKey (utf8 lowerBound)
    iterator.segment.rows

variable {segment : ScanDescriptor Row}

theorem start_valid (sorted : segment.Sorted) : (start segment).Valid lowerBound :=
  ⟨sorted, (fun _ isSome => nomatch isSome), fun _ => rfl, suffix_refl _⟩

theorem Valid.unread_ordered (valid : iterator.Valid lowerBound) :
    Ordered scanKey (iterator.unread lowerBound) :=
  (valid.sorted.ordered.atOrAfter _).sublist valid.unread.sublist

theorem pushBlocks_of_rows {rows : List (String × Row)} (some : rows ≠ [])
    (nonempty : ∀ block ∈ blocks, block.rows ≠ [])
    (reached : ∀ block ∈ blocks, ∀ row ∈ block.rows, utf8 lowerBound ≤ scanKey row) :
    pushBlocks lowerBound rows blocks = rows ++ blocks.flatMap (·.rows) := by
  induction blocks generalizing rows with
  | nil => rw [pushBlocks, flatMap_nil, append_nil]
  | cons block blocks induction =>
    have noneBelow : block.rows.dropWhile (fun row => decide (utf8 row.1 < utf8 lowerBound)) =
        block.rows := by
      cases isRows : block.rows with
      | nil => rfl
      | cons row rest =>
        have notBelow := reached block mem_cons_self row (isRows ▸ mem_cons_self)
        rw [dropWhile_cons_of_neg]
        rw [decide_eq_true_eq]
        exact not_lt.mpr notBelow
    have someRows : block.rows.isEmpty = false := by simpa using nonempty block mem_cons_self
    have notEmpty : rows.isEmpty = false := by simpa using some
    rw [pushBlocks]
    simp only [noneBelow, someRows, notEmpty, Bool.false_eq_true, if_false]
    rw [induction (by simp [some]) (fun later mem => nonempty later (mem_cons_of_mem _ mem))
      (fun later mem => reached later (mem_cons_of_mem _ mem)), flatMap_cons, append_assoc]

theorem pushBlocks_nil (ordered : Ordered scanKey ((first :: blocks).flatMap ScanBlock.rows))
    (lastKeys : ∀ block ∈ first :: blocks, ∃ last, block.rows.getLast? = some last ∧
      block.entry.lastRowKey = last.1) (reached : utf8 lowerBound ≤ utf8 first.entry.lastRowKey) :
    pushBlocks lowerBound [] (first :: blocks) ≠ [] ∧ pushBlocks lowerBound [] (first :: blocks) =
        atOrAfter scanKey (utf8 lowerBound) ((first :: blocks).flatMap ScanBlock.rows) := by
  obtain ⟨last, isLast, lastKey⟩ := lastKeys first mem_cons_self
  rw [flatMap_cons] at ordered ⊢
  obtain ⟨firstOrdered, _, crossing⟩ := pairwise_append.mp ordered
  have fromLower : first.rows.dropWhile (fun row => decide (utf8 row.1 < utf8 lowerBound)) =
      atOrAfter scanKey (utf8 lowerBound) first.rows :=
    Ordered.dropWhile firstOrdered fun _ => decide_eq_true_iff
  have lastMember : last ∈ first.rows := mem_of_getLast? isLast
  have lastReached : utf8 lowerBound ≤ scanKey last := by
    rw [lastKey] at reached
    exact reached
  have someRows : atOrAfter scanKey (utf8 lowerBound) first.rows ≠ [] :=
    ne_nil_of_mem (mem_atOrAfter.mpr ⟨lastMember, lastReached⟩)
  have laterReached : ∀ row ∈ blocks.flatMap ScanBlock.rows, utf8 lowerBound ≤ scanKey row :=
    fun row mem => lastReached.trans (crossing last lastMember row mem).le
  have result : pushBlocks lowerBound [] (first :: blocks) =
      atOrAfter scanKey (utf8 lowerBound) first.rows ++ blocks.flatMap ScanBlock.rows := by
    rw [pushBlocks]
    simp only [fromLower]
    rw [if_neg (by simpa using someRows), if_pos isEmpty_nil]
    apply pushBlocks_of_rows someRows
    · intro block mem
      obtain ⟨last, isLast, _⟩ := lastKeys block (mem_cons_of_mem _ mem)
      exact ne_nil_of_mem (mem_of_getLast? isLast)
    · intro block mem row isRow
      exact laterReached row (mem_flatMap.mpr ⟨block, mem, isRow⟩)
  rw [result]
  refine ⟨by simp [someRows], ?_⟩
  rw [atOrAfter_append, atOrAfter_eq_self laterReached]

structure Refills (lowerBound : String) (iterator next : SegmentRowIterator Row) : Prop where
  valid : next.Valid lowerBound
  segment : next.segment = iterator.segment
  unread : next.unread lowerBound = iterator.unread lowerBound
  opened : next.opened = true
  ended : next.rows = [] → next.index = none
  fewer : next.rows ≠ [] → next.refillsLeft < iterator.refillsLeft
  loaded : next.rows ≠ [] → ∃ lastKey, next.loadedThroughKey = some lastKey ∧
    (∀ row ∈ next.unloaded.flatMap ScanBlock.rows, utf8 lastKey < scanKey row) ∧
      (utf8 lastKey < utf8 next.segment.maxRowKey → next.unloaded ≠ [])

theorem partitionPoint_spec {Element : Type} (holds : Element → Bool) (elements : List Element) :
    (∀ element ∈ elements.take (partitionPoint holds elements), holds element = true) ∧
      ∀ first, (elements.drop (partitionPoint holds elements)).head? = some first →
        holds first = false := by
  rw [drop_partitionPoint]
  constructor
  · intro element mem
    rw [partitionPoint, ← prefix_iff_eq_take.mp <| takeWhile_prefix holds] at mem
    exact all_eq_true.mp all_takeWhile element mem
  · intro first isHead
    have stops := head?_dropWhile_not holds elements
    rw [isHead] at stops
    exact stops

theorem flatMap_rows_split (blocks : List (ScanBlock Row)) (count : Nat) : blocks.flatMap (·.rows) =
      (blocks.take count).flatMap (·.rows) ++ (blocks.drop count).flatMap (·.rows) := by
  rw [← flatMap_append, take_append_drop]

theorem Valid.partition (valid : iterator.Valid lowerBound) {start : Nat}
    (isStart : start = partitionPoint
      (fun block => decide (utf8 block.entry.lastRowKey < utf8 lowerBound))
      iterator.segment.blocks) :
    (∀ block ∈ iterator.segment.blocks.drop start, utf8 lowerBound ≤ utf8 block.entry.lastRowKey) ∧
    atOrAfter scanKey (utf8 lowerBound) ((iterator.segment.blocks.drop start).flatMap (·.rows)) =
      atOrAfter scanKey (utf8 lowerBound) iterator.segment.rows := by
  have spec := partitionPoint_spec
    (fun block => decide (utf8 block.entry.lastRowKey < utf8 lowerBound)) iterator.segment.blocks
  rw [← isStart] at spec
  have ordered := valid.sorted.ordered
  rw [ScanDescriptor.rows, flatMap_rows_split _ start] at ordered
  obtain ⟨beforeOrdered, afterOrdered, _⟩ := pairwise_append.mp ordered
  have lastKeys : ∀ block ∈ iterator.segment.blocks, ∃ last, block.rows.getLast? = some last ∧
      block.entry.lastRowKey = last.1 := valid.sorted.lastKeys
  constructor
  · cases isDrop : iterator.segment.blocks.drop start with
    | nil => exact fun _ mem => nomatch mem
    | cons first rest =>
      have atFirst := spec.2 first (by rw [isDrop]; rfl)
      rw [decide_eq_false_iff_not, not_lt] at atFirst
      have inBlocks : ∀ block ∈ first :: rest, block ∈ iterator.segment.blocks :=
        fun block mem => mem_of_mem_drop (isDrop ▸ mem)
      rw [isDrop, flatMap_cons] at afterOrdered
      intro block mem
      rcases mem_cons.mp mem with same | later
      · rw [same]
        exact atFirst
      · obtain ⟨firstLast, isFirstLast, firstKey⟩ := lastKeys first (inBlocks first mem_cons_self)
        obtain ⟨last, isLast, lastKey⟩ := lastKeys block (inBlocks block mem)
        have less := (pairwise_append.mp afterOrdered).2.2 firstLast
          (mem_of_getLast? isFirstLast) last
          (mem_flatMap.mpr ⟨block, later, mem_of_getLast? isLast⟩)
        rw [firstKey] at atFirst
        rw [lastKey]
        exact atFirst.trans less.le
  · have below : atOrAfter scanKey (utf8 lowerBound)
        ((iterator.segment.blocks.take start).flatMap (·.rows)) = [] := by
      apply atOrAfter_eq_nil
      intro row mem
      obtain ⟨block, inTake, isRow⟩ := mem_flatMap.mp mem
      have isBelow := spec.1 block inTake
      rw [decide_eq_true_eq] at isBelow
      obtain ⟨last, isLast, lastKey⟩ := lastKeys block (mem_of_mem_take inTake)
      obtain ⟨before, isRows⟩ := List.getLast?_eq_some_iff.mp isLast
      have blockOrdered : Ordered scanKey block.rows := by
        have sub : block.rows.Sublist ((iterator.segment.blocks.take start).flatMap (·.rows)) :=
          sublist_flatten_of_mem (mem_map_of_mem inTake)
        exact beforeOrdered.sublist sub
      rw [lastKey] at isBelow
      rw [isRows] at isRow blockOrdered
      rcases mem_append.mp isRow with past | same
      · have less := (pairwise_append.mp blockOrdered).2.2 row past last (by simp)
        exact less.trans isBelow
      · rw [mem_singleton.mp same]
        exact isBelow
    rw [ScanDescriptor.rows, flatMap_rows_split iterator.segment.blocks start, atOrAfter_append,
      below, nil_append]

theorem Valid.nextBlocks_cases (valid : iterator.Valid lowerBound) (noRows : iterator.rows = []) :
    (iterator.nextBlocks lowerBound = none ∧ iterator.opened = true ∧ iterator.unloaded = []) ∨
      ∃ nextBlock, iterator.nextBlocks lowerBound = some (iterator.segment.blocks, nextBlock) ∧
        (∀ block ∈ iterator.segment.blocks.drop nextBlock,
          utf8 lowerBound ≤ utf8 block.entry.lastRowKey) ∧ atOrAfter scanKey (utf8 lowerBound)
            ((iterator.segment.blocks.drop nextBlock).flatMap (·.rows)) =
          iterator.unread lowerBound ∧
        (iterator.segment.blocks.drop nextBlock).length ≤ iterator.refillsLeft := by
  cases isIndex : iterator.index with
  | some index =>
    obtain ⟨isBlocks, isOpened, reached⟩ := valid.index index isIndex
    subst isBlocks
    by_cases left : iterator.nextBlock < iterator.segment.blocks.length
    · refine .inr ⟨iterator.nextBlock, ?_, reached, ?_, ?_⟩
      · rw [nextBlocks, isIndex]
        exact if_pos left
      · rw [SegmentRowIterator.unread, unloaded, isIndex, noRows, nil_append]
      · rw [refillsLeft, unloaded, isIndex]
        exact Nat.le_add_right _ _
    · refine .inl ⟨?_, isOpened, ?_⟩
      · rw [nextBlocks, isIndex]
        simp only [isOpened, if_true]
        exact if_neg left
      · rw [unloaded, isIndex]
        exact drop_eq_nil_of_le (Nat.le_of_not_lt left)
  | none =>
    cases isOpened : iterator.opened with
    | true =>
      refine .inl ⟨?_, rfl, ?_⟩
      · simp [nextBlocks, isIndex, isOpened]
      · simp [unloaded, isIndex, isOpened]
    | false =>
      have allBlocks : iterator.unloaded = iterator.segment.blocks := by
        simp [unloaded, isIndex, isOpened]
      obtain ⟨reached, fromStart⟩ := valid.partition rfl
      refine .inr ⟨_, ?_, reached, ?_, ?_⟩
      · simp [nextBlocks, isIndex, isOpened]
      · rw [fromStart, SegmentRowIterator.unread, allBlocks, noRows, nil_append]
        rfl
      · rw [refillsLeft, allBlocks, length_drop]
        omega

variable {loader : ScanLoader} {turn : Nat}

theorem fill_of_rows (some : iterator.rows ≠ []) :
    iterator.fill loader turn maxDecodedBytes (fuel + 1) = .ok iterator := by
  rw [fill, if_neg (by simpa using some)]

theorem fill_of_end (noRows : iterator.rows = [])
    (noBlocks : iterator.nextBlocks loader.lowerBound = none) :
    iterator.fill loader turn maxDecodedBytes (fuel + 1) = .ok { iterator with index := none } := by
  rw [fill, if_pos (by simp [noRows]), noBlocks]

theorem Valid.refills_end (valid : iterator.Valid lowerBound) (noRows : iterator.rows = [])
    (isOpened : iterator.opened = true) (noBlocks : iterator.unread lowerBound = []) :
    iterator.Refills lowerBound { iterator with index := none } := by
  have noneLeft : SegmentRowIterator.unread lowerBound { iterator with index := none } = [] := by
    simp [SegmentRowIterator.unread, unloaded, isOpened, noRows, atOrAfter]
  refine ⟨⟨valid.sorted, (fun _ isSome => by cases isSome), ?_, ?_⟩, rfl, ?_, isOpened,
    (fun _ => rfl), (fun some => absurd noRows some), (fun some => absurd noRows some)⟩
  · exact fun _ => rfl
  · rw [noneLeft]
    exact nil_suffix
  · rw [noneLeft, noBlocks]

variable {nextBlock : Nat}

theorem exists_lastLoaded (sorted : segment.Sorted)
    (left : segment.blocks.drop nextBlock = loaded ++ rest) (someLoaded : loaded ≠ []) :
    ∃ count final, nextBlock + loaded.length = count + 1 ∧ segment.blocks[count]? = some final ∧
      (∀ row ∈ rest.flatMap (·.rows), utf8 final.entry.lastRowKey < scanKey row) ∧
      (utf8 final.entry.lastRowKey < utf8 segment.maxRowKey → rest ≠ []) := by
  have ordered := sorted.ordered
  rw [ScanDescriptor.rows, flatMap_rows_split _ nextBlock, left, flatMap_append] at ordered
  rcases eq_nil_or_concat' loaded with noneLoaded | ⟨front, final, isFront⟩
  · exact absurd noneLoaded someLoaded
  have atFinal : segment.blocks[nextBlock + front.length]? = some final := by
    rw [← List.getElem?_drop, left, isFront]
    simp
  have mem : final ∈ loaded := by simp [isFront]
  have inBlocks := mem_of_mem_drop (left ▸ mem_append_left _ mem)
  obtain ⟨last, isLast, lastKey⟩ := sorted.lastKeys final inBlocks
  refine ⟨nextBlock + front.length, final, ?_, atFinal, ?_, ?_⟩
  · rw [isFront, length_append, length_singleton]
    omega
  · intro row member
    rw [lastKey]
    have crossing := (pairwise_append.mp (pairwise_append.mp ordered).2.1).2.2
    exact crossing last (mem_flatMap.mpr ⟨final, mem, mem_of_getLast? isLast⟩) row
      member
  · intro below noneLeft
    obtain ⟨greatest, isGreatest, maxKey⟩ := sorted.greatest
    have isLastRow : segment.rows.getLast? = some last := by
      rw [ScanDescriptor.rows, flatMap_rows_split _ nextBlock, left, noneLeft, isFront,
        append_nil, flatMap_append, flatMap_singleton, ← append_assoc, List.getLast?_append, isLast]
      rfl
    rw [isGreatest] at isLastRow
    cases isLastRow
    rw [lastKey, ← maxKey] at below
    exact lt_irrefl _ below

theorem Valid.refills_loaded (valid : iterator.Valid lowerBound)
    (left : iterator.segment.blocks.drop nextBlock = loaded ++ rest) (someLoaded : loaded ≠ [])
    (reached : ∀ block ∈ iterator.segment.blocks.drop nextBlock,
      utf8 lowerBound ≤ utf8 block.entry.lastRowKey)
    (unread : atOrAfter scanKey (utf8 lowerBound) ((iterator.segment.blocks.drop
      nextBlock).flatMap ScanBlock.rows) = iterator.unread lowerBound)
    (atMost : (iterator.segment.blocks.drop nextBlock).length ≤ iterator.refillsLeft) :
    pushBlocks lowerBound [] loaded ≠ [] ∧ iterator.Refills lowerBound { iterator with
          opened := true
          index := some iterator.segment.blocks
          nextBlock := nextBlock + loaded.length
          rows := pushBlocks lowerBound [] loaded } := by
  have ordered := valid.sorted.ordered
  rw [ScanDescriptor.rows, flatMap_rows_split _ nextBlock, left, flatMap_append] at ordered
  have loadedOrdered := (pairwise_append.mp (pairwise_append.mp ordered).2.1).1
  have dropped : iterator.segment.blocks.drop (nextBlock + loaded.length) = rest := by
    rw [← drop_drop, left, drop_left']
    rfl
  obtain ⟨first, more, isLoaded⟩ := exists_cons_of_ne_nil someLoaded
  have inBlocks : ∀ block ∈ loaded, block ∈ iterator.segment.blocks :=
    fun block mem => mem_of_mem_drop (left ▸ mem_append_left _ mem)
  have firstReached : utf8 lowerBound ≤ utf8 first.entry.lastRowKey :=
    reached first (left ▸ isLoaded ▸ mem_append_left _ mem_cons_self)
  rw [isLoaded] at loadedOrdered
  have pushed := pushBlocks_nil loadedOrdered
    (fun block mem => valid.sorted.lastKeys block (inBlocks block (isLoaded ▸ mem)))
    firstReached
  rw [← isLoaded] at pushed
  obtain ⟨someRows, isPushed⟩ := pushed
  have sameUnread : SegmentRowIterator.unread lowerBound
      { iterator with
        opened := true
        index := some iterator.segment.blocks
        nextBlock := nextBlock + loaded.length
        rows := pushBlocks lowerBound [] loaded } = iterator.unread lowerBound := by
    rw [← unread, left, flatMap_append, atOrAfter_append, ← isPushed, SegmentRowIterator.unread,
      unloaded]
    dsimp only
    rw [dropped]
  refine ⟨someRows, ⟨valid.sorted, ?_, ?_, ?_⟩, rfl, sameUnread, rfl, ?_, ?_, ?_⟩
  · intro index isIndex
    cases isIndex
    refine ⟨rfl, rfl, ?_⟩
    intro block mem
    dsimp only at mem
    rw [dropped] at mem
    exact reached block (left ▸ mem_append_right _ mem)
  · exact fun closed => nomatch closed
  · rw [sameUnread]
    exact valid.unread
  · exact fun noRows => absurd noRows someRows
  · intro _
    rw [refillsLeft, unloaded]
    dsimp only
    rw [dropped, if_pos rfl]
    rw [left, length_append, isLoaded, length_cons] at atMost
    omega
  · intro _
    obtain ⟨count, final, isCount, atFinal, before, goesOn⟩ :=
      exists_lastLoaded valid.sorted left someLoaded
    have isUnloaded : SegmentRowIterator.unloaded
        { iterator with
          opened := true
          index := some iterator.segment.blocks
          nextBlock := nextBlock + loaded.length
          rows := pushBlocks lowerBound [] loaded } = rest := dropped
    refine ⟨final.entry.lastRowKey, ?_, ?_, ?_⟩
    · rw [loadedThroughKey]
      dsimp only
      rw [isCount]
      exact congrArg (Option.map fun block => block.entry.lastRowKey) atFinal
    · rw [isUnloaded]
      exact before
    · rw [isUnloaded]
      exact goesOn

theorem fill_spec (turn maxDecodedBytes fuel : Nat) (valid : iterator.Valid loader.lowerBound)
    (noRows : iterator.rows = []) :
    ∃ next, iterator.fill loader turn maxDecodedBytes (fuel + 2) = .ok next ∧
      iterator.Refills loader.lowerBound next := by
  rcases valid.nextBlocks_cases noRows with
    ⟨noBlocks, isOpened, noneLeft⟩ | ⟨nextBlock, isNext, reached, unread, left⟩
  · refine ⟨_, fill_of_end noRows noBlocks, valid.refills_end noRows isOpened ?_⟩
    simp [SegmentRowIterator.unread, noneLeft, noRows, atOrAfter]
  · rw [fill, if_pos (by simp [noRows]), isNext]
    dsimp only
    generalize isUnread : iterator.segment.blocks.drop nextBlock = blocks at reached unread left
    by_cases noBlocks : blocks = []
    · -- No block of the segment reaches the lower bound.
      subst noBlocks
      have noCount : loader.dataBlockCount (([] : List (ScanBlock Row)).map ScanBlock.entry)
          maxDecodedBytes = 0 := by
        unfold ScanLoader.dataBlockCount
        split
        · rfl
        · simp [entriesWithin]
      rw [if_pos noCount]
      have ended : nextBlocks loader.lowerBound
          { iterator with
            opened := true
            index := some iterator.segment.blocks
            nextBlock := iterator.segment.blocks.length } = none := by
        simp [nextBlocks]
      have noneUnread : iterator.unread loader.lowerBound = [] := unread.symm
      have noneLeft : SegmentRowIterator.unread loader.lowerBound
          { iterator with
            opened := true
            index := none
            nextBlock := iterator.segment.blocks.length } = [] := by
        simp [SegmentRowIterator.unread, unloaded, noRows, atOrAfter]
      refine ⟨_, fill_of_end noRows ended, ⟨valid.sorted, (fun _ isSome => by cases isSome),
        (fun _ => rfl), ?_⟩, rfl, ?_, rfl, (fun _ => rfl), (fun some => absurd noRows some),
        (fun some => absurd noRows some)⟩
      · rw [noneLeft]
        exact nil_suffix
      · rw [noneLeft, noneUnread]
    · have someEntries : blocks.map ScanBlock.entry ≠ [] := by simpa using noBlocks
      have count := loader.dataBlockCount_pos maxDecodedBytes someEntries
      rw [if_neg (Nat.pos_iff_ne_zero.mp count)]
      generalize loader.dataBlockCount (blocks.map ScanBlock.entry) maxDecodedBytes = asked at count
      have someAsked : blocks.take asked ≠ [] := by
        simp only [ne_eq, take_eq_nil_iff, not_or]
        exact ⟨by omega, noBlocks⟩
      have askedEntries : (blocks.take asked).map ScanBlock.entry ≠ [] :=
        fun noEntries => someAsked (map_eq_nil_iff.mp noEntries)
      have positive := loader.loadDataBlocks_pos turn iterator.segment.segmentId askedEntries
      generalize loader.loadDataBlocks turn iterator.segment.segmentId
        ((blocks.take asked).map ScanBlock.entry) = loads at positive
      have someLoaded : (blocks.take asked).take loads ≠ [] := by
        simp only [ne_eq, take_eq_nil_iff, not_or]
        exact ⟨by omega, by simpa using someAsked⟩
      have inAsked := take_prefix loads (blocks.take asked)
      obtain ⟨rest, split⟩ := inAsked.trans <| take_prefix asked blocks
      generalize (blocks.take asked).take loads = loaded at split someLoaded
      rw [← isUnread] at split reached unread left
      obtain ⟨someRows, refilled⟩ := valid.refills_loaded split.symm someLoaded reached unread left
      exact ⟨_, fill_of_rows someRows, refilled⟩

end SegmentRowIterator

end

end LoonFs
