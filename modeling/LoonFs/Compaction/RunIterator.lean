import LoonFs.Segment.RowIterator

/-! # The rows of one run -/

namespace LoonFs

open Foundation
open List hiding count le_refl lt_irrefl

structure RunRowIterator (SortKey Row : Type) where
  sortKey : SortKey
  segments : List (List (ScanBlock Row))
  nextSegment : Nat
  index : Option (List (ScanBlock Row))
  nextBlock : Nat
  blocks : List (ScanBlock Row)
  row : Nat
  lower : Option String

/-- How many of the blocks that a refill asks for it loads: a non-empty prefix. -/
structure BlockLoader where
  loadedBlocks : List SegmentIndexEntry → Nat
  loadedBlocks_pos : ∀ entries, entries ≠ [] → 0 < loadedBlocks entries

def BlockLoader.metadata : BlockLoader where
  loadedBlocks entries := entries.length
  loadedBlocks_pos _ some := List.length_pos_iff.mpr some

def iteratorFetchTargetBytes : Nat := 2 * 1024 * 1024

/-- The loop of `dataBlockCount` over the remaining entries. -/
def countBlocks (targetBytes maxDecodedBytes : Nat) : Nat → Nat → Nat → List SegmentIndexEntry → Nat
  | count, _, _, [] => count
  | count, storedBytes, decodedBytes, entry :: entries =>
    let nextDecodedBytes := decodedBytes + entry.block.decodedBytes
    -- A block cannot be split, even when it exceeds the iterator's share.
    if 0 < count ∧ (targetBytes ≤ storedBytes ∨ maxDecodedBytes < nextDecodedBytes) then count
    else countBlocks targetBytes maxDecodedBytes (count + 1)
      (storedBytes + entry.block.storedBytes) nextDecodedBytes entries

def dataBlockCount (entries : List SegmentIndexEntry) (maxDecodedBytes : Nat) : Nat :=
  countBlocks (min iteratorFetchTargetBytes maxDecodedBytes) maxDecodedBytes 0 0 0 entries

namespace RunRowIterator

variable {SortKey Row : Type}

def new (sortKey : SortKey) (segments : List (List (ScanBlock Row))) (lower : Option String) :
    RunRowIterator SortKey Row :=
  { sortKey, segments, lower
    nextSegment := 0
    index := none
    nextBlock := 0
    blocks := []
    row := 0 }

def head (iterator : RunRowIterator SortKey Row) : Option (String × Row) :=
  iterator.blocks.head?.bind fun block => block.rows[iterator.row]?

def dropSpent : Nat → List (ScanBlock Row) → Nat × List (ScanBlock Row)
  | row, [] => (row, [])
  | row, block :: blocks =>
    if block.rows.length ≤ row then dropSpent 0 blocks else (row, block :: blocks)

def takeHead (iterator : RunRowIterator SortKey Row) : RunRowIterator SortKey Row :=
  let left := dropSpent (iterator.row + 1) iterator.blocks
  { iterator with row := left.1, blocks := left.2 }

def isExhausted (iterator : RunRowIterator SortKey Row) : Bool :=
  iterator.blocks.isEmpty && decide (iterator.segments.length ≤ iterator.nextSegment) &&
    iterator.index.all fun index => decide (index.length ≤ iterator.nextBlock)

def needsFill (iterator : RunRowIterator SortKey Row) : Bool :=
  iterator.blocks.isEmpty && !iterator.isExhausted

/-- The index with blocks left to load: the open one, or that of the next segment. -/
def openIndex (iterator : RunRowIterator SortKey Row) :
    Option (List (ScanBlock Row) × RunRowIterator SortKey Row) :=
  match iterator.index.filter fun index => decide (iterator.nextBlock < index.length) with
  | some index => some (index, iterator)
  | none =>
    (iterator.segments[iterator.nextSegment]?).map fun segment => (segment,
      { iterator with
        nextSegment := iterator.nextSegment + 1
        index := some segment
        nextBlock := iterator.lower.elim 0 fun lower => partitionPoint
          (fun block => decide (utf8 block.entry.lastRowKey < utf8 lower)) segment })

def pushBlocks (lower : Option String) :
    Nat → List (ScanBlock Row) → List (ScanBlock Row) → Nat × List (ScanBlock Row)
  | row, blocks, [] => (row, blocks)
  | row, blocks, block :: loaded =>
    let nextRow := lower.elim 0 fun lower =>
      partitionPoint (fun row => decide (utf8 row.1 < utf8 lower)) block.rows
    if nextRow < block.rows.length then
      pushBlocks lower (if blocks.isEmpty then nextRow else row) (blocks ++ [block]) loaded
    else pushBlocks lower row blocks loaded

def fill (loader : BlockLoader) (maxDecodedBytes : Nat) :
    Nat → RunRowIterator SortKey Row → Except CoreError (RunRowIterator SortKey Row)
  | 0, _ => .error .unfinished
  | fuel + 1, iterator =>
    if iterator.blocks.isEmpty then
      match iterator.openIndex with
      | none => .ok { iterator with index := none }
      | some (index, iterator) =>
        let unread := index.drop iterator.nextBlock
        let count := dataBlockCount (unread.map ScanBlock.entry) maxDecodedBytes
        if count = 0 then
          fill loader maxDecodedBytes fuel { iterator with nextBlock := index.length }
        else
          let asked := unread.take count
          let loaded := asked.take (loader.loadedBlocks (asked.map ScanBlock.entry))
          let pushed := pushBlocks iterator.lower iterator.row [] loaded
          fill loader maxDecodedBytes fuel
            { iterator with
              nextBlock := iterator.nextBlock + loaded.length
              row := pushed.1
              blocks := pushed.2 }
    else .ok iterator

/-! ## What an iterator still has to give -/

def reaches (lower : Option String) (row : String × Row) : Bool :=
  lower.all fun lower => decide (utf8 lower ≤ scanKey row)

def residentRows (row : Nat) : List (ScanBlock Row) → List (String × Row)
  | [] => []
  | block :: blocks => block.rows.drop row ++ blocks.flatMap ScanBlock.rows

def pending (iterator : RunRowIterator SortKey Row) : List (ScanBlock Row) :=
  iterator.index.elim [] (·.drop iterator.nextBlock) ++
    (iterator.segments.drop iterator.nextSegment).flatten

def unread (iterator : RunRowIterator SortKey Row) : List (String × Row) :=
  residentRows iterator.row iterator.blocks ++
    (iterator.pending.flatMap ScanBlock.rows).filter (reaches iterator.lower)

def work (iterator : RunRowIterator SortKey Row) : Nat :=
  iterator.pending.length + (iterator.segments.length - iterator.nextSegment)

def Fronted (row : Nat) (blocks : List (ScanBlock Row)) : Prop :=
  ∀ block ∈ blocks.head?, row < block.rows.length

structure Valid (iterator : RunRowIterator SortKey Row) : Prop where
  ordered : Ordered scanKey (residentRows iterator.row iterator.blocks ++
    iterator.pending.flatMap ScanBlock.rows)
  lastKeys : ∀ block ∈ iterator.pending, ∀ row ∈ block.rows,
    scanKey row ≤ utf8 block.entry.lastRowKey
  front : Fronted iterator.row iterator.blocks
  reached : ∀ row ∈ residentRows iterator.row iterator.blocks, reaches iterator.lower row = true

/-- Segments hold disjoint ascending key ranges, and index entries bound their blocks. -/
structure SegmentsSorted (segments : List (List (ScanBlock Row))) : Prop where
  ordered : Ordered scanKey (segments.flatten.flatMap ScanBlock.rows)
  lastKeys : ∀ block ∈ segments.flatten, ∀ row ∈ block.rows,
    scanKey row ≤ utf8 block.entry.lastRowKey

theorem new_valid {segments : List (List (ScanBlock Row))} (sorted : SegmentsSorted segments)
    (sortKey : SortKey) (lower : Option String) : (new sortKey segments lower).Valid where
  ordered := by simpa [new, pending, residentRows] using sorted.ordered
  lastKeys := by simpa [new, pending] using sorted.lastKeys
  front := by simp [new, Fronted]
  reached := by simp [new, residentRows]

theorem new_unread (segments : List (List (ScanBlock Row))) (sortKey : SortKey)
    (lower : Option String) : (new sortKey segments lower).unread =
      (segments.flatten.flatMap (·.rows)).filter (reaches lower) := by
  simp [new, unread, pending, residentRows]

/-! ## Taking rows -/

theorem residentRows_dropSpent (blocks : List (ScanBlock Row)) (row : Nat) :
    residentRows (dropSpent row blocks).1 (dropSpent row blocks).2 = residentRows row blocks := by
  induction blocks generalizing row with
  | nil => rfl
  | cons block blocks induction =>
    rw [dropSpent]
    split
    · rename_i spent
      rw [induction, residentRows, drop_eq_nil_of_le spent, nil_append]
      cases blocks with
      | nil => rfl
      | cons next blocks => rfl
    · rfl

theorem fronted_dropSpent (blocks : List (ScanBlock Row)) (row : Nat) :
    Fronted (dropSpent row blocks).1 (dropSpent row blocks).2 := by
  induction blocks generalizing row with
  | nil => simp [dropSpent, Fronted]
  | cons block blocks induction =>
    rw [dropSpent]
    split
    · exact induction 0
    · rename_i left
      simpa [Fronted] using left

variable {iterator : RunRowIterator SortKey Row} {row : String × Row}

theorem Valid.takeHead (valid : iterator.Valid) (isHead : iterator.head = some row) :
    iterator.unread = row :: iterator.takeHead.unread ∧ iterator.takeHead.Valid ∧
      iterator.takeHead.sortKey = iterator.sortKey := by
  rw [head, Option.bind_eq_some_iff] at isHead
  rcases isHead with ⟨block, isFront, isRow⟩
  rcases List.head?_eq_some_iff.mp isFront with ⟨blocks, isBlocks⟩
  rcases List.getElem?_eq_some_iff.mp isRow with ⟨inBlock, isRow⟩
  have resident : residentRows iterator.row iterator.blocks =
      row :: residentRows iterator.takeHead.row iterator.takeHead.blocks := by
    rw [RunRowIterator.takeHead, residentRows_dropSpent, isBlocks, residentRows, residentRows,
      drop_eq_getElem_cons inBlock, isRow, cons_append]
  refine ⟨?_, ⟨?_, valid.lastKeys, fronted_dropSpent _ _, ?_⟩, rfl⟩
  · rw [unread, resident, cons_append]
    rfl
  · have ordered := valid.ordered
    rw [resident, cons_append] at ordered
    exact ordered.tail
  · intro other mem
    exact valid.reached other (resident ▸ mem_cons_of_mem _ mem)

theorem Valid.head_of_blocks (valid : iterator.Valid) (resident : iterator.blocks ≠ []) :
    ∃ row, iterator.head = some row := by
  rcases exists_cons_of_ne_nil resident with ⟨block, blocks, isBlocks⟩
  have inBlock := valid.front block (by rw [isBlocks]; rfl)
  refine ⟨block.rows[iterator.row], ?_⟩
  rw [head, isBlocks]
  exact getElem?_eq_getElem inBlock

/-! ## Refills -/

theorem countBlocks_ge :
    count ≤ countBlocks targetBytes maxDecodedBytes count storedBytes decodedBytes entries := by
  induction entries generalizing count storedBytes decodedBytes with
  | nil => exact le_refl _
  | cons entry entries induction =>
    rw [countBlocks]
    split
    · exact le_refl _
    · exact (Nat.le_succ count).trans induction

theorem dataBlockCount_pos (some : entries ≠ []) (maxDecodedBytes : Nat) :
    0 < dataBlockCount entries maxDecodedBytes := by
  cases entries with
  | nil => exact absurd rfl some
  | cons entry entries =>
    rw [dataBlockCount, countBlocks, if_neg fun refused => lt_irrefl 0 refused.1]
    exact countBlocks_ge

variable {lower : Option String}

theorem reaches_of_lt (reached : reaches lower row = true) (less : scanKey row < scanKey other) :
    reaches lower other = true := by
  cases lower with
  | none => rfl
  | some lower =>
    simp only [reaches, Option.all_some, decide_eq_true_eq] at reached ⊢
    exact reached.trans less.le

/-- The rows of a block from its first row at or above the bound are the rows that
reach it. -/
theorem drop_nextRow {rows : List (String × Row)} (ordered : Ordered scanKey rows)
    (lower : Option String) : rows.drop (lower.elim 0 fun lower =>
      partitionPoint (fun row => decide (utf8 row.1 < utf8 lower)) rows) =
        rows.filter (reaches lower) := by
  cases lower with
  | none => exact (filter_eq_self.mpr fun _ _ => rfl).symm
  | some lower =>
    have dropped : rows.dropWhile (fun row => decide (utf8 row.1 < utf8 lower)) =
        atOrAfter scanKey (utf8 lower) rows :=
      ordered.dropWhile fun row => by simp [scanKey]
    exact (drop_partitionPoint _ _).trans dropped

theorem filter_drop_index {segment : List (ScanBlock Row)}
    (lastKeys : ∀ block ∈ segment, ∀ row ∈ block.rows,
      scanKey row ≤ utf8 block.entry.lastRowKey) (lower : Option String) :
    ((segment.drop (lower.elim 0 fun lower => partitionPoint
      (fun block => decide (utf8 block.entry.lastRowKey < utf8 lower)) segment)).flatMap
        (·.rows)).filter (reaches lower) = (segment.flatMap (·.rows)).filter (reaches lower) := by
  cases lower with
  | none => rfl
  | some lower =>
    rw [Option.elim_some, drop_partitionPoint]
    induction segment with
    | nil => rfl
    | cons block segment induction =>
      rw [dropWhile_cons]
      split
      · rename_i below
        have noRows : block.rows.filter (reaches (some lower)) = [] := by
          rw [filter_eq_nil_iff]
          intro row mem
          have bounded := lastKeys block mem_cons_self row mem
          have less := bounded.trans_lt (of_decide_eq_true below)
          simpa [reaches] using less
        rw [induction fun other mem => lastKeys other (mem_cons_of_mem _ mem),
          flatMap_cons, filter_append, noRows, nil_append]
      · rfl

theorem residentRows_append (row : Nat) {blocks : List (ScanBlock Row)} (resident : blocks ≠ [])
    (block : ScanBlock Row) :
    residentRows row (blocks ++ [block]) = residentRows row blocks ++ block.rows := by
  cases blocks with
  | nil => exact absurd rfl resident
  | cons first blocks => simp [residentRows]

variable {loaded : List (ScanBlock Row)}

theorem pushBlocks_spec : ∀ {row : Nat} {blocks : List (ScanBlock Row)},
      Ordered scanKey (residentRows row blocks ++ loaded.flatMap (·.rows)) → Fronted row blocks →
      (∀ other ∈ residentRows row blocks, reaches lower other = true) →
      let pushed := pushBlocks lower row blocks loaded
      residentRows pushed.1 pushed.2 =
          residentRows row blocks ++ (loaded.flatMap (·.rows)).filter (reaches lower) ∧
        Fronted pushed.1 pushed.2 := by
  induction loaded with
  | nil =>
    intro row blocks _ front _
    simpa [pushBlocks] using front
  | cons block loaded induction =>
    intro row blocks ordered front reached
    have blockOrdered : Ordered scanKey block.rows := by
      rw [flatMap_cons] at ordered
      exact (pairwise_append.mp (pairwise_append.mp ordered).2.1).1
    have kept := drop_nextRow blockOrdered lower
    rw [flatMap_cons] at ordered ⊢
    rw [filter_append, ← append_assoc, ← kept, pushBlocks]
    generalize (lower.elim 0 fun lower =>
      partitionPoint (fun row => decide (utf8 row.1 < utf8 lower)) block.rows) = nextRow
      at kept ⊢
    dsimp only
    split
    · rename_i someRow
      by_cases isFirst : blocks = []
      · subst isFirst
        have rows : residentRows nextRow [block] = block.rows.drop nextRow := by simp [residentRows]
        have step := @induction nextRow [block] (by
            rw [rows]
            exact ordered.sublist ((drop_sublist _ _).append_right _))
          (by simpa [Fronted] using someRow)
          (by
            rw [rows, kept]
            exact fun other mem => (mem_filter.mp mem).2)
        rw [rows] at step
        exact step
      · -- A resident row is at or above the bound, and the block's rows are above it.
        have all : block.rows.drop nextRow = block.rows := by
          rw [kept]
          refine filter_eq_self.mpr fun other mem => ?_
          rcases exists_cons_of_ne_nil isFirst with ⟨first, rest, isBlocks⟩
          have inFirst := front first (by rw [isBlocks]; rfl)
          have isResident : first.rows[row] ∈ residentRows row blocks := by
            rw [isBlocks, residentRows, drop_eq_getElem_cons inFirst]
            exact mem_append_left _ mem_cons_self
          exact reaches_of_lt (reached _ isResident) ((pairwise_append.mp ordered).2.2 _
            isResident other (mem_append_left _ mem))
        have rows := residentRows_append row isFirst block
        have step := @induction row (blocks ++ [block]) (by
            rwa [rows, append_assoc])
          (by
            rcases exists_cons_of_ne_nil isFirst with ⟨first, rest, isBlocks⟩
            rw [isBlocks] at front ⊢
            exact front)
          (by
            rw [rows]
            intro other mem
            rcases mem_append.mp mem with mem | mem
            · exact reached other mem
            · rw [← all, kept] at mem
              exact (mem_filter.mp mem).2)
        rw [rows] at step
        rw [all, if_neg (by simpa using isFirst)]
        exact step
    · rename_i noRow
      rw [drop_eq_nil_of_le (not_lt.mp noRow), append_nil]
      refine induction ?_ front reached
      exact ordered.sublist ((sublist_append_right _ _).append_left _)

theorem flatMap_drop_sublist (count : Nat) (blocks : List (ScanBlock Row)) :
    ((blocks.drop count).flatMap (·.rows)).Sublist (blocks.flatMap (·.rows)) := by
  conv_rhs => rw [← take_append_drop count blocks, flatMap_append]
  exact sublist_append_right _ _

structure Continues (iterator next : RunRowIterator SortKey Row) : Prop where
  valid : next.Valid
  unread : next.unread = iterator.unread
  sortKey : next.sortKey = iterator.sortKey

theorem Continues.trans {first : RunRowIterator SortKey Row} (left : first.Continues second)
    (right : second.Continues third) : first.Continues third :=
  ⟨right.valid, right.unread.trans left.unread, right.sortKey.trans left.sortKey⟩

theorem Valid.openIndex_cases (valid : iterator.Valid) (noBlocks : iterator.blocks = []) :
    (iterator.openIndex = none ∧ iterator.pending = []) ∨
    ∃ index next, iterator.openIndex = some (index, next) ∧ iterator.Continues next ∧
      next.index = some index ∧ next.blocks = [] ∧
      (next.work < iterator.work ∨ next.work = iterator.work ∧ next.nextBlock < index.length) := by
  rw [openIndex]
  cases isOpen : iterator.index.filter fun index => decide (iterator.nextBlock < index.length) with
  | some index =>
    rcases Option.filter_eq_some_iff.mp isOpen with ⟨isIndex, left⟩
    exact .inr ⟨index, iterator, rfl, ⟨valid, rfl, rfl⟩, isIndex, noBlocks,
      .inr ⟨rfl, of_decide_eq_true left⟩⟩
  | none =>
    have spent : iterator.index.elim [] (·.drop iterator.nextBlock) = [] := by
      cases isIndex : iterator.index with
      | none => rfl
      | some index =>
        rw [isIndex, Option.filter_eq_none_iff] at isOpen
        have short := isOpen index rfl
        rw [decide_eq_true_eq, not_lt] at short
        exact drop_eq_nil_of_le short
    dsimp only
    cases isSegment : iterator.segments[iterator.nextSegment]? with
    | none =>
      left
      have ended := getElem?_eq_none_iff.mp isSegment
      refine ⟨rfl, ?_⟩
      rw [pending, spent, drop_eq_nil_of_le ended]
      rfl
    | some segment =>
      right
      rcases List.getElem?_eq_some_iff.mp isSegment with ⟨inSegments, isElement⟩
      have split : (iterator.segments.drop iterator.nextSegment).flatten =
          segment ++ (iterator.segments.drop (iterator.nextSegment + 1)).flatten := by
        rw [drop_eq_getElem_cons inSegments, isElement, flatten_cons]
      have before : iterator.pending =
          segment ++ (iterator.segments.drop (iterator.nextSegment + 1)).flatten := by
        rw [pending, spent, nil_append, split]
      have lastKeys := valid.lastKeys
      have ordered := valid.ordered
      rw [before] at lastKeys
      rw [before, noBlocks] at ordered
      refine ⟨segment, _, rfl, ⟨⟨?_, ?_, ?_, ?_⟩, ?_, rfl⟩, rfl, noBlocks, .inl ?_⟩
      · rw [noBlocks]
        refine ordered.sublist ?_
        simp only [residentRows, nil_append, pending, Option.elim_some, flatMap_append]
        exact (flatMap_drop_sublist _ _).append_right _
      · intro block mem
        rcases mem_append.mp mem with mem | mem
        · exact lastKeys block (mem_append_left _ (mem_of_mem_drop mem))
        · exact lastKeys block (mem_append_right _ mem)
      · rw [noBlocks]
        simp [Fronted]
      · rw [noBlocks]
        simp [residentRows]
      · rw [unread, unread, before, noBlocks]
        simp only [residentRows, nil_append, pending, Option.elim_some,
          flatMap_append, filter_append]
        rw [filter_drop_index fun block mem => lastKeys block (mem_append_left _ mem)]
      · rw [work, work, before]
        simp only [pending, Option.elim_some, length_append, length_drop]
        omega

theorem Valid.reindex (valid : iterator.Valid) {index : Option (List (ScanBlock Row))}
    {nextBlock : Nat}
    (same : RunRowIterator.pending { iterator with index, nextBlock } = iterator.pending) :
    iterator.Continues { iterator with index, nextBlock } := by
  refine ⟨⟨?_, ?_, valid.front, valid.reached⟩, ?_, rfl⟩
  · rw [same]
    exact valid.ordered
  · rw [same]
    exact valid.lastKeys
  · rw [unread, unread, same]

theorem Valid.load (valid : iterator.Valid) (noBlocks : iterator.blocks = [])
    {index : List (ScanBlock Row)} (isIndex : iterator.index = some index)
    (split : index.drop iterator.nextBlock = loaded ++ rest) :
    let pushed := pushBlocks iterator.lower iterator.row [] loaded
    let next := { iterator with
      nextBlock := iterator.nextBlock + loaded.length, row := pushed.1, blocks := pushed.2 }
    iterator.Continues next ∧ next.work + loaded.length = iterator.work := by
  intro pushed next
  have before : iterator.pending =
      loaded ++ rest ++ (iterator.segments.drop iterator.nextSegment).flatten := by
    rw [pending, isIndex, Option.elim_some, split]
  have after : next.pending = rest ++ (iterator.segments.drop iterator.nextSegment).flatten := by
    rw [pending, show next.index = some index from isIndex, Option.elim_some,
      ← drop_drop, split, drop_left]
  have ordered := valid.ordered
  rw [noBlocks, before, append_assoc, flatMap_append, residentRows, nil_append] at ordered
  have loads := @pushBlocks_spec Row iterator.lower loaded iterator.row []
    (pairwise_append.mp ordered).1 (by simp [Fronted]) (by simp [residentRows])
  have resident := loads.1
  refine ⟨⟨⟨?_, ?_, loads.2, ?_⟩, ?_, rfl⟩, ?_⟩
  · rw [resident, after]
    exact ordered.sublist (filter_sublist.append_right _)
  · intro block mem
    apply valid.lastKeys block
    rw [before, append_assoc]
    rw [after] at mem
    exact mem_append_right _ mem
  · rw [resident]
    exact fun row mem => (mem_filter.mp mem).2
  · rw [unread, unread, resident, after, before, noBlocks]
    simp [residentRows, next]
  · rw [work, work, after, before]
    simp only [length_append, next]
    omega

theorem loaded_split (loader : BlockLoader) {unread : List (ScanBlock Row)}
    (someCount : dataBlockCount (unread.map (·.entry)) maxDecodedBytes ≠ 0) :
    let asked := unread.take (dataBlockCount (unread.map (·.entry)) maxDecodedBytes)
    let loaded := asked.take (loader.loadedBlocks (asked.map (·.entry)))
    ∃ rest, unread = loaded ++ rest ∧ 0 < loaded.length := by
  intro asked loaded
  refine ⟨asked.drop (loader.loadedBlocks (asked.map (·.entry))) ++
    unread.drop (dataBlockCount (unread.map (·.entry)) maxDecodedBytes), ?_, ?_⟩
  · rw [← append_assoc, take_append_drop, take_append_drop]
  · have someUnread : unread ≠ [] := by
      rintro rfl
      exact someCount rfl
    have someAsked : asked ≠ [] := by simpa [asked, take_eq_nil_iff] using ⟨someCount, someUnread⟩
    have someLoads := loader.loadedBlocks_pos (asked.map (·.entry))
      fun none => someAsked (map_eq_nil_iff.mp none)
    rw [length_take]
    exact lt_min someLoads (length_pos_iff.mpr someAsked)

theorem Valid.fill (loader : BlockLoader) (maxDecodedBytes : Nat) :
    ∀ {iterator : RunRowIterator SortKey Row}, iterator.Valid → iterator.work < fuel →
      ∃ next, iterator.fill loader maxDecodedBytes fuel = .ok next ∧ iterator.Continues next ∧
        (next.blocks = [] → next.unread = []) := by
  induction fuel with
  | zero => exact fun _ enough => absurd enough (Nat.not_lt_zero _)
  | succ fuel induction =>
    intro iterator valid enough
    rw [RunRowIterator.fill]
    by_cases noBlocks : iterator.blocks = []
    · rw [if_pos (by simp [noBlocks])]
      rcases valid.openIndex_cases noBlocks with ⟨ended, nothing⟩ |
        ⟨index, next, opened, continues, isIndex, nextBlocks, less⟩
      · rw [ended]
        have nothingLeft := (append_eq_nil_iff.mp nothing).2
        have continues : iterator.Continues { iterator with index := none } :=
          valid.reindex (nothingLeft.trans nothing.symm)
        refine ⟨_, rfl, continues, fun _ => continues.unread.trans ?_⟩
        rw [unread, noBlocks, nothing]
        rfl
      · rw [opened]
        dsimp only
        split
        · -- No block of the new segment can reach the lower bound.
          rename_i noCount
          have nothing : index.drop next.nextBlock = [] := by
            by_contra someBlock
            have someEntry : (index.drop next.nextBlock).map ScanBlock.entry ≠ [] :=
              fun none => someBlock (map_eq_nil_iff.mp none)
            exact absurd noCount (dataBlockCount_pos someEntry maxDecodedBytes).ne'
          have fewer : next.work < iterator.work := by
            rcases less with less | ⟨_, left⟩
            · exact less
            · exact absurd (drop_eq_nil_iff.mp nothing) (not_le.mpr left)
          have same : RunRowIterator.pending { next with nextBlock := index.length } =
              next.pending := by
            simp [pending, isIndex, nothing]
          have closed := continues.valid.reindex same
          have closedWork : RunRowIterator.work { next with nextBlock := index.length } =
              next.work := by
            rw [work, work, same]
          rcases induction closed.valid (by omega) with ⟨final, filled, later, ended⟩
          exact ⟨final, filled, (continues.trans closed).trans later, ended⟩
        · rename_i someCount
          rcases loaded_split loader someCount with ⟨rest, split, positive⟩
          rcases continues.valid.load nextBlocks isIndex split with ⟨loads, loadedWork⟩
          have noMore : next.work ≤ iterator.work := by
            rcases less with less | ⟨eq, _⟩
            · exact less.le
            · exact eq.le
          rcases induction loads.valid (by omega) with ⟨final, filled, later, ended⟩
          exact ⟨final, filled, (continues.trans loads).trans later, ended⟩
    · rw [if_neg (by simpa using noBlocks)]
      exact ⟨iterator, rfl, ⟨valid, rfl, rfl⟩, fun none => absurd none noBlocks⟩

end RunRowIterator

end LoonFs
