import LoonFs.Changes.LayeredCommits
import LoonFs.Metadata.ManifestIndex
import LoonFs.Metadata.NewestRows
import LoonFs.Segment.CombineRows

/-! # Combined pages as lists

The scans of the runs and of their commits are stated over whole lists. Here the combination of
segment iterators returns those lists.
-/

namespace LoonFs

open Foundation LookupKeys List

/-! ## The first page -/

section

variable {Record : Type} (heapBytes : Record → Nat) (maxBytes : Nat)

structure TakesWithin (limit pageBytes : Nat) (records : List Record) (count : Nat) : Prop where
  taken : takeWithin heapBytes maxBytes limit pageBytes records = records.take count
  inList : count ≤ records.length
  fewer : ∀ fewer < count, fewer ≠ limit ∧
    pageBytes + ((records.take fewer).map heapBytes).sum < maxBytes
  ends : count = limit ∨ maxBytes ≤ pageBytes + ((records.take count).map heapBytes).sum ∨
    count = records.length

variable {heapBytes maxBytes}

theorem TakesWithin.of_ended (nothing : takeWithin heapBytes maxBytes limit pageBytes records = [])
    (ended : limit = 0 ∨ maxBytes ≤ pageBytes ∨ records = []) :
    TakesWithin heapBytes maxBytes limit pageBytes records 0 where
  taken := nothing
  inList := Nat.zero_le _
  fewer fewer less := absurd less (Nat.not_lt_zero fewer)
  ends := ended.imp Eq.symm (Or.imp (fun full => full) fun none => by rw [none]; rfl)

theorem TakesWithin.cons {record : Record} {rest : List Record} {count : Nat}
    (room : pageBytes < maxBytes)
    (takes : TakesWithin heapBytes maxBytes limit (pageBytes + heapBytes record) rest count) :
    TakesWithin heapBytes maxBytes (limit + 1) pageBytes (record :: rest) (count + 1) where
  taken := by rw [takeWithin, if_neg (Nat.not_le.mpr room), takes.taken, take_succ_cons]
  inList := Nat.succ_le_succ takes.inList
  fewer fewer less := by
    cases fewer with
    | zero => exact ⟨(Nat.succ_ne_zero limit).symm, room⟩
    | succ fewer =>
      obtain ⟨notLimit, roomLeft⟩ := takes.fewer fewer (Nat.lt_of_succ_lt_succ less)
      refine ⟨fun isLimit => notLimit (Nat.succ_inj.mp isLimit), ?_⟩
      rw [take_succ_cons, map_cons, sum_cons]
      omega
  ends := by
    have ends := takes.ends
    rw [take_succ_cons, map_cons, sum_cons, length_cons]
    omega

theorem exists_takesWithin (records : List Record) : ∀ limit pageBytes, ∃ count,
      TakesWithin heapBytes maxBytes limit pageBytes records count := by
  induction records with
  | nil => exact fun limit _ => ⟨0, .of_ended (by cases limit <;> rfl) (.inr (.inr rfl))⟩
  | cons record rest induction =>
    intro limit pageBytes
    cases limit with
    | zero => exact ⟨0, .of_ended rfl (.inl rfl)⟩
    | succ limit =>
      by_cases full : maxBytes ≤ pageBytes
      · exact ⟨0, .of_ended (by rw [takeWithin, if_pos full]) (.inr (.inl full))⟩
      · obtain ⟨count, takes⟩ := induction limit (pageBytes + heapBytes record)
        exact ⟨count + 1, takes.cons (Nat.not_le.mp full)⟩

end

theorem scannedPage_map (heapBytes : Record → Nat) (f : Other → Record) (limit maxBytes : Nat)
    (records : List Other) :
    scannedPage heapBytes limit maxBytes (records.map f) =
      (scannedPage (heapBytes ∘ f) limit maxBytes records).map f := by
  have within : ∀ (records : List Other) limit pageBytes,
      takeWithin heapBytes maxBytes limit pageBytes (records.map f) =
        (takeWithin (heapBytes ∘ f) maxBytes limit pageBytes records).map f := by
    intro records
    induction records with
    | nil => exact fun limit _ => by cases limit <;> rfl
    | cons record rest induction =>
      intro limit pageBytes
      cases limit with
      | zero => rfl
      | succ limit =>
        rw [map_cons, takeWithin, takeWithin, induction]
        split <;> rfl
  cases records with
  | nil => rfl
  | cons record rest =>
    rw [map_cons, scannedPage, scannedPage, within]
    split <;> rfl

namespace ScanPage

variable {Row : Type} {heapBytes : Row → Nat} {bounds : PageBounds} {union : List (String × Row)}

theorem scannedPage_isFirstPage : IsFirstPage heapBytes bounds union
      (scannedPage (fun row => heapBytes row.2) bounds.maxRows bounds.maxBytes union) := by
  cases union with
  | nil => exact isFirstPage_nil (.inr rfl)
  | cons row rest =>
    cases noRows : bounds.maxRows with
    | zero => exact isFirstPage_nil (.inl noRows)
    | succ limit =>
      obtain ⟨count, takes⟩ := exists_takesWithin rest limit (heapBytes row.2)
      refine ⟨count + 1, ?_, ?_, ?_⟩
      · rw [scannedPage, if_neg (Nat.succ_ne_zero limit), Nat.add_sub_cancel, takes.taken,
          take_succ_cons]
      · intro fewer less reaches
        cases fewer with
        | zero => simp [Reaches, noRows] at reaches
        | succ fewer =>
          obtain ⟨notLimit, room⟩ := takes.fewer fewer (Nat.lt_of_succ_lt_succ less)
          have inList := takes.inList
          rw [take_succ_cons] at reaches
          rcases reaches with isLength | ⟨_, full⟩
          · rw [length_cons, length_take, noRows] at isLength
            omega
          · rw [rowsHeapBytes_cons, rowsHeapBytes] at full
            omega
      · have inList := takes.inList
        rw [take_succ_cons, Reaches, length_cons, length_take, noRows, rowsHeapBytes_cons,
          rowsHeapBytes, length_cons]
        rcases takes.ends with isLimit | full | whole
        · exact .inl (.inl (by omega))
        · exact .inl (.inr ⟨cons_ne_nil _ _, full⟩)
        · exact .inr (by omega)

theorem IsFirstPage.unique {first second : List (String × Row)}
    (isFirst : IsFirstPage heapBytes bounds union first)
    (isSecond : IsFirstPage heapBytes bounds union second) : first = second := by
  obtain ⟨firstCount, rfl, firstFewer, firstEnds⟩ := isFirst
  obtain ⟨secondCount, rfl, secondFewer, secondEnds⟩ := isSecond
  rcases Nat.lt_trichotomy firstCount secondCount with less | same | more
  · have whole := firstEnds.resolve_left (secondFewer firstCount less)
    rw [take_of_length_le whole, take_of_length_le (whole.trans less.le)]
  · rw [same]
  · have whole := secondEnds.resolve_left (firstFewer secondCount more)
    rw [take_of_length_le whole, take_of_length_le (whole.trans more.le)]

theorem IsFirstPage.eq_scannedPage (isFirst : IsFirstPage heapBytes bounds union page) :
    page = scannedPage (fun row => heapBytes row.2) bounds.maxRows bounds.maxBytes union :=
  isFirst.unique scannedPage_isFirstPage

theorem IsFirstPage.eq_take (isFirst : IsFirstPage heapBytes bounds union page)
    (unlimited : rowsHeapBytes heapBytes union < bounds.maxBytes) :
    page = union.take bounds.maxRows := by
  have small (count : Nat) : rowsHeapBytes heapBytes (union.take count) < bounds.maxBytes := by
    rw [← take_append_drop count union, rowsHeapBytes, map_append, sum_append] at unlimited
    exact Nat.lt_of_le_of_lt (Nat.le_add_right _ _) unlimited
  have reaches (count : Nat) : Reaches heapBytes bounds (union.take count) ↔
      min count union.length = bounds.maxRows := by
    rw [Reaches, length_take]
    exact or_iff_left fun full => absurd (small count) (not_lt.mpr full.2)
  obtain ⟨count, rfl, fewer, ends⟩ := isFirst
  simp only [reaches] at fewer ends
  rcases Nat.lt_or_ge bounds.maxRows union.length with inside | whole
  · have notMore : ¬bounds.maxRows < count := fun less => fewer _ less (by omega)
    rw [show count = bounds.maxRows by omega]
  · have all : union.length ≤ count := by omega
    rw [take_of_length_le all, take_of_length_le whole]

end ScanPage

/-! ## Scans of metadata segments -/

def ScanLoader.forScan (memory : WorkingMemory) (blocksPerRefill : BlocksPerRefill)
    (scan : ProbedScan) : ScanLoader where
  memory
  blocksPerRefill
  lowerBound := scan.lowerBound
  upperBound := scan.upperBound

/-- The descriptor's blocks have the rows of the segment. -/
structure ScanDescriptor.Holds (descriptor : ScanDescriptor MetadataRow)
    (segment : MetadataSegmentRef) : Prop where
  sorted : descriptor.Sorted
  rows : descriptor.rows = segment.storedRows

section

variable {descriptors : List (ScanDescriptor MetadataRow)} {segments : List MetadataSegmentRef}
  (holds : List.Forall₂ ScanDescriptor.Holds descriptors segments)
include holds

theorem sorted_of_holds : ∀ descriptor ∈ descriptors, descriptor.Sorted := by
  induction holds with
  | nil => exact fun _ mem => nomatch mem
  | cons holdsHead _ induction => exact forall_mem_cons.mpr ⟨holdsHead.sorted, induction⟩

theorem rows_of_holds : descriptors.flatMap ScanDescriptor.rows =
      segments.flatMap MetadataSegmentRef.storedRows := by
  induction holds with
  | nil => rfl
  | cons holdsHead _ induction => rw [flatMap_cons, flatMap_cons, holdsHead.rows, induction]

variable (memory : WorkingMemory) (blocksPerRefill : BlocksPerRefill) (heapBytes : MetadataRow → Nat)
  (distinct : (segments.flatMap MetadataSegmentRef.storedRows).Pairwise
    fun first second => first.keyBytes ≠ second.keyBytes)
  (enough : pendingWork descriptors < fuel)
include distinct enough

theorem forScan_isFirstPage (scan : ProbedScan) (bounds : PageBounds) {union : List StoredRow}
    (ordered : Ordered StoredRow.keyBytes union)
    (memUnion : ∀ stored, stored ∈ union ↔
      stored ∈ segments.flatMap MetadataSegmentRef.storedRows ∧ scan.Contains stored.1) :
    ∃ page, (ScanLoader.forScan memory blocksPerRefill scan).combineSegmentRows heapBytes bounds
        descriptors fuel = .ok page ∧ ScanPage.IsFirstPage heapBytes bounds union page := by
  have rows := rows_of_holds holds
  apply ScanLoader.combineSegmentRows_isFirstPage heapBytes _ bounds (sorted_of_holds holds) _
    enough ordered
  · intro stored
    rw [rows]
    exact memUnion stored
  · rw [rows]
    exact distinct

/-- Without a limit on the bytes the combined page is that of the runs' scans. -/
theorem forScan_combineSegmentRows (scan : ProbedScan) {bounds : PageBounds}
    (unlimited : rowsHeapBytes heapBytes (rangeRows segments scan) < bounds.maxBytes) :
    (ScanLoader.forScan memory blocksPerRefill scan).combineSegmentRows heapBytes bounds
        descriptors fuel = .ok (combineSegmentRows segments scan bounds.maxRows) := by
  have ordered : Ordered StoredRow.keyBytes (rangeRows segments scan) := by
    apply collected_sorted
    intro left leftMem right rightMem same
    exact inj_on_of_nodup_map (pairwise_map.mpr distinct) (mem_of_mem_filter leftMem)
      (mem_of_mem_filter rightMem) same
  obtain ⟨page, result, isFirst⟩ := forScan_isFirstPage holds memory blocksPerRefill heapBytes
    distinct enough scan bounds ordered fun stored => mem_rangeRows
  rw [result, isFirst.eq_take unlimited, combineSegmentRows]

end

/-! ## Pages of commits -/

def commitFromManifestRow : MetadataRow → Except CoreError WalCommitPayload
  | .commit record => .ok record
  | other => .error (foreignRow "commit" other)

def commitsAfterScan (afterSeq : ChangeSeq) : ProbedScan where
  family := .commits
  lowerBound := afterRowKey (commitRowKey afterSeq)
  upperBound := stringPrefixUpperBound commitRowPrefix
  -- The scan has no probe, so every segment of the range is read.
  filterProbe := ""

/-- The page of commits as the segments' iterators give it. -/
def ScanLoader.commitsAfterPage (memory : WorkingMemory) (heapBytes : MetadataRow → Nat)
    (descriptors : List (ScanDescriptor MetadataRow)) (fuel : Nat) (afterSeq : ChangeSeq)
    (limit maxBytes : Nat) : Except CoreError (List WalCommitPayload) := do
  let loader := ScanLoader.forScan memory .keyRange (commitsAfterScan afterSeq)
  let rows ← loader.combineSegmentRows heapBytes { maxRows := limit, maxBytes } descriptors fuel
  rows.mapM fun row => commitFromManifestRow row.2

def commitRow (record : WalCommitPayload) : StoredRow :=
  (commitRowKey record.committedSeq, .commit record)

theorem commitRowKey_lt_iff (leftFits : left ≤ u64Max) (rightFits : right ≤ u64Max) :
    utf8 (commitRowKey left) < utf8 (commitRowKey right) ↔ left < right := by
  have fits (value : Nat) (bound : value ≤ u64Max) : u64Ascending.valid value := by
    simp only [u64Ascending, Alphabet.spelling_valid, u64Max] at bound ⊢
    omega
  rw [commitRowKey, commitRowKey, utf8_append, utf8_append, utf8_zeroPadded, utf8_zeroPadded,
    append_left_lt_iff]
  exact u64Ascending.encode_lt_iff (fits _ leftFits) (fits _ rightFits)

theorem commitsAfterScan_contains (afterFits : afterSeq ≤ u64Max)
    (recordFits : record.committedSeq ≤ u64Max) :
    (commitsAfterScan afterSeq).Contains (commitRow record).1 ↔ afterSeq < record.committedSeq := by
  obtain ⟨upper, isUpper, between⟩ := (LookupPrefix.wholeFamily .commits).exists_range trivial
  have below := ((between ⟨.commit record, record.committedSeq, commitRowKey record.committedSeq,
    rfl, recordFits, rfl⟩).mpr trivial).2
  rw [← commitRowKey_lt_iff afterFits recordFits]
  constructor
  · exact fun inside => (lt_afterRowKey _).trans_le inside.1
  · intro less
    refine ⟨afterRowKey_le less, fun other isOther => ?_⟩
    cases isUpper.symm.trans isOther
    exact below

theorem mapM_commitRow (records : List WalCommitPayload) :
    ((records.map commitRow).mapM fun row => commitFromManifestRow row.2) = .ok records := by
  induction records with
  | nil => rfl
  | cons record records induction =>
    rw [map_cons, mapM_cons, induction]
    rfl

section

variable {layers : CommitLayers}
  (fits : ∀ record ∈ layers.manifestRuns.flatten, record.committedSeq ≤ u64Max)
include fits

theorem commitRow_lt_iff (isFirst : first ∈ layers.manifestRuns.flatten)
    (isSecond : second ∈ layers.manifestRuns.flatten) :
    (commitRow first).keyBytes < (commitRow second).keyBytes ↔
      first.committedSeq < second.committedSeq :=
  commitRowKey_lt_iff (fits first isFirst) (fits second isSecond)

theorem commitRows_distinct : (layers.manifestRuns.flatten.map commitRow).Pairwise
      fun first second => first.keyBytes ≠ second.keyBytes := by
  rw [pairwise_map]
  apply (pairwise_map.mp layers.runsDistinct).imp_of_mem
  intro first second isFirst isSecond apart same
  have notLess := mt (commitRow_lt_iff fits isFirst isSecond).mpr same.not_lt
  have notMore := mt (commitRow_lt_iff fits isSecond isFirst).mpr same.symm.not_lt
  exact apart (Nat.le_antisymm (Nat.not_lt.mp notMore) (Nat.not_lt.mp notLess))

theorem commitRows_ordered (keeps : WalCommitPayload → Bool) : Ordered StoredRow.keyBytes
      (((sortedCommits layers.manifestRuns.flatten).filter keeps).map commitRow) := by
  apply pairwise_map.mpr
  apply ((sortedCommits_ordered layers.runsDistinct).filter keeps).imp_of_mem
  intro first second isFirst isSecond less
  exact (commitRow_lt_iff fits (mem_sortedCommits.mp (mem_of_mem_filter isFirst))
    (mem_sortedCommits.mp (mem_of_mem_filter isSecond))).mpr less

theorem mem_commitRows_after (afterFits : afterSeq ≤ u64Max) (row : StoredRow) :
    row ∈ ((sortedCommits layers.manifestRuns.flatten).filter fun record =>
        afterSeq < record.committedSeq).map commitRow ↔
      row ∈ layers.manifestRuns.flatten.map commitRow ∧
        (commitsAfterScan afterSeq).Contains row.1 := by
  rw [mem_map, mem_map]
  constructor
  · rintro ⟨record, mem, rfl⟩
    obtain ⟨isSorted, after⟩ := mem_filter.mp mem
    have isCommit := mem_sortedCommits.mp isSorted
    exact ⟨⟨record, isCommit, rfl⟩,
      (commitsAfterScan_contains afterFits (fits record isCommit)).mpr (of_decide_eq_true after)⟩
  · rintro ⟨⟨record, mem, rfl⟩, inside⟩
    have after := (commitsAfterScan_contains afterFits (fits record mem)).mp inside
    exact ⟨record, mem_filter.mpr ⟨mem_sortedCommits.mpr mem, decide_eq_true after⟩, rfl⟩

/-- The iterators give the page that the layers' commits do. -/
theorem commitsAfterPage_eq (memory : WorkingMemory) (heapBytes : MetadataRow → Nat)
    {descriptors : List (ScanDescriptor MetadataRow)} {segments : List MetadataSegmentRef}
    (holds : List.Forall₂ ScanDescriptor.Holds descriptors segments)
    (stored : segments.flatMap MetadataSegmentRef.storedRows =
      layers.manifestRuns.flatten.map commitRow)
    (afterFits : afterSeq ≤ u64Max) (enough : pendingWork descriptors < fuel) :
    ScanLoader.commitsAfterPage memory heapBytes descriptors fuel afterSeq limit maxBytes =
      .ok (layers.commitsAfterPage (fun record => heapBytes (.commit record)) afterSeq limit
        maxBytes) := by
  obtain ⟨page, result, isFirst⟩ := forScan_isFirstPage holds memory .keyRange heapBytes
    (stored ▸ commitRows_distinct fits) enough (commitsAfterScan afterSeq)
    { maxRows := limit, maxBytes } (commitRows_ordered fits _)
    (stored ▸ mem_commitRows_after fits afterFits)
  rw [ScanLoader.commitsAfterPage, result, isFirst.eq_scannedPage, scannedPage_map]
  exact mapM_commitRow _

end

end LoonFs
