import LoonFs.Compaction.RunOrder
import LoonFs.Foundation.PageWalk
import LoonFs.Segment.Lookups

/-! # Scans of a manifest's runs -/

namespace LoonFs

open Foundation List

abbrev StoredRow := String × MetadataRow

namespace StoredRow

def keyBytes (stored : StoredRow) : Bytes := utf8 stored.1

def committedSeq (stored : StoredRow) : ChangeSeq := manifestRowCommitSeq stored.2

end StoredRow

def MetadataSegmentRef.storedRows (segment : MetadataSegmentRef) : List StoredRow :=
  segment.rows.filterMap fun row => (row.rowKeyForFamily segment.family).map fun key => (key, row)

def ProbedScan.containsKey (scan : ProbedScan) (rowKey : String) : Bool :=
  decide (utf8 scan.lowerBound ≤ utf8 rowKey) &&
    scan.upperBound.all fun upper => decide (utf8 rowKey < utf8 upper)

@[simp] theorem ProbedScan.containsKey_iff {scan : ProbedScan} :
    scan.containsKey rowKey = true ↔ scan.Contains rowKey := by
  rw [containsKey, Bool.and_eq_true, decide_eq_true_eq, Contains]
  cases scan.upperBound <;> simp

def rangeRows (segments : List MetadataSegmentRef) (scan : ProbedScan) : List StoredRow :=
  collected StoredRow.keyBytes
    ((segments.flatMap MetadataSegmentRef.storedRows).filter fun stored =>
      scan.containsKey stored.1)

def combineSegmentRows (descriptors : List MetadataSegmentRef) (scan : ProbedScan)
    (maxRows : Nat) : List StoredRow :=
  (rangeRows descriptors scan).take maxRows

namespace MetadataRunRef

def familySegments (family : MetadataRowFamily) (run : MetadataRunRef) : List MetadataSegmentRef :=
  run.segments.filter fun segment => segment.family = family

/-- The segments that `admits` says may have a row in the range. -/
def pushRunCandidates (admits : MetadataSegmentRef → ProbedScan → Bool) (scan : ProbedScan)
    (run : MetadataRunRef) : List MetadataSegmentRef :=
  (run.familySegments scan.family).filter fun segment => admits segment scan

def storedRows (family : MetadataRowFamily) (run : MetadataRunRef) : List StoredRow :=
  (run.familySegments family).flatMap MetadataSegmentRef.storedRows

end MetadataRunRef

section

variable (admits : MetadataSegmentRef → ProbedScan → Bool)

def scanRange (runs : List MetadataRunRef) (scan : ProbedScan) (limit : Nat) : List StoredRow :=
  combineSegmentRows (runs.flatMap (MetadataRunRef.pushRunCandidates admits scan)) scan limit

def scanPrefixInNewestRunForLookup (scan : ProbedScan) (limit : Nat) :
    List MetadataRunRef → List StoredRow
  | [] => []
  | run :: older =>
    let page := combineSegmentRows (run.pushRunCandidates admits scan) scan limit
    if page = [] then scanPrefixInNewestRunForLookup scan limit older else page

end

def everyRowIsVisibleAt (runs : List MetadataRunRef) (visibleSeq : ChangeSeq) : Bool :=
  runs.all fun run => run.runSeq ≤ visibleSeq

def AdmitsRows (admits : MetadataSegmentRef → ProbedScan → Bool) (runs : List MetadataRunRef) :
    Prop :=
  ∀ run ∈ runs, ∀ segment ∈ run.segments, ∀ scan, Issued scan → scan.family = segment.family →
    ∀ stored ∈ segment.storedRows, scan.Contains stored.1 → admits segment scan = true

theorem MetadataSegmentRef.mem_storedRows {segment : MetadataSegmentRef} :
    stored ∈ segment.storedRows ↔ stored.2 ∈ segment.rows ∧
      stored.2.rowKeyForFamily segment.family = some stored.1 := by
  simp only [storedRows, mem_filterMap, Option.map_eq_some_iff]
  constructor
  · rintro ⟨row, isRow, key, isKey, isStored⟩
    subst isStored
    exact ⟨isRow, isKey⟩
  · intro ⟨isRow, isKey⟩
    exact ⟨stored.2, isRow, stored.1, isKey, rfl⟩

variable {run : MetadataRunRef}

theorem MetadataRunRef.mem_storedRows :
    stored ∈ run.storedRows family ↔ ∃ segment ∈ run.segments, segment.family = family ∧
      stored ∈ segment.storedRows := by
  simp only [storedRows, familySegments, mem_flatMap, mem_filter, decide_eq_true_eq]
  constructor
  · intro ⟨segment, ⟨isSegment, sameFamily⟩, isStored⟩
    exact ⟨segment, isSegment, sameFamily, isStored⟩
  · intro ⟨segment, isSegment, sameFamily, isStored⟩
    exact ⟨segment, ⟨isSegment, sameFamily⟩, isStored⟩

theorem MetadataRunRef.mem_groupRows_of_stored {group : MetadataFamilyGroup}
    (inGroup : family ∈ group.families) (isStored : stored ∈ run.storedRows family) :
    stored.2 ∈ run.groupRows group := by
  obtain ⟨segment, isSegment, sameFamily, inSegment⟩ := mem_storedRows.mp isStored
  subst sameFamily
  exact mem_flatMap.mpr ⟨segment, mem_filter.mpr ⟨isSegment, decide_eq_true inGroup⟩,
    (MetadataSegmentRef.mem_storedRows.mp inSegment).1⟩

theorem mem_rangeRows : stored ∈ rangeRows segments scan ↔
      stored ∈ segments.flatMap (·.storedRows) ∧ scan.Contains stored.1 := by
  rw [rangeRows, mem_collected, mem_filter, ProbedScan.containsKey_iff]

theorem rangeRows_filter {admits : MetadataSegmentRef → Bool}
    (sound : ∀ segment ∈ segments, ∀ stored ∈ segment.storedRows, scan.Contains stored.1 →
      admits segment = true) :
    rangeRows (segments.filter admits) scan = rangeRows segments scan := by
  rw [rangeRows, rangeRows]
  congr 1
  induction segments with
  | nil => rfl
  | cons segment segments induction =>
    have rest := induction fun other isOther => sound other (mem_cons_of_mem _ isOther)
    cases admitted : admits segment with
    | true =>
      rw [filter_cons_of_pos admitted, flatMap_cons, flatMap_cons,
        filter_append, filter_append, rest]
    | false =>
      have none : segment.storedRows.filter (fun stored => scan.containsKey stored.1) = [] := by
        rw [filter_eq_nil_iff]
        intro stored isStored inside
        rw [sound segment mem_cons_self stored isStored
          (ProbedScan.containsKey_iff.mp inside)] at admitted
        cases admitted
      rw [filter_cons_of_neg (by simp [admitted]), flatMap_cons,
        filter_append, none, nil_append, rest]

section

variable (sound : AdmitsRows admits runs) (issued : Issued scan)
include sound issued

theorem rangeRows_pushRunCandidates (mem : run ∈ runs) :
    rangeRows (run.pushRunCandidates admits scan) scan =
      rangeRows (run.familySegments scan.family) scan := by
  apply rangeRows_filter
  intro segment isSegment stored isStored inside
  rw [MetadataRunRef.familySegments, mem_filter, decide_eq_true_eq] at isSegment
  exact sound run mem segment isSegment.1 scan issued isSegment.2.symm stored isStored inside

theorem scanRange_eq : scanRange admits runs scan limit =
      (rangeRows (runs.flatMap (MetadataRunRef.familySegments scan.family)) scan).take limit := by
  have same : runs.flatMap (MetadataRunRef.pushRunCandidates admits scan) =
      (runs.flatMap (MetadataRunRef.familySegments scan.family)).filter
        fun segment => admits segment scan := by
    rw [filter_flatMap]
    rfl
  rw [scanRange, combineSegmentRows, same, rangeRows_filter]
  intro segment isSegment stored isStored inside
  obtain ⟨run, mem, isSegment⟩ := mem_flatMap.mp isSegment
  rw [MetadataRunRef.familySegments, mem_filter, decide_eq_true_eq] at isSegment
  exact sound run mem segment isSegment.1 scan issued isSegment.2.symm stored isStored inside

theorem scanPrefixInNewestRunForLookup_cases (positive : 0 < limit) :
    (scanPrefixInNewestRunForLookup admits scan limit runs = [] ∧
      ∀ run ∈ runs, rangeRows (run.familySegments scan.family) scan = []) ∨
    ∃ newer run older, runs = newer ++ run :: older ∧
      (∀ other ∈ newer, rangeRows (other.familySegments scan.family) scan = []) ∧
      rangeRows (run.familySegments scan.family) scan ≠ [] ∧
      scanPrefixInNewestRunForLookup admits scan limit runs =
        (rangeRows (run.familySegments scan.family) scan).take limit := by
  induction runs with
  | nil => exact .inl ⟨rfl, by simp⟩
  | cons run older induction =>
    have rows := rangeRows_pushRunCandidates sound issued mem_cons_self
    have restSound : AdmitsRows admits older :=
      fun other isOther => sound other (mem_cons_of_mem _ isOther)
    rw [scanPrefixInNewestRunForLookup, combineSegmentRows, rows]
    by_cases empty : rangeRows (run.familySegments scan.family) scan = []
    · simp only [empty, take_nil, if_true]
      rcases induction restSound with ⟨isNil, none⟩ | ⟨newer, found, rest, split, none, some, page⟩
      · left
        refine ⟨isNil, ?_⟩
        intro other isOther
        rcases mem_cons.mp isOther with isRun | isOther
        · exact isRun ▸ empty
        · exact none other isOther
      · right
        refine ⟨run :: newer, found, rest, by rw [split, cons_append], ?_, some, page⟩
        intro other isOther
        rcases mem_cons.mp isOther with isRun | isOther
        · exact isRun ▸ empty
        · exact none other isOther
    · right
      refine ⟨[], run, older, rfl, by simp, empty, ?_⟩
      rw [if_neg]
      rw [take_eq_nil_iff]
      rintro (zero | isNil)
      · omega
      · exact empty isNil

end

theorem MetadataFamilyGroup.exists_of_family (family : MetadataRowFamily) :
    ∃ group : MetadataFamilyGroup, family ∈ group.families := by
  cases family with
  | inodes => exact ⟨.inodes, by decide⟩
  | direntryBinds | direntryChildBinds => exact ⟨.bindings, by decide⟩
  | revisions => exact ⟨.revisions, by decide⟩
  | tombstones => exact ⟨.tombstones, by decide⟩
  | activeDeletions => exact ⟨.activeDeletions, by decide⟩
  | commits | commitReceipts | merges => exact ⟨.commits, by decide⟩
  | contentLayouts => exact ⟨.contentLayouts, by decide⟩
  | attributes => exact ⟨.attributes, by decide⟩
  | access => exact ⟨.access, by decide⟩

theorem RunsOrdered.ranges (ordered : RunsOrdered manifest)
    (numbered : (manifest.runs.map MetadataRunRef.runNo).Nodup) (group : MetadataFamilyGroup) :
    (runsNewestFirst manifest).Pairwise fun newer older =>
      ∀ row ∈ newer.groupRows group, ∀ other ∈ older.groupRows group,
        manifestRowCommitSeq other < manifestRowCommitSeq row := by
  have sorted : (runsNewestFirst manifest).Pairwise
      fun left right => left.readsBefore right = true := pairwise_insertionSort _ _
  have distinct : (runsNewestFirst manifest).Nodup := by
    rw [runsNewestFirst, (perm_insertionSort _ _).nodup_iff]
    exact numbered.of_map
  apply List.Pairwise.imp_of_mem _ (sorted.and distinct)
  rintro newer older newerMember olderMember ⟨reads, ne⟩ row isRow other isOther
  rcases ordered.apart group newer (mem_runsNewestFirst.mp newerMember)
    (MetadataRunRef.inGroup_of_mem_groupRows isRow) older (mem_runsNewestFirst.mp olderMember)
    (MetadataRunRef.inGroup_of_mem_groupRows isOther) with same | before | after
  · exact absurd same ne
  · exact absurd reads before.1.not_readsBefore
  · exact after.2 other isOther row isRow

theorem RunsOrdered.newer_rows (ordered : RunsOrdered manifest)
    (numbered : (manifest.runs.map MetadataRunRef.runNo).Nodup)
    (split : runsNewestFirst manifest = newer ++ run :: older) (isOlder : other ∈ older)
    (isStored : stored ∈ run.storedRows family) (isAnother : another ∈ other.storedRows family) :
    another.committedSeq < stored.committedSeq := by
  obtain ⟨group, inGroup⟩ := MetadataFamilyGroup.exists_of_family family
  have ranges := ordered.ranges numbered group
  rw [split, pairwise_append, pairwise_cons] at ranges
  exact ranges.2.1.1 other isOlder _ (MetadataRunRef.mem_groupRows_of_stored inGroup isStored) _
    (MetadataRunRef.mem_groupRows_of_stored inGroup isAnother)

end LoonFs
