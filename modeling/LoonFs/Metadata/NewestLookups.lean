import LoonFs.Metadata.HeldRows

/-! # Lookups that stop at the newest run

The newest run with a row in a range has the newest row of the range.
-/

namespace LoonFs

open Foundation LookupKeys
open List hiding after all head le le_of_lt lookup not_le

def Carries (state : MetadataState) (manifest : NamespaceManifestPayload)
    (family : MetadataRowFamily) : Prop :=
  ∀ run ∈ manifest.runs, ∀ segment ∈ run.segments, segment.family = family →
    ∀ row ∈ segment.rows, state.Holds row ∧ row.InRange ∧ (row.logicalTuple family).isSome

namespace NamespaceManifestPayload

def rowsUnder (lookup : LookupPrefix) (manifest : NamespaceManifestPayload) : List StoredRow :=
  (manifest.runs.flatMap (MetadataRunRef.storedRows lookup.family)).filter fun stored =>
    (lookup.scanFrom "" lookup.text).containsKey stored.1

def mergedRows (lookup : LookupPrefix) (visibleSeq : ChangeSeq)
    (manifest : NamespaceManifestPayload) : List StoredRow :=
  collected StoredRow.keyBytes ((manifest.rowsUnder lookup).filter fun stored =>
    stored.committedSeq ≤ visibleSeq)

variable {manifest : NamespaceManifestPayload}

theorem mem_rowsUnder : stored ∈ manifest.rowsUnder lookup ↔
      (∃ run ∈ manifest.runs, stored ∈ run.storedRows lookup.family) ∧
        (lookup.scanFrom "" lookup.text).Contains stored.1 := by
  rw [rowsUnder, mem_filter, mem_flatMap, ProbedScan.containsKey_iff]

theorem mem_mergedRows : stored ∈ manifest.mergedRows lookup visibleSeq ↔
      stored ∈ manifest.rowsUnder lookup ∧ stored.committedSeq ≤ visibleSeq := by
  rw [mergedRows, mem_collected, mem_filter, decide_eq_true_eq]

end NamespaceManifestPayload

theorem LookupPrefix.contains_iff {lookup : LookupPrefix} {filterProbe : String}
    (starts : lookup.StartsAt bound) : (lookup.scanFrom filterProbe bound).Contains rowKey ↔
      (lookup.scanFrom "" lookup.text).Contains rowKey ∧ utf8 bound ≤ utf8 rowKey := by
  constructor
  · intro ⟨atOrAfter, below⟩
    exact ⟨⟨starts.text_le.trans atOrAfter, below⟩, atOrAfter⟩
  · intro ⟨⟨_, below⟩, atOrAfter⟩
    exact ⟨atOrAfter, below⟩

section

variable {state : MetadataState} {manifest : NamespaceManifestPayload} {lookup : LookupPrefix}
  {visibleSeq : ChangeSeq} {stored : StoredRow}

theorem Carries.keyed (carries : Carries state manifest lookup.family)
    (mem : stored ∈ manifest.rowsUnder lookup) :
    ∃ keyed : KeyedRow lookup.family, keyed.row = stored.2 ∧ keyed.key = stored.1 ∧
      state.Holds stored.2 := by
  obtain ⟨⟨run, isRun, isStored⟩, _⟩ := NamespaceManifestPayload.mem_rowsUnder.mp mem
  obtain ⟨segment, isSegment, sameFamily, isStored⟩ := MetadataRunRef.mem_storedRows.mp isStored
  obtain ⟨isRow, isKey⟩ := MetadataSegmentRef.mem_storedRows.mp isStored
  obtain ⟨held, inRange, isSome⟩ := carries run isRun segment isSegment sameFamily stored.2 isRow
  obtain ⟨tuple, isTuple⟩ := Option.isSome_iff_exists.mp isSome
  exact ⟨⟨stored.2, tuple, stored.1, isTuple, inRange, sameFamily ▸ isKey⟩, rfl, rfl, held⟩

theorem Carries.selects (carries : Carries state manifest lookup.family)
    (inRange : lookup.InRange) (mem : stored ∈ manifest.rowsUnder lookup) :
    lookup.Selects stored.2 := by
  obtain ⟨keyed, isRow, isKey, _⟩ := carries.keyed mem
  obtain ⟨upper, isUpper, between⟩ := lookup.exists_range inRange
  have inside := (NamespaceManifestPayload.mem_rowsUnder.mp mem).2
  rw [← isRow]
  apply (between keyed).mp
  rw [isKey]
  exact ⟨inside.1, inside.2 upper isUpper⟩

variable {right left : StoredRow}

theorem Carries.named (carries : Carries state manifest lookup.family)
    (reachable : Reachable policy history state) (leftMem : left ∈ manifest.rowsUnder lookup)
    (rightMem : right ∈ manifest.rowsUnder lookup) (same : left.keyBytes = right.keyBytes) :
    left = right := by
  obtain ⟨leftKeyed, leftRow, leftKey, leftHeld⟩ := carries.keyed leftMem
  obtain ⟨rightKeyed, rightRow, rightKey, rightHeld⟩ := carries.keyed rightMem
  have sameKey := utf8_injective same
  have sameTuple : leftKeyed.tuple = rightKeyed.tuple := by
    rw [← leftKeyed.key_eq_iff, leftKey, rightKey, sameKey]
  have sameRow : left.2 = right.2 := by
    apply reachable.eq_of_tuple leftHeld rightHeld (leftRow ▸ leftKeyed.inFamily)
    rw [sameTuple]
    exact rightRow ▸ rightKeyed.inFamily
  exact Prod.ext sameKey sameRow

theorem Carries.key_lt (carries : Carries state manifest lookup.family)
    (reachable : Reachable policy history state) (inRange : lookup.InRange)
    (newestFirst : lookup.NewestFirst) (leftMem : left ∈ manifest.rowsUnder lookup)
    (rightMem : right ∈ manifest.rowsUnder lookup)
    (less : left.committedSeq < right.committedSeq) : right.keyBytes < left.keyBytes := by
  obtain ⟨leftKeyed, leftRow, leftKey, leftHeld⟩ := carries.keyed leftMem
  obtain ⟨rightKeyed, rightRow, rightKey, rightHeld⟩ := carries.keyed rightMem
  rw [StoredRow.keyBytes, StoredRow.keyBytes, ← leftKey, ← rightKey, rightKeyed.key_lt_iff]
  exact reachable.tuple_lt newestFirst leftHeld rightHeld (leftRow ▸ leftKeyed.inFamily)
    (rightRow ▸ rightKeyed.inFamily) (carries.selects inRange leftMem)
    (carries.selects inRange rightMem) less

/-! ## Pages of the runs -/

theorem AdmitsRows.newestFirst (sound : AdmitsRows admits manifest.runs) :
    AdmitsRows admits (runsNewestFirst manifest) :=
  fun run isRun => sound run (mem_runsNewestFirst.mp isRun)

variable {runs : List MetadataRunRef}

theorem mem_rowsUnder_of_range (starts : lookup.StartsAt bound)
    (subset : ∀ run ∈ runs, run ∈ manifest.runs)
    (mem : stored ∈ rangeRows (runs.flatMap (MetadataRunRef.familySegments lookup.family))
      (lookup.scanFrom filterProbe bound)) :
    stored ∈ manifest.rowsUnder lookup ∧ utf8 bound ≤ stored.keyBytes := by
  obtain ⟨isStored, inside⟩ := mem_rangeRows.mp mem
  obtain ⟨inPrefix, atOrAfter⟩ := (LookupPrefix.contains_iff starts).mp inside
  rw [flatMap_assoc] at isStored
  obtain ⟨run, isRun, isStored⟩ := mem_flatMap.mp isStored
  exact ⟨NamespaceManifestPayload.mem_rowsUnder.mpr ⟨⟨run, subset run isRun, isStored⟩, inPrefix⟩,
    atOrAfter⟩

theorem rangeRows_sorted (filterProbe : String) (carries : Carries state manifest lookup.family)
    (reachable : Reachable policy history state) (starts : lookup.StartsAt bound)
    (subset : ∀ run ∈ runs, run ∈ manifest.runs) :
    (rangeRows (runs.flatMap (MetadataRunRef.familySegments lookup.family))
      (lookup.scanFrom filterProbe bound)).Pairwise
        fun left right => left.keyBytes < right.keyBytes := by
  apply collected_sorted
  intro left isLeft right isRight same
  exact carries.named reachable
    (mem_rowsUnder_of_range starts subset (mem_collected.mpr isLeft)).1
    (mem_rowsUnder_of_range starts subset (mem_collected.mpr isRight)).1 same

theorem familySegments_singleton (run : MetadataRunRef) (family : MetadataRowFamily) :
    [run].flatMap (MetadataRunRef.familySegments family) = run.familySegments family := by
  simp

section

variable (sound : AdmitsRows admits manifest.runs) (inRange : lookup.InRange)
  (probes : lookup.filterProbe = some filterProbe)
include sound inRange probes

theorem scanRange_page (starts : lookup.StartsAt bound) :
    scanRange admits (runsNewestFirst manifest) (lookup.scanFrom filterProbe bound) limit =
      (rangeRows ((runsNewestFirst manifest).flatMap (MetadataRunRef.familySegments lookup.family))
        (lookup.scanFrom filterProbe bound)).take limit :=
  scanRange_eq sound.newestFirst (.page lookup inRange probes starts)

theorem scanRange_pages (limit : Nat) : Pages lookup (manifest.rowsUnder lookup) fun bound =>
      scanRange admits (runsNewestFirst manifest) (lookup.scanFrom filterProbe bound) limit where
  mem starts stored isStored := by
    rw [scanRange_page sound inRange probes starts] at isStored
    exact mem_rowsUnder_of_range starts (fun run isRun => mem_runsNewestFirst.mp isRun)
      (mem_of_mem_take isStored)

variable {target : StoredRow}

theorem scanRange_leadsTo (carries : Carries state manifest lookup.family)
    (reachable : Reachable policy history state) (limit : Nat)
    (mem : target ∈ manifest.rowsUnder lookup) : LeadsTo lookup (fun bound =>
      scanRange admits (runsNewestFirst manifest) (lookup.scanFrom filterProbe bound) limit)
      limit target where
  found starts before := by
    refine ⟨_, scanRange_page sound inRange probes starts,
      rangeRows_sorted filterProbe carries reachable starts
        fun run isRun => mem_runsNewestFirst.mp isRun, ?_⟩
    obtain ⟨⟨run, isRun, isStored⟩, inside⟩ := NamespaceManifestPayload.mem_rowsUnder.mp mem
    refine mem_rangeRows.mpr ⟨?_, (LookupPrefix.contains_iff starts).mpr ⟨inside, before⟩⟩
    rw [flatMap_assoc]
    exact mem_flatMap.mpr ⟨run, mem_runsNewestFirst.mpr isRun, isStored⟩

variable (positive : 0 < limit)
include positive

theorem newestRun_pages : Pages lookup (manifest.rowsUnder lookup) fun bound =>
      scanPrefixInNewestRunForLookup admits (lookup.scanFrom filterProbe bound) limit
        (runsNewestFirst manifest) where
  mem starts stored isStored := by
    rcases scanPrefixInNewestRunForLookup_cases sound.newestFirst
      (.page lookup inRange probes starts) positive with
      ⟨isNil, _⟩ | ⟨newer, run, older, split, _, _, isPage⟩
    · rw [isNil] at isStored
      cases isStored
    · rw [isPage] at isStored
      have isRun : run ∈ manifest.runs := by
        rw [← mem_runsNewestFirst, split]
        simp
      apply mem_rowsUnder_of_range starts
        (fun other isOther => mem_singleton.mp isOther ▸ isRun)
      rw [familySegments_singleton]
      exact mem_of_mem_take isStored

theorem newestRun_leadsTo (carries : Carries state manifest lookup.family)
    (reachable : Reachable policy history state) (ordered : RunsOrdered manifest)
    (listed : WellListed manifest) (mem : target ∈ manifest.rowsUnder lookup)
    (newest : ∀ stored ∈ manifest.rowsUnder lookup, stored.committedSeq ≤ target.committedSeq) :
    LeadsTo lookup (fun bound =>
      scanPrefixInNewestRunForLookup admits (lookup.scanFrom filterProbe bound) limit
        (runsNewestFirst manifest)) limit target where
  found {bound} starts before := by
    obtain ⟨⟨source, isSource, isStored⟩, inside⟩ :=
      NamespaceManifestPayload.mem_rowsUnder.mp mem
    have inSource : target ∈ rangeRows (source.familySegments lookup.family)
        (lookup.scanFrom filterProbe bound) :=
      mem_rangeRows.mpr ⟨isStored, (LookupPrefix.contains_iff starts).mpr ⟨inside, before⟩⟩
    rw [← mem_runsNewestFirst] at isSource
    rcases scanPrefixInNewestRunForLookup_cases sound.newestFirst
      (.page lookup inRange probes starts) positive with
      ⟨_, none⟩ | ⟨newer, run, older, split, none, some, isPage⟩
    · exact absurd (none source isSource) (ne_nil_of_mem inSource)
    · have isRun : run ∈ manifest.runs := by
        rw [← mem_runsNewestFirst, split]
        simp
      have only : ∀ other ∈ [run], other ∈ manifest.runs :=
        fun other isOther => mem_singleton.mp isOther ▸ isRun
      have sorted := rangeRows_sorted filterProbe carries reachable starts only
      rw [familySegments_singleton] at sorted
      refine ⟨_, isPage, sorted, ?_⟩
      rw [split, mem_append, mem_cons] at isSource
      rcases isSource with isNewer | isHere | isOlder
      · exact absurd (none source isNewer) (ne_nil_of_mem inSource)
      · exact isHere ▸ inSource
      · -- A run after the first one with a row has older rows only.
        obtain ⟨stored, inRun⟩ := exists_mem_of_ne_nil _ some
        have inRange : stored ∈ rangeRows ([run].flatMap
            (MetadataRunRef.familySegments lookup.family))
            (lookup.scanFrom filterProbe bound) := by
          rw [familySegments_singleton]
          exact inRun
        have under := (mem_rowsUnder_of_range starts only inRange).1
        have less := ordered.newer_rows listed.runNos split isOlder
          (mem_rangeRows.mp inRun).1 isStored
        exact absurd (newest stored under) (Nat.not_le.mpr less)

end

/-! ## One row under a prefix -/

theorem RunsOrdered.visible (ordered : RunsOrdered manifest)
    (all : everyRowIsVisibleAt (runsNewestFirst manifest) visibleSeq = true)
    (mem : stored ∈ manifest.rowsUnder lookup) : stored.committedSeq ≤ visibleSeq := by
  obtain ⟨⟨run, isRun, isStored⟩, _⟩ := NamespaceManifestPayload.mem_rowsUnder.mp mem
  obtain ⟨group, inGroup⟩ := MetadataFamilyGroup.exists_of_family lookup.family
  rw [everyRowIsVisibleAt, all_eq_true] at all
  have stamped := of_decide_eq_true (all run (mem_runsNewestFirst.mpr isRun))
  exact (ordered.covered group run isRun stored.2
    (MetadataRunRef.mem_groupRows_of_stored inGroup isStored)).trans stamped

theorem Carries.first_mergedRow (carries : Carries state manifest lookup.family)
    (reachable : Reachable policy history state)
    (isFirst : (manifest.mergedRows lookup visibleSeq).head? = some target) :
    target ∈ manifest.rowsUnder lookup ∧ target.committedSeq ≤ visibleSeq ∧
      ∀ stored ∈ manifest.rowsUnder lookup, stored.committedSeq ≤ visibleSeq →
        target.keyBytes ≤ stored.keyBytes := by
  have mem := NamespaceManifestPayload.mem_mergedRows.mp (mem_of_head? isFirst)
  refine ⟨mem.1, mem.2, ?_⟩
  intro stored isStored visible
  have sorted : (manifest.mergedRows lookup visibleSeq).Pairwise
      fun left right => left.keyBytes < right.keyBytes := by
    apply collected_sorted
    intro left isLeft right isRight same
    exact carries.named reachable (mem_of_mem_filter isLeft)
      (mem_of_mem_filter isRight) same
  have isMerged := NamespaceManifestPayload.mem_mergedRows.mpr ⟨isStored, visible⟩
  obtain ⟨rest, isRows⟩ := List.head?_eq_some_iff.mp isFirst
  rw [isRows] at sorted isMerged
  rcases mem_cons.mp isMerged with same | later
  · exact le_of_eq (same ▸ rfl)
  · exact le_of_lt ((pairwise_cons.mp sorted).1 stored later)

section

theorem newestRowUnderPrefix_eq (reachable : Reachable policy history state)
    (ordered : RunsOrdered manifest) (listed : WellListed manifest)
    (carries : Carries state manifest lookup.family) (sound : AdmitsRows admits manifest.runs)
    (inRange : lookup.InRange) (probes : lookup.filterProbe = some filterProbe)
    (newestFirst : lookup.NewestFirst)
    (decodes : DecodesRows decode committedSeq (manifest.rowsUnder lookup))
    (enough : (manifest.rowsUnder lookup).length < fuel) :
    newestRowUnderPrefix decode committedSeq admits (runsNewestFirst manifest) lookup filterProbe
        visibleSeq fuel =
      match (manifest.mergedRows lookup visibleSeq).head? with
      | none => .ok none
      | some stored => (decode stored.2).map some := by
  have fuelled : rowsFrom StoredRow.keyBytes (manifest.rowsUnder lookup) (utf8 lookup.text) <
      fuel := countP_le_length.trans_lt enough
  have newestPages := newestRun_pages sound inRange probes Nat.one_pos
  have rangePages := scanRange_pages sound inRange probes wholeStateRawScanLimit
  rw [newestRowUnderPrefix]
  cases isFirst : (manifest.mergedRows lookup visibleSeq).head? with
  | none =>
    have hidden : ∀ stored ∈ manifest.rowsUnder lookup, visibleSeq < stored.committedSeq := by
      intro stored isStored
      by_contra visible
      have isMerged := NamespaceManifestPayload.mem_mergedRows.mpr
        ⟨isStored, Nat.le_of_not_lt visible⟩
      rw [List.head?_eq_none_iff.mp isFirst] at isMerged
      cases isMerged
    by_cases all : everyRowIsVisibleAt (runsNewestFirst manifest) visibleSeq = true
    · rw [if_pos all]
      cases isHead : (scanPrefixInNewestRunForLookup admits
          (lookup.scanFrom filterProbe lookup.text) 1 (runsNewestFirst manifest)).head? with
      | none => rfl
      | some stored =>
        have under := (newestPages.mem .first stored (mem_of_head? isHead)).1
        exact absurd (ordered.visible all under) (Nat.not_le.mpr (hidden stored under))
    · rw [if_neg all]
      exact newestRowFrom_eq_none rangePages decodes hidden .first fuelled
  | some target =>
    obtain ⟨member, visible, first⟩ := carries.first_mergedRow reachable isFirst
    obtain ⟨record, isRecord, sameSeq⟩ := decodes target member
    have afterText := (NamespaceManifestPayload.mem_rowsUnder.mp member).2.1
    by_cases all : everyRowIsVisibleAt (runsNewestFirst manifest) visibleSeq = true
    · rw [if_pos all]
      have newest : ∀ stored ∈ manifest.rowsUnder lookup,
          stored.committedSeq ≤ target.committedSeq := by
        intro stored isStored
        by_contra newer
        exact absurd (first stored isStored (ordered.visible all isStored))
          (not_le.mpr (carries.key_lt reachable inRange newestFirst member isStored
            (Nat.lt_of_not_le newer)))
      obtain ⟨found, isPage, sorted, isTarget⟩ :=
        (newestRun_leadsTo sound inRange probes Nat.one_pos carries reachable ordered listed
          member newest).found .first afterText
      have isHead : (scanPrefixInNewestRunForLookup admits
          (lookup.scanFrom filterProbe lookup.text) 1
          (runsNewestFirst manifest)).head? = some target := by
        rw [isPage]
        cases found with
        | nil => cases isTarget
        | cons head rest =>
          have under := (newestPages.mem .first head (by rw [isPage]; simp)).1
          rcases mem_cons.mp isTarget with same | later
          · rw [same]
            rfl
          · exact absurd (first head under (ordered.visible all under))
              (not_le.mpr ((pairwise_cons.mp sorted).1 target later))
      rw [isHead]
    · rw [if_neg all, newestRowFrom_eq_some rangePages decodes
        (scanRange_leadsTo sound inRange probes carries reachable _ member) isRecord
        (sameSeq ▸ visible) first .first afterText fuelled]
      dsimp only
      rw [isRecord]
      rfl

theorem Carries.first_mergedRow_newest (carries : Carries state manifest lookup.family)
    (reachable : Reachable policy history state) (inRange : lookup.InRange)
    (newestFirst : lookup.NewestFirst)
    (isFirst : (manifest.mergedRows lookup visibleSeq).head? = some target) :
    ∀ stored ∈ manifest.mergedRows lookup visibleSeq,
      stored.committedSeq ≤ target.committedSeq := by
  obtain ⟨mem, _, first⟩ := carries.first_mergedRow reachable isFirst
  intro stored isStored
  obtain ⟨isStored, visible⟩ := NamespaceManifestPayload.mem_mergedRows.mp isStored
  by_contra newer
  exact absurd (first stored isStored visible)
    (not_le.mpr (carries.key_lt reachable inRange newestFirst mem isStored
      (Nat.lt_of_not_le newer)))

end

/-! ## The rows of an edge walk -/

def MetadataRow.direntryBinding? : MetadataRow → Option DirentryBindingRecord
  | .direntryBinding record => some record
  | _ => none

/-- The bindings of all runs under the prefix that a read may see. -/
def NamespaceManifestPayload.visibleBindings (lookup : LookupPrefix) (visibleSeq : ChangeSeq)
    (manifest : NamespaceManifestPayload) : List DirentryBindingRecord :=
  (manifest.mergedRows lookup visibleSeq).filterMap fun stored => stored.2.direntryBinding?

structure LookupPrefix.WalksEdges (lookup : LookupPrefix)
    (edge : DirentryBindingRecord → LookupPrefix) : Prop where
  family : ∀ record, (edge record).family = lookup.family
  binding : ∀ row : MetadataRow, (row.logicalTuple lookup.family).isSome →
    ∃ record, row = .direntryBinding record
  inRange : ∀ record, (MetadataRow.direntryBinding record).InRange → (edge record).InRange
  own : ∀ record, (edge record).Selects (.direntryBinding record)
  within : ∀ record, lookup.Selects (.direntryBinding record) →
    utf8 lookup.text <+: utf8 (edge record).text
  newestFirst : ∀ record other, (edge record).Selects (.direntryBinding other) →
    ∀ tuple otherTuple, (MetadataRow.direntryBinding record).logicalTuple lookup.family =
      some tuple → (MetadataRow.direntryBinding other).logicalTuple lookup.family =
        some otherTuple → tuple < otherTuple → other.position < record.position

theorem lt_of_toLex_lt {First Second : Type} [Preorder First] [Preorder Second] {first : First}
    {second second' : Second} (less : toLex (first, second) < toLex (first, second')) :
    second < second' := by
  rcases Prod.Lex.toLex_lt_toLex.mp less with irreflexive | ⟨_, less⟩
  · exact absurd irreflexive (lt_irrefl _)
  · exact less

theorem position_lt_of_toLex (less : toLex (OrderDual.toDual seq, OrderDual.toDual index) <
      toLex (OrderDual.toDual seq', OrderDual.toDual index')) :
    (⟨seq', index'⟩ : DeltaPosition) < ⟨seq, index⟩ := by
  rw [DeltaPosition.lt_iff]
  rcases Prod.Lex.toLex_lt_toLex.mp less with newer | ⟨same, newer⟩
  · exact .inl newer
  · exact .inr ⟨(OrderDual.toDual_inj.mp same).symm, newer⟩

theorem slot_walksEdges (parentInodeId : InodeId) (nameKey : NameKey) :
    (LookupPrefix.direntryBind parentInodeId nameKey).WalksEdges slotEdge where
  family record := rfl
  binding row isSome := by cases row <;> first | exact ⟨_, rfl⟩ | cases isSome
  inRange record inRange := ⟨inRange.1, inRange.2.1⟩
  own record := ⟨rfl, rfl, rfl⟩
  within record selects := by
    obtain ⟨sameParent, sameName⟩ := selects
    rw [← sameParent, ← sameName, slotEdge, LookupPrefix.text, LookupPrefix.text,
      direntryBindEdgePrefix, utf8_append, utf8_append, append_assoc]
    exact prefix_append _ _
  newestFirst record other selects tuple otherTuple isTuple isOtherTuple less := by
    obtain ⟨sameParent, sameName, sameChild⟩ := selects
    cases isTuple
    cases isOtherTuple
    rw [sameParent, sameName, sameChild] at less
    exact position_lt_of_toLex (lt_of_toLex_lt (lt_of_toLex_lt (lt_of_toLex_lt less)))

theorem child_walksEdges (childInodeId : InodeId) :
    (LookupPrefix.direntryChild childInodeId).WalksEdges childEdge where
  family record := rfl
  binding row isSome := by cases row <;> first | exact ⟨_, rfl⟩ | cases isSome
  inRange record inRange := ⟨inRange.1, inRange.2.1⟩
  own record := ⟨rfl, rfl, rfl⟩
  within record selects := by
    have sameChild := selects
    rw [← sameChild, childEdge, LookupPrefix.text, LookupPrefix.text, direntryChildBindEdgePrefix]
    simp only [utf8_append, append_assoc]
    exact prefix_append _ _
  newestFirst record other selects tuple otherTuple isTuple isOtherTuple less := by
    obtain ⟨sameChild, sameParent, sameName⟩ := selects
    cases isTuple
    cases isOtherTuple
    rw [sameParent, sameName, sameChild] at less
    exact position_lt_of_toLex (lt_of_toLex_lt (lt_of_toLex_lt (lt_of_toLex_lt less)))

theorem LookupPrefix.mem_edge_iff (inRange : edge.InRange) {row : MetadataRow}
    (rowInRange : row.InRange) (isSome : (row.logicalTuple edge.family).isSome)
    (isKey : row.rowKeyForFamily edge.family = some key) :
    utf8 edge.text ≤ utf8 key ∧ utf8 key < utf8 (prefixEnd edge) ↔ edge.Selects row := by
  obtain ⟨tuple, isTuple⟩ := Option.isSome_iff_exists.mp isSome
  obtain ⟨upper, isUpper, between⟩ := edge.exists_range inRange
  rw [prefixEnd, isUpper, Option.getD_some]
  exact between ⟨row, tuple, key, isTuple, rowInRange, isKey⟩

theorem LookupPrefix.startsAt_prefixEnd (within : utf8 lookup.text <+: utf8 edge.text) :
    lookup.StartsAt (prefixEnd edge) := by
  obtain ⟨upper, isUpper, _⟩ := edge.exists_upperBound
  rw [prefixEnd, isUpper, Option.getD_some]
  exact .afterPrefix edge within isUpper

section

variable (walks : lookup.WalksEdges edge) (carries : Carries state manifest lookup.family)
include walks carries

theorem Carries.binding (mem : stored ∈ manifest.rowsUnder lookup) :
    ∃ record, stored.2 = .direntryBinding record := by
  obtain ⟨keyed, isRow, _⟩ := carries.keyed mem
  exact walks.binding stored.2 (isRow ▸ Option.isSome_iff_exists.mpr ⟨_, keyed.inFamily⟩)

theorem Carries.mem_visibleBindings : record ∈ manifest.visibleBindings lookup visibleSeq ↔
      ∃ stored ∈ manifest.rowsUnder lookup, stored.Shows visibleSeq record := by
  simp only [NamespaceManifestPayload.visibleBindings, mem_filterMap,
    NamespaceManifestPayload.mem_mergedRows]
  constructor
  · intro ⟨stored, ⟨isStored, visible⟩, isRecord⟩
    obtain ⟨found, isFound⟩ := carries.binding walks isStored
    rw [isFound] at isRecord
    cases isRecord
    refine ⟨stored, isStored, isFound, ?_⟩
    rwa [StoredRow.committedSeq, isFound] at visible
  · intro ⟨stored, isStored, isRecord, visible⟩
    refine ⟨stored, ⟨isStored, ?_⟩, by rw [isRecord]; rfl⟩
    rwa [StoredRow.committedSeq, isRecord]

theorem Carries.clearOf (mem : target ∈ manifest.rowsUnder lookup)
    (isNewest : target.2 = .direntryBinding newest)
    (le : ∀ record ∈ manifest.visibleBindings lookup visibleSeq,
      record.position ≤ newest.position) :
    ClearOf (fun record => prefixEnd (edge record)) visibleSeq (manifest.rowsUnder lookup)
      target := by
  intro stored isStored record shows less
  by_contra covered
  obtain ⟨storedKeyed, storedRow, storedKey, _⟩ := carries.keyed isStored
  obtain ⟨targetKeyed, targetRow, targetKey, _⟩ := carries.keyed mem
  have recordRow := storedRow.trans shows.1
  have newestRow := targetRow.trans isNewest
  have edgeInRange := walks.inRange record (recordRow ▸ storedKeyed.inRange)
  have range (keyed : KeyedRow lookup.family) :=
    LookupPrefix.mem_edge_iff edgeInRange keyed.inRange
      (by rw [walks.family, keyed.inFamily]; rfl) (by rw [walks.family]; exact keyed.isKey)
  have atOrAfter := ((range storedKeyed).mpr (recordRow ▸ walks.own record)).1
  have selects : (edge record).Selects (.direntryBinding newest) := by
    rw [← newestRow]
    apply (range targetKeyed).mp
    rw [storedKey] at atOrAfter
    rw [targetKey]
    exact ⟨atOrAfter.trans less.le, not_le.mp covered⟩
  rw [StoredRow.keyBytes, StoredRow.keyBytes, ← storedKey, ← targetKey,
    storedKeyed.key_lt_iff] at less
  have newer := walks.newestFirst record newest selects _ _ (recordRow ▸ storedKeyed.inFamily)
    (newestRow ▸ targetKeyed.inFamily) less
  exact absurd (le record ((carries.mem_visibleBindings walks).mpr ⟨stored, isStored, shows⟩))
    (not_le.mpr newer)

theorem newestEdgeRows_newest (reachable : Reachable policy history state)
    (ordered : RunsOrdered manifest) (listed : WellListed manifest)
    (sound : AdmitsRows admits manifest.runs) (inRange : lookup.InRange)
    (probes : lookup.filterProbe = some filterProbe)
    (enough : (manifest.rowsUnder lookup).length < fuel) :
    ∃ edges, newestEdgeRows (fun record => prefixEnd (edge record)) visibleSeq admits
        (runsNewestFirst manifest) lookup filterProbe fuel = .ok edges ∧
      maxByKey (·.position) edges = maxByKey (·.position)
          (manifest.visibleBindings lookup visibleSeq) := by
  have fuelled : rowsFrom StoredRow.keyBytes (manifest.rowsUnder lookup) (utf8 lookup.text) <
      fuel := countP_le_length.trans_lt enough
  have positive : 0 < edgeWalkPageRows := by decide
  have bindings : ∀ stored ∈ manifest.rowsUnder lookup,
      ∃ record, stored.2 = .direntryBinding record := fun _ => carries.binding walks
  have ends : ∀ stored ∈ manifest.rowsUnder lookup, ∀ record,
      stored.2 = .direntryBinding record → lookup.StartsAt (prefixEnd (edge record)) := by
    intro stored isStored record isRecord
    have selects := carries.selects inRange isStored
    rw [isRecord] at selects
    exact LookupPrefix.startsAt_prefixEnd (walks.within record selects)
  -- The pages of both ways to read lead to the newest binding.
  obtain ⟨page, isRows, pages, leads⟩ : ∃ page : String → List StoredRow,
      newestEdgeRows (fun record => prefixEnd (edge record)) visibleSeq admits
        (runsNewestFirst manifest) lookup filterProbe fuel =
        newestEdgeRowsFrom (fun record => prefixEnd (edge record)) visibleSeq page fuel
          lookup.text ∧
      Pages lookup (manifest.rowsUnder lookup) page ∧
      ∀ target ∈ manifest.rowsUnder lookup, ∀ newest, target.Shows visibleSeq newest →
        (∀ record ∈ manifest.visibleBindings lookup visibleSeq, record.position ≤ newest.position) →
        LeadsTo lookup page edgeWalkPageRows target := by
    by_cases all : everyRowIsVisibleAt (runsNewestFirst manifest) visibleSeq = true
    · refine ⟨_, by simp only [newestEdgeRows, all, if_true],
        newestRun_pages sound inRange probes positive, ?_⟩
      intro target member newest shows le
      apply newestRun_leadsTo sound inRange probes positive carries reachable ordered listed
        member
      intro stored isStored
      obtain ⟨record, isRecord⟩ := carries.binding walks isStored
      have visible := ordered.visible all isStored
      rw [StoredRow.committedSeq, isRecord] at visible ⊢
      rw [StoredRow.committedSeq, shows.1]
      exact DeltaPosition.seq_le_of_le (le record
        ((carries.mem_visibleBindings walks).mpr ⟨stored, isStored, isRecord, visible⟩))
    · refine ⟨fun bound => scanRange admits (runsNewestFirst manifest)
          (lookup.scanFrom filterProbe bound) edgeWalkPageRows,
        by simp only [newestEdgeRows, all, Bool.false_eq_true, if_false],
        scanRange_pages sound inRange probes _, ?_⟩
      intro target member newest _ _
      exact scanRange_leadsTo sound inRange probes carries reachable _ member
  obtain ⟨edges, isEdges, shown, complete⟩ :=
    newestEdgeRowsFrom_spec pages bindings ends .first fuelled
  refine ⟨edges, isRows.trans isEdges, ?_⟩
  have subset : ∀ record ∈ edges, record ∈ manifest.visibleBindings lookup visibleSeq :=
    fun record isRecord => (carries.mem_visibleBindings walks).mpr (shown record isRecord)
  cases found : maxByKey (·.position)
      (manifest.visibleBindings lookup visibleSeq) with
  | none =>
    rw [maxByKey_eq_none_iff] at found ⊢
    rw [eq_nil_iff_forall_not_mem]
    intro record isRecord
    have isVisible := subset record isRecord
    rw [found] at isVisible
    cases isVisible
  | some newest =>
    have isNewest := maxByKey_isNewest found
    obtain ⟨target, member, shows⟩ := (carries.mem_visibleBindings walks).mp isNewest.mem
    have distinct : KeysDistinct (·.position)
        (manifest.visibleBindings lookup visibleSeq) := by
      apply reachable.settled.ordered.binds.keysDistinct.of_subset
      intro record isRecord
      obtain ⟨stored, isStored, recordShows⟩ := (carries.mem_visibleBindings walks).mp isRecord
      obtain ⟨_, _, _, held⟩ := carries.keyed isStored
      rw [recordShows.1] at held
      exact held
    apply maxByKey_of_subset distinct subset found
    exact complete target newest shows (leads target member newest shows isNewest.le)
      (carries.clearOf walks member shows.1 isNewest.le)
      (NamespaceManifestPayload.mem_rowsUnder.mp member).2.1

end

end

end LoonFs
