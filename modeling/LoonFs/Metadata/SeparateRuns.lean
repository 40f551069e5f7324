import LoonFs.Execution
import LoonFs.Metadata.NewestLookups

/-! # Runs with separate ranges -/

namespace LoonFs

open Foundation LookupKeys List MetadataRunRef

structure SeparateRuns (manifest : NamespaceManifestPayload) : Prop where
  base : ∀ group, ∀ left ∈ manifest.runs, left.InGroup group → left.tier = .base →
    ∀ right ∈ manifest.runs, right.InGroup group → right.tier = .base → left = right
  ranges : ∀ group, (runsNewestFirst manifest).Pairwise fun newer older =>
    ∀ row ∈ newer.groupRows group, ∀ other ∈ older.groupRows group,
      manifestRowCommitSeq other < manifestRowCommitSeq row

theorem RunsOrdered.separateRuns (ordered : RunsOrdered manifest) (listed : WellListed manifest) :
    SeparateRuns manifest where
  base group left leftMem leftIn leftBase right rightMem rightIn rightBase := by
    rcases ordered.apart group left leftMem leftIn right rightMem rightIn with
      same | before | after
    · exact same
    · rw [before.1.1] at rightBase
      cases rightBase
    · rw [after.1.1] at leftBase
      cases leftBase
  ranges := ordered.ranges listed.runNos

def firstDecoded {Record : Type} (decode : MetadataRow → Except CoreError Record)
    (rows : List StoredRow) : Except CoreError (Option Record) :=
  match rows.head? with
  | none => .ok none
  | some stored => (decode stored.2).map some

def lookupFamilies : List MetadataRowFamily :=
  [.direntryBinds, .direntryChildBinds, .revisions, .tombstones, .attributes, .access, .merges]

structure FindsMergedNewest (admits : MetadataSegmentRef → ProbedScan → Bool)
    (manifest : NamespaceManifestPayload) (visibleSeq : ChangeSeq) : Prop where
  revision : ∀ inodeId < 2 ^ 128, ∀ fuel,
    (manifest.rowsUnder (.revision inodeId)).length < fuel →
    latestRevisionByInode admits (runsNewestFirst manifest) inodeId visibleSeq fuel =
      firstDecoded revisionFromManifestRow (manifest.mergedRows (.revision inodeId) visibleSeq)
  tombstone : ∀ rootInodeId < 2 ^ 128, ∀ fuel,
    (manifest.rowsUnder (.tombstone rootInodeId)).length < fuel →
    newestTombstoneForRoot admits (runsNewestFirst manifest) rootInodeId visibleSeq fuel =
      firstDecoded tombstoneFromManifestRow
        (manifest.mergedRows (.tombstone rootInodeId) visibleSeq)
  merge : ∀ sourceNamespaceId fuel,
    (manifest.rowsUnder (.merge sourceNamespaceId)).length < fuel →
    newestMerge admits (runsNewestFirst manifest) sourceNamespaceId visibleSeq fuel =
      firstDecoded mergeIndexFromManifestRow
        (manifest.mergedRows (.merge sourceNamespaceId) visibleSeq)
  attributes : ∀ inodeId < 2 ^ 128, ∀ fuel,
    (manifest.rowsUnder (.attributes inodeId)).length < fuel →
    attributesByInode admits (runsNewestFirst manifest) inodeId visibleSeq fuel =
      firstDecoded attributesRevisionFromManifestRow
        (manifest.mergedRows (.attributes inodeId) visibleSeq)
  access : ∀ inodeId < 2 ^ 128, ∀ fuel,
    (manifest.rowsUnder (.access inodeId)).length < fuel →
    accessByInode admits (runsNewestFirst manifest) inodeId visibleSeq fuel =
      firstDecoded accessRevisionFromManifestRow
        (manifest.mergedRows (.access inodeId) visibleSeq)
  slot : ∀ parentInodeId < 2 ^ 128, ∀ nameKey fuel,
    (manifest.rowsUnder (.direntryBind parentInodeId nameKey)).length < fuel →
    ∃ edges, direntryBindsForParentName admits (runsNewestFirst manifest) parentInodeId nameKey
        visibleSeq fuel = .ok edges ∧
      maxByKey DirentryBindingRecord.position edges =
        maxByKey DirentryBindingRecord.position
          (manifest.visibleBindings (.direntryBind parentInodeId nameKey) visibleSeq)
  child : ∀ childInodeId < 2 ^ 128, ∀ fuel,
    (manifest.rowsUnder (.direntryChild childInodeId)).length < fuel →
    ∃ edges, direntryBindsForChild admits (runsNewestFirst manifest) childInodeId visibleSeq
        fuel = .ok edges ∧
      maxByKey DirentryBindingRecord.position edges =
        maxByKey DirentryBindingRecord.position
          (manifest.visibleBindings (.direntryChild childInodeId) visibleSeq)
  /-- The first merged row of a prefix is of the newest commit. -/
  newest : ∀ lookup : LookupPrefix, lookup.NewestFirst → lookup.InRange →
    ∀ first ∈ (manifest.mergedRows lookup visibleSeq).head?,
      ∀ stored ∈ manifest.mergedRows lookup visibleSeq,
        stored.committedSeq ≤ first.committedSeq

section

variable {lookup : LookupPrefix} {decode : MetadataRow → Except CoreError Record}
  {committedSeq : Record → ChangeSeq}

theorem Carries.decodesRows (carries : Carries state manifest lookup.family)
    (decodes : ∀ row : MetadataRow, (row.logicalTuple lookup.family).isSome → ∃ record,
      decode row = .ok record ∧ committedSeq record = manifestRowCommitSeq row) :
    DecodesRows decode committedSeq (manifest.rowsUnder lookup) := by
  intro stored isStored
  obtain ⟨keyed, isRow, _⟩ := carries.keyed isStored
  exact decodes stored.2 (isRow ▸ Option.isSome_iff_exists.mpr ⟨_, keyed.inFamily⟩)

variable {admits : MetadataSegmentRef → ProbedScan → Bool}

theorem newestRowUnderPrefix_eq_firstDecoded (lookup : LookupPrefix)
    (reachable : Reachable policy history state) (ordered : RunsOrdered manifest)
    (listed : WellListed manifest) (sound : AdmitsRows admits manifest.runs)
    (carries : Carries state manifest lookup.family) (inRange : lookup.InRange)
    (probes : lookup.filterProbe = some filterProbe) (newestFirst : lookup.NewestFirst)
    (decodes : ∀ row : MetadataRow, (row.logicalTuple lookup.family).isSome → ∃ record,
      decode row = .ok record ∧ committedSeq record = manifestRowCommitSeq row)
    (enough : (manifest.rowsUnder lookup).length < fuel) :
    newestRowUnderPrefix decode committedSeq admits (runsNewestFirst manifest) lookup filterProbe
        seq fuel = firstDecoded decode (manifest.mergedRows lookup seq) :=
  newestRowUnderPrefix_eq reachable ordered listed carries sound inRange probes newestFirst
    (carries.decodesRows decodes) enough

theorem findsMergedNewest (reachable : Reachable policy history state)
    (ordered : RunsOrdered manifest) (listed : WellListed manifest)
    (sound : AdmitsRows admits manifest.runs)
    (carries : ∀ family ∈ lookupFamilies, Carries state manifest family)
    (seq : ChangeSeq) : FindsMergedNewest admits manifest seq where
  revision node inRange fuel enough :=
    newestRowUnderPrefix_eq_firstDecoded (.revision node) reachable ordered listed sound
      (carries .revisions (by decide)) inRange rfl trivial
      (fun row isSome => by cases row <;> first | exact ⟨_, rfl, rfl⟩ | cases isSome) enough
  tombstone rootInodeId inRange fuel enough :=
    newestRowUnderPrefix_eq_firstDecoded (.tombstone rootInodeId) reachable ordered listed sound
      (carries .tombstones (by decide)) inRange rfl trivial
      (fun row isSome => by cases row <;> first | exact ⟨_, rfl, rfl⟩ | cases isSome) enough
  merge sourceNamespaceId fuel enough :=
    newestRowUnderPrefix_eq_firstDecoded (.merge sourceNamespaceId) reachable ordered listed sound
      (carries .merges (by decide)) trivial rfl trivial
      (fun row isSome => by cases row <;> first | exact ⟨_, rfl, rfl⟩ | cases isSome) enough
  attributes node inRange fuel enough :=
    newestRowUnderPrefix_eq_firstDecoded (.attributes node) reachable ordered listed sound
      (carries .attributes (by decide)) inRange rfl trivial
      (fun row isSome => by cases row <;> first | exact ⟨_, rfl, rfl⟩ | cases isSome) enough
  access node inRange fuel enough :=
    newestRowUnderPrefix_eq_firstDecoded (.access node) reachable ordered listed sound
      (carries .access (by decide)) inRange rfl trivial
      (fun row isSome => by cases row <;> first | exact ⟨_, rfl, rfl⟩ | cases isSome) enough
  slot parentInodeId inRange nameKey fuel enough :=
    newestEdgeRows_newest (slot_walksEdges parentInodeId nameKey)
      (carries .direntryBinds (by decide)) reachable ordered listed sound inRange rfl enough
  child childInodeId inRange fuel enough :=
    newestEdgeRows_newest (child_walksEdges childInodeId)
      (carries .direntryChildBinds (by decide)) reachable ordered listed sound inRange rfl enough
  newest lookup newestFirst inRange first isFirst := by
    have isFamily : lookup.family ∈ lookupFamilies := by
      cases lookup <;> first
        | exact absurd newestFirst id
        | simp [lookupFamilies, LookupPrefix.family]
    exact (carries _ isFamily).first_mergedRow_newest reachable inRange newestFirst isFirst

end

/-- The runs of a group are separate and in order in every manifest of a chain, so a lookup
that may stop at the newest run finds what a merge of all runs has. -/
theorem lineage_runs_separate {manifests : List NamespaceManifestPayload}
    (lineage : Lineage manifests) {manifest : NamespaceManifestPayload}
    (member : manifest ∈ manifests) :
    SeparateRuns manifest ∧
    ∀ {policy : NamePolicy} {history : List WalCommitPayload} {state : MetadataState}
      {admits : MetadataSegmentRef → ProbedScan → Bool}, Reachable policy history state →
      (∀ family ∈ lookupFamilies, Carries state manifest family) →
      AdmitsRows admits manifest.runs →
      ∀ visibleSeq, FindsMergedNewest admits manifest visibleSeq := by
  have ordered := lineage.chainOrdered.ordered manifest member
  have listed := lineage.wellListed manifest member
  refine ⟨ordered.separateRuns listed, ?_⟩
  intro policy history state admits reachable carries sound visibleSeq
  exact findsMergedNewest reachable ordered listed sound carries visibleSeq

/-! ## A compaction planned before a newer fold -/

namespace SampleRuns

open SampleUnit (listing policy signals)

/-- A file with three revisions, each of a commit of its own. -/
def run : Run :=
  (Run.genesis.commits .plain [[.createFile 1 0 "readme" (sampleContent 3)],
    [.replaceFile 1 1 (sampleContent 4) none], [.replaceFile 1 2 (sampleContent 5) none]]).getD
    .genesis

theorem reachable : Reachable .plain run.history run.state := by
  have ran : (Run.genesis.commits .plain [[.createFile 1 0 "readme" (sampleContent 3)],
      [.replaceFile 1 1 (sampleContent 4) none],
      [.replaceFile 1 2 (sampleContent 5) none]]).isSome = true := by decide +kernel
  rcases Option.isSome_iff_exists.mp ran with ⟨final, ran⟩
  rw [run, ran]
  exact Run.commits_reachable (.genesis 0 []) ran

def segment (segmentId : ObjectId) (seqs : List ChangeSeq) : MetadataSegmentRef where
  ownerNamespaceId := "ns"
  segmentId
  family := .revisions
  rowCount := seqs.length
  objectBytes := 1
  rows := (run.state.revisions.filter (·.committedSeq ∈ seqs)).map .fileRevision

def first : MetadataRunRef := ⟨0, 1, .base, [segment "a" [1]]⟩
def second : MetadataRunRef := ⟨1, 2, .delta, [segment "b" [2]]⟩
def third : MetadataRunRef := ⟨2, 3, .delta, [segment "c" [3]]⟩
def merged : MetadataRunRef := ⟨3, 2, .base, [segment "d" [1, 2]]⟩

def planned : NamespaceManifestPayload := listing 3 [first, second]
def current : NamespaceManifestPayload := listing 4 [first, second, third]

def published : NamespaceManifestPayload :=
  { current with manifestNo := 5, nextRunNo := 4, runs := [third, merged] }

def spec : MetadataCompactionSpec := { SampleUnit.spec with group := .revisions }

theorem mem_rows (isRow : row ∈ (segment segmentId seqs).rows) :
    ∃ record ∈ run.state.revisions, record.committedSeq ∈ seqs ∧ row = .fileRevision record := by
  rcases mem_map.mp isRow with ⟨record, isRecord, rfl⟩
  rcases mem_filter.mp isRecord with ⟨isRevision, isSeq⟩
  exact ⟨record, isRevision, of_decide_eq_true isSeq, rfl⟩

theorem generated (unlisted : ("ns", segmentId) ∉ (runs.flatMap MetadataRunRef.segments).map
      metadataSegmentObjectKey) : Generated (listing manifestNo runs) [segment segmentId seqs] where
  distinct := nodup_singleton _
  unlisted listed isListed := by
    cases mem_singleton.mp isListed
    exact unlisted

theorem folded (seq : ChangeSeq) (lineage : Lineage (listing seq runs :: past))
    (segmentId : ObjectId) (unlisted : ("ns", segmentId) ∉
      (runs.flatMap MetadataRunRef.segments).map metadataSegmentObjectKey)
    (built : foldAttempt ⟨seq, seq, 0⟩ {} [segment segmentId [seq]] (listing seq runs) =
      .ok (.next new .published)) (legal : (listing seq runs).ensureSuccessor new = .ok ())
    (nonzero : seq ≠ 0) : Lineage (new :: listing seq runs :: past) := by
  have rowSeq : ∀ listed ∈ [segment segmentId [seq]], ∀ row ∈ listed.rows,
      manifestRowCommitSeq row = seq := by
    intro listed isListed row isRow
    cases mem_singleton.mp isListed
    rcases mem_rows isRow with ⟨record, _, isSeq, rfl⟩
    exact mem_singleton.mp isSeq
  refine lineage.publish (.fold ⟨cons_ne_nil _ _, fun _ listed isListed row isRow => ?_,
    fun listed isListed row isRow => (rowSeq listed isListed row isRow).le⟩
    (generated unlisted) built) legal
  rw [rowSeq listed isListed row isRow]
  exact Nat.sub_one_lt nonzero

theorem compacts : CompactsInputs planned spec [segment "d" [1, 2]] where
  families := by decide
  rows listed isListed row isRow := by
    cases mem_singleton.mp isListed
    rcases mem_rows isRow with ⟨record, isRevision, isSeq, rfl⟩
    have inSegment (segmentId : ObjectId) :
        .fileRevision record ∈ (segment segmentId [record.committedSeq]).rows :=
      mem_map_of_mem (mem_filter.mpr ⟨isRevision, by simp⟩)
    rcases mem_cons.mp isSeq with isFirst | isSecond
    · exact ⟨first, mem_cons_self, by decide, segment "a" [1], by decide +kernel,
        isFirst ▸ inSegment "a"⟩
    · exact ⟨second, mem_cons_of_mem _ mem_cons_self, by decide, segment "b" [2],
        by decide +kernel, mem_singleton.mp isSecond ▸ inSegment "b"⟩

theorem lineage :
    Lineage [published, current, planned, listing 2 [first], listing 1 []] := by
  have created : Lineage [listing 1 []] := .initial "ns" 0 "creator" .unrestricted
  have base : Lineage [listing 2 [first], listing 1 []] :=
    folded 1 created "a" (by decide +kernel) rfl rfl (by decide)
  have delta : Lineage [planned, listing 2 [first], listing 1 []] :=
    folded 2 base "b" (by decide +kernel) rfl rfl (by decide)
  have newer : Lineage [current, planned, listing 2 [first], listing 1 []] :=
    folded 3 delta "c" (by decide +kernel) rfl rfl (by decide)
  have plan : planCompaction planned policy = some spec := by decide +kernel
  have recorded : inputSegmentKeys (runsNewestFirst planned) spec =
      some [("ns", "a"), ("ns", "b")].toFinset := by decide +kernel
  have swapped : finalizeMetadataCompaction current.namespaceId signals 0 spec
      [("ns", "a"), ("ns", "b")].toFinset [segment "d" [1, 2]] current =
        .ok (.next published none) := rfl
  exact newer.publish (.compaction (mem_cons_of_mem _ mem_cons_self) plan recorded compacts
    (generated (by decide +kernel)) swapped) rfl

theorem carries (family : MetadataRowFamily) : Carries run.state published family := by
  have inRange : ∀ record ∈ run.state.revisions, record.inodeId < 2 ^ 128 ∧
      record.revisionNo ≤ u64Max ∧ record.committedSeq ≤ u64Max ∧
      record.deltaIndex ≤ u32Max := by decide +kernel
  intro listed isListed found isFound sameFamily row isRow
  have isSegment : ∃ segmentId seqs, found = segment segmentId seqs := by
    rcases mem_cons.mp isListed with rfl | isMerged
    · exact ⟨_, _, mem_singleton.mp isFound⟩
    · cases mem_singleton.mp isMerged
      exact ⟨_, _, mem_singleton.mp isFound⟩
  rcases isSegment with ⟨segmentId, seqs, rfl⟩
  subst sameFamily
  rcases mem_rows isRow with ⟨record, isRevision, _, rfl⟩
  exact ⟨isRevision, inRange record isRevision, rfl⟩

end SampleRuns

open SampleRuns in
/-- Of the three revisions the newest is in the run of the later fold and the others are in the
compacted one: a reader at the head stops at the first, and one at the second commit goes on. -/
theorem lineage_runs_separate_after_compaction :
    SeparateRuns published ∧
    (latestRevisionByInode (fun _ _ => true) (runsNewestFirst published) 1 3 4).toOption.join.map
      RevisionRecord.committedSeq = some 3 ∧
    (latestRevisionByInode (fun _ _ => true) (runsNewestFirst published) 1 2 4).toOption.join.map
      RevisionRecord.committedSeq = some 2 := by
  obtain ⟨separate, finds⟩ := lineage_runs_separate SampleRuns.lineage mem_cons_self
  have found := finds reachable (fun family _ => carries family)
    (fun _ _ _ _ _ _ _ _ _ _ => rfl)
  have enough : (published.rowsUnder (.revision 1)).length < 4 := by decide +kernel
  refine ⟨separate, ?_, ?_⟩
  · rw [(found 3).revision 1 (by decide) 4 enough]
    decide +kernel
  · rw [(found 2).revision 1 (by decide) 4 enough]
    decide +kernel

end LoonFs
