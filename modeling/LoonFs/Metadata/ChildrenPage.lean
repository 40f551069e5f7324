import LoonFs.Metadata.Listing
import LoonFs.Metadata.ManifestTailCombiner
import LoonFs.Metadata.NewestLookups

/-! # Pages of a directory's children -/

namespace LoonFs

open Foundation LookupKeys List OrderDual

def directoryPageRawScanLimit : Nat := 64

/-- The errors of a read: those of storage, and those of the visibility rules. -/
inductive ViewError where
  | core (error : CoreError)
  | visiblePath (error : VisiblePathError)
deriving DecidableEq

structure MetadataViewSession where
  manifest : NamespaceManifestPayload
  /-- Which segments a scan of the manifest reads. -/
  admits : MetadataSegmentRef → ProbedScan → Bool
  /-- The bindings that overlays and tail chunks have, one list for each. -/
  rowStates : List (List DirentryBindingRecord)
  visibleSeq : ChangeSeq
  /-- The visibility lookups, with what the session has cached over them. -/
  reads : MetadataVisibilityReads

def keyedBinding (record : DirentryBindingRecord) : String × DirentryBindingRecord :=
  (direntryBindRowKey record.parentInodeId record.nameKey record.childInodeId
    record.committedSeq record.deltaIndex, record)

def MetadataVisibilityReads.seedEdge (parentInodeId : InodeId) (reads : MetadataVisibilityReads)
    (binding : DirentryBindingRecord) : MetadataVisibilityReads :=
  { reads with
    findLatestParentBindingForChild := Function.update
      reads.findLatestParentBindingForChild binding.childInodeId (some binding)
    findLatestSlotBinding := Function.update reads.findLatestSlotBinding parentInodeId
      (Function.update (reads.findLatestSlotBinding parentInodeId) binding.nameKey
        (some binding)) }

/-- The children among bound edge values that a page shows. -/
def visiblePageChildren (reads : MetadataVisibilityReads) :
    List DirentryBindingRecord → Except VisiblePathError (List DirentryBindingRecord)
  | [] => .ok []
  | binding :: rest => do
      let active ← reads.visiblePageChild binding
      let children ← visiblePageChildren reads rest
      return active.toList ++ children

def boundEdgesFrom (refill : Refill PUnit DirentryBindingRecord) (visibleSeq : ChangeSeq)
    (fuel : Nat) :
    Nat → Nat → ManifestTailCombiner DirentryBindingRecord →
      Except CoreError (List DirentryBindingRecord × ManifestTailCombiner DirentryBindingRecord)
  | _, 0, combiner => .ok ([], combiner)
  | 0, _ + 1, _ => .error .unfinished
  | turns + 1, edgeLimit + 1, combiner => do
      let (row, _, combiner) ← combiner.next refill fuel ⟨⟩
      match row with
      | none => return ([], combiner)
      | some (_, record) =>
        if visibleSeq < record.committedSeq then
          boundEdgesFrom refill visibleSeq fuel turns (edgeLimit + 1) combiner
        else
          let combiner := combiner.seek (slotEdgeEnd record)
          if record.isBound then
            let (bound, combiner) ←
              boundEdgesFrom refill visibleSeq fuel turns edgeLimit combiner
            return (record :: bound, combiner)
          else boundEdgesFrom refill visibleSeq fuel turns (edgeLimit + 1) combiner

namespace MetadataViewSession

def tailDirentryBinds (session : MetadataViewSession) (parentInodeId : InodeId)
    (lowerBound : String) : List (String × DirentryBindingRecord) :=
  let records := session.rowStates.flatten.filter fun record => record.parentInodeId = parentInodeId
  let rows := (records.map keyedBinding).filter fun row =>
    decide (utf8 lowerBound ≤ rowKeyBytes row)
  rows.insertionSort fun left right => rowKeyBytes left ≤ rowKeyBytes right

def direntryBindsPage (session : MetadataViewSession) (parentInodeId : InodeId)
    (lowerBound : String) (limit : Nat) :
    Except CoreError (List (String × DirentryBindingRecord)) :=
  (scanRange session.admits (runsNewestFirst session.manifest)
    ((LookupPrefix.direntryParent parentInodeId).scanFrom (direntryParentProbe parentInodeId)
      lowerBound) limit).mapM fun stored => do
    let record ← direntryBindingFromManifestRow stored.2
    return (stored.1, record)

def refill (session : MetadataViewSession) (parentInodeId : InodeId) (edgeLimit : Nat) :
    Refill PUnit DirentryBindingRecord :=
  fun reads lowerBound => do
    let rows ← session.direntryBindsPage parentInodeId lowerBound
      (max edgeLimit directoryPageRawScanLimit)
    return ({ rows, more := !rows.isEmpty }, reads)

def nextBoundEdges (session : MetadataViewSession) (parentInodeId : InodeId)
    (edgeLimit fuel : Nat) (combiner : ManifestTailCombiner DirentryBindingRecord) :
    Except CoreError (List DirentryBindingRecord × ManifestTailCombiner DirentryBindingRecord) :=
  boundEdgesFrom (session.refill parentInodeId edgeLimit) session.visibleSeq fuel fuel edgeLimit
    combiner

def preloadEdgeVisibility (session : MetadataViewSession) (parentInodeId : InodeId)
    (bound : List DirentryBindingRecord) : MetadataViewSession :=
  { session with
    reads := bound.foldl (MetadataVisibilityReads.seedEdge parentInodeId) session.reads }

def fillChildren (parentInodeId : InodeId) (fuel : Nat) :
    Nat → Nat → MetadataViewSession → ManifestTailCombiner DirentryBindingRecord →
      Except ViewError (List DirentryBindingRecord × MetadataViewSession)
  | _, 0, session, _ => .ok ([], session)
  | 0, _ + 1, _, _ => .error (.core .unfinished)
  | turns + 1, limit + 1, session, combiner => do
      let (bound, combiner) ←
        (session.nextBoundEdges parentInodeId (limit + 1) fuel combiner).mapError .core
      if bound.isEmpty then return ([], session)
      else
        let session := session.preloadEdgeVisibility parentInodeId bound
        let shown ← (visiblePageChildren session.reads bound).mapError .visiblePath
        let (children, session) ←
          fillChildren parentInodeId fuel turns (limit + 1 - shown.length) session combiner
        return (shown ++ children, session)

/-- The key that a page's scan starts at. -/
def childrenLowerBound (parentInodeId : InodeId) : Option NameKey → String
  | some nameKey => prefixEnd (.direntryBind parentInodeId nameKey)
  | none => direntryParentPrefix parentInodeId

def visibleChildrenPageByNameKey (session : MetadataViewSession) (parentInodeId : InodeId)
    (startAfterNameKey : Option NameKey) (limit fuel : Nat) :
    Except ViewError (List DirentryBindingRecord × MetadataViewSession) := do
  if limit = 0 then return ([], session)
  else
    match ← (session.reads.visibleInode parentInodeId).mapError .visiblePath with
    | none => return ([], session)
    | some parent =>
      if parent.inodeKind ≠ .directory then return ([], session)
      else
        let lowerBound := childrenLowerBound parentInodeId startAfterNameKey
        fillChildren parentInodeId fuel fuel limit session
          (.start lowerBound (session.tailDirentryBinds parentInodeId lowerBound)
            .manifestFirst)

end MetadataViewSession

def childrenPages (parentInodeId : InodeId) (fuel : Nat) :
    Option NameKey → List (MetadataViewSession × Nat) →
      Except ViewError (List DirentryBindingRecord)
  | _, [] => .ok []
  | startAfter, (session, limit) :: requests => do
      let (children, _) ←
        session.visibleChildrenPageByNameKey parentInodeId startAfter limit fuel
      let last := (children.getLast?.map DirentryBindingRecord.nameKey).or startAfter
      let later ← childrenPages parentInodeId fuel last requests
      return children ++ later

namespace DirentryBindingRecord

def edgeBytes (record : DirentryBindingRecord) : InodeId ×ₗ Bytes ×ₗ InodeId :=
  toLex (record.parentInodeId, toLex (utf8 record.nameKey, record.childInodeId))

theorem edgeBytes_eq_iff {left right : DirentryBindingRecord} :
    left.edgeBytes = right.edgeBytes ↔ left.edge = right.edge := by
  simp [edgeBytes, edge, utf8_injective.eq_iff]

end DirentryBindingRecord

/-- The fields of the binding are values of the source's types. -/
def BindingInRange (record : DirentryBindingRecord) : Prop :=
  (MetadataRow.direntryBinding record).InRange

def keyedRow (record : DirentryBindingRecord) (inRange : BindingInRange record) :
    KeyedRow .direntryBinds :=
  ⟨.direntryBinding record, _, (keyedBinding record).1, rfl, inRange, rfl⟩

theorem keyedBinding_lt_iff (leftInRange : BindingInRange left)
    (rightInRange : BindingInRange right) :
    rowKeyBytes (keyedBinding left) < rowKeyBytes (keyedBinding right) ↔
      left.edgeBytes < right.edgeBytes ∨
        (left.edgeBytes = right.edgeBytes ∧ right.position < left.position) := by
  have keys := (keyedRow left leftInRange).key_lt_iff (keyedRow right rightInRange)
  change rowKeyBytes (keyedBinding left) < rowKeyBytes (keyedBinding right) ↔ _ at keys
  rw [keys, DeltaPosition.lt_iff, keyedRow, keyedRow, DirentryBindingRecord.edgeBytes,
    DirentryBindingRecord.edgeBytes, DirentryBindingRecord.position, DirentryBindingRecord.position]
  change (toLex (left.parentInodeId, toLex (utf8 left.nameKey, toLex (left.childInodeId,
      toLex (OrderDual.toDual left.committedSeq, OrderDual.toDual left.deltaIndex)))) :
        InodeId ×ₗ Bytes ×ₗ InodeId ×ₗ ChangeSeqᵒᵈ ×ₗ Natᵒᵈ) <
    toLex (right.parentInodeId, toLex (utf8 right.nameKey, toLex (right.childInodeId,
      toLex (OrderDual.toDual right.committedSeq, OrderDual.toDual right.deltaIndex)))) ↔ _
  simp only [Prod.Lex.toLex_lt_toLex, toLex_inj, Prod.mk.injEq, toDual_lt_toDual,
    toDual_inj, eq_comm (a := right.committedSeq), and_or_left, or_assoc, and_assoc]

theorem keyedBinding_inj (leftInRange : BindingInRange left) (rightInRange : BindingInRange right)
    (same : rowKeyBytes (keyedBinding left) = rowKeyBytes (keyedBinding right)) :
    left.position = right.position := by
  have keys := ((keyedRow left leftInRange).key_eq_iff (keyedRow right rightInRange)).mp
    (utf8_injective same)
  have parts := toLex_pair_inj (toLex_pair_inj (toLex_pair_inj (toLex_pair_inj keys).2).2).2
  exact congrArg₂ DeltaPosition.mk (toDual_inj.mp parts.1)
    (toDual_inj.mp parts.2)

theorem slotEdgeEnd_le_iff (inRange : BindingInRange record) (laterInRange : BindingInRange later)
    (after : rowKeyBytes (keyedBinding record) < rowKeyBytes (keyedBinding later)) :
    utf8 (slotEdgeEnd record) ≤ rowKeyBytes (keyedBinding later) ↔ later.edge ≠ record.edge := by
  have edgeInRange : (slotEdge record).InRange := ⟨inRange.1, inRange.2.1⟩
  have range (other : DirentryBindingRecord) (otherInRange : BindingInRange other) :
      utf8 (slotEdge record).text ≤ rowKeyBytes (keyedBinding other) ∧
        rowKeyBytes (keyedBinding other) < utf8 (slotEdgeEnd record) ↔
      (slotEdge record).Selects (.direntryBinding other) :=
    LookupPrefix.mem_edge_iff edgeInRange otherInRange rfl rfl
  have reached := ((range record inRange).mpr ⟨rfl, rfl, rfl⟩).1
  rw [← not_lt, not_iff_not]
  have within := range later laterInRange
  have past := reached.trans after.le
  constructor
  · intro below
    obtain ⟨sameParent, sameName, sameChild⟩ := within.mp ⟨past, below⟩
    rw [DirentryBindingRecord.edge, sameParent, sameName, sameChild]
    rfl
  · intro same
    rw [DirentryBindingRecord.edge, DirentryBindingRecord.edge, DirectoryEdge.mk.injEq] at same
    exact (within.mpr same).2

def boundEdges (seq : ChangeSeq) (rows : List (String × DirentryBindingRecord)) :
    List DirentryBindingRecord :=
  (firstSelected (fun record => decide (record.committedSeq ≤ seq))
    DirentryBindingRecord.edgeBytes none (rows.map Prod.snd)).filter DirentryBindingRecord.isBound

def AreKeyed (rows : List (String × DirentryBindingRecord)) : Prop :=
  ∀ row ∈ rows, row = keyedBinding row.2 ∧ BindingInRange row.2

section

theorem AreKeyed.groupSorted (keyed : AreKeyed rows) (ordered : Ordered rowKeyBytes rows) :
    GroupSorted (·.edgeBytes) (·.position) (rows.map Prod.snd) := by
  apply pairwise_map.mpr
  apply List.Pairwise.imp_of_mem _ ordered
  intro left right isLeft isRight less
  rw [(keyed left isLeft).1, (keyed right isRight).1] at less
  exact (keyedBinding_lt_iff (keyed left isLeft).2 (keyed right isRight).2).mp less

theorem boundEdges_of_hidden (hidden : seq < row.2.committedSeq) :
    boundEdges seq (row :: rows) = boundEdges seq rows := by
  rw [boundEdges, map_cons, firstSelected, if_pos (.inr (by simpa using hidden))]
  rfl

/-- Past an edge's value, the edges that are left are those of the rows from the edge's
end on. -/
theorem boundEdges_of_visible (keyed : AreKeyed (row :: rows))
    (ordered : Ordered rowKeyBytes (row :: rows)) (visible : row.2.committedSeq ≤ seq) :
    boundEdges seq (row :: rows) = (if row.2.isBound then [row.2] else []) ++
        boundEdges seq (atOrAfter rowKeyBytes (utf8 (slotEdgeEnd row.2)) rows) := by
  have isKeyed := keyed row mem_cons_self
  have sorted := keyed.groupSorted ordered
  rw [map_cons] at sorted
  have passed : ∀ later ∈ rows.map Prod.snd, row.2.edgeBytes ≤ later.edgeBytes :=
    fun later mem => sorted.group_le mem
  have past : ((rows.map Prod.snd).filter fun later => later.edge ≠ row.2.edge) =
      (atOrAfter rowKeyBytes (utf8 (slotEdgeEnd row.2)) rows).map Prod.snd := by
    rw [filter_map, atOrAfter]
    apply congrArg
    apply filter_congr
    intro later mem
    have laterKeyed := keyed later (mem_cons_of_mem _ mem)
    have less := ordered.head_lt mem
    rw [isKeyed.1, laterKeyed.1] at less
    have ends := slotEdgeEnd_le_iff isKeyed.2 laterKeyed.2 less
    rw [← laterKeyed.1] at ends
    rw [Function.comp_apply, Bool.eq_iff_iff, decide_eq_true_iff, decide_eq_true_iff, ends]
  have otherEdge (later : DirentryBindingRecord) :
      decide (later.edge ≠ row.2.edge) = true ↔ later.edgeBytes ≠ row.2.edgeBytes := by
    rw [decide_eq_true_iff, ne_eq, ne_eq, DirentryBindingRecord.edgeBytes_eq_iff]
  rw [boundEdges, map_cons, firstSelected, if_neg (by simp [visible]),
    firstSelected_past otherEdge (pairwise_cons.mp sorted).2 passed, past, filter_cons]
  split <;> rfl

end

structure Refill.Pages (rows : List (String × Row)) (starts : String → Prop)
    (refill : Refill PUnit Row) : Prop where
  ordered : Ordered rowKeyBytes rows
  pageStarts : ManifestTailCombiner.PageStarts rows starts
  page : ∀ lowerBound, starts lowerBound → ∃ pageRows, 0 < pageRows ∧
    refill ⟨⟩ lowerBound = pagesOf rows pageRows ⟨⟩ lowerBound

structure ScansEdges (rows : List (String × DirentryBindingRecord)) (starts : String → Prop)
    (combiner : ManifestTailCombiner DirentryBindingRecord)
    (left : List (String × DirentryBindingRecord)) : Prop where
  leaves : combiner.Leaves rows left
  resumes : combiner.ResumesIn starts
  keyed : AreKeyed left
  ends : ∀ row ∈ left, starts (slotEdgeEnd row.2)

namespace ScansEdges

section

variable (scans : ScansEdges rows starts combiner left)

include scans

theorem ordered : Ordered rowKeyBytes left := scans.leaves.isUnion.ordered

theorem next (pages : refill.Pages rows starts) (enough : 2 * combiner.size rows + 1 < fuel) :
    ∃ combiner', combiner.next refill fuel ⟨⟩ = .ok (left.head?, ⟨⟩, combiner') ∧
      ScansEdges rows starts combiner' left.tail ∧ combiner'.size rows ≤ combiner.size rows := by
  have atMost := combiner.awaitsPage_le
  have delivers : ∀ reads lowerBound page reads', starts lowerBound →
      refill reads lowerBound = .ok (page, reads') → page.Delivers rows lowerBound := by
    intro reads lowerBound page reads' isStart read
    obtain ⟨pageRows, positive, isPage⟩ := pages.page lowerBound isStart
    exact pagesOf_delivers rows positive ⟨⟩ lowerBound page reads' (isPage ▸ read)
  have inTime : 2 * combiner.size rows + combiner.awaitsPage < fuel := by omega
  rcases scans.leaves.next pages.ordered starts pages.pageStarts delivers ⟨⟩ scans.resumes
      inTime with ⟨error, reads, lowerBound, isStart, fails, _⟩ |
      ⟨reads, combiner', result, leaves, resumes, le⟩
  · obtain ⟨pageRows, _, isPage⟩ := pages.page lowerBound isStart
    have noError := fails
    rw [isPage] at noError
    cases noError
  · refine ⟨combiner', result, ⟨leaves, resumes, ?_, ?_⟩, le⟩
    · exact fun row mem => scans.keyed row (mem_of_mem_tail mem)
    · exact fun row mem => scans.ends row (mem_of_mem_tail mem)

theorem seek (isStart : starts lower) : ScansEdges rows starts (combiner.seek lower)
      (atOrAfter rowKeyBytes (utf8 lower) left) where
  leaves := scans.leaves.seek lower
  resumes := scans.resumes.seek isStart
  keyed row member := scans.keyed row (mem_atOrAfter.mp member).1
  ends row member := scans.ends row (mem_atOrAfter.mp member).1

end

theorem boundEdgesFrom_spec (pages : refill.Pages rows starts) (seq : ChangeSeq) (edgeLimit : Nat)
    (scans : ScansEdges rows starts combiner left) (enough : 2 * combiner.size rows + 1 < fuel)
    (inTime : left.length < turns) : ∃ bound combiner' left',
      boundEdgesFrom refill seq fuel turns edgeLimit combiner = .ok (bound, combiner') ∧
      ScansEdges rows starts combiner' left' ∧ combiner'.size rows ≤ combiner.size rows ∧
      boundEdges seq left = bound ++ boundEdges seq left' ∧ bound.length ≤ edgeLimit ∧
      (bound.length = edgeLimit ∨ boundEdges seq left' = []) ∧
      left'.length + bound.length ≤ left.length := by
  induction turns generalizing edgeLimit combiner left with
  | zero => omega
  | succ turns induction =>
    cases edgeLimit with
    | zero => exact ⟨[], combiner, left, rfl, scans, le_rfl, rfl, le_rfl, .inl rfl, by simp⟩
    | succ edgeLimit =>
      obtain ⟨next, isNext, nextScans, nextSize⟩ := scans.next pages enough
      rw [boundEdgesFrom, isNext]
      cases left with
      | nil => exact ⟨[], next, [], rfl, nextScans, nextSize, rfl, by simp, .inr rfl, le_rfl⟩
      | cons row rest =>
        rw [length_cons] at inTime
        dsimp only [ok_bind, List.head?_cons, tail_cons] at nextScans ⊢
        by_cases hidden : seq < row.2.committedSeq
        · rw [if_pos hidden]
          obtain ⟨bound, last, left', isBound, lastScans, size, split, few, done, shorter⟩ :=
            induction (edgeLimit + 1) nextScans (by omega) (by omega)
          refine ⟨bound, last, left', isBound, lastScans, by omega, ?_, few, done, ?_⟩
          · rw [boundEdges_of_hidden hidden, split]
          · rw [length_cons]
            omega
        · rw [if_neg hidden]
          have edges := boundEdges_of_visible scans.keyed scans.ordered (not_lt.mp hidden)
          have isStart := scans.ends row mem_cons_self
          have sought := nextScans.seek isStart
          have soughtSize := ManifestTailCombiner.size_seek nextScans.leaves
            (slotEdgeEnd row.2)
          have fewer : (atOrAfter rowKeyBytes (utf8 (slotEdgeEnd row.2)) rest).length ≤
              rest.length := length_filter_le _ _
          by_cases isBound : row.2.isBound = true
          · rw [if_pos isBound] at edges ⊢
            obtain ⟨bound, last, left', result, lastScans, size, split, few, done, shorter⟩ :=
              induction edgeLimit sought (by omega) (by omega)
            refine ⟨row.2 :: bound, last, left', ?_, lastScans, by omega, ?_, ?_, ?_, ?_⟩
            · rw [result]
              rfl
            · rw [edges, split]
              rfl
            · rw [length_cons]
              omega
            · rw [length_cons]
              exact done.imp_left (congrArg (· + 1))
            · rw [length_cons, length_cons]
              omega
          · rw [if_neg isBound] at edges ⊢
            obtain ⟨bound, last, left', result, lastScans, size, split, few, done, shorter⟩ :=
              induction (edgeLimit + 1) sought (by omega) (by omega)
            refine ⟨bound, last, left', result, lastScans, by omega, ?_, few, done, ?_⟩
            · rw [edges, split]
              rfl
            · rw [length_cons]
              omega

end ScansEdges

end LoonFs
