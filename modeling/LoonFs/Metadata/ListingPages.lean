import LoonFs.Execution
import LoonFs.Metadata.ChildrenPage

/-! # Pages that follow each other -/

namespace LoonFs

open Foundation LookupKeys
open List

structure MetadataVisibilityReads.SameWalks (reads base : MetadataVisibilityReads) : Prop where
  inode : reads.findInode = base.findInode
  parent : reads.parentOf = base.parentOf
  deletion : reads.findHidingSubtreeTombstone = base.findHidingSubtreeTombstone
  budget : reads.walkBudget = base.walkBudget

namespace MetadataVisibilityReads.SameWalks

variable {reads base : MetadataVisibilityReads}

section

variable (same : reads.SameWalks base)

include same

theorem covered_iff (inodeId : InodeId) : reads.Covered inodeId ↔ base.Covered inodeId := by
  rw [Covered, Covered, same.parent, same.deletion]

theorem walkable (walkable : base.Walkable) : reads.Walkable := by
  constructor
  · rw [same.parent]
    exact walkable.acyclic
  · rw [same.parent, same.budget]
    exact walkable.enough

theorem seedEdge (parentInodeId : InodeId) {binding : DirentryBindingRecord}
    (isBound : binding.isBound = true)
    (parent : base.parentOf binding.childInodeId = some binding.parentInodeId) :
    (reads.seedEdge parentInodeId binding).SameWalks base where
  inode := same.inode
  deletion := same.deletion
  budget := same.budget
  parent := by
    rw [← same.parent] at parent ⊢
    funext node
    by_cases isChild : node = binding.childInodeId
    · subst isChild
      rw [parent]
      by_cases isRoot : binding.childInodeId = rootInodeId
      · simp [parentOf, currentParentBindingForChild, isRoot] at parent
      · simp [parentOf, currentParentBindingForChild, MetadataVisibilityReads.seedEdge, isRoot,
          isBound]
    · simp [parentOf, currentParentBindingForChild, MetadataVisibilityReads.seedEdge, isChild]

theorem seedEdges (parentInodeId : InodeId) {bound : List DirentryBindingRecord}
    (isBound : ∀ binding ∈ bound, binding.isBound = true)
    (parent : ∀ binding ∈ bound, base.parentOf binding.childInodeId = some binding.parentInodeId) :
    (bound.foldl (MetadataVisibilityReads.seedEdge parentInodeId) reads).SameWalks base := by
  induction bound generalizing reads with
  | nil => exact same
  | cons binding rest induction =>
    apply induction
    · exact same.seedEdge parentInodeId (isBound binding mem_cons_self)
        (parent binding mem_cons_self)
    · exact fun later mem => isBound later (mem_cons_of_mem _ mem)
    · exact fun later mem => parent later (mem_cons_of_mem _ mem)

end

end MetadataVisibilityReads.SameWalks

open Classical in
theorem visiblePageChildren_eq {reads : MetadataVisibilityReads} (walkable : reads.Walkable)
    (bound : List DirentryBindingRecord) :
    visiblePageChildren reads bound = .ok (bound.filter fun row => FamilyRows.Shows reads row) := by
  induction bound with
  | nil => rfl
  | cons binding rest induction =>
    rw [visiblePageChildren, induction, filter_cons]
    rcases MetadataVisibilityReads.visiblePageChild_cases walkable binding with
      ⟨result, shown⟩ | ⟨result, hidden⟩
    · have shows : FamilyRows.Shows reads binding := shown
      rw [result, if_pos (decide_eq_true shows)]
      rfl
    · have skipped : ¬decide (FamilyRows.Shows reads binding) = true := by
        rw [decide_eq_true_eq]
        exact hidden
      rw [result, if_neg skipped]
      rfl

namespace MetadataViewSession

def InView (session : MetadataViewSession) (record : DirentryBindingRecord) : Prop :=
  record ∈ session.rowStates.flatten ∨
    ∃ run ∈ session.manifest.runs, ∃ segment ∈ run.segments,
      segment.family = .direntryBinds ∧ .direntryBinding record ∈ segment.rows

/-- The session reads a history at a sequence, with rows and lookups of the history. -/
structure Views (session : MetadataViewSession) (state : MetadataState)
    (seq floor : ChangeSeq) : Prop where
  visibleSeq : session.visibleSeq = seq
  carries : Carries state session.manifest .direntryBinds
  admitsRows : AdmitsRows session.admits session.manifest.runs
  tailHeld : ∀ record ∈ session.rowStates.flatten,
    record ∈ state.direntryBinds ∧ BindingInRange record
  tailOnce : session.rowStates.flatten.Nodup
  values : ∀ edge value, (state.snapshotAt seq).edge edge = some value →
    session.InView value ∨ value.isBound = false ∧
      ∀ record, session.InView record → record.edge = edge → seq < record.committedSeq
  sameWalks : session.reads.SameWalks (state.familyRows.readsAt seq floor)

end MetadataViewSession

section

variable {state : MetadataState} {session : MetadataViewSession} {record : DirentryBindingRecord}

theorem MetadataViewSession.Views.held (views : session.Views state seq floor)
    (inView : session.InView record) : record ∈ state.direntryBinds ∧ BindingInRange record := by
  rcases inView with inTail | ⟨run, isRun, segment, isSegment, family, isRow⟩
  · exact views.tailHeld record inTail
  · obtain ⟨held, inRange, _⟩ := views.carries run isRun segment isSegment family _ isRow
    exact ⟨held, inRange⟩

theorem Reachable.keyedBinding_inj (reachable : Reachable policy history state)
    (leftHeld : left ∈ state.direntryBinds) (rightHeld : right ∈ state.direntryBinds)
    (leftInRange : BindingInRange left) (rightInRange : BindingInRange right)
    (same : rowKeyBytes (keyedBinding left) = rowKeyBytes (keyedBinding right)) : left = right :=
  reachable.settled.ordered.binds.keysDistinct left leftHeld right rightHeld
    (LoonFs.keyedBinding_inj leftInRange rightInRange same)

/-! ## The manifest's pages -/

def storedBinding (row : String × DirentryBindingRecord) : StoredRow :=
  (row.1, .direntryBinding row.2)

theorem storedBinding_injective : Function.Injective storedBinding := by
  intro left right same
  have parts := Prod.mk.inj same
  exact Prod.ext parts.1 (MetadataRow.direntryBinding.inj parts.2)

theorem ordered_storedBinding_iff {rows : List (String × DirentryBindingRecord)} :
    Ordered StoredRow.keyBytes (rows.map storedBinding) ↔ Ordered rowKeyBytes rows := by
  rw [Ordered, pairwise_map]
  rfl

theorem mapM_storedBinding (rows : List (String × DirentryBindingRecord)) :
    ((rows.map storedBinding).mapM fun stored => do
      let record ← direntryBindingFromManifestRow stored.2
      return (stored.1, record)) = (Except.ok rows : Except CoreError _) := by
  induction rows with
  | nil => rfl
  | cons row rest induction =>
    rw [map_cons, mapM_cons, induction]
    rfl

theorem contains_parent_iff (inRange : parentInodeId < 2 ^ 128)
    (recordInRange : BindingInRange record) (filterProbe : String) :
    ((LookupPrefix.direntryParent parentInodeId).scanFrom filterProbe
        (direntryParentPrefix parentInodeId)).Contains (keyedBinding record).1 ↔
      record.parentInodeId = parentInodeId := by
  obtain ⟨upper, isUpper, between⟩ :=
    (LookupPrefix.direntryParent parentInodeId).exists_range inRange
  have selects := between (keyedRow record recordInRange)
  change utf8 (direntryParentPrefix parentInodeId) ≤ utf8 (keyedBinding record).1 ∧
    utf8 (keyedBinding record).1 < utf8 upper ↔ record.parentInodeId = parentInodeId at selects
  rw [← selects]
  constructor
  · intro ⟨atOrAfter, below⟩
    exact ⟨atOrAfter, below upper isUpper⟩
  · intro ⟨atOrAfter, below⟩
    refine ⟨atOrAfter, fun other isOther => ?_⟩
    cases isUpper.symm.trans isOther
    exact below

theorem MetadataViewSession.Views.mem_manifestRows_iff (views : session.Views state seq floor)
    (inRange : parentInodeId < 2 ^ 128) (row : String × DirentryBindingRecord) :
    storedBinding row ∈ rangeRows ((runsNewestFirst session.manifest).flatMap
        (MetadataRunRef.familySegments (LookupPrefix.direntryParent parentInodeId).family))
        ((LookupPrefix.direntryParent parentInodeId).scanFrom (direntryParentProbe parentInodeId)
          (LookupPrefix.direntryParent parentInodeId).text) ↔
      row = keyedBinding row.2 ∧ row.2.parentInodeId = parentInodeId ∧
        ∃ run ∈ session.manifest.runs, ∃ segment ∈ run.segments,
          segment.family = .direntryBinds ∧ .direntryBinding row.2 ∈ segment.rows := by
  rw [mem_rangeRows, flatMap_assoc, mem_flatMap]
  constructor
  · intro ⟨⟨run, isRun, isStored⟩, inside⟩
    obtain ⟨segment, isSegment, family, isStored⟩ := MetadataRunRef.mem_storedRows.mp isStored
    obtain ⟨isRow, isKey⟩ := MetadataSegmentRef.mem_storedRows.mp isStored
    have inManifest := mem_runsNewestFirst.mp isRun
    obtain ⟨_, rowInRange, _⟩ := views.carries run inManifest segment isSegment family _ isRow
    rw [family] at isKey
    have keyed : row = keyedBinding row.2 := Prod.ext (Option.some.inj isKey).symm rfl
    refine ⟨keyed, ?_, run, inManifest, segment, isSegment, family, isRow⟩
    apply (contains_parent_iff inRange rowInRange (direntryParentProbe parentInodeId)).mp
    rw [← keyed]
    exact inside
  · intro ⟨keyed, sameParent, run, isRun, segment, isSegment, family, isRow⟩
    obtain ⟨_, rowInRange, _⟩ := views.carries run isRun segment isSegment family _ isRow
    refine ⟨⟨run, mem_runsNewestFirst.mpr isRun, ?_⟩, ?_⟩
    · refine MetadataRunRef.mem_storedRows.mpr ⟨segment, isSegment, family,
        MetadataSegmentRef.mem_storedRows.mpr ⟨isRow, ?_⟩⟩
      rw [family]
      exact congrArg some (Prod.ext_iff.mp keyed).1.symm
    · have inside := (contains_parent_iff inRange rowInRange
        (direntryParentProbe parentInodeId)).mpr sameParent
      rw [← keyed] at inside
      exact inside

theorem MetadataViewSession.Views.exists_manifestRows (views : session.Views state seq floor)
    (reachable : Reachable policy history state) (inRange : parentInodeId < 2 ^ 128) :
    ∃ rows : List (String × DirentryBindingRecord),
      (∀ edgeLimit, (session.refill parentInodeId edgeLimit).Pages rows
        (LookupPrefix.direntryParent parentInodeId).StartsAt) ∧
      ∀ row, row ∈ rows ↔ row = keyedBinding row.2 ∧ row.2.parentInodeId = parentInodeId ∧
        ∃ run ∈ session.manifest.runs, ∃ segment ∈ run.segments,
          segment.family = .direntryBinds ∧ .direntryBinding row.2 ∈ segment.rows := by
  let lookup := LookupPrefix.direntryParent parentInodeId
  let stored (bound : String) :=
    rangeRows ((runsNewestFirst session.manifest).flatMap
      (MetadataRunRef.familySegments lookup.family))
      (lookup.scanFrom (direntryParentProbe parentInodeId) bound)
  have carries : Carries state session.manifest lookup.family := views.carries
  have subset : ∀ run ∈ runsNewestFirst session.manifest, run ∈ session.manifest.runs :=
    fun run isRun => mem_runsNewestFirst.mp isRun
  have sorted {bound : String} (starts : lookup.StartsAt bound) :
      Ordered StoredRow.keyBytes (stored bound) :=
    rangeRows_sorted _ carries reachable starts subset
  have areBindings : ∀ row ∈ stored lookup.text, row ∈ Set.range storedBinding := by
    intro row mem
    obtain ⟨keyed, isRow, _, _⟩ := carries.keyed (mem_rowsUnder_of_range .first subset mem).1
    have inFamily := keyed.inFamily
    obtain ⟨key, isBinding⟩ := row
    cases isBinding with
    | direntryBinding record => exact ⟨(key, record), rfl⟩
    | _ =>
      rw [isRow] at inFamily
      cases inFamily
  obtain ⟨rows, isRows⟩ : stored lookup.text ∈ Set.range (List.map storedBinding) := by
    rw [Set.range_list_map]
    exact areBindings
  have ordered : Ordered rowKeyBytes rows := by
    have mapped := sorted .first
    rw [← isRows] at mapped
    exact ordered_storedBinding_iff.mp mapped
  refine ⟨rows, fun edgeLimit => ⟨ordered, ?_, ?_⟩, ?_⟩
  · intro bound starts row _ atOrAfter
    exact .afterRow starts atOrAfter
  · intro bound starts
    refine ⟨max edgeLimit directoryPageRawScanLimit, by simp [directoryPageRawScanLimit], ?_⟩
    have fromBound : stored bound =
        (atOrAfter rowKeyBytes (utf8 bound) rows).map storedBinding := by
      apply (sorted starts).ext (ordered_storedBinding_iff.mpr (ordered.atOrAfter (utf8 bound)))
      intro row
      rw [mem_rangeRows, LookupPrefix.contains_iff starts, ← and_assoc]
      have inStored : row ∈ stored lookup.text ↔ row ∈ rows.map storedBinding := by rw [isRows]
      rw [mem_rangeRows, LookupPrefix.contains_iff .first] at inStored
      rw [mem_map]
      constructor
      · intro ⟨⟨inSegments, inside⟩, reached⟩
        obtain ⟨binding, mem, isRow⟩ := mem_map.mp (inStored.mp ⟨inSegments, inside, inside.1⟩)
        subst isRow
        exact ⟨binding, mem_atOrAfter.mpr ⟨mem, reached⟩, rfl⟩
      · rintro ⟨binding, mem, isRow⟩
        subst isRow
        obtain ⟨inRows, reached⟩ := mem_atOrAfter.mp mem
        obtain ⟨inSegments, inside, _⟩ := inStored.mpr (mem_map_of_mem inRows)
        exact ⟨⟨inSegments, inside⟩, reached⟩
    have page : scanRange session.admits (runsNewestFirst session.manifest)
        (lookup.scanFrom (direntryParentProbe parentInodeId) bound)
        (max edgeLimit directoryPageRawScanLimit) =
        (stored bound).take (max edgeLimit directoryPageRawScanLimit) :=
      scanRange_page views.admitsRows (show lookup.InRange from inRange) rfl starts
    rw [fromBound, ← map_take] at page
    rw [MetadataViewSession.refill, MetadataViewSession.direntryBindsPage, page, mapM_storedBinding]
    rfl
  · intro row
    rw [← mem_map_of_injective storedBinding_injective, isRows]
    exact views.mem_manifestRows_iff inRange row

/-! ## Where a page starts -/

def AfterName (startAfter : Option NameKey) (nameKey : NameKey) : Prop :=
  ∀ last, startAfter = some last → utf8 last < utf8 nameKey

theorem parentText_isPrefix (parentInodeId : InodeId) (nameKey : NameKey) :
    utf8 (direntryParentPrefix parentInodeId) <+:
      utf8 (direntryBindPrefix parentInodeId nameKey) := by
  rw [direntryBindPrefix, direntryBindProbe]
  simp only [utf8_append, append_assoc]
  exact prefix_append _ _

theorem edge_startsAt (sameParent : record.parentInodeId = parentInodeId) :
    (LookupPrefix.direntryParent parentInodeId).StartsAt (slotEdgeEnd record) := by
  apply LookupPrefix.startsAt_prefixEnd
  subst sameParent
  change utf8 (direntryParentPrefix record.parentInodeId) <+:
    utf8 (direntryBindEdgePrefix record.parentInodeId record.nameKey record.childInodeId)
  apply (parentText_isPrefix record.parentInodeId record.nameKey).trans
  rw [direntryBindEdgePrefix]
  simp only [utf8_append, append_assoc]
  exact prefix_append _ _

theorem childrenLowerBound_startsAt (startAfter : Option NameKey) :
    (LookupPrefix.direntryParent parentInodeId).StartsAt
      (MetadataViewSession.childrenLowerBound parentInodeId startAfter) := by
  cases startAfter with
  | none => exact .first
  | some nameKey => exact LookupPrefix.startsAt_prefixEnd (parentText_isPrefix _ nameKey)

theorem childrenLowerBound_le_iff (startAfter : Option NameKey)
    (sameParent : record.parentInodeId = parentInodeId) (inRange : BindingInRange record) :
    utf8 (MetadataViewSession.childrenLowerBound parentInodeId startAfter) ≤
        rowKeyBytes (keyedBinding record) ↔ AfterName startAfter record.nameKey := by
  have parentInRange : parentInodeId < 2 ^ 128 := sameParent ▸ inRange.1
  cases startAfter with
  | none =>
    have inside := (contains_parent_iff parentInRange inRange "").mpr sameParent
    exact iff_of_true inside.1 fun last isLast => nomatch isLast
  | some nameKey =>
    -- A binding of the cursor's name lies between the bounds of its slot.
    let atCursor := { record with nameKey }
    have cursorInRange : BindingInRange atCursor := inRange
    let slot := LookupPrefix.direntryBind parentInodeId nameKey
    have range (other : DirentryBindingRecord) (otherInRange : BindingInRange other) :
        utf8 slot.text ≤ rowKeyBytes (keyedBinding other) ∧
          rowKeyBytes (keyedBinding other) < utf8 (prefixEnd slot) ↔
        other.parentInodeId = parentInodeId ∧ other.nameKey = nameKey :=
      LookupPrefix.mem_edge_iff (show slot.InRange from parentInRange) otherInRange rfl rfl
    have cursorInside := (range atCursor cursorInRange).mpr ⟨sameParent, rfl⟩
    change utf8 (prefixEnd slot) ≤ _ ↔ _
    constructor
    · intro past last isLast
      cases isLast
      have less := (keyedBinding_lt_iff cursorInRange inRange).mp (cursorInside.2.trans_le past)
      have notInside : record.nameKey ≠ nameKey := fun same =>
        absurd ((range record inRange).mpr ⟨sameParent, same⟩).2 (not_lt.mpr past)
      rcases less with less | ⟨same, _⟩
      · rcases Prod.Lex.toLex_lt_toLex.mp less with irreflexive | ⟨_, less⟩
        · exact absurd irreflexive (lt_irrefl _)
        · rcases Prod.Lex.toLex_lt_toLex.mp less with less | ⟨same, _⟩
          · exact less
          · exact absurd (utf8_injective same).symm notInside
      · have sameName := (DirentryBindingRecord.edge_eq_iff.mp
          (DirentryBindingRecord.edgeBytes_eq_iff.mp same)).1
        exact absurd (Prod.ext_iff.mp sameName).2.symm notInside
    · intro after
      have less := after nameKey rfl
      have keyLess : rowKeyBytes (keyedBinding atCursor) < rowKeyBytes (keyedBinding record) :=
        (keyedBinding_lt_iff cursorInRange inRange).mpr (.inl
          (toLex_lt_of_eq rfl (toLex_lt_of_lt less)))
      by_contra below
      have inside := (range record inRange).mp
        ⟨cursorInside.1.trans keyLess.le, not_le.mp below⟩
      rw [inside.2] at less
      exact absurd less (lt_irrefl _)

/-! ## The rows of a page's scan -/

theorem MetadataViewSession.Views.tail_ordered (views : session.Views state seq floor)
    (reachable : Reachable policy history state) (lower : String) :
    Ordered rowKeyBytes (session.tailDirentryBinds parentInodeId lower) := by
  let records := session.rowStates.flatten.filter fun record => record.parentInodeId = parentInodeId
  have recordsOnce : records.Pairwise fun left right =>
      rowKeyBytes (keyedBinding left) ≠ rowKeyBytes (keyedBinding right) := by
    have once : records.Nodup := views.tailOnce.filter _
    apply List.Pairwise.imp_of_mem _ once
    intro left right isLeft isRight ne same
    have leftHeld := views.tailHeld left (mem_of_mem_filter isLeft)
    have rightHeld := views.tailHeld right (mem_of_mem_filter isRight)
    exact ne (reachable.keyedBinding_inj leftHeld.1 rightHeld.1 leftHeld.2 rightHeld.2 same)
  have keyedApart : (records.map keyedBinding).Pairwise fun left right =>
      rowKeyBytes left ≠ rowKeyBytes right := pairwise_map.mpr recordsOnce
  have apart := keyedApart.filter fun row => decide (utf8 lower ≤ rowKeyBytes row)
  have sorted : (session.tailDirentryBinds parentInodeId lower).Pairwise
      fun left right => rowKeyBytes left ≤ rowKeyBytes right := pairwise_insertionSort _ _
  have sortedApart : (session.tailDirentryBinds parentInodeId lower).Pairwise
      fun left right => rowKeyBytes left ≠ rowKeyBytes right :=
    ((perm_insertionSort _ _).pairwise_iff fun apart => apart.symm).mpr apart
  exact (sorted.and sortedApart).imp fun less => lt_of_le_of_ne less.1 less.2

theorem mem_tailDirentryBinds : row ∈ session.tailDirentryBinds parentInodeId lower ↔
      row = keyedBinding row.2 ∧ row.2.parentInodeId = parentInodeId ∧
        row.2 ∈ session.rowStates.flatten ∧ utf8 lower ≤ rowKeyBytes row := by
  rw [MetadataViewSession.tailDirentryBinds, mem_insertionSort, mem_filter,
    decide_eq_true_eq, mem_map]
  constructor
  · rintro ⟨⟨record, mem, isRow⟩, reached⟩
    subst isRow
    obtain ⟨inTail, sameParent⟩ := mem_filter.mp mem
    exact ⟨rfl, of_decide_eq_true sameParent, inTail, reached⟩
  · intro ⟨keyed, sameParent, inTail, reached⟩
    exact ⟨⟨row.2, mem_filter.mpr ⟨inTail, decide_eq_true sameParent⟩, keyed.symm⟩, reached⟩

theorem MetadataViewSession.Views.exists_scan (views : session.Views state seq floor)
    (reachable : Reachable policy history state) (inRange : parentInodeId < 2 ^ 128)
    (startAfter : Option NameKey) : ∃ rows left : List (String × DirentryBindingRecord),
      (∀ edgeLimit, (session.refill parentInodeId edgeLimit).Pages rows
        (LookupPrefix.direntryParent parentInodeId).StartsAt) ∧
      ScansEdges rows (LookupPrefix.direntryParent parentInodeId).StartsAt
        (.start (childrenLowerBound parentInodeId startAfter)
          (session.tailDirentryBinds parentInodeId
            (childrenLowerBound parentInodeId startAfter)) .manifestFirst) left ∧
      ∀ row, row ∈ left ↔ row = keyedBinding row.2 ∧ session.InView row.2 ∧
        row.2.parentInodeId = parentInodeId ∧ AfterName startAfter row.2.nameKey := by
  obtain ⟨rows, pages, mem⟩ := views.exists_manifestRows reachable inRange
  let lowerBound := childrenLowerBound parentInodeId startAfter
  obtain ⟨left, isUnion, leaves, _⟩ := ManifestTailCombiner.exists_leaves (pages 0).ordered
    (views.tail_ordered reachable lowerBound) lowerBound .manifestFirst
  have inLeft (row : String × DirentryBindingRecord) :
      row ∈ left ↔ row = keyedBinding row.2 ∧ session.InView row.2 ∧
        row.2.parentInodeId = parentInodeId ∧ AfterName startAfter row.2.nameKey := by
    rw [isUnion.mem, InUnion]
    simp only [TieOrder.sides, mem_atOrAfter, mem, mem_tailDirentryBinds, ne_eq,
      reduceCtorEq, not_false_eq_true, and_true]
    constructor
    · rintro (⟨⟨keyed, sameParent, inManifest⟩, reached⟩ |
        ⟨⟨keyed, sameParent, inTail, reached⟩, _⟩)
      · have held := views.held (.inr inManifest)
        rw [keyed] at reached
        exact ⟨keyed, .inr inManifest, sameParent,
          (childrenLowerBound_le_iff startAfter sameParent held.2).mp reached⟩
      · have held := views.held (.inl inTail)
        rw [keyed] at reached
        exact ⟨keyed, .inl inTail, sameParent,
          (childrenLowerBound_le_iff startAfter sameParent held.2).mp reached⟩
    · intro ⟨keyed, inView, sameParent, after⟩
      have held := views.held inView
      have reached := (childrenLowerBound_le_iff startAfter sameParent held.2).mpr after
      rw [← keyed] at reached
      by_cases inManifest : ∃ run ∈ session.manifest.runs, ∃ segment ∈ run.segments,
          segment.family = .direntryBinds ∧ .direntryBinding row.2 ∈ segment.rows
      · exact .inl ⟨⟨keyed, sameParent, inManifest⟩, reached⟩
      · refine .inr ⟨⟨keyed, sameParent, inView.resolve_right inManifest, reached⟩, ?_⟩
        -- The manifest has no row of the key, since the key names one binding.
        intro other ⟨⟨otherKeyed, _, otherIn⟩, _⟩ same
        have otherHeld := views.held (.inr otherIn)
        rw [keyed, otherKeyed] at same
        have sameRecord := reachable.keyedBinding_inj otherHeld.1 held.1 otherHeld.2 held.2 same
        exact inManifest (sameRecord ▸ otherIn)
  refine ⟨rows, left, pages, ⟨leaves, ?_, ?_, ?_⟩, inLeft⟩
  · intro bound isBound
    cases isBound
    exact childrenLowerBound_startsAt startAfter
  · intro row member
    obtain ⟨keyed, inView, _⟩ := (inLeft row).mp member
    exact ⟨keyed, (views.held inView).2⟩
  · intro row member
    exact edge_startsAt ((inLeft row).mp member).2.2.1

/-! ## The children of a directory -/

variable {row : DirentryBindingRecord} (reachable : Reachable policy history state)

include reachable

theorem Reachable.edge_eq_some_iff : (state.snapshotAt seq).edge edge = some row ↔
      (row ∈ state.direntryBinds ∧ row.committedSeq ≤ seq) ∧ row.edge = edge ∧
        ∀ other ∈ state.direntryBinds, other.committedSeq ≤ seq → other.edge = edge →
          other.position ≤ row.position := by
  have distinct : KeysDistinct (·.position) state.familyRows.direntryBinds :=
    reachable.settled.ordered.binds.keysDistinct
  rw [MetadataState.snapshotAt, FamilyRows.snapshotAt_edge,
    newestOf_eq_some_iff (distinct.filter _)]
  simp only [mem_filter, decide_eq_true_eq, and_imp]
  rfl

theorem MetadataViewSession.Views.mem_boundEdges (views : session.Views state seq floor)
    (keyed : AreKeyed left) (ordered : Ordered rowKeyBytes left)
    (inLeft : ∀ row, row ∈ left ↔ row = keyedBinding row.2 ∧ session.InView row.2 ∧
      row.2.parentInodeId = parentInodeId ∧ AfterName startAfter row.2.nameKey)
    (record : DirentryBindingRecord) :
    record ∈ boundEdges seq left ↔ (state.snapshotAt seq).edge record.edge = some record ∧
      record.isBound = true ∧ record.parentInodeId = parentInodeId ∧
        AfterName startAfter record.nameKey := by
  have inRecords (other : DirentryBindingRecord) :
      other ∈ left.map Prod.snd ↔ session.InView other ∧ other.parentInodeId = parentInodeId ∧
        AfterName startAfter other.nameKey := by
    rw [mem_map]
    constructor
    · rintro ⟨row, mem, isOther⟩
      subst isOther
      exact ((inLeft row).mp mem).2
    · intro found
      exact ⟨keyedBinding other, (inLeft _).mpr ⟨rfl, found⟩, rfl⟩
  rw [boundEdges, mem_filter, mem_firstSelected (keyed.groupSorted ordered) (by simp)]
  simp only [inRecords, decide_eq_true_eq, DirentryBindingRecord.edgeBytes_eq_iff]
  constructor
  · rintro ⟨⟨⟨inView, sameParent, after⟩, visible, _, newest⟩, bound⟩
    have held := (views.held inView).1
    refine ⟨?_, bound, sameParent, after⟩
    -- The edge has a value, which the session has as well and which is not newer.
    cases found : (state.snapshotAt seq).edge record.edge with
    | none =>
      rw [MetadataState.snapshotAt, FamilyRows.snapshotAt_edge, newestOf_eq_none_iff] at found
      exact absurd rfl (found record (mem_filter.mpr ⟨held, decide_eq_true visible⟩))
    | some value =>
      obtain ⟨⟨valueHeld, valueVisible⟩, sameEdge, valueNewest⟩ :=
        reachable.edge_eq_some_iff.mp found
      have fields := DirentryBindingRecord.edge_eq_iff.mp sameEdge
      have slot := Prod.ext_iff.mp fields.1
      rcases views.values _ value found with valueIn | ⟨_, hidden⟩
      · have le := newest value ⟨valueIn, slot.1.trans sameParent,
          (show value.nameKey = record.nameKey from slot.2) ▸ after⟩ sameEdge valueVisible
        have ge := valueNewest record held visible rfl
        rw [reachable.settled.ordered.binds.keysDistinct value valueHeld record held
          (le_antisymm le ge)]
      · exact absurd visible (not_le.mpr (hidden record inView rfl))
  · rintro ⟨isValue, bound, sameParent, after⟩
    obtain ⟨⟨held, visible⟩, _, newest⟩ := reachable.edge_eq_some_iff.mp isValue
    have inView : session.InView record := by
      rcases views.values _ record isValue with inView | ⟨unbound, _⟩
      · exact inView
      · rw [bound] at unbound
        cases unbound
    refine ⟨⟨⟨inView, sameParent, after⟩, visible, by simp, ?_⟩, bound⟩
    rintro other ⟨otherIn, _⟩ sameEdge otherVisible
    exact newest other (views.held otherIn).1 otherVisible sameEdge

theorem Reachable.visibleBinding_iff (seq floor : ChangeSeq) :
    (state.familyRows.readsAt seq floor).VisibleBinding parentInodeId row.nameKey row ↔
      (state.familyRows.readsAt seq floor).VisibleDirectory parentInodeId ∧
        (state.snapshotAt seq).edge row.edge = some row ∧ row.parentInodeId = parentInodeId ∧
        FamilyRows.Shows (state.familyRows.readsAt seq floor) row := by
  have consistent := reachable.consistentAt seq
  constructor
  · intro ⟨visible, active, _, clear⟩
    have occupies : (state.snapshotAt seq).occupant (parentInodeId, row.nameKey) = some row :=
      active
    have slot := Prod.ext_iff.mp (consistent.occupant_slot _ _ occupies)
    exact ⟨visible, consistent.occupant_edge _ _ occupies, slot.1,
      (Option.filter_eq_some_iff.mp occupies).2, clear⟩
  · intro ⟨visible, isValue, sameParent, bound, _⟩
    have occupies := consistent.edge_bound _ _ isValue bound
    rw [DirentryBindingRecord.slot, sameParent] at occupies
    exact consistent.visibleBinding_of_occupant floor occupies visible.2

theorem Reachable.parentOf_bound
    (seq floor : ChangeSeq) (isValue : (state.snapshotAt seq).edge row.edge = some row)
    (bound : row.isBound = true) :
    (state.familyRows.readsAt seq floor).parentOf row.childInodeId = some row.parentInodeId := by
  have consistent := reachable.consistentAt seq
  have occupies := consistent.edge_bound _ _ isValue bound
  obtain ⟨event, isEvent, sameSlot, _⟩ := (consistent.copies _ _ occupies).event
  change (state.snapshotAt seq).parent row.childInodeId = some row.parentInodeId
  rw [Snapshot.parent, isEvent]
  exact congrArg some (Prod.ext_iff.mp sameSlot).1

/-! ## One page -/

open Classical in
theorem fillChildren_spec {rows left : List (String × DirentryBindingRecord)}
    {combiner : ManifestTailCombiner DirentryBindingRecord} {fuel turns : Nat} (limit : Nat)
    {session : MetadataViewSession} (views : session.Views state seq floor)
    (pages : ∀ edgeLimit, (session.refill parentInodeId edgeLimit).Pages rows
      (LookupPrefix.direntryParent parentInodeId).StartsAt)
    (scans : ScansEdges rows (LookupPrefix.direntryParent parentInodeId).StartsAt combiner left)
    (areValues : ∀ record ∈ boundEdges seq left,
      (state.snapshotAt seq).edge record.edge = some record)
    (enough : 2 * combiner.size rows + 1 < fuel) (shorter : left.length < fuel)
    (inTime : left.length < turns) :
    ∃ session', MetadataViewSession.fillChildren parentInodeId fuel turns limit session combiner =
        .ok (((boundEdges seq left).filter fun row =>
          FamilyRows.Shows (state.familyRows.readsAt seq floor) row).take limit, session') ∧
      session'.Views state seq floor := by
  have consistent := reachable.consistentAt seq
  induction turns generalizing limit left combiner session with
  | zero => omega
  | succ turns induction =>
    cases limit with
    | zero => exact ⟨session, rfl, views⟩
    | succ limit =>
      obtain ⟨bound, next, left', isBound, nextScans, nextSize, split, few, done, fewer⟩ :=
        ScansEdges.boundEdgesFrom_spec (pages (limit + 1)) seq (limit + 1) scans enough shorter
      have taken : session.nextBoundEdges parentInodeId (limit + 1) fuel combiner =
          .ok (bound, next) := by
        rw [MetadataViewSession.nextBoundEdges, views.visibleSeq]
        exact isBound
      rw [MetadataViewSession.fillChildren, taken]
      dsimp only [mapError_ok, ok_bind]
      by_cases isNil : bound = []
      · subst isNil
        have noEdges : boundEdges seq left = [] := by
          rcases done with full | noneLeft
          · cases full
          · rw [split, noneLeft]
            rfl
        rw [noEdges]
        exact ⟨session, rfl, views⟩
      · rw [if_neg (by simpa using isNil)]
        have inBound (binding : DirentryBindingRecord) (mem : binding ∈ bound) :
            binding ∈ boundEdges seq left := by
          rw [split]
          exact mem_append_left _ mem
        have areBound : ∀ binding ∈ bound, binding.isBound = true :=
          fun binding mem => (mem_filter.mp (inBound binding mem)).2
        have sameWalks := views.sameWalks.seedEdges parentInodeId areBound
          fun binding mem => reachable.parentOf_bound seq floor
            (areValues binding (inBound binding mem)) (areBound binding mem)
        have seededViews : (session.preloadEdgeVisibility parentInodeId bound).Views state seq
            floor :=
          ⟨views.visibleSeq, views.carries, views.admitsRows, views.tailHeld, views.tailOnce,
            views.values, sameWalks⟩
        have shown : visiblePageChildren
            (session.preloadEdgeVisibility parentInodeId bound).reads bound =
            .ok (bound.filter fun row =>
              FamilyRows.Shows (state.familyRows.readsAt seq floor) row) := by
          rw [visiblePageChildren_eq (seededViews.sameWalks.walkable (consistent.walkable floor))]
          apply congrArg
          apply filter_congr
          intro row _
          exact decide_eq_decide.mpr
            (and_congr_right' (not_congr (sameWalks.covered_iff row.childInodeId)))
        have notEmpty := length_pos_iff.mpr isNil
        obtain ⟨last, filled, lastViews⟩ := induction _ seededViews pages nextScans
          (fun record mem => areValues record (split ▸ mem_append_right _ mem))
          (by omega) (by omega) (by omega)
        refine ⟨last, ?_, lastViews⟩
        have joined : ((boundEdges seq left).filter fun row =>
            FamilyRows.Shows (state.familyRows.readsAt seq floor) row).take (limit + 1) =
            (bound.filter fun row => FamilyRows.Shows (state.familyRows.readsAt seq floor) row) ++
            ((boundEdges seq left').filter fun row =>
              FamilyRows.Shows (state.familyRows.readsAt seq floor) row).take
                (limit + 1 - (bound.filter fun row =>
                  FamilyRows.Shows (state.familyRows.readsAt seq floor) row).length) := by
          rw [split, filter_append, take_append,
            take_of_length_le ((length_filter_le _ bound).trans few)]
        rw [shown, joined]
        dsimp only [mapError_ok, ok_bind]
        rw [filled]
        rfl

variable {children : List DirentryBindingRecord}

theorem Reachable.pairwise_nameKey
    (sorted : children.Pairwise fun left right => left.edgeBytes < right.edgeBytes)
    (visible : ∀ row ∈ children, (state.familyRows.readsAt seq floor).VisibleBinding parentInodeId
      row.nameKey row) :
    children.Pairwise fun left right => utf8 left.nameKey < utf8 right.nameKey := by
  apply List.Pairwise.imp_of_mem _ sorted
  intro left right isLeft isRight less
  have leftVisible := visible left isLeft
  have rightVisible := visible right isRight
  have leftParent := ((reachable.visibleBinding_iff seq floor).mp leftVisible).2.2.1
  have rightParent := ((reachable.visibleBinding_iff seq floor).mp rightVisible).2.2.1
  rcases Prod.Lex.toLex_lt_toLex.mp less with lessParent | ⟨_, less⟩
  · exact absurd (leftParent.trans rightParent.symm) lessParent.ne
  rcases Prod.Lex.toLex_lt_toLex.mp less with less | ⟨sameName, lessChild⟩
  · exact less
  · -- A name has one active binding.
    have active := leftVisible.2.1
    rw [utf8_injective sameName, rightVisible.2.1, Option.some.injEq] at active
    rw [active] at lessChild
    exact absurd lessChild (lt_irrefl _)

theorem MetadataViewSession.Views.page_spec (views : session.Views state seq floor)
    (inRange : parentInodeId < 2 ^ 128) (startAfter : Option NameKey)
    (sorted : children.Pairwise fun left right => utf8 left.nameKey < utf8 right.nameKey)
    (isChild : ∀ row, row ∈ children ↔ (state.familyRows.readsAt seq floor).VisibleBinding
      parentInodeId row.nameKey row ∧ AfterName startAfter row.nameKey) :
    ∃ enough, ∀ fuel, enough ≤ fuel → ∀ limit, ∃ session',
      session.visibleChildrenPageByNameKey parentInodeId startAfter limit fuel =
        .ok (children.take limit, session') ∧ session'.Views state seq floor := by
  classical
  obtain ⟨rows, left, pages, scans, inLeft⟩ := views.exists_scan reachable inRange startAfter
  have consistent := reachable.consistentAt seq
  have walkable := views.sameWalks.walkable (consistent.walkable floor)
  have mem := views.mem_boundEdges reachable scans.keyed scans.ordered inLeft
  let combiner : ManifestTailCombiner DirentryBindingRecord :=
    .start (childrenLowerBound parentInodeId startAfter) (session.tailDirentryBinds parentInodeId
      (childrenLowerBound parentInodeId startAfter)) .manifestFirst
  refine ⟨2 * combiner.size rows + left.length + 2, ?_⟩
  intro fuel enough limit
  rw [visibleChildrenPageByNameKey]
  by_cases isZero : limit = 0
  · rw [if_pos isZero, isZero]
    exact ⟨session, rfl, views⟩
  rw [if_neg isZero]
  by_cases visible : (state.familyRows.readsAt seq floor).VisibleDirectory parentInodeId
  · obtain ⟨⟨parent, found, isDirectory⟩, clear⟩ := visible
    have shown := (MetadataVisibilityReads.visibleInode_eq_some_iff walkable).mpr
      ⟨views.sameWalks.inode ▸ found, mt (views.sameWalks.covered_iff parentInodeId).mp clear⟩
    have inTime : left.length < fuel := by omega
    have inFuel : 2 * combiner.size rows + 1 < fuel := by omega
    obtain ⟨last, filled, lastViews⟩ := fillChildren_spec reachable limit views pages scans
      (fun record member => ((mem record).mp member).1) inFuel inTime inTime
    refine ⟨last, ?_, lastViews⟩
    have isListing : children = (boundEdges seq left).filter fun row =>
        FamilyRows.Shows (state.familyRows.readsAt seq floor) row := by
      have isVisible (row : DirentryBindingRecord) :
          row ∈ (boundEdges seq left).filter (fun row =>
            FamilyRows.Shows (state.familyRows.readsAt seq floor) row) ↔
          (state.familyRows.readsAt seq floor).VisibleBinding parentInodeId row.nameKey row ∧
            AfterName startAfter row.nameKey := by
        rw [mem_filter, decide_eq_true_eq, mem, reachable.visibleBinding_iff seq floor]
        constructor
        · intro ⟨⟨isValue, _, sameParent, after⟩, shows⟩
          exact ⟨⟨⟨⟨parent, found, isDirectory⟩, clear⟩, isValue, sameParent, shows⟩, after⟩
        · intro ⟨⟨_, isValue, sameParent, shows⟩, after⟩
          exact ⟨⟨isValue, shows.1, sameParent, after⟩, shows⟩
      have edgeSorted : ((boundEdges seq left).filter fun row =>
          FamilyRows.Shows (state.familyRows.readsAt seq floor) row).Pairwise
            fun left right => left.edgeBytes < right.edgeBytes :=
        ((firstSelected_pairwise (scans.keyed.groupSorted scans.ordered) (by simp)).filter
          _).filter _
      apply eq_of_strictly_sorted sorted (reachable.pairwise_nameKey edgeSorted
        fun row member => ((isVisible row).mp member).1)
      intro row
      rw [isChild, isVisible]
    rw [shown, isListing, ← filled]
    dsimp only [mapError_ok, ok_bind]
    rw [if_neg (by simp [isDirectory])]
  · have noChild : children = [] := by
      rw [eq_nil_iff_forall_not_mem]
      intro row member
      exact visible ((isChild row).mp member).1.1
    rw [noChild, take_nil]
    refine ⟨session, ?_, views⟩
    rcases MetadataVisibilityReads.visibleInode_cases walkable parentInodeId with
      ⟨result, clear⟩ | ⟨result, _⟩
    · rw [result, views.sameWalks.inode]
      cases found : (state.familyRows.readsAt seq floor).findInode parentInodeId with
      | none => rfl
      | some parent =>
        have notDirectory : parent.inodeKind ≠ .directory := fun isDirectory =>
          visible ⟨⟨parent, found, isDirectory⟩,
            mt (views.sameWalks.covered_iff parentInodeId).mpr clear⟩
        dsimp only [mapError_ok, ok_bind]
        rw [if_pos notDirectory]
        rfl
    · rw [result]
      rfl

/-! ## Page after page -/

theorem childrenPages_spec (inRange : parentInodeId < 2 ^ 128)
    (views : ∀ request ∈ requests, request.1.Views state seq floor)
    (sorted : children.Pairwise fun left right => utf8 left.nameKey < utf8 right.nameKey)
    (isChild : ∀ row, row ∈ children ↔ (state.familyRows.readsAt seq floor).VisibleBinding
      parentInodeId row.nameKey row ∧ AfterName startAfter row.nameKey) :
    ∃ enough, ∀ fuel, enough ≤ fuel → childrenPages parentInodeId fuel startAfter requests =
        .ok (children.take (requests.map Prod.snd).sum) := by
  induction requests generalizing startAfter children with
  | nil => exact ⟨0, fun fuel _ => by rw [childrenPages, map_nil, sum_nil, take_zero]⟩
  | cons request requests induction =>
    obtain ⟨session, limit⟩ := request
    obtain ⟨enough, page⟩ := (views _ mem_cons_self).page_spec reachable inRange startAfter
      sorted isChild
    have crossing := sorted
    rw [← take_append_drop limit children, pairwise_append] at crossing
    -- Past a page, the children are those after its last name.
    have later (row : DirentryBindingRecord) : row ∈ children.drop limit ↔
        (state.familyRows.readsAt seq floor).VisibleBinding parentInodeId row.nameKey row ∧
          AfterName (((children.take limit).getLast?.map (·.nameKey)).or
            startAfter) row.nameKey := by
      cases isLast : (children.take limit).getLast? with
      | none =>
        have isNil := List.getLast?_eq_none_iff.mp isLast
        have same : children.drop limit = children := by
          conv_rhs => rw [← take_append_drop limit children, isNil, nil_append]
        rw [same, isChild]
        rfl
      | some last =>
        have inPage := mem_of_getLast? isLast
        have lastChild := (isChild last).mp (mem_of_mem_take inPage)
        constructor
        · intro isLater
          have mem := (isChild row).mp (mem_of_mem_drop isLater)
          refine ⟨mem.1, ?_⟩
          intro key isKey
          cases isKey
          exact crossing.2.2 last inPage row isLater
        · intro ⟨visible, after⟩
          have less := after last.nameKey rfl
          have member := (isChild row).mpr ⟨visible, fun key isKey =>
            (lastChild.2 key isKey).trans less⟩
          rw [← take_append_drop limit children] at member
          rcases mem_append.mp member with onPage | isLater
          · obtain ⟨before, isPage⟩ := List.getLast?_eq_some_iff.mp isLast
            have pageSorted := crossing.1
            rw [isPage] at onPage pageSorted
            rcases mem_append.mp onPage with past | isLast
            · have more := (pairwise_append.mp pageSorted).2.2 row past last (by simp)
              exact absurd less more.asymm
            · rw [mem_singleton.mp isLast] at less
              exact absurd less (lt_irrefl _)
          · exact isLater
    obtain ⟨enoughLater, laterPages⟩ := induction
      (fun request member => views request (mem_cons_of_mem _ member)) crossing.2.1 later
    refine ⟨max enough enoughLater, ?_⟩
    intro fuel le
    obtain ⟨session', isPage, _⟩ := page fuel ((le_max_left _ _).trans le) limit
    rw [childrenPages, isPage]
    dsimp only [ok_bind]
    rw [laterPages fuel ((le_max_right _ _).trans le), map_cons, sum_cons, take_add]
    rfl

end

/-- Whatever the split between runs and tail and whatever the limits, the pages of a directory
are its first visible children, each once and in name order. -/
theorem childrenPages_exact {policy : NamePolicy} {history : List WalCommitPayload}
    {state : MetadataState} (reachable : Reachable policy history state) (seq floor : ChangeSeq)
    {parentInodeId : InodeId} (inRange : parentInodeId < 2 ^ 128) :
    ∃ children : List DirentryBindingRecord,
      (children.Pairwise fun left right => utf8 left.nameKey < utf8 right.nameKey) ∧
      (∀ row, row ∈ children ↔
        (state.familyRows.readsAt seq floor).VisibleBinding parentInodeId row.nameKey row) ∧
      ∀ requests : List (MetadataViewSession × Nat),
        (∀ request ∈ requests, request.1.Views state seq floor) →
        ∃ enough, ∀ fuel, enough ≤ fuel →
          childrenPages parentInodeId fuel none requests =
            .ok (children.take (requests.map Prod.snd).sum) := by
  classical
  let rows := state.direntryBinds.filter fun row =>
    (state.familyRows.readsAt seq floor).VisibleBinding parentInodeId row.nameKey row
  have isVisible (row : DirentryBindingRecord) : row ∈ rows ↔
      (state.familyRows.readsAt seq floor).VisibleBinding parentInodeId row.nameKey row := by
    rw [mem_filter, decide_eq_true_eq]
    constructor
    · exact And.right
    · intro visible
      have isValue := ((reachable.visibleBinding_iff seq floor).mp visible).2.1
      exact ⟨(reachable.edge_eq_some_iff.mp isValue).1.1, visible⟩
  have distinct : rows.Pairwise fun left right => utf8 left.nameKey ≠ utf8 right.nameKey := by
    have once : rows.Nodup := reachable.settled.ordered.binds.keys_nodup.of_map.filter _
    apply List.Pairwise.imp_of_mem _ once
    intro left right isLeft isRight different same
    have active := ((isVisible left).mp isLeft).2.1
    rw [utf8_injective same, ((isVisible right).mp isRight).2.1] at active
    exact different (Option.some.inj active).symm
  obtain ⟨children, sorted, mem⟩ := exists_ordered distinct
  refine ⟨children, sorted, fun row => (mem row).trans (isVisible row), ?_⟩
  intro requests views
  apply childrenPages_spec reachable inRange views sorted
  intro row
  rw [mem, isVisible]
  exact (and_iff_left fun last isLast => nomatch isLast).symm

/-! ## A directory whose first binding is in a run -/

namespace SampleListing

def records : List DirentryBindingRecord := sampleRun.state.direntryBinds

def segment : MetadataSegmentRef where
  ownerNamespaceId := "ns"
  segmentId := "a"
  family := .direntryBinds
  rowCount := 1
  objectBytes := 1
  rows := (records.take 1).map .direntryBinding

def session : MetadataViewSession where
  manifest := { NamespaceManifestPayload.initial "ns" 0 "creator" .unrestricted with
    runs := [⟨0, 1, .base, [segment]⟩] }
  admits := fun _ _ => true
  rowStates := [records.drop 1]
  visibleSeq := 3
  reads := sampleRun.state.familyRows.readsAt 3 0

theorem inRange : ∀ record ∈ records, record.parentInodeId < 2 ^ 128 ∧
    record.childInodeId < 2 ^ 128 ∧ record.committedSeq ≤ u64Max ∧ record.deltaIndex ≤ u32Max := by
  decide +kernel

theorem views : session.Views sampleRun.state 3 0 where
  visibleSeq := rfl
  carries := by
    intro run isRun found isFound _ row isRow
    cases mem_singleton.mp isRun
    cases mem_singleton.mp isFound
    obtain ⟨record, mem, isRecord⟩ := mem_map.mp isRow
    subst isRecord
    have isHeld := mem_of_mem_take mem
    exact ⟨isHeld, inRange record isHeld, rfl⟩
  admitsRows := fun _ _ _ _ _ _ _ _ _ _ => rfl
  tailHeld := by
    intro record mem
    have isHeld := mem_of_mem_tail (by simpa [session] using mem)
    exact ⟨isHeld, inRange record isHeld⟩
  tailOnce := by
    have once := sampleRun_reachable.settled.ordered.binds.keys_nodup.of_map
    simpa [session] using once.sublist (drop_sublist 1 records)
  values := by
    intro edge value isValue
    have isHeld : value ∈ records := (sampleRun_reachable.edge_eq_some_iff.mp isValue).1.1
    rw [← take_append_drop 1 records] at isHeld
    refine .inl ?_
    rcases mem_append.mp isHeld with inRun | inTail
    · exact .inr ⟨_, mem_singleton_self _, segment, mem_singleton_self _, rfl, mem_map_of_mem inRun⟩
    · exact .inl (by simpa [session] using inTail)
  sameWalks := ⟨rfl, rfl, rfl, rfl⟩

end SampleListing

open SampleListing in
theorem childrenPages_exact_root :
    ∃ children : List DirentryBindingRecord,
      (children.Pairwise fun left right => utf8 left.nameKey < utf8 right.nameKey) ∧
      (∀ row, row ∈ children ↔ (sampleRun.state.familyRows.readsAt 3 0).VisibleBinding
        rootInodeId row.nameKey row) ∧
      ∃ enough, ∀ fuel, enough ≤ fuel →
        childrenPages rootInodeId fuel none [(session, 1), (session, 0), (session, 4)] =
          .ok (children.take 5) := by
  obtain ⟨children, sorted, mem, pages⟩ := childrenPages_exact sampleRun_reachable 3 0
    (show rootInodeId < 2 ^ 128 by decide)
  refine ⟨children, sorted, mem, pages [(session, 1), (session, 0), (session, 4)] ?_⟩
  intro request member
  have isSession : request.1 = session := by
    rcases mem_cons.mp member with first | member
    · rw [first]
    · rcases mem_cons.mp member with second | member
      · rw [second]
      · rw [mem_singleton.mp member]
  rw [isSession]
  exact SampleListing.views

end LoonFs
