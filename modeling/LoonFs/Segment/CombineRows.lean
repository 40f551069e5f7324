import LoonFs.Segment.RowIterator
import Mathlib.Data.List.Flatten

/-! # The combined page of several segments -/

namespace LoonFs

open Foundation
open List hiding head le le_refl not_lt

section

variable {Row : Type} (heapBytes : Row → Nat) (loader : ScanLoader) (bounds : PageBounds)

def takeRows (upperBound : Option String) :
    List (String × Row) → ScanPage Row → List (String × Row) × ScanPage Row
  | [], page => ([], page)
  | row :: rest, page =>
    if upperBound.any fun upper => decide (utf8 upper ≤ utf8 row.1) then (row :: rest, page)
    else if page.endsBefore bounds row.1 then (row :: rest, page)
    else takeRows upperBound rest (page.add heapBytes bounds row)

def takeAll (upperBound : Option String) :
    List (SegmentRowIterator Row) → ScanPage Row → List (SegmentRowIterator Row) × ScanPage Row
  | [], page => ([], page)
  | iterator :: iterators, page =>
    let taken := takeRows heapBytes bounds upperBound iterator.rows page
    let later := takeAll upperBound iterators taken.2
    ({ iterator with rows := taken.1 } :: later.1, later.2)

def refillAll (turn maxDecodedBytes fuel : Nat) :
    List (SegmentRowIterator Row) → Except CoreError (List (SegmentRowIterator Row))
  | [] => .ok []
  | iterator :: iterators => do
      let filled ←
        if iterator.needsFill then iterator.fill loader turn maxDecodedBytes fuel
        else .ok iterator
      let later ← refillAll turn maxDecodedBytes fuel iterators
      return filled :: later

def refillIterators (turn fuel : Nat) (iterators : List (SegmentRowIterator Row)) :
    Except CoreError (List (SegmentRowIterator Row)) :=
  refillAll loader turn (loader.memory.availableBytes turn / max iterators.length 1) fuel iterators

def scanIteratorsOpen : Nat := 16

/-- The key through which pending segments are opened: the page's last key, or where the
sixteenth pending one starts. -/
def openThrough (iterators : List (SegmentRowIterator Row)) (pending : List (ScanDescriptor Row))
    (page : ScanPage Row) : String :=
  let reached := (page.descending.head?.map Prod.fst).getD loader.lowerBound
  if iterators.isEmpty && !page.full bounds then
    match (pending.take scanIteratorsOpen).getLast? with
    | some candidate =>
      if utf8 reached ≤ utf8 candidate.minRowKey then candidate.minRowKey else reached
    | none => reached
  else reached

def stays (page : ScanPage Row) (iterator : SegmentRowIterator Row) : Bool :=
  match iterator.loadedThroughKey with
  | none => false
  | some lastKey =>
    iterator.rows.isEmpty && decide (utf8 lastKey < utf8 iterator.segment.maxRowKey) &&
      (loader.upperBound.all fun upper => decide (utf8 lastKey < utf8 upper)) &&
      (!page.full bounds ||
        page.descending.head?.any fun last => decide (utf8 lastKey < utf8 last.1))

def combineLoop : Nat → Nat → List (SegmentRowIterator Row) → List (ScanDescriptor Row) →
    ScanPage Row → Except CoreError (List (String × Row))
  | 0, _, _, _, _ => .error .unfinished
  | fuel + 1, turn, iterators, pending, page =>
    let through := openThrough loader bounds iterators pending page
    let starts (segment : ScanDescriptor Row) := decide (utf8 segment.minRowKey ≤ utf8 through)
    let iterators := iterators ++ (pending.takeWhile starts).map SegmentRowIterator.start
    if iterators.isEmpty then .ok page.descending.reverse
    else do
      let filled ← refillIterators loader turn (fuel + 2) iterators
      let taken := takeAll heapBytes bounds loader.upperBound filled page
      combineLoop fuel (turn + 1) (taken.1.filter (stays loader bounds taken.2))
        (pending.dropWhile starts) taken.2

def ScanDescriptor.scanOrder (segment : ScanDescriptor Row) : Bytes ×ₗ Bytes ×ₗ Bytes :=
  toLex (utf8 segment.minRowKey, toLex (utf8 segment.maxRowKey, utf8 segment.segmentId))

def ScanLoader.combineSegmentRows (descriptors : List (ScanDescriptor Row)) (fuel : Nat) :
    Except CoreError (List (String × Row)) :=
  if bounds.maxRows = 0 then .ok []
  else
    let sorted := descriptors.insertionSort fun left right => left.scanOrder ≤ right.scanOrder
    combineLoop heapBytes loader bounds fuel 0 [] sorted .empty

def ScanLoader.InRange (row : String × Row) : Prop :=
  utf8 loader.lowerBound ≤ scanKey row ∧ ∀ upper ∈ loader.upperBound, scanKey row < utf8 upper

structure Accounts (rows : List (String × Row)) (page : ScanPage Row)
    (left : List (String × Row)) : Prop where
  kept : page.Kept heapBytes bounds
  pageIn : ∀ row ∈ page.descending, row ∈ rows ∧ loader.InRange row
  leftIn : ∀ row ∈ left, row ∈ rows ∧ utf8 loader.lowerBound ≤ scanKey row
  distinct : (page.descending ++ left).Pairwise fun first second => scanKey first ≠ scanKey second
  covered : ∀ row ∈ rows, loader.InRange row → page.Settled bounds row ∨ row ∈ left

def Dismissed (page : ScanPage Row) (row : String × Row) : Prop :=
  ¬loader.InRange row ∨ page.Beyond bounds row

variable {heapBytes loader bounds} {rows : List (String × Row)} {page : ScanPage Row}

theorem Accounts.perm (accounts : Accounts heapBytes loader bounds rows page left)
    (perm : left.Perm other) : Accounts heapBytes loader bounds rows page other where
  kept := accounts.kept
  pageIn := accounts.pageIn
  leftIn row member := accounts.leftIn row (perm.mem_iff.mpr member)
  distinct := ((perm.append_left page.descending).pairwise_iff
    fun ne => ne.symm).mp accounts.distinct
  covered row member inRange := (accounts.covered row member inRange).imp_right perm.mem_iff.mp

theorem Accounts.dismiss (accounts : Accounts heapBytes loader bounds rows page left)
    {fewer : List (String × Row)} (sub : fewer.Sublist left)
    (dismissed : ∀ row ∈ left, row ∈ fewer ∨ Dismissed loader bounds page row) :
    Accounts heapBytes loader bounds rows page fewer where
  kept := accounts.kept
  pageIn := accounts.pageIn
  leftIn row member := accounts.leftIn row (sub.subset member)
  distinct := accounts.distinct.sublist (sub.append_left page.descending)
  covered row member inRange := by
    rcases accounts.covered row member inRange with settled | isLeft
    · exact .inl settled
    · rcases dismissed row isLeft with kept | outOfRange | beyond
      · exact .inr kept
      · exact absurd inRange outOfRange
      · exact .inl (.inr beyond)

theorem Accounts.new (accounts : Accounts heapBytes loader bounds rows page (row :: left)) :
    ∀ other ∈ page.descending, scanKey other ≠ scanKey row := by
  intro other mem
  exact (pairwise_append.mp accounts.distinct).2.2 other mem row mem_cons_self

theorem Accounts.add (positive : 0 < bounds.maxRows)
    (accounts : Accounts heapBytes loader bounds rows page (row :: left))
    (below : ∀ upper ∈ loader.upperBound, scanKey row < utf8 upper)
    (goesIn : page.endsBefore bounds row.1 = false) :
    Accounts heapBytes loader bounds rows (page.add heapBytes bounds row) left := by
  have adds := ScanPage.add_spec accounts.kept positive accounts.new goesIn
  constructor
  case kept => exact adds.kept
  case pageIn =>
    intro other mem
    rcases mem_cons.mp (adds.rows.subset mem) with same | inPage
    · rw [same]
      obtain ⟨inRows, reached⟩ := accounts.leftIn row mem_cons_self
      exact ⟨inRows, reached, below⟩
    · exact accounts.pageIn other inPage
  case leftIn => exact fun other mem => accounts.leftIn other (mem_cons_of_mem _ mem)
  case distinct =>
    obtain ⟨middle, perm, sub⟩ := adds.rows
    have whole : ((row :: page.descending) ++ left).Pairwise
        fun first second => scanKey first ≠ scanKey second :=
      (perm_middle.pairwise_iff fun ne => ne.symm).mp accounts.distinct
    have middleDistinct := whole.sublist (sub.append_right left)
    exact ((perm.append_right left).pairwise_iff fun ne => ne.symm).mp middleDistinct
  case covered =>
    intro other mem inRange
    rcases accounts.covered other mem inRange with settled | isLeft
    · exact .inl (adds.settled other settled)
    · rcases mem_cons.mp isLeft with same | later
      · rw [same]
        exact .inl adds.row
      · exact .inr later

/-- The first row that one iterator could not give is out of the range or past the page. -/
theorem takeRows_spec (positive : 0 < bounds.maxRows)
    (accounts : Accounts heapBytes loader bounds rows page (taken ++ others)) :
    ∃ before, taken = before ++ (takeRows heapBytes bounds loader.upperBound taken page).1 ∧
      Accounts heapBytes loader bounds rows
        (takeRows heapBytes bounds loader.upperBound taken page).2
        ((takeRows heapBytes bounds loader.upperBound taken page).1 ++ others) ∧
      (∀ row, page.Settled bounds row →
        (takeRows heapBytes bounds loader.upperBound taken page).2.Settled bounds row) ∧
      ∀ head, (takeRows heapBytes bounds loader.upperBound taken page).1.head? = some head →
        (∃ upper ∈ loader.upperBound, utf8 upper ≤ scanKey head) ∨
          (takeRows heapBytes bounds loader.upperBound taken page).2.Settled bounds head := by
  induction taken generalizing page with
  | nil => exact ⟨[], rfl, accounts, (fun _ settled => settled), (fun _ isHead => nomatch isHead)⟩
  | cons row rest induction =>
    rw [takeRows]
    by_cases outOfRange :
        (loader.upperBound.any fun upper => decide (utf8 upper ≤ utf8 row.1)) = true
    · rw [if_pos outOfRange]
      refine ⟨[], rfl, accounts, (fun _ settled => settled), ?_⟩
      intro head isHead
      cases isHead
      cases isUpper : loader.upperBound with
      | none => simp [isUpper] at outOfRange
      | some upper => exact .inl ⟨upper, rfl, by simpa [isUpper, scanKey] using outOfRange⟩
    · rw [if_neg outOfRange]
      by_cases ends : page.endsBefore bounds row.1 = true
      · rw [if_pos ends]
        refine ⟨[], rfl, accounts, (fun _ settled => settled), ?_⟩
        intro head isHead
        cases isHead
        exact .inr (.inr (ScanPage.beyond_of_endsBefore accounts.kept accounts.new ends))
      · rw [if_neg ends]
        have below : ∀ upper ∈ loader.upperBound, scanKey row < utf8 upper := by
          intro upper isUpper
          rw [Option.mem_def.mp isUpper, Option.any_some, decide_eq_true_eq] at outOfRange
          exact not_le.mp outOfRange
        have added := accounts.add positive below (by simpa using ends)
        obtain ⟨before, split, after, settled, ended⟩ := induction added
        refine ⟨row :: before, by rw [cons_append, ← split], after, ?_, ended⟩
        intro other wasSettled
        have adds := ScanPage.add_spec accounts.kept positive accounts.new (by simpa using ends)
        exact settled other (adds.settled other wasSettled)

variable {iterator : SegmentRowIterator Row}

structure Offered (loader : ScanLoader) (bounds : PageBounds) (page : ScanPage Row)
    (iterator next : SegmentRowIterator Row) : Prop where
  same : next = { iterator with rows := next.rows }
  rows : next.rows <:+ iterator.rows
  ended : ∀ head, next.rows.head? = some head →
    (∃ upper ∈ loader.upperBound, utf8 upper ≤ scanKey head) ∨ page.Settled bounds head

theorem takeAll_spec (positive : 0 < bounds.maxRows) {iterators : List (SegmentRowIterator Row)}
    (accounts : Accounts heapBytes loader bounds rows page (iterators.flatMap
      (SegmentRowIterator.unread loader.lowerBound) ++ others)) :
    ∃ moved, takeAll heapBytes bounds loader.upperBound iterators page = moved ∧
      Accounts heapBytes loader bounds rows moved.2
        (moved.1.flatMap (SegmentRowIterator.unread loader.lowerBound) ++ others) ∧
      (∀ row, page.Settled bounds row → moved.2.Settled bounds row) ∧
      List.Forall₂ (Offered loader bounds moved.2) iterators moved.1 := by
  induction iterators generalizing page others with
  | nil => exact ⟨_, rfl, accounts, (fun _ settled => settled), .nil⟩
  | cons iterator iterators induction =>
    have offered : Accounts heapBytes loader bounds rows page (iterator.rows ++
        (atOrAfter scanKey (utf8 loader.lowerBound) (iterator.unloaded.flatMap ScanBlock.rows) ++
        (iterators.flatMap (SegmentRowIterator.unread loader.lowerBound) ++ others))) := by
      simpa only [flatMap_cons, SegmentRowIterator.unread, append_assoc] using accounts
    obtain ⟨before, split, after, settled, ended⟩ := takeRows_spec positive offered
    rw [takeAll]
    generalize takeRows heapBytes bounds loader.upperBound iterator.rows page = taken at *
    have unread : SegmentRowIterator.unread loader.lowerBound
        { iterator with rows := taken.1 } = taken.1 ++ atOrAfter scanKey
          (utf8 loader.lowerBound) (iterator.unloaded.flatMap ScanBlock.rows) := rfl
    have reordered := after.perm (show List.Perm _
        (iterators.flatMap (SegmentRowIterator.unread loader.lowerBound) ++
          (SegmentRowIterator.unread loader.lowerBound { iterator with rows := taken.1 } ++
            others)) by
      rw [unread, ← append_assoc]
      exact perm_append_comm_assoc ..)
    obtain ⟨later, isLater, laterAccounts, laterSettled, laterOffered⟩ := induction reordered
    rw [isLater]
    refine ⟨_, rfl, ?_, fun row wasSettled => laterSettled row (settled row wasSettled), ?_⟩
    · rw [flatMap_cons, append_assoc]
      exact laterAccounts.perm (perm_append_comm_assoc ..)
    · refine .cons ⟨rfl, ⟨before, split.symm⟩, ?_⟩ laterOffered
      intro head isHead
      exact (ended head isHead).imp_right (laterSettled head)

theorem ScanPage.Beyond.of_le (beyond : page.Beyond bounds row) (le : scanKey row ≤ scanKey later) :
    page.Beyond bounds later :=
  ⟨beyond.1, fun kept mem => (beyond.2 kept mem).trans_le le⟩

theorem not_inRange_of_upper (isUpper : upper ∈ loader.upperBound) (le : utf8 upper ≤ scanKey row) :
    ¬loader.InRange row :=
  fun inRange => absurd (inRange.2 upper isUpper) (not_lt.mpr le)

section

variable {before : SegmentRowIterator Row}

theorem Offered.valid (offered : Offered loader bounds page iterator moved)
    (valid : iterator.Valid loader.lowerBound) : moved.Valid loader.lowerBound := by
  obtain ⟨front, isRows⟩ := offered.rows
  rw [offered.same]
  refine ⟨valid.sorted, valid.index, valid.unopened, ?_⟩
  have sub : SegmentRowIterator.unread loader.lowerBound { iterator with rows := moved.rows } <:+
      iterator.unread loader.lowerBound :=
    ⟨front, by rw [SegmentRowIterator.unread, SegmentRowIterator.unread, ← isRows,
      append_assoc]; rfl⟩
  exact sub.trans valid.unread

theorem Offered.dismissed_of_rows (offered : Offered loader bounds page iterator moved)
    (valid : moved.Valid loader.lowerBound) (isRows : moved.rows = head :: rest)
    (notInPage : head ∉ page.descending) :
    ∀ row ∈ moved.unread loader.lowerBound, Dismissed loader bounds page row := by
  have ordered := valid.unread_ordered
  have refused := offered.ended head (by rw [isRows]; rfl)
  intro row mem
  have le : scanKey head ≤ scanKey row := by
    rw [SegmentRowIterator.unread, isRows, cons_append] at mem ordered
    rcases mem_cons.mp mem with same | later
    · rw [same]
    · exact (ordered.head_lt later).le
  rcases refused with ⟨upper, isUpper, reached⟩ | inPage | beyond
  · exact .inl (not_inRange_of_upper isUpper (reached.trans le))
  · exact absurd inPage notInPage
  · exact .inr (beyond.of_le le)

theorem dismissed_of_not_stays (kept : page.Kept heapBytes bounds)
    (refills : before.Refills loader.lowerBound iterator)
    (offered : Offered loader bounds page iterator moved)
    (notInPage : ∀ row ∈ moved.unread loader.lowerBound, row ∉ page.descending)
    (leaves : stays loader bounds page moved = false) :
    ∀ row ∈ moved.unread loader.lowerBound, Dismissed loader bounds page row := by
  have valid := offered.valid refills.valid
  by_cases noneLoaded : iterator.rows = []
  · -- The refill found the segment at its end.
    have noRows : moved.rows = [] := by
      have sub := offered.rows
      rw [noneLoaded] at sub
      exact suffix_nil.mp sub
    have noneLeft : moved.unread loader.lowerBound = [] := by
      rw [offered.same, SegmentRowIterator.unread, SegmentRowIterator.unloaded]
      simp [noRows, refills.ended noneLoaded, refills.opened, atOrAfter]
    rw [noneLeft]
    exact fun _ mem => by cases mem
  · obtain ⟨lastKey, isLast, later, _⟩ := refills.loaded noneLoaded
    have sameLast : moved.loadedThroughKey = some lastKey := by
      rw [offered.same]
      exact isLast
    cases isRows : moved.rows with
    | cons head rest =>
      apply offered.dismissed_of_rows valid isRows
      apply notInPage
      rw [SegmentRowIterator.unread, isRows]
      exact mem_append_left _ mem_cons_self
    | nil =>
      intro row mem
      have inSegment : row ∈ moved.segment.rows := (mem_atOrAfter.mp (valid.unread.subset mem)).1
      have past : utf8 lastKey < scanKey row := by
        rw [SegmentRowIterator.unread, isRows, nil_append, mem_atOrAfter] at mem
        rw [offered.same] at mem
        exact later row mem.1
      rw [stays, sameLast, isRows] at leaves
      simp only [isEmpty_nil, Bool.true_and, Bool.and_eq_false_iff] at leaves
      rcases leaves with (atEnd | pastUpper) | pastPage
      · rw [decide_eq_false_iff_not, not_lt] at atEnd
        obtain ⟨greatest, isGreatest, maxKey⟩ := valid.sorted.greatest
        have le : scanKey row ≤ utf8 moved.segment.maxRowKey := by
          obtain ⟨front, isSegment⟩ := List.getLast?_eq_some_iff.mp isGreatest
          have ordered := valid.sorted.ordered
          rw [isSegment] at ordered inSegment
          rw [maxKey]
          rcases mem_append.mp inSegment with earlier | same
          · exact ((pairwise_append.mp ordered).2.2 row earlier greatest (by simp)).le
          · rw [mem_singleton.mp same]
            exact le_refl _
        exact absurd past (not_lt.mpr (le.trans atEnd))
      · cases isUpper : loader.upperBound with
        | none => simp [isUpper] at pastUpper
        | some upper =>
          rw [isUpper, Option.all_some, decide_eq_false_iff_not, not_lt] at pastUpper
          exact .inl (not_inRange_of_upper isUpper (pastUpper.trans past.le))
      · rw [Bool.or_eq_false_iff] at pastPage
        have isFull : page.full bounds = true := by simpa using pastPage.1
        refine .inr ⟨isFull, ?_⟩
        have ordered := kept.ordered
        cases isPage : page.descending with
        | nil => exact fun _ isKept => by cases isKept
        | cons last rest =>
          rw [isPage] at ordered
          have le : scanKey last ≤ utf8 lastKey := by
            have notBefore := pastPage.2
            rw [isPage, List.head?_cons, Option.any_some, decide_eq_false_iff_not,
              not_lt] at notBefore
            exact notBefore
          intro other isKept
          rcases mem_cons.mp isKept with same | earlier
          · rw [same]
            exact le.trans_lt past
          · exact ((pairwise_cons.mp ordered).1 other earlier).trans (le.trans_lt past)

theorem ready_of_stays (refills : before.Refills loader.lowerBound iterator)
    (offered : Offered loader bounds page iterator moved)
    (staysOpen : stays loader bounds page moved = true) :
    moved.rows = [] ∧ moved.isExhausted = false ∧ moved.refillsLeft < before.refillsLeft := by
  have someLoaded : iterator.rows ≠ [] := by
    intro noneLoaded
    have noIndex : moved.loadedThroughKey = none := by
      rw [offered.same, SegmentRowIterator.loadedThroughKey]
      simp only [refills.ended noneLoaded]
    rw [stays, noIndex] at staysOpen
    cases staysOpen
  obtain ⟨lastKey, isLast, _, more⟩ := refills.loaded someLoaded
  have sameLast : moved.loadedThroughKey = some lastKey := by
    rw [offered.same]
    exact isLast
  rw [stays, sameLast] at staysOpen
  simp only [Bool.and_eq_true, List.isEmpty_iff, decide_eq_true_eq] at staysOpen
  obtain ⟨⟨⟨noRows, below⟩, _⟩, _⟩ := staysOpen
  have sameSegment : moved.segment = iterator.segment := by rw [offered.same]
  have someLeft : moved.unloaded ≠ [] := by
    rw [sameSegment] at below
    rw [offered.same]
    exact more below
  refine ⟨noRows, ?_, ?_⟩
  · cases isIndex : moved.index with
    | none =>
      rw [SegmentRowIterator.loadedThroughKey, isIndex] at sameLast
      cases sameLast
    | some index =>
      rw [SegmentRowIterator.unloaded, isIndex] at someLeft
      have left : ¬index.length ≤ moved.nextBlock := fun atEnd => someLeft (drop_eq_nil_of_le atEnd)
      simp [SegmentRowIterator.isExhausted, isIndex, left]
  · rw [offered.same]
    exact refills.fewer someLoaded

end

/-- An open segment at the start of a turn. -/
structure AwaitsRefill (loader : ScanLoader) (iterator : SegmentRowIterator Row) : Prop where
  valid : iterator.Valid loader.lowerBound
  noRows : iterator.rows = []
  more : iterator.isExhausted = false

theorem start_awaitsRefill {segment : ScanDescriptor Row} (sorted : segment.Sorted) :
    AwaitsRefill loader (.start segment) :=
  ⟨SegmentRowIterator.start_valid sorted, rfl, by
    simp [SegmentRowIterator.isExhausted, SegmentRowIterator.start]⟩

variable {iterators : List (SegmentRowIterator Row)}

theorem refillAll_spec (turn maxDecodedBytes fuel : Nat)
    (ready : ∀ iterator ∈ iterators, AwaitsRefill loader iterator) :
    ∃ filled, refillAll loader turn maxDecodedBytes (fuel + 2) iterators = .ok filled ∧
      List.Forall₂ (SegmentRowIterator.Refills loader.lowerBound) iterators filled := by
  induction iterators with
  | nil => exact ⟨[], rfl, .nil⟩
  | cons iterator iterators induction =>
    obtain ⟨later, isLater, laterRefills⟩ :=
      induction fun other mem => ready other (mem_cons_of_mem _ mem)
    have isReady := ready iterator mem_cons_self
    obtain ⟨moved, isNext, refills⟩ := SegmentRowIterator.fill_spec turn maxDecodedBytes fuel
      isReady.valid isReady.noRows
    have fills : iterator.needsFill = true := by
      simp [SegmentRowIterator.needsFill, isReady.noRows, isReady.more]
    refine ⟨moved :: later, ?_, .cons refills laterRefills⟩
    rw [refillAll, if_pos fills, isNext, isLater]
    rfl

def Turned (loader : ScanLoader) (bounds : PageBounds) (page : ScanPage Row)
    (before next : SegmentRowIterator Row) : Prop :=
  ∃ filled, before.Refills loader.lowerBound filled ∧ Offered loader bounds page filled next

def openWork (iterators : List (SegmentRowIterator Row)) : Nat :=
  (iterators.map fun iterator => iterator.refillsLeft + 1).sum

def pendingWork (pending : List (ScanDescriptor Row)) : Nat :=
  (pending.map fun segment => segment.blocks.length + 2).sum

variable {moved : List (SegmentRowIterator Row)}

theorem openWork_lt (turned : List.Forall₂ (Turned loader bounds page) iterators moved) :
    openWork (moved.filter (stays loader bounds page)) + iterators.length ≤ openWork iterators := by
  induction turned with
  | nil => exact Nat.le_refl _
  | @cons before after iterators moved turnedHead _ induction =>
    obtain ⟨filled, refills, offered⟩ := turnedHead
    have split : openWork (before :: iterators) = before.refillsLeft + 1 + openWork iterators := by
      simp [openWork]
    rw [length_cons, split]
    cases staysOpen : stays loader bounds page after with
    | true =>
      rw [filter_cons_of_pos staysOpen]
      have fewer := (ready_of_stays refills offered staysOpen).2.2
      have splitNext : openWork (after :: moved.filter (stays loader bounds page)) =
          after.refillsLeft + 1 + openWork (moved.filter (stays loader bounds page)) := by
        simp [openWork]
      omega
    | false =>
      rw [filter_cons_of_neg (by simp [staysOpen])]
      omega

variable {pending : List (ScanDescriptor Row)}

theorem beyond_of_unopened (kept : page.Kept heapBytes bounds)
    (ordered : pending.Pairwise fun left right => utf8 left.minRowKey ≤ utf8 right.minRowKey)
    (sorted : ∀ segment ∈ pending, segment.Sorted)
    (unopened : pending.takeWhile (fun segment => decide (utf8 segment.minRowKey ≤ utf8
      (openThrough loader bounds [] pending page))) = []) :
    ∀ segment ∈ pending, ∀ row ∈ segment.rows, page.Beyond bounds row := by
  cases pending with
  | nil => exact fun _ mem => nomatch mem
  | cons first rest =>
    have after : ∀ segment ∈ first :: rest, utf8 first.minRowKey ≤ utf8 segment.minRowKey := by
      intro segment mem
      rcases mem_cons.mp mem with same | later
      · rw [same]
      · exact (pairwise_cons.mp ordered).1 segment later
    have past :
        utf8 (openThrough loader bounds [] (first :: rest) page) < utf8 first.minRowKey := by
      by_contra notPast
      rw [takeWhile_cons_of_pos (by simpa using not_lt.mp notPast)] at unopened
      cases unopened
    have isFull : page.full bounds = true := by
      by_contra notFull
      rw [Bool.not_eq_true] at notFull
      have someCandidate : ((first :: rest).take scanIteratorsOpen) ≠ [] := by
        simp [scanIteratorsOpen]
      have isLast := List.getLast?_eq_some_getLast someCandidate
      have inPending := mem_of_mem_take (getLast_mem someCandidate)
      generalize ((first :: rest).take scanIteratorsOpen).getLast someCandidate = candidate
        at isLast inPending
      have atFirst := after candidate inPending
      simp only [openThrough, isEmpty_nil, notFull, Bool.not_false, Bool.and_self, if_true,
        isLast] at past
      split at past
      · exact absurd past (not_lt.mpr atFirst)
      · next notReached =>
          exact absurd past (not_lt.mpr (atFirst.trans (le_of_lt (not_le.mp notReached))))
    have pageOrdered := kept.ordered
    intro segment mem row isRow
    refine ⟨isFull, ?_⟩
    have reached := (after segment mem).trans ((sorted segment mem).least row isRow)
    cases isPage : page.descending with
    | nil => exact fun _ isKept => nomatch isKept
    | cons last earlier =>
      rw [isPage] at pageOrdered
      have lastBefore : scanKey last < utf8 first.minRowKey := by
        simpa [openThrough, isFull, isPage, scanKey] using past
      intro other isKept
      rcases mem_cons.mp isKept with same | isEarlier
      · rw [same]
        exact lastBefore.trans_le reached
      · exact ((pairwise_cons.mp pageOrdered).1 other isEarlier).trans
          (lastBefore.trans_le reached)

def rowsLeft (loader : ScanLoader) (iterators : List (SegmentRowIterator Row))
    (pending : List (ScanDescriptor Row)) : List (String × Row) :=
  iterators.flatMap (SegmentRowIterator.unread loader.lowerBound) ++
    pending.flatMap fun segment => atOrAfter scanKey (utf8 loader.lowerBound) segment.rows

theorem turned_of
    (refills : List.Forall₂ (SegmentRowIterator.Refills loader.lowerBound) iterators filled)
    (offered : List.Forall₂ (Offered loader bounds page) filled moved) :
    List.Forall₂ (Turned loader bounds page) iterators moved := by
  induction refills generalizing moved with
  | nil =>
    cases offered
    exact .nil
  | cons refill _ induction =>
    cases offered with
    | cons offer later => exact .cons ⟨_, refill, offer⟩ (induction later)

theorem exists_turned (turned : List.Forall₂ (Turned loader bounds page) iterators moved) :
    ∀ iterator ∈ moved, ∃ before, Turned loader bounds page before iterator := by
  induction turned with
  | nil => exact fun _ mem => nomatch mem
  | cons isTurned _ induction =>
    intro iterator mem
    rcases mem_cons.mp mem with same | later
    · rw [same]
      exact ⟨_, isTurned⟩
    · exact induction iterator later

theorem unread_refilled
    (refills : List.Forall₂ (SegmentRowIterator.Refills loader.lowerBound) iterators filled) :
    filled.flatMap (SegmentRowIterator.unread loader.lowerBound) =
      iterators.flatMap (SegmentRowIterator.unread loader.lowerBound) := by
  induction refills with
  | nil => rfl
  | cons refill _ induction => rw [flatMap_cons, flatMap_cons, induction, refill.unread]

theorem Accounts.turn (accounts : Accounts heapBytes loader bounds rows page (moved.flatMap
      (SegmentRowIterator.unread loader.lowerBound) ++ others))
    (turned : List.Forall₂ (Turned loader bounds page) iterators moved) :
    Accounts heapBytes loader bounds rows page ((moved.filter (stays loader bounds page)).flatMap
          (SegmentRowIterator.unread loader.lowerBound) ++ others) ∧
      ∀ iterator ∈ moved.filter (stays loader bounds page), AwaitsRefill loader iterator := by
  have notInPage : ∀ iterator ∈ moved, ∀ row ∈ iterator.unread loader.lowerBound,
      row ∉ page.descending := by
    intro iterator mem row isRow inPage
    have isLeft : row ∈ moved.flatMap (SegmentRowIterator.unread loader.lowerBound) ++ others :=
      mem_append_left _ (mem_flatMap.mpr ⟨iterator, mem, isRow⟩)
    exact (pairwise_append.mp accounts.distinct).2.2 row inPage row isLeft rfl
  constructor
  · apply accounts.dismiss
    · exact List.Sublist.append_right (List.Sublist.flatMap filter_sublist _) _
    · intro row mem
      rcases mem_append.mp mem with isOpen | isOther
      · obtain ⟨iterator, inNext, isRow⟩ := mem_flatMap.mp isOpen
        cases staysOpen : stays loader bounds page iterator with
        | true =>
          left
          exact mem_append_left _ (mem_flatMap.mpr
            ⟨iterator, mem_filter.mpr ⟨inNext, staysOpen⟩, isRow⟩)
        | false =>
          obtain ⟨before, filled, refills, offered⟩ := exists_turned turned iterator inNext
          exact .inr (dismissed_of_not_stays accounts.kept refills offered
            (notInPage iterator inNext) staysOpen row isRow)
      · exact .inl (mem_append_right _ isOther)
  · intro iterator mem
    obtain ⟨inNext, staysOpen⟩ := mem_filter.mp mem
    obtain ⟨before, filled, refills, offered⟩ := exists_turned turned iterator inNext
    obtain ⟨noRows, more, _⟩ := ready_of_stays refills offered staysOpen
    exact ⟨offered.valid refills.valid, noRows, more⟩

theorem takeWhile_split (pending : List (ScanDescriptor Row)) (starts : ScanDescriptor Row → Bool)
    (iterators : List (SegmentRowIterator Row)) : rowsLeft loader iterators pending =
      rowsLeft loader (iterators ++ (pending.takeWhile starts).map SegmentRowIterator.start)
        (pending.dropWhile starts) := by
  rw [rowsLeft, rowsLeft]
  conv_lhs => rw [← takeWhile_append_dropWhile (p := starts) (l := pending)]
  rw [flatMap_append, flatMap_append, flatMap_map, append_assoc]
  rfl

theorem work_split (pending : List (ScanDescriptor Row)) (starts : ScanDescriptor Row → Bool)
    (iterators : List (SegmentRowIterator Row)) : openWork iterators + pendingWork pending =
      openWork (iterators ++ (pending.takeWhile starts).map SegmentRowIterator.start) +
        pendingWork (pending.dropWhile starts) := by
  have split : pendingWork pending =
      pendingWork (pending.takeWhile starts) + pendingWork (pending.dropWhile starts) := by
    conv_lhs => rw [← takeWhile_append_dropWhile (p := starts) (l := pending)]
    rw [pendingWork, map_append, sum_append]
    rfl
  have opened (segments : List (ScanDescriptor Row)) :
      openWork (segments.map SegmentRowIterator.start) = pendingWork segments := by
    rw [openWork, pendingWork, map_map]
    rfl
  have append (left right : List (SegmentRowIterator Row)) :
      openWork (left ++ right) = openWork left + openWork right := by
    simp [openWork]
  rw [append, opened, split]
  omega

theorem combineLoop_spec (positive : 0 < bounds.maxRows) (turn : Nat)
    (ready : ∀ iterator ∈ iterators, AwaitsRefill loader iterator)
    (sorted : ∀ segment ∈ pending, segment.Sorted)
    (ordered : pending.Pairwise fun left right => utf8 left.minRowKey ≤ utf8 right.minRowKey)
    (accounts : Accounts heapBytes loader bounds rows page (rowsLeft loader iterators pending))
    (enough : openWork iterators + pendingWork pending < fuel) :
    ∃ last : ScanPage Row, combineLoop heapBytes loader bounds fuel turn iterators pending page =
        .ok last.descending.reverse ∧
      last.Kept heapBytes bounds ∧ (∀ row ∈ last.descending, row ∈ rows ∧ loader.InRange row) ∧
      ∀ row ∈ rows, loader.InRange row → last.Settled bounds row := by
  induction fuel generalizing turn iterators pending page with
  | zero => omega
  | succ fuel induction =>
    rw [combineLoop]
    generalize isStarts : (fun segment : ScanDescriptor Row => decide (utf8 segment.minRowKey ≤
      utf8 (openThrough loader bounds iterators pending page))) = starts
    dsimp only
    generalize isOpen : iterators ++ (pending.takeWhile starts).map SegmentRowIterator.start = open_
    have opened := accounts
    rw [takeWhile_split pending starts, isOpen] at opened
    rw [work_split pending starts, isOpen] at enough
    by_cases noneOpen : open_ = []
    · rw [if_pos (by simp [noneOpen])]
      refine ⟨page, rfl, accounts.kept, accounts.pageIn, ?_⟩
      rw [noneOpen, append_eq_nil_iff, map_eq_nil_iff] at isOpen
      obtain ⟨noIterators, unopened⟩ := isOpen
      subst noIterators
      rw [← isStarts] at unopened
      have beyond := beyond_of_unopened accounts.kept ordered sorted unopened
      intro row mem inRange
      rcases accounts.covered row mem inRange with settled | isLeft
      · exact settled
      · rw [rowsLeft, flatMap_nil, nil_append] at isLeft
        obtain ⟨segment, isPending, inSegment⟩ := mem_flatMap.mp isLeft
        exact .inr (beyond segment isPending row (mem_atOrAfter.mp inSegment).1)
    · rw [if_neg (by simpa using noneOpen)]
      have allReady : ∀ iterator ∈ open_, AwaitsRefill loader iterator := by
        intro iterator mem
        rw [← isOpen] at mem
        rcases mem_append.mp mem with old | new
        · exact ready iterator old
        · obtain ⟨segment, isSegment, isStart⟩ := mem_map.mp new
          rw [← isStart]
          exact start_awaitsRefill (sorted segment ((takeWhile_sublist _).subset isSegment))
      obtain ⟨filled, isFilled, refills⟩ := refillAll_spec turn
        (loader.memory.availableBytes turn / max open_.length 1) fuel allReady
      rw [rowsLeft, ← unread_refilled refills] at opened
      obtain ⟨moved, isNext, nextAccounts, _, offered⟩ := takeAll_spec positive opened
      have turned := turned_of refills offered
      obtain ⟨afterTurn, nextReady⟩ := nextAccounts.turn turned
      have fewer := openWork_lt turned
      have someOpen := length_pos_iff.mpr noneOpen
      rw [refillIterators, isFilled, ok_bind, isNext]
      apply induction (turn + 1) nextReady _ _ afterTurn (by omega)
      · exact fun segment mem => sorted segment ((dropWhile_sublist _).subset mem)
      · exact ordered.sublist (dropWhile_sublist _)

theorem scanOrder_le {left right : ScanDescriptor Row} (le : left.scanOrder ≤ right.scanOrder) :
    utf8 left.minRowKey ≤ utf8 right.minRowKey := by
  rcases Prod.Lex.toLex_le_toLex.mp le with less | ⟨same, _⟩
  · exact less.le
  · exact le_of_eq same

theorem pendingWork_perm {left : List (ScanDescriptor Row)} (perm : left.Perm right) :
    pendingWork left = pendingWork right :=
  (perm.map _).sum_nat

end

/-- The page of a combination over distinct row keys, against the list of the range's rows in
key order. -/
theorem ScanLoader.combineSegmentRows_isFirstPage {Row : Type} (heapBytes : Row → Nat)
    (loader : ScanLoader) (bounds : PageBounds) {descriptors : List (ScanDescriptor Row)}
    (sorted : ∀ segment ∈ descriptors, segment.Sorted)
    (distinct : (descriptors.flatMap ScanDescriptor.rows).Pairwise
      fun first second => scanKey first ≠ scanKey second)
    (enough : pendingWork descriptors < fuel) {union : List (String × Row)}
    (ordered : Ordered scanKey union)
    (memUnion : ∀ row, row ∈ union ↔
      row ∈ descriptors.flatMap ScanDescriptor.rows ∧ loader.InRange row) :
    ∃ page, loader.combineSegmentRows heapBytes bounds descriptors fuel = .ok page ∧
      ScanPage.IsFirstPage heapBytes bounds union page := by
  by_cases noRows : bounds.maxRows = 0
  · exact ⟨[], by rw [ScanLoader.combineSegmentRows, if_pos noRows],
      ScanPage.isFirstPage_nil (.inl noRows)⟩
  · have positive : 0 < bounds.maxRows := Nat.pos_of_ne_zero noRows
    let inOrder := descriptors.insertionSort fun left right => left.scanOrder ≤ right.scanOrder
    have perm : inOrder.Perm descriptors := perm_insertionSort _ _
    have byOrder : inOrder.Pairwise fun left right => left.scanOrder ≤ right.scanOrder :=
      pairwise_insertionSort _ _
    have allRows : (inOrder.flatMap (·.rows)).Perm
        (descriptors.flatMap (·.rows)) := perm.flatMap_right _
    have fromLower : (inOrder.flatMap fun segment =>
        atOrAfter scanKey (utf8 loader.lowerBound) segment.rows).Sublist
          (inOrder.flatMap (·.rows)) :=
      List.Sublist.flatMap_right _ fun segment _ => filter_sublist
    have accounts : Accounts heapBytes loader bounds (descriptors.flatMap (·.rows)) .empty
        (rowsLeft loader [] inOrder) := by
      constructor
      case kept => exact ScanPage.empty_kept
      case pageIn => exact fun _ member => nomatch member
      case leftIn =>
        intro row member
        obtain ⟨segment, isSegment, inSegment⟩ := mem_flatMap.mp member
        obtain ⟨isRow, reached⟩ := mem_atOrAfter.mp inSegment
        exact ⟨mem_flatMap.mpr ⟨segment, perm.mem_iff.mp isSegment, isRow⟩, reached⟩
      case distinct =>
        have whole := (allRows.pairwise_iff fun different => Ne.symm different).mpr distinct
        exact whole.sublist fromLower
      case covered =>
        intro row member inRange
        obtain ⟨segment, isSegment, isRow⟩ := mem_flatMap.mp member
        exact .inr (mem_flatMap.mpr ⟨segment, perm.mem_iff.mpr isSegment,
          mem_atOrAfter.mpr ⟨isRow, inRange.1⟩⟩)
    have inTime : openWork ([] : List (SegmentRowIterator Row)) + pendingWork inOrder < fuel := by
      rw [pendingWork_perm perm]
      simpa [openWork] using enough
    have noneOpen :
        ∀ iterator ∈ ([] : List (SegmentRowIterator Row)), AwaitsRefill loader iterator :=
      fun _ member => nomatch member
    obtain ⟨page, result, kept, pageIn, settled⟩ := combineLoop_spec positive 0 noneOpen
      (fun segment member => sorted segment (perm.mem_iff.mp member))
      (byOrder.imp scanOrder_le) accounts inTime
    refine ⟨page.descending.reverse, ?_, ?_⟩
    · rw [ScanLoader.combineSegmentRows, if_neg noRows]
      exact result
    · apply kept.isFirstPage ordered
      · exact fun row member => (memUnion row).mpr (pageIn row member)
      · intro row member
        obtain ⟨inRows, inRange⟩ := (memUnion row).mp member
        exact settled row inRows inRange

/-- Over distinct row keys and whatever memory the refills get, the page has the first rows of
the range in key order, up to a bound. -/
theorem combineSegmentRows_firstPage {Row : Type} (heapBytes : Row → Nat) (loader : ScanLoader)
    (bounds : PageBounds) (descriptors : List (ScanDescriptor Row))
    (sorted : ∀ segment ∈ descriptors, segment.Sorted)
    (distinct : (descriptors.flatMap ScanDescriptor.rows).Pairwise
      fun first second => scanKey first ≠ scanKey second)
    {fuel : Nat} (enough : pendingWork descriptors < fuel) :
    ∃ page union, loader.combineSegmentRows heapBytes bounds descriptors fuel = .ok page ∧
      Ordered scanKey union ∧
      (∀ row, row ∈ union ↔ row ∈ descriptors.flatMap ScanDescriptor.rows ∧ loader.InRange row) ∧
      ScanPage.IsFirstPage heapBytes bounds union page := by
  classical
  obtain ⟨union, ordered, mem⟩ := exists_ordered
    (distinct.filter fun row => decide (loader.InRange row))
  have memUnion : ∀ row, row ∈ union ↔
      row ∈ descriptors.flatMap (·.rows) ∧ loader.InRange row := by
    intro row
    rw [mem, mem_filter, decide_eq_true_eq]
  obtain ⟨page, result, isFirst⟩ :=
    loader.combineSegmentRows_isFirstPage heapBytes bounds sorted distinct enough ordered memUnion
  exact ⟨page, union, result, ordered, memUnion, isFirst⟩

namespace SampleScan

def block (rows : List (String × Nat)) (lastRowKey : String) : ScanBlock Nat :=
  { entry := { lastRowKey
               block := { offset := 0, storedBytes := 10, decodedBytes := 10, crc32c := 0 } }
    rows }

def left : ScanDescriptor Nat :=
  { segmentId := "1", minRowKey := "a", maxRowKey := "b"
    blocks := [block [("a", 1), ("b", 2)] "b"] }

def right : ScanDescriptor Nat :=
  { segmentId := "2", minRowKey := "a", maxRowKey := "c"
    blocks := [block [("a", 3)] "a", block [("c", 4)] "c"] }

def apart : ScanDescriptor Nat :=
  { segmentId := "3", minRowKey := "aa", maxRowKey := "c"
    blocks := [block [("aa", 5)] "aa", block [("c", 6)] "c"] }

def loader : ScanLoader where
  memory := { availableBytes := fun _ => 100, reserve := fun _ _ asked _ => asked }
  blocksPerRefill := .one
  lowerBound := "a"
  upperBound := none

def twoRows : PageBounds := { maxRows := 2, maxBytes := 1000 }

theorem left_sorted : left.Sorted := by
  refine ⟨?_, ?_, ?_, ⟨("b", 2), rfl, rfl⟩⟩
  · unfold Ordered
    decide
  · simp [left, block]
  · decide

theorem right_sorted : right.Sorted := by
  refine ⟨?_, ?_, ?_, ⟨("c", 4), rfl, rfl⟩⟩
  · unfold Ordered
    decide
  · simp [right, block]
  · decide

theorem apart_sorted : apart.Sorted := by
  refine ⟨?_, ?_, ?_, ⟨("c", 6), rfl, rfl⟩⟩
  · unfold Ordered
    decide
  · simp [apart, block]
  · decide

theorem page_of_tie :
    loader.combineSegmentRows (fun _ => 1) twoRows [left, right] 8 = .ok [("a", 3), ("c", 4)] := by
  decide

end SampleScan

open SampleScan in
/-- Two segments with a row at one key: the page leaves out a row before its last one. -/
theorem combineSegmentRows_tie_skips_row :
    left.Sorted ∧ right.Sorted ∧
      ∃ page, loader.combineSegmentRows (fun _ => 1) twoRows [left, right] 8 = .ok page ∧
        ¬∃ union : List (String × Nat),
          (union.Pairwise fun first second => scanKey first ≤ scanKey second) ∧
          (∀ row, row ∈ union ↔ row ∈ left.rows ++ right.rows ∧ loader.InRange row) ∧
          ScanPage.IsFirstPage (fun _ => 1) twoRows union page := by
  refine ⟨left_sorted, right_sorted, _, page_of_tie, ?_⟩
  rintro ⟨union, ordered, mem, count, isTake, _⟩
  have skipped : ("b", 2) ∈ union := (mem ("b", 2)).mpr ⟨by decide, by decide, by simp [loader]⟩
  rw [← take_append_drop count union, ← isTake] at skipped ordered
  have later : ("b", 2) ∈ union.drop count := by simpa using skipped
  have le := (pairwise_append.mp ordered).2.2 ("c", 4) (by decide) ("b", 2) later
  revert le
  decide

open SampleScan in
theorem combineSegmentRows_firstPage_apart :
    ∃ page union, loader.combineSegmentRows (fun _ => 1) twoRows [left, apart] 8 = .ok page ∧
      Ordered scanKey union ∧
      (∀ row, row ∈ union ↔ row ∈ [left, apart].flatMap ScanDescriptor.rows ∧
        loader.InRange row) ∧
      ScanPage.IsFirstPage (fun _ => 1) twoRows union page := by
  apply combineSegmentRows_firstPage
  · intro segment member
    rcases mem_cons.mp member with same | later
    · rw [same]
      exact left_sorted
    · rw [mem_singleton.mp later]
      exact apart_sorted
  · decide
  · decide

end LoonFs
