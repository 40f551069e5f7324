import LoonFs.Foundation.SortedUnion
import LoonFs.Format.Text
import Mathlib.Data.List.Perm.Subperm

/-! # The page of a bounded scan -/

namespace LoonFs

open Foundation List

structure PageBounds where
  maxRows : Nat
  maxBytes : Nat
deriving Repr, DecidableEq

structure ScanPage (Row : Type) where
  descending : List (String × Row)
  rowsBytes : Nat
deriving Repr, DecidableEq

def scanKey (row : String × Row) : Bytes := utf8 row.1

section

variable {Row : Type} (heapBytes : Row → Nat) (bounds : PageBounds)

def rowsHeapBytes (rows : List (String × Row)) : Nat := (rows.map fun row => heapBytes row.2).sum

namespace ScanPage

def empty : ScanPage Row := { descending := [], rowsBytes := 0 }

def full (page : ScanPage Row) : Bool :=
  decide (page.descending.length = bounds.maxRows) ||
    (!page.descending.isEmpty && decide (bounds.maxBytes ≤ page.rowsBytes))

def popLast (page : ScanPage Row) : ScanPage Row :=
  match page.descending with
  | [] => page
  | last :: rest => { descending := rest, rowsBytes := page.rowsBytes - heapBytes last.2 }

/-- A key that the page has gets the new row. -/
def insertRow (row : String × Row) : List (String × Row) → List (String × Row)
  | [] => [row]
  | other :: rest =>
    if utf8 other.1 < utf8 row.1 then row :: other :: rest
    else if utf8 other.1 = utf8 row.1 then row :: rest
    else other :: insertRow row rest

def trim : List (String × Row) → Nat → ScanPage Row
  | last :: earlier :: rest, rowsBytes =>
    if rowsBytes - heapBytes last.2 < bounds.maxBytes then
      { descending := last :: earlier :: rest, rowsBytes }
    else trim (earlier :: rest) (rowsBytes - heapBytes last.2)
  | rows, rowsBytes => { descending := rows, rowsBytes }

def makeRoom (page : ScanPage Row) : ScanPage Row :=
  if page.full bounds ∧ page.descending.length = bounds.maxRows then page.popLast heapBytes
  else page

def add (row : String × Row) (page : ScanPage Row) : ScanPage Row :=
  let page := page.makeRoom heapBytes bounds
  trim heapBytes bounds (insertRow row page.descending) (page.rowsBytes + heapBytes row.2)

def endsBefore (rowKey : String) (page : ScanPage Row) : Bool :=
  page.full bounds && page.descending.head?.any fun last => decide (utf8 last.1 ≤ utf8 rowKey)

structure Kept (page : ScanPage Row) : Prop where
  ordered : page.descending.Pairwise fun left right => scanKey right < scanKey left
  bytes : page.rowsBytes = rowsHeapBytes heapBytes page.descending
  length : page.descending.length ≤ bounds.maxRows
  trimmed : ∀ last earlier rest, page.descending = last :: earlier :: rest →
    rowsHeapBytes heapBytes (earlier :: rest) < bounds.maxBytes

def Beyond (page : ScanPage Row) (row : String × Row) : Prop :=
  page.full bounds = true ∧ ∀ kept ∈ page.descending, scanKey kept < scanKey row

def Settled (page : ScanPage Row) (row : String × Row) : Prop :=
  row ∈ page.descending ∨ page.Beyond bounds row

structure Trims (rows : List (String × Row)) (next : ScanPage Row) : Prop where
  split : ∃ dropped, rows = dropped ++ next.descending ∧
    (dropped ≠ [] → bounds.maxBytes ≤ next.rowsBytes)
  nonempty : next.descending ≠ []
  bytes : next.rowsBytes = rowsHeapBytes heapBytes next.descending
  trimmed : ∀ last earlier rest, next.descending = last :: earlier :: rest →
    rowsHeapBytes heapBytes (earlier :: rest) < bounds.maxBytes

structure Adds (page : ScanPage Row) (row : String × Row) (next : ScanPage Row) : Prop where
  kept : next.Kept heapBytes bounds
  rows : List.Subperm next.descending (row :: page.descending)
  row : next.Settled bounds row
  settled : ∀ other, page.Settled bounds other → next.Settled bounds other

def Reaches (rows : List (String × Row)) : Prop :=
  rows.length = bounds.maxRows ∨ rows ≠ [] ∧ bounds.maxBytes ≤ rowsHeapBytes heapBytes rows

def IsFirstPage (union rows : List (String × Row)) : Prop :=
  ∃ count, rows = union.take count ∧
    (∀ fewer < count, ¬Reaches heapBytes bounds (union.take fewer)) ∧
    (Reaches heapBytes bounds (union.take count) ∨ union.length ≤ count)

variable {heapBytes bounds}

theorem isFirstPage_nil {union : List (String × Row)} (ended : bounds.maxRows = 0 ∨ union = []) :
    IsFirstPage heapBytes bounds union [] := by
  refine ⟨0, rfl, fun fewer less => absurd less (Nat.not_lt_zero fewer), ?_⟩
  rcases ended with noRows | noUnion
  · exact .inl (.inl noRows.symm)
  · exact .inr (by rw [noUnion]; rfl)

theorem empty_kept : (empty : ScanPage Row).Kept heapBytes bounds :=
  ⟨.nil, rfl, Nat.zero_le _, fun _ _ _ isCons => nomatch isCons⟩

@[simp] theorem rowsHeapBytes_cons (row : String × Row) (rows : List (String × Row)) :
    rowsHeapBytes heapBytes (row :: rows) = heapBytes row.2 + rowsHeapBytes heapBytes rows := by
  simp [rowsHeapBytes]

variable {page : ScanPage Row}

theorem full_iff : page.full bounds = true ↔ page.descending.length = bounds.maxRows ∨
      page.descending ≠ [] ∧ bounds.maxBytes ≤ page.rowsBytes := by
  simp [full]

theorem trim_spec (rows : List (String × Row)) (someRows : rows ≠ []) : Trims heapBytes bounds rows
      (trim heapBytes bounds rows (rowsHeapBytes heapBytes rows)) := by
  induction rows with
  | nil => exact absurd rfl someRows
  | cons last rows induction =>
    cases rows with
    | nil =>
      refine ⟨⟨[], rfl, fun dropped => absurd rfl dropped⟩, someRows, rfl, ?_⟩
      intro last past rest isCons
      cases isCons
    | cons past rest =>
      have left : rowsHeapBytes heapBytes (last :: past :: rest) - heapBytes last.2 =
          rowsHeapBytes heapBytes (past :: rest) := by
        rw [rowsHeapBytes_cons]
        omega
      rw [trim, left]
      by_cases below : rowsHeapBytes heapBytes (past :: rest) < bounds.maxBytes
      · rw [if_pos below]
        refine ⟨⟨[], rfl, fun dropped => absurd rfl dropped⟩, someRows, rfl, ?_⟩
        intro last' earlier' rest' same
        cases same
        exact below
      · rw [if_neg below]
        have trims := induction (cons_ne_nil _ _)
        obtain ⟨dropped, split, reached⟩ := trims.split
        refine ⟨⟨last :: dropped, by rw [cons_append, ← split], ?_⟩, trims.nonempty,
          trims.bytes, trims.trimmed⟩
        intro _
        by_cases more : dropped = []
        · rw [more, nil_append] at split
          rw [trims.bytes, ← split]
          omega
        · exact reached more

variable {row : String × Row}

theorem insertRow_perm (new : ∀ other ∈ rows, scanKey other ≠ scanKey row) :
    (insertRow row rows).Perm (row :: rows) := by
  induction rows with
  | nil => exact .refl _
  | cons other rest induction =>
    rw [insertRow]
    by_cases less : utf8 other.1 < utf8 row.1
    · rw [if_pos less]
    · have ne : utf8 other.1 ≠ utf8 row.1 := new other mem_cons_self
      rw [if_neg less, if_neg ne]
      exact ((induction fun later mem => new later (mem_cons_of_mem _ mem)).cons
        other).trans (.swap ..)

theorem insertRow_ordered (ordered : rows.Pairwise fun left right => scanKey right < scanKey left)
    (new : ∀ other ∈ rows, scanKey other ≠ scanKey row) :
    (insertRow row rows).Pairwise fun left right => scanKey right < scanKey left := by
  induction rows with
  | nil => exact pairwise_singleton _ _
  | cons other rest induction =>
    obtain ⟨after, ordered⟩ := pairwise_cons.mp ordered
    have newRest : ∀ later ∈ rest, scanKey later ≠ scanKey row :=
      fun later mem => new later (mem_cons_of_mem _ mem)
    rw [insertRow]
    by_cases less : utf8 other.1 < utf8 row.1
    · rw [if_pos less]
      apply pairwise_cons.mpr
      refine ⟨?_, pairwise_cons.mpr ⟨after, ordered⟩⟩
      intro later mem
      rcases mem_cons.mp mem with same | inRest
      · rw [same]
        exact less
      · exact (after later inRest).trans less
    · have ne : utf8 other.1 ≠ utf8 row.1 := new other mem_cons_self
      rw [if_neg less, if_neg ne]
      apply pairwise_cons.mpr
      refine ⟨?_, induction ordered newRest⟩
      intro later mem
      rcases mem_cons.mp ((insertRow_perm newRest).mem_iff.mp mem) with same | inRest
      · rw [same]
        exact lt_of_le_of_ne (not_lt.mp less) ne.symm
      · exact after later inRest

theorem rowsHeapBytes_perm {left : List (String × Row)} (perm : left.Perm right) :
    rowsHeapBytes heapBytes left = rowsHeapBytes heapBytes right :=
  (perm.map _).sum_nat

theorem makeRoom_cases (kept : page.Kept heapBytes bounds) (positive : 0 < bounds.maxRows) :
    (page.makeRoom heapBytes bounds).rowsBytes =
        rowsHeapBytes heapBytes (page.makeRoom heapBytes bounds).descending ∧
      ((page.makeRoom heapBytes bounds).descending = page.descending ∧
        page.descending.length < bounds.maxRows ∨
      ∃ last, page.descending = last :: (page.makeRoom heapBytes bounds).descending ∧
        page.descending.length = bounds.maxRows) := by
  by_cases atBound : page.descending.length = bounds.maxRows
  · have isFull := full_iff.mpr (.inl atBound)
    rw [makeRoom, if_pos ⟨isFull, atBound⟩, popLast]
    cases isRows : page.descending with
    | nil =>
      rw [isRows, length_nil] at atBound
      omega
    | cons last rest =>
      refine ⟨?_, .inr ⟨last, rfl, isRows ▸ atBound⟩⟩
      have bytes := kept.bytes
      rw [isRows, rowsHeapBytes_cons] at bytes
      dsimp only
      omega
  · rw [makeRoom, if_neg fun both => atBound both.2]
    exact ⟨kept.bytes, .inl ⟨rfl, lt_of_le_of_ne kept.length atBound⟩⟩

theorem lt_last_of_goesIn (goesIn : page.endsBefore bounds row.1 = false)
    (isFull : page.full bounds = true) (isRows : page.descending = last :: rest) :
    scanKey row < scanKey last := by
  rw [endsBefore, isFull, isRows, Bool.true_and, List.head?_cons, Option.any_some,
    decide_eq_false_iff_not, not_le] at goesIn
  exact goesIn

theorem beyond_of_endsBefore (kept : page.Kept heapBytes bounds)
    (new : ∀ other ∈ page.descending, scanKey other ≠ scanKey row)
    (ends : page.endsBefore bounds row.1 = true) : page.Beyond bounds row := by
  rw [endsBefore, Bool.and_eq_true] at ends
  refine ⟨ends.1, ?_⟩
  have ordered := kept.ordered
  cases isRows : page.descending with
  | nil => exact fun _ mem => nomatch mem
  | cons last rest =>
    rw [isRows] at ends new ordered
    have le : scanKey last ≤ scanKey row := by simpa [scanKey] using ends.2
    have less := lt_of_le_of_ne le (new last mem_cons_self)
    intro other mem
    rcases mem_cons.mp mem with same | later
    · rw [same]
      exact less
    · exact ((pairwise_cons.mp ordered).1 other later).trans less

theorem Trims.adds {base : ScanPage Row}
    (ordered : base.descending.Pairwise fun left right => scanKey right < scanKey left)
    (short : base.descending.length < bounds.maxRows)
    (new : ∀ other ∈ base.descending, scanKey other ≠ scanKey row)
    (trims : Trims heapBytes bounds (insertRow row base.descending) moved) :
    moved.Kept heapBytes bounds ∧ List.Subperm moved.descending (row :: base.descending) ∧
      (∀ other, other ∈ row :: base.descending → moved.Settled bounds other) ∧
      (base.descending.length + 1 = bounds.maxRows ∨
        bounds.maxBytes ≤ rowsHeapBytes heapBytes (row :: base.descending) →
        moved.full bounds = true) := by
  obtain ⟨dropped, split, reached⟩ := trims.split
  have perm := insertRow_perm new
  have inserted := insertRow_ordered ordered new
  have length := perm.length_eq
  have bytes : rowsHeapBytes heapBytes (insertRow row base.descending) =
      rowsHeapBytes heapBytes (row :: base.descending) := rowsHeapBytes_perm perm
  rw [split] at perm inserted length bytes
  rw [length_append, length_cons] at length
  have nextSub : moved.descending.Sublist (dropped ++ moved.descending) := sublist_append_right ..
  have fullIfDropped : dropped ≠ [] → moved.full bounds = true :=
    fun some => full_iff.mpr (.inr ⟨trims.nonempty, reached some⟩)
  refine ⟨⟨inserted.sublist nextSub, trims.bytes, by omega, trims.trimmed⟩,
    nextSub.subperm.trans perm.subperm, ?_, ?_⟩
  · intro other mem
    rcases mem_append.mp (perm.mem_iff.mpr mem) with inDropped | inNext
    · refine .inr ⟨fullIfDropped (ne_nil_of_mem inDropped), ?_⟩
      intro kept isKept
      exact (pairwise_append.mp inserted).2.2 other inDropped kept isKept
    · exact .inl inNext
  · intro atBound
    by_cases some : dropped = []
    · rw [some, nil_append] at bytes
      rw [some, length_nil] at length
      rcases atBound with rows | enough
      · exact full_iff.mpr (.inl (by omega))
      · exact full_iff.mpr (.inr ⟨trims.nonempty, by rw [trims.bytes, bytes]; exact enough⟩)
    · exact fullIfDropped some

theorem add_spec (kept : page.Kept heapBytes bounds) (positive : 0 < bounds.maxRows)
    (new : ∀ other ∈ page.descending, scanKey other ≠ scanKey row)
    (goesIn : page.endsBefore bounds row.1 = false) :
    page.Adds heapBytes bounds row (page.add heapBytes bounds row) := by
  obtain ⟨roomBytes, room⟩ := makeRoom_cases kept positive
  rw [add]
  generalize page.makeRoom heapBytes bounds = base at roomBytes room
  have baseSub : base.descending.Sublist page.descending := by
    rcases room with ⟨same, _⟩ | ⟨last, isRows, _⟩
    · rw [same]
    · rw [isRows]
      exact sublist_cons_self ..
  have short : base.descending.length < bounds.maxRows := by
    rcases room with ⟨same, short⟩ | ⟨last, isRows, atBound⟩
    · rw [same]
      exact short
    · rw [isRows, length_cons] at atBound
      omega
  have newBase : ∀ other ∈ base.descending, scanKey other ≠ scanKey row :=
    fun other member => new other (baseSub.subset member)
  have someRows : insertRow row base.descending ≠ [] := by
    have mem : row ∈ insertRow row base.descending :=
      (insertRow_perm newBase).mem_iff.mpr mem_cons_self
    exact ne_nil_of_mem mem
  have bytes : base.rowsBytes + heapBytes row.2 =
      rowsHeapBytes heapBytes (insertRow row base.descending) := by
    rw [rowsHeapBytes_perm (insertRow_perm newBase), rowsHeapBytes_cons, roomBytes]
    omega
  rw [bytes]
  obtain ⟨nextKept, rows, settled, isFull⟩ :=
    (trim_spec _ someRows).adds (kept.ordered.sublist baseSub) short newBase
  generalize trim heapBytes bounds (insertRow row base.descending) _ = moved at *
  -- A full page stays full: it had as many rows, or its bytes and one more row's.
  have staysFull : page.full bounds = true → moved.full bounds = true := by
    intro wasFull
    apply isFull
    rcases room with ⟨same, tooShort⟩ | ⟨last, isRows, atBound⟩
    · rcases full_iff.mp wasFull with atBound | ⟨_, enough⟩
      · omega
      · right
        rw [rowsHeapBytes_cons, same, ← kept.bytes]
        omega
    · left
      rw [← atBound, isRows, length_cons]
  have rowsIn : ∀ other ∈ moved.descending, other = row ∨ other ∈ page.descending := by
    intro other member
    rcases mem_cons.mp (rows.subset member) with same | inBase
    · exact .inl same
    · exact .inr (baseSub.subset inBase)
  refine ⟨nextKept, rows.trans (baseSub.cons_cons row).subperm, settled row mem_cons_self, ?_⟩
  intro other wasSettled
  rcases wasSettled with inPage | ⟨wasFull, past⟩
  · rcases room with ⟨same, _⟩ | ⟨last, isRows, atBound⟩
    · exact settled other (mem_cons_of_mem _ (same ▸ inPage))
    · have wasFull := full_iff.mpr (.inl atBound)
      rw [isRows] at inPage
      rcases mem_cons.mp inPage with isLast | inBase
      · refine .inr ⟨staysFull wasFull, ?_⟩
        intro later isLater
        have ordered := kept.ordered
        rw [isRows] at ordered
        rw [isLast]
        rcases mem_cons.mp (rows.subset isLater) with isRow | inBase
        · rw [isRow]
          exact lt_last_of_goesIn goesIn wasFull isRows
        · exact (pairwise_cons.mp ordered).1 later inBase
      · exact settled other (mem_cons_of_mem _ inBase)
  · refine .inr ⟨staysFull wasFull, ?_⟩
    intro later isLater
    rcases rowsIn later isLater with isRow | inPage
    · rw [isRow]
      cases isRows : page.descending with
      | nil =>
        rcases full_iff.mp wasFull with atBound | ⟨nonempty, _⟩
        · rw [isRows, length_nil] at atBound
          omega
        · exact absurd isRows nonempty
      | cons last rest =>
        have before := past last (isRows ▸ mem_cons_self)
        exact (lt_last_of_goesIn goesIn wasFull isRows).trans before
    · exact past later inPage

theorem rowsHeapBytes_take_le (rows : List (String × Row)) (count : Nat) :
    rowsHeapBytes heapBytes (rows.take count) ≤ rowsHeapBytes heapBytes rows := by
  conv_rhs => rw [← take_append_drop count rows]
  rw [rowsHeapBytes, rowsHeapBytes, map_append, sum_append]
  exact Nat.le_add_right _ _

theorem Kept.not_reaches (kept : page.Kept heapBytes bounds)
    (less : fewer < page.descending.length) :
    ¬Reaches heapBytes bounds (page.descending.reverse.take fewer) := by
  have length : (page.descending.reverse.take fewer).length = fewer := by
    rw [length_take, length_reverse]
    omega
  rintro (atBound | ⟨some, enough⟩)
  · have atMost := kept.length
    omega
  · cases isRows : page.descending with
    | nil =>
      rw [isRows] at less
      cases less
    | cons last past =>
      rw [isRows] at some enough less
      have inEarlier : (last :: past).reverse.take fewer = past.reverse.take fewer := by
        rw [reverse_cons, take_append_of_le_length]
        rw [length_reverse]
        exact Nat.le_of_lt_succ less
      rw [inEarlier] at some enough
      have below : rowsHeapBytes heapBytes (past.reverse.take fewer) ≤
          rowsHeapBytes heapBytes past.reverse := rowsHeapBytes_take_le ..
      rw [rowsHeapBytes_perm (reverse_perm past)] at below
      cases past with
      | nil => exact some (by simp)
      | cons moved rest =>
        have short := kept.trimmed last moved rest isRows
        omega

theorem Kept.isFirstPage (kept : page.Kept heapBytes bounds) (ordered : Ordered scanKey union)
    (inUnion : ∀ row ∈ page.descending, row ∈ union)
    (settled : ∀ row ∈ union, page.Settled bounds row) :
    IsFirstPage heapBytes bounds union page.descending.reverse := by
  have ascending := pairwise_reverse.mpr kept.ordered
  obtain ⟨rest, split⟩ := ordered.eq_append ascending
    (fun row mem => inUnion row (mem_reverse.mp mem)) (by
      intro row mem
      rcases settled row mem with inPage | ⟨_, past⟩
      · exact .inl (mem_reverse.mpr inPage)
      · exact .inr fun other isOther => past other (mem_reverse.mp isOther))
  have isTake : page.descending.reverse = union.take page.descending.length := by
    rw [split, ← length_reverse, take_left']
    rfl
  refine ⟨page.descending.length, isTake, ?_, ?_⟩
  · intro fewer less
    have sameTake : union.take fewer = page.descending.reverse.take fewer := by
      rw [isTake, take_take, Nat.min_eq_left less.le]
    rw [sameTake]
    exact kept.not_reaches less
  · rw [← isTake]
    by_cases isFull : page.full bounds = true
    · left
      rcases full_iff.mp isFull with atBound | ⟨nonempty, enough⟩
      · exact .inl (by rw [length_reverse, atBound])
      · refine .inr ⟨by simpa using nonempty, ?_⟩
        rw [rowsHeapBytes_perm (reverse_perm _), ← kept.bytes]
        exact enough
    · right
      have noRest : rest = [] := by
        apply eq_nil_iff_forall_not_mem.mpr
        intro row mem
        have inUnionToo := split ▸ mem_append_right _ mem
        rcases settled row inUnionToo with inPage | ⟨wasFull, _⟩
        · rw [split] at ordered
          have less := (pairwise_append.mp ordered).2.2 row (mem_reverse.mpr inPage) row
            mem
          exact lt_irrefl _ less
        · exact isFull wasFull
      rw [split, noRest, append_nil, length_reverse]

end ScanPage

end

end LoonFs
