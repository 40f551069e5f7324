import LoonFs.Metadata.Visibility
import LoonFs.Metadata.State
import LoonFs.Types.EffectiveLimit
import Mathlib.Data.List.Sort

/-! # The commit scan -/

namespace LoonFs

open List

inductive HistoryPosition where
  | diffStart (fromSeq : ChangeSeq)
deriving DecidableEq

inductive ChangeReadError where
  | namespaceDeleted (namespaceId : NamespaceId)
  | rebootstrapRequired (below : HistoryPosition) (retentionFloorSeq : ChangeSeq)
  | invalidDiffRange (param message : String)
  | invalidEventIndex (message : String)
  | visibility (error : VisiblePathError)
  /-- Only the model's page loop returns this, when its step budget is too small. -/
  | pageUnfinished
deriving DecidableEq

inductive CommitSplitting where
  | whole
  | atPageBudget
deriving DecidableEq

def changeFeedPageBytes : Nat := 4 * 1024 * 1024

def ensureEventIndexAllowed (eventIndex : Nat) (splitting : CommitSplitting) :
    Except ChangeReadError Unit :=
  if eventIndex > 0 ∧ splitting = .whole then
    .error (.invalidEventIndex "a position inside a commit requires `split_commits`")
  else .ok ()

/-! ## Commits in order -/

def takeWithin (heapBytes : Record → Nat) (maxBytes : Nat) : Nat → Nat → List Record → List Record
  | 0, _, _ => []
  | _, _, [] => []
  | limit + 1, pageBytes, record :: rest =>
    if pageBytes ≥ maxBytes then []
    else record :: takeWithin heapBytes maxBytes limit (pageBytes + heapBytes record) rest

theorem takeWithin_isPrefix (heapBytes : Record → Nat) (maxBytes : Nat) :
    ∀ limit pageBytes (records : List Record),
      (takeWithin heapBytes maxBytes limit pageBytes records).IsPrefix records
  | 0, _, _ => by simp [takeWithin]
  | limit + 1, _, [] => by simp [takeWithin]
  | limit + 1, pageBytes, record :: rest => by
      rw [takeWithin]
      split
      · exact nil_prefix
      · exact (prefix_cons_inj record).mpr (takeWithin_isPrefix heapBytes maxBytes ..)

theorem takeWithin_ne_nil {heapBytes : Record → Nat} (bytesLeft : 0 < maxBytes)
    (commitsLeft : 0 < limit) (nonempty : records ≠ []) :
    takeWithin heapBytes maxBytes limit 0 records ≠ [] := by
  match limit, commitsLeft, records, nonempty with
  | limit + 1, _, record :: rest, _ => simp [takeWithin, Nat.pos_iff_ne_zero.mp bytesLeft]

namespace FamilyRows

variable (rows : FamilyRows)

def commitsBetween (afterSeq throughSeq : ChangeSeq) : List WalCommitPayload :=
  (rows.commits.filter fun record =>
    afterSeq < record.committedSeq ∧ record.committedSeq ≤ throughSeq).insertionSort
      fun left right => left.committedSeq ≤ right.committedSeq

def commitsAfter (heapBytes : WalCommitPayload → Nat) (visibleSeq afterSeq : ChangeSeq)
    (limit maxBytes : Nat) : List WalCommitPayload :=
  takeWithin heapBytes maxBytes limit 0 (rows.commitsBetween afterSeq visibleSeq)

def commitAtSeq (visibleSeq seq : ChangeSeq) : Option WalCommitPayload :=
  if seq > visibleSeq then none
  else rows.commits.find? fun record => record.committedSeq = seq

theorem mem_commitsBetween : record ∈ rows.commitsBetween afterSeq throughSeq ↔
      record ∈ rows.commits ∧ afterSeq < record.committedSeq ∧
        record.committedSeq ≤ throughSeq := by
  simp [commitsBetween, mem_insertionSort]

def CommitsOrdered : Prop :=
  rows.commits.Pairwise fun left right => left.committedSeq < right.committedSeq

variable {rows}

theorem CommitsOrdered.commitsBetween (ordered : rows.CommitsOrdered)
    (afterSeq throughSeq : ChangeSeq) :
    rows.commitsBetween afterSeq throughSeq = rows.commits.filter fun record =>
      afterSeq < record.committedSeq ∧ record.committedSeq ≤ throughSeq := by
  apply List.Pairwise.insertionSort_eq
  exact (ordered.filter _).imp fun less => less.le

theorem CommitsOrdered.commitsBetween_rest (ordered : rows.CommitsOrdered)
    (unread : rows.commitsBetween afterSeq throughSeq = record :: rest) :
    rows.commitsBetween record.committedSeq throughSeq = rest := by
  have mem : record ∈ rows.commitsBetween afterSeq throughSeq := by simp [unread]
  have bounds := (rows.mem_commitsBetween.mp mem).2
  have sorted : (record :: rest).Pairwise fun left right =>
      left.committedSeq < right.committedSeq := by
    rw [← unread, ordered.commitsBetween]
    exact ordered.filter _
  rw [ordered.commitsBetween] at unread ⊢
  have narrower : rows.commits.filter (fun other =>
        record.committedSeq < other.committedSeq ∧ other.committedSeq ≤ throughSeq) =
      (record :: rest).filter fun other => record.committedSeq < other.committedSeq := by
    rw [← unread, filter_filter]
    apply filter_congr
    intro other _
    have later : record.committedSeq < other.committedSeq → afterSeq < other.committedSeq :=
      bounds.1.trans
    by_cases less : record.committedSeq < other.committedSeq <;> simp [less, later]
  rw [narrower, filter_cons_of_neg (by simp)]
  apply filter_eq_self.mpr
  intro other isRest
  simpa using (pairwise_cons.mp sorted).1 other isRest

end FamilyRows

/-! ## The scan -/

structure ScannedCommit where
  record : WalCommitPayload
  firstEventIndex : Nat

structure CommitScan where
  /-- The sequence of the view that the scan reads. -/
  visibleSeq : ChangeSeq
  limit : EffectiveLimit
  splitting : CommitSplitting
  maxPageBytes : Nat
  throughSeq : ChangeSeq
  fetched : List WalCommitPayload
  resumeEventIndex : Option Nat
  nextEventIndex : Option Nat
  commits : Nat
  pageBytes : Nat
  full : Bool

namespace CommitScan

def new (visibleSeq afterSeq : ChangeSeq) (eventIndex : Nat) (limit : EffectiveLimit)
    (splitting : CommitSplitting) (maxPageBytes : Nat) : CommitScan where
  visibleSeq
  limit
  splitting
  maxPageBytes
  throughSeq := afterSeq
  fetched := []
  resumeEventIndex := if eventIndex > 0 then some eventIndex else none
  nextEventIndex := none
  commits := 0
  pageBytes := 0
  full := false

section

variable (rows : FamilyRows) (heapBytes : WalCommitPayload → Nat) (scan : CommitScan)
  (commitsAfter : ChangeSeq → ChangeSeq → Nat → Nat → List WalCommitPayload)
  (commitAtSeq : ChangeSeq → ChangeSeq → Option WalCommitPayload)

/-- The commits that the scan reads next, from its last batch or from the
view. -/
def refill : List WalCommitPayload :=
  if scan.fetched.isEmpty then
    commitsAfter scan.visibleSeq scan.throughSeq
      (scan.limit.value - scan.commits) (scan.maxPageBytes - scan.pageBytes)
  else scan.fetched

/-- The next commit for the page, or nothing once the page has ended. -/
def nextFrom : Except ChangeReadError (Option ScannedCommit × CommitScan) :=
  match scan.resumeEventIndex with
  | some firstEventIndex =>
    match commitAtSeq scan.visibleSeq scan.throughSeq with
    | none => .error (.invalidEventIndex
        ("no commit at sequence `" ++ toString scan.throughSeq ++ "` to resume"))
    | some record => .ok (some { record, firstEventIndex }, { scan with resumeEventIndex := none })
  | none =>
    if scan.full ∨ scan.limit.value - scan.commits = 0 ∨
        scan.throughSeq ≥ scan.visibleSeq then .ok (none, scan)
    else
      match scan.refill commitsAfter with
      | [] => .ok (none, { scan with fetched := [], throughSeq := scan.visibleSeq })
      | record :: fetched => .ok (some { record, firstEventIndex := 0 }, { scan with fetched })

def next : Except ChangeReadError (Option ScannedCommit × CommitScan) :=
  scan.nextFrom (rows.commitsAfter heapBytes) rows.commitAtSeq

def admitCommit (committedSeq : ChangeSeq) (bytes : Nat) : Bool × CommitScan :=
  let pageBytes := scan.pageBytes + bytes
  if scan.commits > 0 ∧ pageBytes > scan.maxPageBytes then
    (false, { scan with full := true })
  else
    (true, { scan with
      pageBytes
      throughSeq := committedSeq
      commits := scan.commits + 1
      full := pageBytes ≥ scan.maxPageBytes })

def admitPart (committedSeq : ChangeSeq) (bytes nextEventIndex : Nat) : CommitScan :=
  { scan with
    pageBytes := scan.pageBytes + bytes
    throughSeq := committedSeq
    nextEventIndex := some nextEventIndex
    commits := scan.commits + 1
    full := true }

def endPage : CommitScan := { scan with full := true }

def nextAfterSeq : Option ChangeSeq :=
  if scan.nextEventIndex.isSome ∨ scan.throughSeq < scan.visibleSeq then some scan.throughSeq
  else none

end

/-! ## Whole commits -/

/-- A page of whole commits on its way; `unread` is everything after its last commit. -/
structure Reading (rows : FamilyRows) (scan : CommitScan) (unread : List WalCommitPayload) :
    Prop where
  notResuming : scan.resumeEventIndex = none
  notSplit : scan.nextEventIndex = none
  rest : rows.commitsBetween scan.throughSeq scan.visibleSeq = unread
  fetched : scan.full = false → scan.fetched.IsPrefix unread
  bytesLeft : scan.full = false → scan.pageBytes < scan.maxPageBytes

def Ended (scan : CommitScan) (unread : List WalCommitPayload) : Prop :=
  scan.full = true ∨ scan.limit.value ≤ scan.commits ∨ unread = []

variable {rows : FamilyRows} {scan : CommitScan}

theorem Reading.refill (heapBytes : WalCommitPayload → Nat)
    (reading : scan.Reading rows unread) (continues : ¬scan.Ended unread) :
    ∃ record rest fetched, unread = record :: rest ∧
      scan.refill (rows.commitsAfter heapBytes) = record :: fetched ∧
      fetched.IsPrefix rest := by
  simp only [Ended, not_or, Bool.not_eq_true, not_le] at continues
  have starts : (scan.refill (rows.commitsAfter heapBytes)).IsPrefix unread := by
    rw [CommitScan.refill]
    split
    · rw [← reading.rest]
      exact takeWithin_isPrefix ..
    · exact reading.fetched continues.1
  have nonempty : scan.refill (rows.commitsAfter heapBytes) ≠ [] := by
    rw [CommitScan.refill]
    split
    · rw [FamilyRows.commitsAfter, reading.rest]
      have bytesLeft := reading.bytesLeft continues.1
      exact takeWithin_ne_nil (by omega) (by omega) continues.2.2
    · rename_i some
      simpa using some
  match refilled : scan.refill (rows.commitsAfter heapBytes), nonempty with
  | record :: fetched, _ =>
    rw [refilled] at starts
    rcases starts with ⟨after, eq⟩
    exact ⟨record, fetched ++ after, fetched, eq.symm, rfl, prefix_append ..⟩

theorem Reading.next_of_ended (heapBytes : WalCommitPayload → Nat)
    (reading : scan.Reading rows unread) (ended : scan.Ended unread) :
    ∃ final : CommitScan, scan.next rows heapBytes = .ok (none, final) ∧
      final.Reading rows unread ∧ final.visibleSeq = scan.visibleSeq ∧
      scan.throughSeq ≤ final.throughSeq := by
  by_cases stops : scan.full = true ∨ scan.limit.value - scan.commits = 0 ∨
      scan.throughSeq ≥ scan.visibleSeq
  · exact ⟨scan, by simp [next, nextFrom, reading.notResuming, stops], reading, rfl, le_rfl⟩
  · have notFull : scan.full = false := by
      by_contra full
      exact stops (.inl (by simpa using full))
    have nothing : unread = [] := by
      rcases ended with full | reached | nothing
      · exact absurd (.inl full) stops
      · exact absurd (.inr (.inl (by omega))) stops
      · exact nothing
    have refilled : scan.refill (rows.commitsAfter heapBytes) = [] := by
      rw [CommitScan.refill]
      split
      · rw [FamilyRows.commitsAfter, reading.rest, nothing]
        cases scan.limit.value - scan.commits <;> rfl
      · exact prefix_nil.mp (nothing ▸ reading.fetched notFull)
    have atEnd : ∀ seq, rows.commitsBetween seq seq = [] := by
      intro seq
      refine eq_nil_iff_forall_not_mem.mpr fun record mem => ?_
      have bounds := (rows.mem_commitsBetween.mp mem).2
      exact absurd bounds.2 (not_le.mpr bounds.1)
    refine ⟨{ scan with fetched := [], throughSeq := scan.visibleSeq }, ?_,
      ⟨reading.notResuming, reading.notSplit, ?_, fun _ => nil_prefix, reading.bytesLeft⟩, rfl, ?_⟩
    · simp only [next, nextFrom, reading.notResuming, if_neg stops, refilled]
    · rw [nothing]
      exact atEnd scan.visibleSeq
    · simp only [not_or, ge_iff_le, not_le] at stops
      exact stops.2.2.le

theorem Reading.next_of_continues (heapBytes : WalCommitPayload → Nat)
    (reading : scan.Reading rows unread) (continues : ¬scan.Ended unread) :
    ∃ record rest fetched, unread = record :: rest ∧ fetched.IsPrefix rest ∧
      scan.next rows heapBytes =
        .ok (some { record, firstEventIndex := 0 }, { scan with fetched }) := by
  rcases reading.refill heapBytes continues with ⟨record, rest, fetched, isUnread, refilled, starts⟩
  have mem : record ∈ rows.commitsBetween scan.throughSeq scan.visibleSeq := by
    simp [reading.rest, isUnread]
  have bounds := (rows.mem_commitsBetween.mp mem).2
  simp only [Ended, not_or, Bool.not_eq_true, not_le] at continues
  have goesOn : ¬(scan.full = true ∨ scan.limit.value - scan.commits = 0 ∨
      scan.throughSeq ≥ scan.visibleSeq) := by
    simp only [continues.1, Bool.false_eq_true, false_or, not_or, ge_iff_le, not_le]
    exact ⟨by omega, bounds.1.trans_le bounds.2⟩
  refine ⟨record, rest, fetched, isUnread, starts, ?_⟩
  simp only [next, nextFrom, reading.notResuming, if_neg goesOn, refilled]

theorem Reading.taken (ordered : rows.CommitsOrdered) {rest fetched : List WalCommitPayload}
    {taken : CommitScan} (reading : scan.Reading rows (record :: rest))
    (starts : fetched.IsPrefix rest)
    (fits : { scan with fetched }.admitCommit record.committedSeq bytes = (true, taken)) :
    taken.Reading rows rest ∧ taken.throughSeq = record.committedSeq ∧
      taken.visibleSeq = scan.visibleSeq := by
  rw [admitCommit] at fits
  split at fits
  · cases fits
  · cases fits
    refine ⟨⟨reading.notResuming, reading.notSplit,
      ordered.commitsBetween_rest reading.rest, fun _ => starts, ?_⟩, rfl, rfl⟩
    simp

theorem Reading.endPage (reading : scan.Reading rows unread) : scan.endPage.Reading rows unread :=
  ⟨reading.notResuming, reading.notSplit, reading.rest, by simp [CommitScan.endPage],
    by simp [CommitScan.endPage]⟩

end CommitScan

end LoonFs
