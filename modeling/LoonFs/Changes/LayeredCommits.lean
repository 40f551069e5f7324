import LoonFs.Changes.CommitScan

/-! # Commits in layers -/

namespace LoonFs

structure CommitLayers where
  manifestRuns : List (List WalCommitPayload)
  rowStates : List (List WalCommitPayload)
  /-- The head that the manifest is folded at. -/
  basisHeadSeq : ChangeSeq
  folded : ∀ record ∈ manifestRuns.flatten, record.committedSeq ≤ basisHeadSeq
  unfolded : ∀ record ∈ rowStates.flatten, basisHeadSeq < record.committedSeq
  runsDistinct : (manifestRuns.flatten.map WalCommitPayload.committedSeq).Nodup
  statesDistinct : (rowStates.flatten.map WalCommitPayload.committedSeq).Nodup

def sortedCommits (commits : List WalCommitPayload) : List WalCommitPayload :=
  commits.insertionSort fun left right => left.committedSeq ≤ right.committedSeq

/-- The first rows of a bounded scan, through the row that takes its bytes to the bound. -/
def scannedPage (heapBytes : Record → Nat) (limit maxBytes : Nat) : List Record → List Record
  | [] => []
  | record :: rest =>
    if limit = 0 then []
    else record :: takeWithin heapBytes maxBytes (limit - 1) (heapBytes record) rest

namespace CommitLayers

section

variable (layers : CommitLayers) (heapBytes : WalCommitPayload → Nat)

def commitsAfterPage (afterSeq : ChangeSeq) (limit maxBytes : Nat) : List WalCommitPayload :=
  scannedPage heapBytes limit maxBytes
    ((sortedCommits layers.manifestRuns.flatten).filter fun record =>
      afterSeq < record.committedSeq)

def commitsAfter (visibleSeq afterSeq : ChangeSeq) (limit maxBytes : Nat) : List WalCommitPayload :=
  if limit = 0 then []
  else
    let page := (layers.commitsAfterPage heapBytes afterSeq limit maxBytes).filter fun record =>
      record.committedSeq ≤ visibleSeq
    let pageBytes := (page.map heapBytes).sum
    if page.length = limit ∨ pageBytes ≥ maxBytes then page
    else
      let tail := layers.rowStates.flatten.filter fun record =>
        afterSeq < record.committedSeq ∧ record.committedSeq ≤ visibleSeq
      page ++ takeWithin heapBytes maxBytes (limit - page.length) pageBytes (sortedCommits tail)

def commitAtSeq (visibleSeq seq : ChangeSeq) : Option WalCommitPayload :=
  if seq > visibleSeq then none
  else
    match layers.rowStates.flatten.find? fun record => record.committedSeq = seq with
    | some record => some record
    | none => layers.manifestRuns.flatten.find? fun record => record.committedSeq = seq

/-- All commits of the view in one list, in sequence order. -/
def flat : FamilyRows where
  commits := sortedCommits layers.manifestRuns.flatten ++ sortedCommits layers.rowStates.flatten

end

end CommitLayers

variable {commits : List WalCommitPayload}

theorem mem_sortedCommits {record : WalCommitPayload} :
    record ∈ sortedCommits commits ↔ record ∈ commits :=
  List.mem_insertionSort _

theorem sortedCommits_ordered (distinct : (commits.map WalCommitPayload.committedSeq).Nodup) :
    (sortedCommits commits).Pairwise fun left right => left.committedSeq < right.committedSeq := by
  have sorted : (sortedCommits commits).Pairwise fun left right =>
      left.committedSeq ≤ right.committedSeq := List.pairwise_insertionSort _ _
  have ne : (sortedCommits commits).Pairwise fun left right =>
      left.committedSeq ≠ right.committedSeq := by
    have perm := List.perm_insertionSort (fun left right : WalCommitPayload =>
      left.committedSeq ≤ right.committedSeq) commits
    exact List.pairwise_map.mp ((perm.map _).nodup_iff.mpr distinct)
  exact (sorted.and ne).imp fun both => lt_of_le_of_ne both.1 both.2

theorem sortedCommits_filter (distinct : (commits.map WalCommitPayload.committedSeq).Nodup)
    (keeps : WalCommitPayload → Bool) :
    sortedCommits (commits.filter keeps) = (sortedCommits commits).filter keeps := by
  have filtered : ((commits.filter keeps).map WalCommitPayload.committedSeq).Nodup :=
    distinct.sublist (List.filter_sublist.map _)
  have left := sortedCommits_ordered filtered
  have right := (sortedCommits_ordered distinct).filter keeps
  have perm : (sortedCommits (commits.filter keeps)).Perm
      ((sortedCommits commits).filter keeps) :=
    (List.perm_insertionSort _ _).trans ((List.perm_insertionSort _ _).filter keeps).symm
  apply perm.eq_of_pairwise _ left right
  intro first second _ _ less greater
  exact absurd less (not_lt.mpr greater.le)

/-- Taking records from two lists in turn takes from the second what the first
leaves room for. -/
theorem takeWithin_append (heapBytes : Record → Nat) (maxBytes : Nat) (first second : List Record) :
    ∀ limit pageBytes, takeWithin heapBytes maxBytes limit pageBytes (first ++ second) =
        let page := takeWithin heapBytes maxBytes limit pageBytes first
        page ++ if page.length = limit ∨ pageBytes + (page.map heapBytes).sum ≥ maxBytes then []
          else takeWithin heapBytes maxBytes (limit - page.length)
            (pageBytes + (page.map heapBytes).sum) second := by
  induction first with
  | nil =>
    intro limit pageBytes
    cases limit with
    | zero => simp [takeWithin]
    | succ limit =>
      cases second with
      | nil => simp [takeWithin]
      | cons record rest => by_cases full : pageBytes ≥ maxBytes <;> simp [takeWithin, full]
  | cons record rest induction =>
    intro limit pageBytes
    cases limit with
    | zero => simp [takeWithin]
    | succ limit =>
      by_cases full : pageBytes ≥ maxBytes
      · simp [takeWithin, full]
      · rw [List.cons_append, takeWithin, if_neg full, takeWithin, if_neg full, induction]
        simp [Nat.add_assoc]

theorem scannedPage_eq (heapBytes : Record → Nat) {limit maxBytes : Nat}
    (bytesLeft : 0 < maxBytes) (records : List Record) :
    scannedPage heapBytes limit maxBytes records =
      takeWithin heapBytes maxBytes limit 0 records := by
  cases records with
  | nil => cases limit <;> rfl
  | cons record rest =>
    cases limit with
    | zero => rfl
    | succ limit => simp [scannedPage, takeWithin, Nat.pos_iff_ne_zero.mp bytesLeft]

theorem takeWithin_filter (heapBytes : WalCommitPayload → Nat) (maxBytes : Nat)
    (visibleSeq : ChangeSeq)
    (ordered : commits.Pairwise fun left right => left.committedSeq < right.committedSeq) :
    ∀ limit pageBytes, (takeWithin heapBytes maxBytes limit pageBytes commits).filter
          (fun record => record.committedSeq ≤ visibleSeq) =
        takeWithin heapBytes maxBytes limit pageBytes
          (commits.filter fun record => record.committedSeq ≤ visibleSeq) := by
  induction commits with
  | nil =>
    intro limit pageBytes
    cases limit <;> rfl
  | cons record rest induction =>
    intro limit pageBytes
    rw [List.pairwise_cons] at ordered
    by_cases visible : record.committedSeq ≤ visibleSeq
    · cases limit with
      | zero => rfl
      | succ limit =>
        rw [List.filter_cons_of_pos (by simpa using visible), takeWithin, takeWithin]
        split
        · rfl
        · rw [List.filter_cons_of_pos (by simpa using visible), induction ordered.2]
    · have past : ∀ other ∈ record :: rest, ¬other.committedSeq ≤ visibleSeq := by
        intro other mem
        rcases List.mem_cons.mp mem with rfl | later
        · exact visible
        · exact fun le => visible ((ordered.1 other later).le.trans le)
      rw [List.filter_eq_nil_iff.mpr fun other mem => by
          simpa using past other ((takeWithin_isPrefix ..).subset mem),
        List.filter_eq_nil_iff.mpr fun other mem => by simpa using past other mem]
      cases limit <;> rfl

namespace CommitLayers

variable (layers : CommitLayers)

theorem flat_ordered : layers.flat.CommitsOrdered := by
  refine List.pairwise_append.mpr ⟨sortedCommits_ordered layers.runsDistinct,
    sortedCommits_ordered layers.statesDistinct, ?_⟩
  intro left isLeft right isRight
  exact (layers.folded left (mem_sortedCommits.mp isLeft)).trans_lt
    (layers.unfolded right (mem_sortedCommits.mp isRight))

variable {record : WalCommitPayload}

theorem mem_flat : record ∈ layers.flat.commits ↔
      record ∈ layers.manifestRuns.flatten ∨ record ∈ layers.rowStates.flatten := by
  rw [flat, List.mem_append, mem_sortedCommits, mem_sortedCommits]

theorem commitsAfter_eq (heapBytes : WalCommitPayload → Nat) (seq afterSeq : ChangeSeq)
    (limit : Nat) {maxBytes : Nat} (bytesLeft : 0 < maxBytes) :
    layers.commitsAfter heapBytes seq afterSeq limit maxBytes =
      layers.flat.commitsAfter heapBytes seq afterSeq limit maxBytes := by
  have page : (layers.commitsAfterPage heapBytes afterSeq limit maxBytes).filter
        (fun record => record.committedSeq ≤ seq) =
      takeWithin heapBytes maxBytes limit 0
        ((sortedCommits layers.manifestRuns.flatten).filter fun record =>
          afterSeq < record.committedSeq ∧ record.committedSeq ≤ seq) := by
    rw [commitsAfterPage, scannedPage_eq heapBytes bytesLeft, takeWithin_filter heapBytes
      maxBytes seq ((sortedCommits_ordered layers.runsDistinct).filter _),
      List.filter_filter]
    congr 2
    funext record
    simp [Bool.and_comm]
  rw [FamilyRows.commitsAfter, layers.flat_ordered.commitsBetween, flat, List.filter_append,
    takeWithin_append, commitsAfter, page]
  cases limit with
  | zero => simp [takeWithin]
  | succ limit =>
    simp only [Nat.succ_ne_zero, if_false, Nat.zero_add, sortedCommits_filter layers.statesDistinct]
    split <;> simp

theorem find_eq_some_of_mem {commits : List WalCommitPayload}
    (distinct : (commits.map WalCommitPayload.committedSeq).Nodup) (mem : record ∈ commits) :
    commits.find? (fun other => other.committedSeq = record.committedSeq) = some record := by
  cases found : commits.find? fun other => other.committedSeq = record.committedSeq with
  | none =>
    have absent := List.find?_eq_none.mp found record mem
    simp at absent
  | some other =>
    have same : other.committedSeq = record.committedSeq := by simpa using List.find?_some found
    rw [List.inj_on_of_nodup_map distinct (List.mem_of_find?_eq_some found) mem same]

theorem commitAtSeq_of_mem {seq : ChangeSeq} (mem : record ∈ layers.flat.commits)
    (visible : record.committedSeq ≤ seq) :
    layers.commitAtSeq seq record.committedSeq = some record := by
  rw [commitAtSeq, if_neg (not_lt.mpr visible)]
  rcases layers.mem_flat.mp mem with inRun | inState
  · have absent : layers.rowStates.flatten.find?
        (fun other => other.committedSeq = record.committedSeq) = none := by
      apply List.find?_eq_none.mpr
      intro other isOther same
      rw [decide_eq_true_eq] at same
      exact absurd (layers.folded record inRun) (not_le.mpr (same ▸ layers.unfolded other isOther))
    rw [absent]
    exact find_eq_some_of_mem layers.runsDistinct inRun
  · rw [find_eq_some_of_mem layers.statesDistinct inState]

end CommitLayers

namespace CommitScan

variable (layers : CommitLayers) (heapBytes : WalCommitPayload → Nat) (scan : CommitScan)

def nextIn : Except ChangeReadError (Option ScannedCommit × CommitScan) :=
  scan.nextFrom (layers.commitsAfter heapBytes) layers.commitAtSeq

variable {layers scan}

theorem Reading.nextIn_eq {unread : List WalCommitPayload}
    (reading : scan.Reading layers.flat unread) :
    scan.nextIn layers heapBytes = scan.next layers.flat heapBytes := by
  rw [nextIn, next, nextFrom, nextFrom, reading.notResuming]
  by_cases stops : scan.full ∨ scan.limit.value - scan.commits = 0 ∨
      scan.throughSeq ≥ scan.visibleSeq
  · simp only [if_pos stops]
  · have notFull : scan.full = false := by simpa using (not_or.mp stops).1
    have bytesLeft := reading.bytesLeft notFull
    have same : scan.refill (layers.commitsAfter heapBytes) =
        scan.refill (layers.flat.commitsAfter heapBytes) := by
      rw [CommitScan.refill, CommitScan.refill, layers.commitsAfter_eq heapBytes _ _ _ (by omega)]
    simp only [if_neg stops, same]

end CommitScan

end LoonFs
