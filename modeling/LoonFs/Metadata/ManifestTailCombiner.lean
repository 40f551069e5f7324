import LoonFs.Foundation.SortedUnion
import LoonFs.Metadata.NewestRows

/-! # Manifest pages combined with tail rows -/

namespace LoonFs

open Foundation LookupKeys List

/-- Which side a combiner takes first when both contain a row with the same key. -/
inductive TieOrder where
  | tailFirst
  | manifestFirst
deriving Repr, DecidableEq

structure ManifestPage (Row : Type u) where
  rows : List (String × Row)
  /-- Whether the scanned range can contain rows after this page. -/
  more : Bool
deriving Repr, DecidableEq

inductive ScanPosition where
  | resumesAt (lowerBound : String)
  | exhausted
deriving Repr, DecidableEq

structure ManifestTailCombiner (Row : Type u) where
  position : ScanPosition
  manifest : List (String × Row)
  tail : List (String × Row)
  ties : TieOrder
  lastRowKey : Option String
deriving Repr, DecidableEq

/-- The manifest reads of a caller, which keep state of their own from call to call. -/
abbrev Refill (Reads Row : Type u) := Reads → String → Except CoreError (ManifestPage Row × Reads)

def ManifestPage.nextPosition (page : ManifestPage Row) : ScanPosition :=
  match page.rows.getLast?.filter fun _ => page.more with
  | some (rowKey, _) => .resumesAt (afterRowKey rowKey)
  | none => .exhausted

def TieOrder.takesTail (ties : TieOrder) (manifestKey tailKey : String) : Bool :=
  match ties with
  | .tailFirst => decide (utf8 tailKey ≤ utf8 manifestKey)
  | .manifestFirst => decide (utf8 tailKey < utf8 manifestKey)

namespace ManifestTailCombiner

def start (lowerBound : String) (tail : List (String × Row)) (ties : TieOrder) :
    ManifestTailCombiner Row :=
  { position := .resumesAt lowerBound, manifest := [], tail, ties, lastRowKey := none }

def popFront (combiner : ManifestTailCombiner Row) :
    Option ((String × Row) × ManifestTailCombiner Row) :=
  match combiner.manifest, combiner.tail with
  | manifestRow :: manifest, tailRow :: tail =>
    if combiner.ties.takesTail manifestRow.1 tailRow.1 then
      some (tailRow, { combiner with tail })
    else some (manifestRow, { combiner with manifest })
  | [], tailRow :: tail => some (tailRow, { combiner with tail })
  | manifestRow :: manifest, [] => some (manifestRow, { combiner with manifest })
  | [], [] => none

/-- A refill that fails ends the caller's read, so no combiner comes back with it. -/
def next (refill : Refill Reads Row) :
    Nat → Reads → ManifestTailCombiner Row →
      Except CoreError (Option (String × Row) × Reads × ManifestTailCombiner Row)
  | 0, _, _ => .error .unfinished
  | fuel + 1, reads, combiner =>
    match combiner.manifest, combiner.position with
    | [], .resumesAt lowerBound => do
        let (page, reads) ← refill reads lowerBound
        next refill fuel reads
          { combiner with position := page.nextPosition, manifest := page.rows }
    | _, _ =>
      match combiner.popFront with
      | none => .ok (none, reads, combiner)
      | some (row, rest) =>
        if combiner.lastRowKey = some row.1 then next refill fuel reads rest
        else .ok (some row, reads, { rest with lastRowKey := some row.1 })

def seek (lowerBound : String) (combiner : ManifestTailCombiner Row) : ManifestTailCombiner Row :=
  let below (row : String × Row) := decide (utf8 row.1 < utf8 lowerBound)
  let manifest := combiner.manifest.dropWhile below
  { combiner with
    tail := combiner.tail.dropWhile below
    manifest
    position :=
      match combiner.position with
      | .resumesAt next =>
        if manifest.isEmpty ∧ utf8 next < utf8 lowerBound then .resumesAt lowerBound
        else .resumesAt next
      | .exhausted => .exhausted }

def run (refill : Refill Reads Row) (fuel : Nat) :
    Reads → ManifestTailCombiner Row → List (CursorCall String) →
      Except CoreError (List (Option (String × Row)))
  | _, _, [] => .ok []
  | reads, combiner, .next :: calls => do
      let (row, reads, combiner) ← combiner.next refill fuel reads
      let rows ← run refill fuel reads combiner calls
      return row :: rows
  | reads, combiner, .seek lowerBound :: calls =>
    run refill fuel reads (combiner.seek lowerBound) calls

end ManifestTailCombiner

def rowKeyBytes (row : String × Row) : Bytes := utf8 row.1

structure ManifestPage.Delivers (rows : List (String × Row)) (lowerBound : String)
    (page : ManifestPage Row) : Prop where
  first : page.rows <+: atOrAfter rowKeyBytes (utf8 lowerBound) rows
  whole : page.more = false ∨ page.rows = [] →
    page.rows = atOrAfter rowKeyBytes (utf8 lowerBound) rows

def Refill.Delivers (rows : List (String × Row)) (refill : Refill Reads Row) : Prop :=
  ∀ reads lowerBound page reads', refill reads lowerBound = .ok (page, reads') →
    page.Delivers rows lowerBound

def Refill.FailsWith (refill : Refill Reads Row) (error : CoreError) : Prop :=
  ∃ reads lowerBound, refill reads lowerBound = .error error

def CursorCall.bytes : CursorCall String → CursorCall Bytes
  | .next => .next
  | .seek lowerBound => .seek (utf8 lowerBound)

def pagesOf (rows : List (String × Row)) (pageRows : Nat) : Refill PUnit Row :=
  fun reads lowerBound =>
    let page := (atOrAfter rowKeyBytes (utf8 lowerBound) rows).take pageRows
    .ok ({ rows := page, more := !page.isEmpty }, reads)

theorem pagesOf_delivers (rows : List (String × Row)) (positive : 0 < pageRows) :
    (pagesOf rows pageRows).Delivers rows := by
  intro reads lowerBound page reads' read
  cases read
  have isPage := take_prefix pageRows (atOrAfter rowKeyBytes (utf8 lowerBound) rows)
  refine ⟨isPage, ?_⟩
  intro ended
  have isNil : (atOrAfter rowKeyBytes (utf8 lowerBound) rows).take pageRows = [] := by
    simpa using ended
  rcases take_eq_nil_iff.mp isNil with zero | noRows
  · omega
  · simp [noRows]

/-! ## What is left on each side -/

namespace ManifestTailCombiner

variable {rows : List (String × Row)} {combiner : ManifestTailCombiner Row}

/-- The manifest rows that the combiner has not returned. -/
def unreadManifest (rows : List (String × Row)) (combiner : ManifestTailCombiner Row) :
    List (String × Row) :=
  combiner.manifest ++
    match combiner.position with
    | .resumesAt lowerBound => atOrAfter rowKeyBytes (utf8 lowerBound) rows
    | .exhausted => []

def preferred (rows : List (String × Row)) (combiner : ManifestTailCombiner Row) :
    List (String × Row) :=
  match combiner.ties with
  | .tailFirst => combiner.tail
  | .manifestFirst => combiner.unreadManifest rows

def other (rows : List (String × Row)) (combiner : ManifestTailCombiner Row) :
    List (String × Row) :=
  match combiner.ties with
  | .tailFirst => combiner.unreadManifest rows
  | .manifestFirst => combiner.tail

structure Leaves (rows : List (String × Row)) (combiner : ManifestTailCombiner Row)
    (left : List (String × Row)) : Prop where
  manifestOrdered : Ordered rowKeyBytes (combiner.unreadManifest rows)
  tailOrdered : Ordered rowKeyBytes combiner.tail
  isUnion : IsUnion rowKeyBytes (combiner.preferred rows) (combiner.other rows)
    (combiner.lastRowKey.map utf8) left
  notBefore : ∀ lastKey, combiner.lastRowKey = some lastKey →
    ∀ row, row ∈ combiner.unreadManifest rows ∨ row ∈ combiner.tail →
      utf8 lastKey ≤ rowKeyBytes row

variable {lowerBound : String} {page : ManifestPage Row}

theorem unreadManifest_refill (ordered : Ordered rowKeyBytes rows)
    (isEmpty : combiner.manifest = []) (position : combiner.position = .resumesAt lowerBound)
    (delivers : page.Delivers rows lowerBound) : unreadManifest rows
        { combiner with position := page.nextPosition, manifest := page.rows } =
      combiner.unreadManifest rows := by
  have before : combiner.unreadManifest rows = atOrAfter rowKeyBytes (utf8 lowerBound) rows := by
    rw [unreadManifest, isEmpty, position, nil_append]
  rw [before]
  cases isLast : page.rows.getLast? with
  | none =>
    have noRows := List.getLast?_eq_none_iff.mp isLast
    rw [← delivers.whole (.inr noRows)]
    simp [unreadManifest, ManifestPage.nextPosition, isLast]
  | some last =>
    cases more : page.more with
    | false =>
      rw [← delivers.whole (.inl more)]
      simp [unreadManifest, ManifestPage.nextPosition, isLast, more]
    | true =>
      obtain ⟨rest, split⟩ := delivers.first
      have fromLower := ordered.atOrAfter (utf8 lowerBound)
      rw [← split] at fromLower
      have mem : last ∈ page.rows ++ rest := mem_append_left _ (mem_of_getLast? isLast)
      rw [split, mem_atOrAfter] at mem
      have after : atOrAfter rowKeyBytes (utf8 (afterRowKey last.1)) (page.rows ++ rest) = rest :=
        fromLower.afterPage isLast (lt_afterRowKey last.1) fun key less => afterRowKey_le less
      rw [split, atOrAfter_atOrAfter (mem.2.trans (lt_afterRowKey last.1).le)] at after
      simp only [unreadManifest, ManifestPage.nextPosition, isLast, more,
        Option.filter_some, if_true]
      rw [after, split]

theorem unreadManifest_seek (ordered : Ordered rowKeyBytes (combiner.unreadManifest rows))
    (lowerBound : String) : (combiner.seek lowerBound).unreadManifest rows =
      atOrAfter rowKeyBytes (utf8 lowerBound) (combiner.unreadManifest rows) := by
  have bufferOrdered : Ordered rowKeyBytes combiner.manifest := (pairwise_append.mp ordered).1
  have buffer : (combiner.seek lowerBound).manifest =
      atOrAfter rowKeyBytes (utf8 lowerBound) combiner.manifest :=
    bufferOrdered.dropWhile fun _ => decide_eq_true_iff
  have split (later : List (String × Row)) :
      atOrAfter rowKeyBytes (utf8 lowerBound) (combiner.manifest ++ later) =
        (combiner.seek lowerBound).manifest ++ atOrAfter rowKeyBytes (utf8 lowerBound) later := by
    rw [buffer, atOrAfter_append]
  rw [unreadManifest, unreadManifest, split, append_cancel_left_eq]
  cases position : combiner.position with
  | exhausted => simp [seek, position, atOrAfter]
  | resumesAt next =>
    rw [unreadManifest, position] at ordered
    dsimp only
    by_cases spent : (combiner.seek lowerBound).manifest = []
    · by_cases below : utf8 next < utf8 lowerBound
      · have moved : (combiner.seek lowerBound).position = .resumesAt lowerBound := by
          have isEmpty : (combiner.seek lowerBound).manifest.isEmpty = true := by rw [spent]; rfl
          simp only [seek, position] at isEmpty ⊢
          rw [if_pos ⟨isEmpty, below⟩]
        rw [moved, atOrAfter_atOrAfter below.le]
      · have stays : (combiner.seek lowerBound).position = .resumesAt next := by
          simp only [seek, position]
          rw [if_neg fun both => below both.2]
        rw [stays]
        symm
        apply atOrAfter_eq_self
        intro row mem
        exact (not_lt.mp below).trans (mem_atOrAfter.mp mem).2
    · have stays : (combiner.seek lowerBound).position = .resumesAt next := by
        have notEmpty : (combiner.seek lowerBound).manifest.isEmpty = false := by simpa using spent
        simp only [seek, position] at notEmpty ⊢
        rw [if_neg (by simp [notEmpty])]
      rw [stays]
      symm
      apply atOrAfter_eq_self
      -- A row that the seek keeps in the buffer is before every row of the next pages.
      obtain ⟨kept, isKept⟩ := exists_mem_of_ne_nil _ spent
      rw [buffer, mem_atOrAfter] at isKept
      intro row mem
      have less := (pairwise_append.mp ordered).2.2 kept isKept.1 row mem
      exact isKept.2.trans less.le

theorem Leaves.seek (leaves : Leaves rows combiner left) (lowerBound : String) :
    Leaves rows (combiner.seek lowerBound) (atOrAfter rowKeyBytes (utf8 lowerBound) left) := by
  have manifest := unreadManifest_seek leaves.manifestOrdered lowerBound
  have tail : (combiner.seek lowerBound).tail =
      atOrAfter rowKeyBytes (utf8 lowerBound) combiner.tail :=
    leaves.tailOrdered.dropWhile fun _ => decide_eq_true_iff
  constructor
  case manifestOrdered =>
    rw [manifest]
    exact leaves.manifestOrdered.atOrAfter _
  case tailOrdered =>
    rw [tail]
    exact leaves.tailOrdered.atOrAfter _
  case isUnion =>
    have isUnion := leaves.isUnion.atOrAfter (utf8 lowerBound)
    have sameTies : (combiner.seek lowerBound).ties = combiner.ties := rfl
    have sameLast : (combiner.seek lowerBound).lastRowKey = combiner.lastRowKey := rfl
    rw [preferred, other, sameTies, sameLast, manifest, tail]
    rw [preferred, other] at isUnion
    cases ties : combiner.ties <;> rw [ties] at isUnion <;> exact isUnion
  case notBefore =>
    intro lastKey isLast row mem
    rw [manifest, tail, mem_atOrAfter, mem_atOrAfter, ← or_and_right] at mem
    exact leaves.notBefore lastKey isLast row mem.1

/-! ## Taking rows -/

def size (rows : List (String × Row)) (combiner : ManifestTailCombiner Row) : Nat :=
  (combiner.unreadManifest rows).length + combiner.tail.length

/-- No row is buffered, so the next turn of the loop of `next` reads a page. -/
def awaitsPage (combiner : ManifestTailCombiner Row) : Nat :=
  match combiner.manifest, combiner.position with
  | [], .resumesAt _ => 1
  | _, _ => 0

inductive Takes (rows : List (String × Row)) (combiner : ManifestTailCombiner Row)
    (row : String × Row) (rest : ManifestTailCombiner Row) : Prop where
  | manifest (unread : combiner.unreadManifest rows = row :: rest.unreadManifest rows)
      (tail : rest.tail = combiner.tail)
      (first : ∀ tailRow ∈ combiner.tail.head?,
        combiner.ties.takesTail row.1 tailRow.1 = false)
  | tail (unread : rest.unreadManifest rows = combiner.unreadManifest rows)
      (tail : combiner.tail = row :: rest.tail)
      (first : ∀ manifestRow ∈ (combiner.unreadManifest rows).head?,
        combiner.ties.takesTail manifestRow.1 row.1 = true)

variable {row : String × Row}

theorem popFront_takes (ready : combiner.manifest = [] → combiner.position = .exhausted)
    (popped : combiner.popFront = some (row, rest)) :
    Takes rows combiner row rest ∧ rest.ties = combiner.ties ∧
      rest.lastRowKey = combiner.lastRowKey ∧ rest.position = combiner.position := by
  obtain ⟨position, manifest, tail, ties, lastRowKey⟩ := combiner
  cases manifest with
  | nil =>
    cases tail with
    | nil => cases popped
    | cons tailRow tail =>
      cases popped
      have spent := ready rfl
      subst spent
      exact ⟨.tail rfl rfl (by simp [unreadManifest]), rfl, rfl, rfl⟩
  | cons manifestRow manifest =>
    cases tail with
    | nil =>
      cases popped
      exact ⟨.manifest rfl rfl (by simp), rfl, rfl, rfl⟩
    | cons tailRow tail =>
      simp only [popFront] at popped
      by_cases takes : ties.takesTail manifestRow.1 tailRow.1 = true
      · rw [if_pos takes] at popped
        cases popped
        refine ⟨.tail rfl rfl ?_, rfl, rfl, rfl⟩
        simpa [unreadManifest] using takes
      · rw [if_neg takes] at popped
        cases popped
        refine ⟨.manifest rfl rfl ?_, rfl, rfl, rfl⟩
        simpa using takes

theorem Takes.size (takes : Takes rows combiner row rest) :
    rest.size rows + 1 = combiner.size rows := by
  cases takes with
  | manifest unread tail _ | tail unread tail _ =>
    rw [ManifestTailCombiner.size, ManifestTailCombiner.size, unread, tail, length_cons]
    omega

section

variable (leaves : Leaves rows combiner left)

include leaves

theorem Leaves.before_otherSide (takes : Takes rows combiner row rest) :
    (combiner.unreadManifest rows = row :: rest.unreadManifest rows ∧
      rest.tail = combiner.tail ∧ ∀ later ∈ combiner.tail, match combiner.ties with
        | .tailFirst => rowKeyBytes row < rowKeyBytes later
        | .manifestFirst => rowKeyBytes row ≤ rowKeyBytes later) ∨
    (rest.unreadManifest rows = combiner.unreadManifest rows ∧
      combiner.tail = row :: rest.tail ∧ ∀ later ∈ combiner.unreadManifest rows,
        match combiner.ties with
        | .tailFirst => rowKeyBytes row ≤ rowKeyBytes later
        | .manifestFirst => rowKeyBytes row < rowKeyBytes later) := by
  cases takes with
  | manifest unread tail first =>
    refine .inl ⟨unread, tail, ?_⟩
    cases ties : combiner.ties <;>
      simp only [ties, TieOrder.takesTail, decide_eq_false_iff_not, not_le, not_lt] at first
    · exact leaves.tailOrdered.of_head (fun less atFirst => lt_trans atFirst less) first
    · exact leaves.tailOrdered.of_head (fun less atFirst => atFirst.trans less.le) first
  | tail unread tail first =>
    refine .inr ⟨unread, tail, ?_⟩
    cases ties : combiner.ties <;>
      simp only [ties, TieOrder.takesTail, decide_eq_true_eq] at first
    · exact leaves.manifestOrdered.of_head (fun less atFirst => atFirst.trans less.le) first
    · exact leaves.manifestOrdered.of_head (fun less atFirst => lt_trans atFirst less) first

theorem Leaves.isUnion_takes (takes : Takes rows combiner row rest)
    (sameTies : rest.ties = combiner.ties) :
    (combiner.lastRowKey.map utf8 = some (rowKeyBytes row) →
      IsUnion rowKeyBytes (rest.preferred rows) (rest.other rows)
        (combiner.lastRowKey.map utf8) left) ∧
    (combiner.lastRowKey.map utf8 ≠ some (rowKeyBytes row) → ∃ later, left = row :: later ∧
        IsUnion rowKeyBytes (rest.preferred rows) (rest.other rows)
          (some (rowKeyBytes row)) later) := by
  have isUnion := leaves.isUnion
  have notBefore (mem : row ∈ combiner.unreadManifest rows ∨ row ∈ combiner.tail) :
      ∀ lastKey, combiner.lastRowKey.map utf8 = some lastKey → lastKey ≤ rowKeyBytes row := by
    intro lastKey isLast
    obtain ⟨key, isKey, same⟩ := Option.map_eq_some_iff.mp isLast
    exact same ▸ leaves.notBefore key isKey row mem
  have manifestOrdered := leaves.manifestOrdered
  have tailOrdered := leaves.tailOrdered
  rw [preferred, other] at isUnion ⊢
  rw [sameTies]
  obtain ⟨unread, tail, before⟩ | ⟨unread, tail, before⟩ := leaves.before_otherSide takes
  · have past := notBefore (.inl (unread ▸ mem_cons_self))
    rw [unread] at manifestOrdered isUnion
    rw [tail]
    cases ties : combiner.ties <;> rw [ties] at isUnion before
    · exact isUnion.popSecond manifestOrdered before past
    · exact isUnion.popFirst manifestOrdered before past
  · have past := notBefore (.inr (tail ▸ mem_cons_self))
    rw [tail] at tailOrdered isUnion
    rw [unread]
    cases ties : combiner.ties <;> rw [ties] at isUnion before
    · exact isUnion.popFirst tailOrdered before past
    · exact isUnion.popSecond tailOrdered before past

theorem Leaves.later (takes : Takes rows combiner row rest) :
    Ordered rowKeyBytes (rest.unreadManifest rows) ∧ Ordered rowKeyBytes rest.tail ∧
      ∀ later, later ∈ rest.unreadManifest rows ∨ later ∈ rest.tail →
        (later ∈ combiner.unreadManifest rows ∨ later ∈ combiner.tail) ∧
          rowKeyBytes row ≤ rowKeyBytes later := by
  have manifestOrdered := leaves.manifestOrdered
  have tailOrdered := leaves.tailOrdered
  obtain ⟨unread, tail, before⟩ | ⟨unread, tail, before⟩ := leaves.before_otherSide takes
  · rw [unread] at manifestOrdered
    rw [unread, tail]
    refine ⟨manifestOrdered.tail, tailOrdered, ?_⟩
    rintro later (inManifest | inTail)
    · exact ⟨.inl (mem_cons_of_mem _ inManifest), (manifestOrdered.head_lt inManifest).le⟩
    · refine ⟨.inr inTail, ?_⟩
      have reached := before later inTail
      cases ties : combiner.ties <;> rw [ties] at reached
      · exact reached.le
      · exact reached
  · rw [tail] at tailOrdered
    rw [tail, unread]
    refine ⟨manifestOrdered, tailOrdered.tail, ?_⟩
    rintro later (inManifest | inTail)
    · refine ⟨.inl inManifest, ?_⟩
      have reached := before later inManifest
      cases ties : combiner.ties <;> rw [ties] at reached
      · exact reached
      · exact reached.le
    · exact ⟨.inr (mem_cons_of_mem _ inTail), (tailOrdered.head_lt inTail).le⟩

theorem Leaves.takes (takes : Takes rows combiner row rest) (sameTies : rest.ties = combiner.ties)
    (sameLast : rest.lastRowKey = combiner.lastRowKey) :
    (combiner.lastRowKey = some row.1 → Leaves rows rest left) ∧
    (combiner.lastRowKey ≠ some row.1 → ∃ later, left = row :: later ∧
        Leaves rows { rest with lastRowKey := some row.1 } later) := by
  obtain ⟨whenRepeated, whenNew⟩ := leaves.isUnion_takes takes sameTies
  obtain ⟨manifestOrdered, tailOrdered, later⟩ := leaves.later takes
  constructor
  · intro repeated
    have isUnion := whenRepeated (by rw [repeated]; rfl)
    refine ⟨manifestOrdered, tailOrdered, sameLast ▸ isUnion, ?_⟩
    intro lastKey isLast other mem
    exact leaves.notBefore lastKey (sameLast ▸ isLast) other (later other mem).1
  · intro new
    have ne : combiner.lastRowKey.map utf8 ≠ some (rowKeyBytes row) := by
      intro same
      obtain ⟨key, isKey, sameBytes⟩ := Option.map_eq_some_iff.mp same
      rw [utf8_injective sameBytes] at isKey
      exact new isKey
    obtain ⟨others, isLeft, isUnion⟩ := whenNew ne
    refine ⟨others, isLeft, manifestOrdered, tailOrdered, isUnion, ?_⟩
    intro lastKey isLast other mem
    cases isLast
    exact (later other mem).2

theorem Leaves.nil (ready : combiner.manifest = [] → combiner.position = .exhausted)
    (popped : combiner.popFront = none) : left = [] := by
  have isUnion := leaves.isUnion
  obtain ⟨position, manifest, tail, ties, lastRowKey⟩ := combiner
  cases manifest with
  | nil =>
    have spent := ready rfl
    subst spent
    cases tail with
    | nil => cases ties <;> exact isUnion.nil_of_nil
    | cons tailRow tail => cases popped
  | cons manifestRow manifest =>
    cases tail with
    | nil => cases popped
    | cons tailRow tail =>
      simp only [popFront] at popped
      split at popped <;> cases popped

end

/-! ## Runs -/

theorem Leaves.refill (leaves : Leaves rows combiner left) (ordered : Ordered rowKeyBytes rows)
    (isEmpty : combiner.manifest = []) (position : combiner.position = .resumesAt lowerBound)
    (delivers : page.Delivers rows lowerBound) :
    Leaves rows { combiner with position := page.nextPosition, manifest := page.rows } left ∧
      size rows { combiner with position := page.nextPosition, manifest := page.rows } =
        combiner.size rows := by
  have unread := unreadManifest_refill ordered isEmpty position delivers
  constructor
  · constructor
    case manifestOrdered =>
      rw [unread]
      exact leaves.manifestOrdered
    case tailOrdered => exact leaves.tailOrdered
    case isUnion =>
      have isUnion := leaves.isUnion
      rw [preferred, other] at isUnion ⊢
      rw [unread]
      exact isUnion
    case notBefore =>
      rw [unread]
      exact leaves.notBefore
  · rw [size, size, unread]

def PageStarts (rows : List (String × Row)) (starts : String → Prop) : Prop :=
  ∀ lowerBound, starts lowerBound → ∀ row ∈ rows, utf8 lowerBound ≤ rowKeyBytes row →
    starts (afterRowKey row.1)

def ResumesIn (starts : String → Prop) (combiner : ManifestTailCombiner Row) : Prop :=
  ∀ lowerBound, combiner.position = .resumesAt lowerBound → starts lowerBound

theorem ResumesIn.refill (pageStarts : PageStarts rows starts) (isStart : starts lowerBound)
    (delivers : page.Delivers rows lowerBound) :
    ResumesIn starts { combiner with position := page.nextPosition, manifest := page.rows } := by
  intro next isNext
  change page.nextPosition = .resumesAt next at isNext
  rw [ManifestPage.nextPosition] at isNext
  cases isLast : page.rows.getLast?.filter fun _ => page.more with
  | none =>
    rw [isLast] at isNext
    cases isNext
  | some last =>
    rw [isLast] at isNext
    cases isNext
    have inPage := mem_of_getLast? (Option.filter_eq_some_iff.mp isLast).1
    have inRows := mem_atOrAfter.mp (delivers.first.subset inPage)
    exact pageStarts lowerBound isStart last inRows.1 inRows.2

theorem ResumesIn.seek (resumes : ResumesIn starts combiner) (isStart : starts lowerBound) :
    ResumesIn starts (combiner.seek lowerBound) := by
  intro next isNext
  cases position : combiner.position with
  | exhausted =>
    simp only [ManifestTailCombiner.seek, position] at isNext
    cases isNext
  | resumesAt bound =>
    simp only [ManifestTailCombiner.seek, position] at isNext
    split at isNext
    · cases isNext
      exact isStart
    · cases isNext
      exact resumes _ position

theorem awaitsPage_le (combiner : ManifestTailCombiner Row) : combiner.awaitsPage ≤ 1 := by
  rw [awaitsPage]
  split <;> omega

theorem awaitsPage_refill (combiner : ManifestTailCombiner Row) (page : ManifestPage Row) :
    awaitsPage { combiner with position := page.nextPosition, manifest := page.rows } = 0 := by
  rw [awaitsPage]
  cases isRows : page.rows with
  | nil => simp [ManifestPage.nextPosition, isRows]
  | cons row rest => rfl

variable {refill : Refill Reads Row}

theorem next_of_ready (ready : combiner.manifest = [] → combiner.position = .exhausted) :
    combiner.next refill (fuel + 1) reads = match combiner.popFront with
      | none => .ok (none, reads, combiner)
      | some (row, rest) =>
        if combiner.lastRowKey = some row.1 then ManifestTailCombiner.next refill fuel reads rest
        else .ok (some row, reads, { rest with lastRowKey := some row.1 }) := by
  obtain ⟨position, manifest, tail, ties, lastRowKey⟩ := combiner
  cases manifest with
  | nil =>
    have spent := ready rfl
    subst spent
    rfl
  | cons row manifest => rfl

theorem Leaves.next (ordered : Ordered rowKeyBytes rows) (starts : String → Prop)
    (pageStarts : PageStarts rows starts)
    (delivers : ∀ reads lowerBound page reads', starts lowerBound → refill reads lowerBound =
      .ok (page, reads') → page.Delivers rows lowerBound) (reads : Reads)
    (leaves : Leaves rows combiner left) (resumes : ResumesIn starts combiner)
    (enough : 2 * combiner.size rows + combiner.awaitsPage < fuel) :
    (∃ error reads' lowerBound, starts lowerBound ∧
      refill reads' lowerBound = .error error ∧ combiner.next refill fuel reads = .error error) ∨
      ∃ reads' combiner', combiner.next refill fuel reads = .ok (left.head?, reads', combiner') ∧
        Leaves rows combiner' left.tail ∧ ResumesIn starts combiner' ∧
        combiner'.size rows ≤ combiner.size rows := by
  induction fuel generalizing reads combiner with
  | zero => omega
  | succ fuel induction =>
    by_cases spent : combiner.manifest = [] ∧ ∃ lowerBound,
        combiner.position = .resumesAt lowerBound
    · obtain ⟨isEmpty, lowerBound, position⟩ := spent
      have unfolded : combiner.next refill (fuel + 1) reads =
          (refill reads lowerBound).bind fun page =>
            ManifestTailCombiner.next refill fuel page.2
              { combiner with position := page.1.nextPosition, manifest := page.1.rows } := by
        rw [ManifestTailCombiner.next, isEmpty, position]
        rfl
      rw [unfolded]
      cases read : refill reads lowerBound with
      | error error => exact .inl ⟨error, reads, lowerBound, resumes _ position, read, rfl⟩
      | ok page =>
        have isStart := resumes lowerBound position
        have pageDelivers := delivers reads lowerBound page.1 page.2 isStart read
        have resumes' : ResumesIn starts
            { combiner with position := page.1.nextPosition, manifest := page.1.rows } :=
          .refill pageStarts isStart pageDelivers
        obtain ⟨refilled, sameSize⟩ := leaves.refill ordered isEmpty position pageDelivers
        have awaits : combiner.awaitsPage = 1 := by rw [awaitsPage, isEmpty, position]
        have served := awaitsPage_refill combiner page.1
        rcases induction page.2 refilled resumes' (by omega) with
          failed | ⟨reads', combiner', result, leaves', resumesNext, le⟩
        · exact .inl failed
        · exact .inr ⟨reads', combiner', result, leaves', resumesNext, sameSize ▸ le⟩
    · have ready : combiner.manifest = [] → combiner.position = .exhausted := by
        intro isEmpty
        cases position : combiner.position with
        | resumesAt lowerBound => exact absurd ⟨isEmpty, lowerBound, position⟩ spent
        | exhausted => rfl
      rw [next_of_ready ready]
      cases popped : combiner.popFront with
      | none =>
        have isNil := leaves.nil ready popped
        subst isNil
        exact .inr ⟨reads, combiner, rfl, leaves, resumes, le_rfl⟩
      | some taken =>
        obtain ⟨row, rest⟩ := taken
        obtain ⟨takes, sameTies, sameLast, samePosition⟩ := popFront_takes ready popped
        have resumesRest (lastRowKey : Option String) :
            ResumesIn starts { rest with lastRowKey } := by
          intro lowerBound position
          exact resumes lowerBound (samePosition ▸ position)
        obtain ⟨whenRepeated, whenNew⟩ := leaves.takes takes sameTies sameLast
        have smaller := takes.size
        dsimp only
        by_cases repeated : combiner.lastRowKey = some row.1
        · rw [if_pos repeated]
          have atMost := rest.awaitsPage_le
          rcases induction reads (whenRepeated repeated) (resumesRest _) (by omega) with
            failed | ⟨reads', combiner', result, leaves', resumesNext, le⟩
          · exact .inl failed
          · exact .inr ⟨reads', combiner', result, leaves', resumesNext, by omega⟩
        · rw [if_neg repeated]
          obtain ⟨later, isLeft, leaves'⟩ := whenNew repeated
          subst isLeft
          refine .inr ⟨reads, _, rfl, leaves', resumesRest _, ?_⟩
          have same : size rows { rest with lastRowKey := some row.1 } = rest.size rows := rfl
          omega

theorem size_seek (leaves : Leaves rows combiner left) (lowerBound : String) :
    (combiner.seek lowerBound).size rows ≤ combiner.size rows := by
  have manifest := unreadManifest_seek leaves.manifestOrdered lowerBound
  have fewerManifest : ((combiner.seek lowerBound).unreadManifest rows).length ≤
      (combiner.unreadManifest rows).length := by
    rw [manifest]
    exact length_filter_le _ _
  have fewerTail : (combiner.seek lowerBound).tail.length ≤ combiner.tail.length :=
    (dropWhile_suffix _).length_le
  rw [size, size]
  omega

theorem Leaves.run (ordered : Ordered rowKeyBytes rows) (delivers : refill.Delivers rows)
    (calls : List (CursorCall String)) (reads : Reads) (leaves : Leaves rows combiner left)
    (enough : 2 * combiner.size rows + 1 < fuel) :
    (∃ error, refill.FailsWith error ∧ combiner.run refill fuel reads calls = .error error) ∨
      combiner.run refill fuel reads calls =
        .ok (cursorRows rowKeyBytes left (calls.map CursorCall.bytes)) := by
  induction calls generalizing reads combiner left with
  | nil => exact .inr rfl
  | cons call calls induction =>
    cases call with
    | next =>
      have atMost := combiner.awaitsPage_le
      have inTime : 2 * combiner.size rows + combiner.awaitsPage < fuel := by omega
      rcases leaves.next ordered (fun _ => True) (fun _ _ _ _ _ => trivial)
          (fun reads lowerBound page reads' _ read => delivers reads lowerBound page reads' read)
          reads (fun _ _ => trivial) inTime with ⟨error, failing, lowerBound, _, fails, result⟩ |
          ⟨reads', combiner', result, leaves', _, le⟩
      · refine .inl ⟨error, ⟨failing, lowerBound, fails⟩, ?_⟩
        rw [ManifestTailCombiner.run, result]
        rfl
      · rw [ManifestTailCombiner.run, result]
        rcases induction reads' leaves' (by omega) with ⟨error, fails, failed⟩ | returned
        · refine .inl ⟨error, fails, ?_⟩
          simp only [ok_bind, failed]
          rfl
        · refine .inr ?_
          simp only [ok_bind, returned]
          rfl
    | seek lowerBound =>
      have smaller := size_seek leaves lowerBound
      exact induction reads (leaves.seek lowerBound) (by omega)

end ManifestTailCombiner

def TieOrder.sides (ties : TieOrder) (manifest tail : List (String × Row)) :
    List (String × Row) × List (String × Row) :=
  match ties with
  | .tailFirst => (tail, manifest)
  | .manifestFirst => (manifest, tail)

theorem ManifestTailCombiner.exists_leaves {tail : List (String × Row)}
    (ordered : Ordered rowKeyBytes rows) (tailOrdered : Ordered rowKeyBytes tail)
    (lowerBound : String) (ties : TieOrder) : ∃ union, IsUnion rowKeyBytes
        (ties.sides (atOrAfter rowKeyBytes (utf8 lowerBound) rows) tail).1
        (ties.sides (atOrAfter rowKeyBytes (utf8 lowerBound) rows) tail).2 none union ∧
      (start lowerBound tail ties).Leaves rows union ∧
      (start lowerBound tail ties).size rows ≤ rows.length + tail.length := by
  have fromLower := ordered.atOrAfter (utf8 lowerBound)
  have sidesOrdered :
      Ordered rowKeyBytes (ties.sides (atOrAfter rowKeyBytes (utf8 lowerBound) rows) tail).1 ∧
      Ordered rowKeyBytes (ties.sides (atOrAfter rowKeyBytes (utf8 lowerBound) rows) tail).2 := by
    cases ties
    · exact ⟨tailOrdered, fromLower⟩
    · exact ⟨fromLower, tailOrdered⟩
  obtain ⟨union, isUnion⟩ := exists_isUnion sidesOrdered.1 sidesOrdered.2
  refine ⟨union, isUnion, ⟨fromLower, tailOrdered, ?_, fun lastKey isLast => nomatch isLast⟩, ?_⟩
  · cases ties <;> exact isUnion
  · have fewer : (atOrAfter rowKeyBytes (utf8 lowerBound) rows).length ≤ rows.length :=
      length_filter_le _ _
    exact Nat.add_le_add_right fewer tail.length

/-- The combiner is a cursor over the union of the manifest's rows with the tail's rows. -/
theorem manifestTailCombiner_yields_union {Row Reads : Type u}
    {rows tail : List (String × Row)} (ordered : Ordered rowKeyBytes rows)
    (tailOrdered : Ordered rowKeyBytes tail) {refill : Refill Reads Row}
    (delivers : refill.Delivers rows) (lowerBound : String) (ties : TieOrder) (reads : Reads)
    (calls : List (CursorCall String)) {fuel : Nat}
    (enough : 2 * (rows.length + tail.length) + 1 < fuel) :
    ∃ union,
      IsUnion rowKeyBytes
        (ties.sides (atOrAfter rowKeyBytes (utf8 lowerBound) rows) tail).1
        (ties.sides (atOrAfter rowKeyBytes (utf8 lowerBound) rows) tail).2 none union ∧
      ((∃ error, refill.FailsWith error ∧
        (ManifestTailCombiner.start lowerBound tail ties).run refill fuel reads calls =
          .error error) ∨
      (ManifestTailCombiner.start lowerBound tail ties).run refill fuel reads calls =
        .ok (cursorRows rowKeyBytes union (calls.map CursorCall.bytes))) := by
  obtain ⟨union, isUnion, leaves, size⟩ :=
    ManifestTailCombiner.exists_leaves ordered tailOrdered lowerBound ties
  exact ⟨union, isUnion, leaves.run ordered delivers calls reads (by omega)⟩

/-- Pages of two rows, a key on both sides, and a seek past the page. -/
theorem manifestTailCombiner_yields_letters :
    ∃ union,
      IsUnion rowKeyBytes (atOrAfter rowKeyBytes (utf8 "a") [("a1", 1), ("b1", 2), ("c1", 3)])
        [("a2", 4), ("b1", 5)] none union ∧
      ((∃ error, (pagesOf [("a1", 1), ("b1", 2), ("c1", 3)] 2).FailsWith error ∧
        (ManifestTailCombiner.start "a" [("a2", 4), ("b1", 5)] .manifestFirst).run
          (pagesOf [("a1", 1), ("b1", 2), ("c1", 3)] 2) 12 ⟨⟩ [.next, .seek "b", .next, .next] =
            .error error) ∨
      (ManifestTailCombiner.start "a" [("a2", 4), ("b1", 5)] .manifestFirst).run
          (pagesOf [("a1", 1), ("b1", 2), ("c1", 3)] 2) 12 ⟨⟩ [.next, .seek "b", .next, .next] =
        .ok (cursorRows rowKeyBytes union [.next, .seek (utf8 "b"), .next, .next])) := by
  have ordered : Ordered rowKeyBytes [("a1", 1), ("b1", 2), ("c1", 3)] := by
    unfold Ordered
    decide
  have tailOrdered : Ordered rowKeyBytes [("a2", 4), ("b1", 5)] := by
    unfold Ordered
    decide
  exact manifestTailCombiner_yields_union ordered tailOrdered
    (pagesOf_delivers _ (by decide)) "a" .manifestFirst ⟨⟩ [.next, .seek "b", .next, .next]
    (by decide)

end LoonFs
