import LoonFs.Format.SegmentBlocks

/-! # Entries of a data block

Keys with the same bytes up to a cut have the same character boundary there.
-/

namespace LoonFs

open Foundation String.Pos.Raw List

/-! ## Shared prefixes -/

@[simp] theorem length_utf8 (text : String) : (utf8 text).length = text.utf8ByteSize :=
  Array.length_toList

theorem isValid_iff_split : isValid text ⟨position⟩ = true ↔
      ∃ head tail, text = head ++ tail ∧ (utf8 head).length = position := by
  rw [isValid_eq_true_iff, isValid_iff_exists_append]
  simp only [length_utf8]
  constructor
  · intro ⟨head, tail, split, position_eq⟩
    exact ⟨head, tail, split, congrArg byteIdx position_eq.symm⟩
  · intro ⟨head, tail, split, position_eq⟩
    exact ⟨head, tail, split, String.Pos.Raw.ext position_eq.symm⟩

theorem isValid_of_same_start (valid : isValid text ⟨position⟩ = true)
    (same : (utf8 other).take position = (utf8 text).take position) :
    isValid other ⟨position⟩ = true := by
  rcases isValid_iff_split.mp valid with ⟨head, tail, split, position_eq⟩
  have start : (utf8 other).take position = utf8 head := by
    rw [same, split, utf8_append, take_left' position_eq]
  have bound : position ≤ other.utf8ByteSize := by
    have lengths := congrArg List.length start
    rw [length_take, position_eq, length_utf8] at lengths
    omega
  rw [isValid_eq_true_iff, isValid_iff_isValidUTF8_extract_zero]
  refine ⟨bound, ?_⟩
  have extracted : other.toByteArray.extract 0 position = head.toByteArray := by
    apply ByteArray.ext
    apply Array.toList_inj.mp
    simpa [utf8] using start
  exact extracted ▸ head.isValidUTF8

theorem take_commonPrefixLength (left right : Bytes) :
    left.take (commonPrefixLength left right) = right.take (commonPrefixLength left right) := by
  induction left generalizing right with
  | nil => cases right <;> simp [commonPrefixLength]
  | cons first left induction =>
    cases right with
    | nil => simp [commonPrefixLength]
    | cons second right =>
      rw [commonPrefixLength]
      split
      case isTrue eq => simp [eq, induction right]
      case isFalse => simp

theorem backOffToBoundary_spec (current : String) (length : Nat) :
    backOffToBoundary current length ≤ length ∧
      isValid current ⟨backOffToBoundary current length⟩ = true := by
  induction length with
  | zero =>
    refine ⟨le_rfl, ?_⟩
    exact isValid_iff_split.mpr ⟨"", current, by simp, by rfl⟩
  | succ length induction =>
    rw [backOffToBoundary]
    split
    case isTrue valid => exact ⟨le_rfl, valid⟩
    case isFalse => exact ⟨induction.1.trans (Nat.le_succ length), induction.2⟩

/-- A length at which both keys can be cut, and up to which they agree. -/
structure Cut (previous current : String) (shared : Nat) : Prop where
  same : (utf8 previous).take shared = (utf8 current).take shared
  previousValid : isValid previous ⟨shared⟩ = true
  currentValid : isValid current ⟨shared⟩ = true

theorem Cut.zero (previous current : String) : Cut previous current 0 where
  same := by simp
  previousValid := isValid_iff_split.mpr ⟨"", previous, by simp, rfl⟩
  currentValid := isValid_iff_split.mpr ⟨"", current, by simp, rfl⟩

theorem Cut.sharedPrefixLength (previous current : String) :
    Cut previous current (sharedPrefixLength previous current) := by
  generalize shared_eq : LoonFs.sharedPrefixLength previous current = shared
  have spec := backOffToBoundary_spec current
    (commonPrefixLength (utf8 previous) (utf8 current))
  rw [show backOffToBoundary current _ = shared from shared_eq] at spec
  have same : (utf8 previous).take shared = (utf8 current).take shared := by
    have common := take_commonPrefixLength (utf8 previous) (utf8 current)
    have shorter := congrArg (List.take shared) common
    rwa [take_take, take_take, Nat.min_eq_left spec.1] at shorter
  exact ⟨same, isValid_of_same_start spec.2 same, spec.2⟩

theorem Cut.split (cut : Cut previous current shared) :
    ∃ head tail, current = head ++ tail ∧ (utf8 head).length = shared ∧
      (utf8 previous).take shared = utf8 head ∧ (utf8 current).drop shared = utf8 tail := by
  rcases isValid_iff_split.mp cut.currentValid with ⟨head, tail, eq, length⟩
  refine ⟨head, tail, eq, length, ?_, ?_⟩
  · rw [cut.same, eq, utf8_append, take_left' length]
  · rw [eq, utf8_append, drop_left' length]

theorem Cut.shared_le (cut : Cut previous current shared) :
    shared ≤ (utf8 previous).length ∧ shared ≤ (utf8 current).length := by
  rcases isValid_iff_split.mp cut.previousValid with ⟨head, tail, eq, length⟩
  rcases isValid_iff_split.mp cut.currentValid with ⟨head', tail', equal', length'⟩
  constructor
  · rw [eq, utf8_append, length_append]
    omega
  · rw [equal', utf8_append, length_append]
    omega

/-! ## One entry -/

variable {Row : Type} (codecs : SegmentCodecs Row)

theorem readEntryLength_writeVarint (fits : value < 2 ^ 64) (rest : Bytes) :
    readEntryLength (writeVarint value ++ rest) = .ok (value, rest) := by
  rw [readEntryLength, readVarint_writeVarint fits]

theorem takeSlice_append (bytes rest : Bytes) :
    takeSlice (bytes ++ rest) bytes.length = .ok (bytes, rest) := by
  simp [takeSlice]

variable {previousKey : String}

theorem decodeEntry_encodeEntry [LawfulSegmentCodecs codecs] {restart : Bool} {key : String}
    {row : Row} (cut : Cut previousKey key shared) (restartWhole : restart → shared = 0)
    (ordered : utf8 previousKey ≤ utf8 key) (keyFits : (utf8 key).length < 2 ^ 64)
    (rowFits : (codecs.encodeRow row).length < 2 ^ 64) (rest : Bytes) :
    decodeEntry codecs restart previousKey
        (SegmentBlocksBuilder.encodeEntry shared key (codecs.encodeRow row) ++ rest) =
      .ok ((key, row), rest) := by
  rcases cut.split with ⟨head, tail, keyEqual, headLength, sameStart, suffixEqual⟩
  have sharedBounds := cut.shared_le
  have tailLength : (utf8 tail).length ≤ (utf8 key).length := by
    rw [keyEqual, utf8_append, length_append]
    omega
  have noPrefix : ¬(restart ∧ shared ≠ 0) := fun ⟨isRestart, nonzero⟩ =>
    nonzero (restartWhole isRestart)
  have inside : ¬(shared > (utf8 previousKey).length ∨ ¬isValid previousKey ⟨shared⟩ = true) := by
    intro outside
    rcases outside with long | invalid
    · omega
    · exact invalid cut.previousValid
  have entry : SegmentBlocksBuilder.encodeEntry shared key (codecs.encodeRow row) ++ rest =
      writeVarint shared ++ (writeVarint (utf8 tail).length ++ (utf8 tail ++
        (writeVarint (codecs.encodeRow row).length ++ (codecs.encodeRow row ++ rest)))) := by
    simp only [SegmentBlocksBuilder.encodeEntry, suffixEqual, append_assoc]
  rw [entry, decodeEntry, readEntryLength_writeVarint (by omega)]
  simp only [ok_bind]
  rw [readEntryLength_writeVarint (by omega)]
  simp only [ok_bind, noPrefix, inside, if_false]
  change (takeSlice _ _ >>= _) = _
  rw [takeSlice_append]
  simp only [ok_bind, sameStart, fromUtf8_utf8]
  rw [readEntryLength_writeVarint rowFits]
  simp only [ok_bind]
  rw [takeSlice_append]
  simp only [ok_bind, LawfulSegmentCodecs.decodeRow_encodeRow, ← keyEqual, not_lt.mpr ordered,
    if_false]
  rfl

/-! ## The entries of a block -/

def entryShared (count : Nat) (previousKey key : String) : Nat :=
  if count % restartInterval == 0 then 0 else sharedPrefixLength previousKey key

theorem Cut.entryShared (count : Nat) (previousKey key : String) :
    Cut previousKey key (entryShared count previousKey key) := by
  rw [LoonFs.entryShared]
  split
  · exact .zero previousKey key
  · exact .sharedPrefixLength previousKey key

def entryBytes (count : Nat) (previousKey : String) (row : String × Row) : Bytes :=
  SegmentBlocksBuilder.encodeEntry (entryShared count previousKey row.1) row.1
    (codecs.encodeRow row.2)

def encodeEntries : Nat → String → List (String × Row) → Bytes
  | _, _, [] => []
  | count, previousKey, row :: rows =>
    entryBytes codecs count previousKey row ++ encodeEntries (count + 1) row.1 rows

def restartOffsets : Nat → Nat → String → List (String × Row) → List Nat
  | _, _, _, [] => []
  | count, offset, previousKey, row :: rows =>
    let later := restartOffsets (count + 1)
      (offset + (entryBytes codecs count previousKey row).length) row.1 rows
    if count % restartInterval == 0 then offset :: later else later

def lastKey (previousKey : String) (rows : List (String × Row)) : String :=
  (rows.getLast?.map Prod.fst).getD previousKey

theorem lastKey_cons (previousKey : String) (row : String × Row) (rows : List (String × Row)) :
    lastKey previousKey (row :: rows) = lastKey row.1 rows := by
  cases rows with
  | nil => rfl
  | cons second rows => simp [lastKey, List.getLast?_eq_some_getLast]

@[simp] theorem lastKey_concat (previousKey : String) (rows : List (String × Row))
    (row : String × Row) : lastKey previousKey (rows ++ [row]) = row.1 := by
  simp [lastKey]

variable {rows : List (String × Row)}

theorem lastKey_of_ne_nil (someRows : rows ≠ []) (previousKey : String) :
    ∃ row ∈ rows, lastKey previousKey rows = row.1 := by
  refine ⟨rows.getLast someRows, getLast_mem someRows, ?_⟩
  rw [lastKey, List.getLast?_eq_some_getLast someRows]
  rfl

theorem encodeEntries_concat (count : Nat) (previousKey : String) (rows : List (String × Row))
    (row : String × Row) : encodeEntries codecs count previousKey (rows ++ [row]) =
      encodeEntries codecs count previousKey rows ++
        entryBytes codecs (count + rows.length) (lastKey previousKey rows) row := by
  induction rows generalizing count previousKey with
  | nil => simp [encodeEntries, lastKey]
  | cons first rows induction =>
    rw [cons_append, encodeEntries, encodeEntries, induction, lastKey_cons,
      append_assoc, length_cons, Nat.add_right_comm, Nat.add_assoc]

theorem restartOffsets_concat (count offset : Nat) (previousKey : String)
    (rows : List (String × Row)) (row : String × Row) :
    restartOffsets codecs count offset previousKey (rows ++ [row]) =
      restartOffsets codecs count offset previousKey rows ++
        if (count + rows.length) % restartInterval == 0 then
          [offset + (encodeEntries codecs count previousKey rows).length] else [] := by
  induction rows generalizing count offset previousKey with
  | nil => simp [restartOffsets, encodeEntries]
  | cons first rows induction =>
    rw [cons_append, restartOffsets, restartOffsets, induction, encodeEntries,
      length_append, length_cons, Nat.add_right_comm count 1, Nat.add_assoc, Nat.add_assoc]
    split <;> simp

theorem writeVarint_ne_nil (value : Nat) : writeVarint value ≠ [] := by
  rw [writeVarint, varintGroups, writeVarintGroups]
  split <;> simp

theorem entryBytes_ne_nil (count : Nat) (previousKey : String) (row : String × Row) :
    entryBytes codecs count previousKey row ≠ [] := by
  simp [entryBytes, SegmentBlocksBuilder.encodeEntry, writeVarint_ne_nil]

theorem length_le_entryBytes (count : Nat) (previousKey : String) (row : String × Row) :
    (utf8 row.1).length ≤
        (utf8 previousKey).length + (entryBytes codecs count previousKey row).length ∧
      (codecs.encodeRow row.2).length ≤ (entryBytes codecs count previousKey row).length := by
  have shared := (Cut.entryShared count previousKey row.1).shared_le
  simp only [entryBytes, SegmentBlocksBuilder.encodeEntry, length_append, length_drop]
  omega

def KeysAscend (previousKey : String) (rows : List (String × Row)) : Prop :=
  (previousKey :: rows.map Prod.fst).Pairwise fun left right => utf8 left ≤ utf8 right

theorem KeysAscend.head (ascend : KeysAscend previousKey (row :: rows)) :
    utf8 previousKey ≤ utf8 row.1 ∧ KeysAscend row.1 rows := by
  have parts := pairwise_cons.mp ascend
  exact ⟨parts.1 row.1 (by simp), parts.2⟩

theorem KeysAscend.cons (first : utf8 previousKey ≤ utf8 row.1) (ascend : KeysAscend row.1 rows) :
    KeysAscend previousKey (row :: rows) := by
  apply pairwise_cons.mpr
  refine ⟨?_, ascend⟩
  intro key mem
  rcases mem_cons.mp mem with eq | mem
  · exact eq ▸ first
  · exact first.trans ((pairwise_cons.mp ascend).1 key mem)

variable {more : List (String × Row)}

section

variable (ascend : KeysAscend previousKey (rows ++ more))

include ascend

theorem KeysAscend.lastKey_le (mem : row ∈ more) :
    utf8 (lastKey previousKey rows) ≤ utf8 row.1 := by
  induction rows generalizing previousKey with
  | nil => exact (pairwise_cons.mp ascend).1 row.1 (mem_map_of_mem mem)
  | cons first rows induction =>
    rw [lastKey_cons]
    exact induction ascend.head.2

theorem KeysAscend.after : KeysAscend (lastKey previousKey rows) more := by
  induction rows generalizing previousKey with
  | nil => exact ascend
  | cons first rows induction =>
    rw [lastKey_cons]
    exact induction ascend.head.2

end

theorem KeysAscend.le_lastKey (ascend : KeysAscend previousKey rows) (mem : row ∈ rows) :
    utf8 row.1 ≤ utf8 (lastKey previousKey rows) := by
  induction rows generalizing previousKey with
  | nil => cases mem
  | cons first rows induction =>
    rw [lastKey_cons]
    rcases mem_cons.mp mem with eq | mem
    · subst eq
      cases last : rows.getLast? with
      | none => simp [lastKey, last]
      | some final =>
        have inRows := mem_of_getLast? last
        have below := (pairwise_cons.mp ascend.head.2).1 final.1
          (mem_map_of_mem inRows)
        simpa [lastKey, last] using below
    · exact induction ascend.head.2 mem

theorem KeysAscend.concat (ascend : KeysAscend previousKey rows)
    (last : utf8 (lastKey previousKey rows) ≤ utf8 row.1) :
    KeysAscend previousKey (rows ++ [row]) := by
  induction rows generalizing previousKey with
  | nil => exact .cons last (pairwise_singleton _ _)
  | cons first rows induction =>
    rw [lastKey_cons] at last
    exact .cons ascend.head.1 (induction ascend.head.2 last)

theorem decodeEntries_encodeEntries [LawfulSegmentCodecs codecs] {count offset length steps : Nat}
    (ascend : KeysAscend previousKey rows) (previousFits : (utf8 previousKey).length ≤ offset)
    (fits : length < 2 ^ 64)
    (total : offset + (encodeEntries codecs count previousKey rows).length = length)
    (enough : rows.length ≤ steps) :
    decodeEntries codecs length steps (restartOffsets codecs count offset previousKey rows)
      count previousKey (encodeEntries codecs count previousKey rows) = .ok rows := by
  induction rows generalizing count offset previousKey steps with
  | nil => simp [encodeEntries, restartOffsets, decodeEntries]
  | cons row rows induction =>
    cases steps with
    | zero => simp at enough
    | succ steps =>
      rw [encodeEntries, length_append] at total
      have lengths := length_le_entryBytes codecs count previousKey row
      have later : decodeEntries codecs length steps
          (restartOffsets codecs (count + 1)
            (offset + (entryBytes codecs count previousKey row).length) row.1 rows)
          (count + 1) row.1 (encodeEntries codecs (count + 1) row.1 rows) = .ok rows :=
        induction ascend.head.2 (by omega) (by omega) (Nat.le_of_succ_le_succ enough)
      have whole : (count % restartInterval == 0) = true →
          entryShared count previousKey row.1 = 0 := by
        intro restart
        simp [entryShared, restart]
      have entry : decodeEntry codecs (count % restartInterval == 0) previousKey
          (entryBytes codecs count previousKey row ++ encodeEntries codecs (count + 1) row.1 rows) =
          .ok (row, encodeEntries codecs (count + 1) row.1 rows) :=
        decodeEntry_encodeEntry codecs (Cut.entryShared count previousKey row.1) whole
          ascend.head.1 (by omega) (by omega) _
      have cursor : length - (entryBytes codecs count previousKey row ++
          encodeEntries codecs (count + 1) row.1 rows).length = offset := by
        rw [length_append]
        omega
      rw [encodeEntries]
      cases bytes : entryBytes codecs count previousKey row ++
          encodeEntries codecs (count + 1) row.1 rows with
      | nil => simp [entryBytes_ne_nil] at bytes
      | cons byte rest =>
        rw [bytes] at entry cursor
        rw [length_cons] at cursor
        rw [decodeEntries, restartOffsets, cursor, entry]
        by_cases restart : count % restartInterval == 0
        · simp [restart, later]
        · simp [restart, later]

end LoonFs
