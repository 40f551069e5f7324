import LoonFs.Format.SegmentEntries

/-! # Blocks from an untrusted store -/

namespace LoonFs

open Foundation String.Pos.Raw
open List hiding count length

/-- The reader does not stop the process, and what it returns satisfies `post`. -/
def Returns {Result : Type} (post : Result → Prop) : Except SegmentBlockCodecError Result → Prop
  | .ok result => post result
  | .error (.stopped _) => False
  | .error _ => True

namespace Returns

theorem bind {next : Middle → Except SegmentBlockCodecError Result}
    (returns : Returns middle first) (goesOn : ∀ value, middle value → Returns post (next value)) :
    Returns post (first >>= next) := by
  cases first with
  | ok value => exact goesOn value returns
  | error failure => cases failure <;> exact returns

theorem ite [Decidable condition] (holds : condition → Returns post left)
    (fails : ¬condition → Returns post right) :
    Returns post (if condition then left else right) := by
  split
  case isTrue isTrue => exact holds isTrue
  case isFalse isFalse => exact fails isFalse

theorem mono {implied : Result → Prop} (returns : Returns post outcome)
    (implies : ∀ result, post result → implied result) : Returns implied outcome := by
  cases outcome with
  | ok result => exact implies result returns
  | error failure => cases failure <;> exact returns

theorem ne_stopped (returns : Returns post outcome) (message : String) :
    outcome ≠ .error (.stopped message) := by
  rintro rfl
  exact returns

end Returns

/-! ## Numbers and slices -/

structure IsVarint (word : Bytes) (value : Nat) : Prop where
  reads : ∀ rest, readVarint (word ++ rest) = .ok (value, rest)
  nonempty : word ≠ []
  atMost : word.length ≤ varintGroups
  fits : value < 2 ^ 64

theorem group_lt (byte : UInt8) : (byte &&& 0x7f).toNat < 2 ^ 7 := by
  rw [UInt8.toNat_and]
  exact Nat.and_lt_two_pow _ (by decide)

theorem last_group {byte : UInt8} (small : ¬byte > 1) :
    byte &&& 0x80 = 0 ∧ (byte &&& 0x7f).toNat < 2 ^ 1 := by
  have isBit : byte = 0 ∨ byte = 1 := by
    rcases Nat.le_one_iff_eq_zero_or_eq_one.mp (UInt8.not_lt.mp small) with zero | one
    · exact .inl (UInt8.toNat_inj.mp zero)
    · exact .inr (UInt8.toNat_inj.mp one)
  rcases isBit with rfl | rfl <;> decide

theorem or_group_lt (read : value < 2 ^ shift) (small : group < 2 ^ bits) :
    value ||| group <<< shift < 2 ^ (shift + bits) := by
  apply Nat.or_lt_two_pow
  · exact read.trans_le (Nat.pow_le_pow_right (by decide) (Nat.le_add_right _ _))
  · rw [Nat.shiftLeft_eq, Nat.pow_add, Nat.mul_comm]
    exact Nat.mul_lt_mul_of_pos_left small (Nat.two_pow_pos shift)

/-- The reader looks at no more bytes than the groups that are left, so it never
shifts by 64 bits or more. -/
theorem readVarintFrom_cases {groups shift value : Nat} (aligned : shift + 7 * groups = 70)
    (inWord : shift ≤ 63) (read : value < 2 ^ shift) (bytes : Bytes) :
    match readVarintFrom value shift bytes with
    | .ok (result, rest) => result < 2 ^ 64 ∧ ∃ word, bytes = word ++ rest ∧ word ≠ [] ∧
        word.length ≤ groups ∧
        ∀ other, readVarintFrom value shift (word ++ other) = .ok (result, other)
    | .error .runsPastTheBlock => bytes.length < groups
    | .error .exceeds64Bits => groups ≤ bytes.length := by
  induction groups generalizing shift value bytes with
  | zero => omega
  | succ groups induction =>
    cases bytes with
    | nil => exact Nat.succ_pos groups
    | cons byte bytes =>
      by_cases large : shift = 63 ∧ byte > 1
      · have single : groups = 0 := by omega
        simp [readVarintFrom, large, single]
      · have step (other : Bytes) : readVarintFrom value shift (byte :: other) =
            if byte &&& 0x80 = 0 then .ok (value ||| (byte &&& 0x7f).toNat <<< shift, other)
            else readVarintFrom (value ||| (byte &&& 0x7f).toNat <<< shift) (shift + 7) other := by
          rw [readVarintFrom, if_neg large]
        by_cases final : byte &&& 0x80 = 0
        · have fits : value ||| (byte &&& 0x7f).toNat <<< shift < 2 ^ 64 := by
            by_cases last : shift = 63
            · subst last
              exact or_group_lt read (last_group fun above => large ⟨rfl, above⟩).2
            · exact (or_group_lt read (group_lt byte)).trans_le
                (Nat.pow_le_pow_right (by decide) (by omega))
          rw [step, if_pos final]
          refine ⟨fits, [byte], rfl, by simp, by simp, fun other => ?_⟩
          rw [cons_append, step, if_pos final, nil_append]
        · have notLast : shift ≠ 63 := fun last =>
            final (last_group fun above => large ⟨last, above⟩).1
          have rest := induction (by omega) (by omega) (or_group_lt read (group_lt byte)) bytes
          rw [step, if_neg final]
          split at rest
          case h_1 result left isRead =>
            rcases rest with ⟨fits, word, rfl, _, atMost, again⟩
            refine ⟨fits, byte :: word, rfl, by simp, by simpa using atMost, fun other => ?_⟩
            rw [cons_append, step, if_neg final, again]
          case h_2 => exact Nat.succ_lt_succ rest
          case h_3 => exact Nat.succ_le_succ rest

theorem readVarint_cases (bytes : Bytes) :
    match readVarint bytes with
    | .ok (value, rest) => ∃ word, bytes = word ++ rest ∧ IsVarint word value
    | .error .runsPastTheBlock => bytes.length < varintGroups
    | .error .exceeds64Bits => varintGroups ≤ bytes.length := by
  have read := @readVarintFrom_cases varintGroups 0 0 (by decide) (by decide) (by decide) bytes
  rw [readVarint]
  split at read
  case h_1 =>
    rcases read with ⟨fits, word, split, nonempty, atMost, again⟩
    exact ⟨word, split, again, nonempty, atMost, fits⟩
  case h_2 => exact read
  case h_3 => exact read

theorem readEntryLength_returns (bytes : Bytes) :
    Returns (fun read => ∃ word, bytes = word ++ read.2 ∧ IsVarint word read.1)
      (readEntryLength bytes) := by
  have read := readVarint_cases bytes
  rw [readEntryLength]
  split at read
  case h_1 isRead =>
    rw [isRead]
    exact read
  case h_2 isRead =>
    rw [isRead]
    trivial
  case h_3 isRead =>
    rw [isRead]
    trivial

theorem takeSlice_returns (bytes : Bytes) (length : Nat) :
    Returns (fun taken => bytes = taken.1 ++ taken.2 ∧ taken.1.length = length)
      (takeSlice bytes length) := by
  apply Returns.ite
  · intro inside
    exact ⟨(take_append_drop length bytes).symm, length_take_of_le inside⟩
  · exact fun _ => trivial

theorem fromUtf8_take (valid : isValid text ⟨position⟩ = true) :
    ∃ start, fromUtf8 ((utf8 text).take position) = some start ∧
      utf8 start = (utf8 text).take position := by
  rcases isValid_iff_split.mp valid with ⟨head, tail, rfl, isLength⟩
  rw [utf8_append, take_left' isLength]
  exact ⟨head, fromUtf8_utf8 head, rfl⟩

theorem utf8_of_fromUtf8 (isText : fromUtf8 bytes = some text) : utf8 text = bytes := by
  rw [fromUtf8, String.fromUTF8?] at isText
  split at isText
  · cases isText
    rfl
  · cases isText

/-! ## Data blocks -/

section

variable {Row : Type} (codecs : SegmentCodecs Row)

/-- The bytes of one entry: the shared length, the rest of the key, and the row. -/
inductive EntryOf (restart : Bool) (previousKey : String) (row : String × Row) : Bytes → Prop
  | spelled {sharedWord suffixWord suffix rowWord rowBytes : Bytes} {shared : Nat}
      (sharedLength : IsVarint sharedWord shared)
      (suffixLength : IsVarint suffixWord suffix.length)
      (rowLength : IsVarint rowWord rowBytes.length) (whole : restart = true → shared = 0)
      (boundary : isValid previousKey ⟨shared⟩ = true)
      (key : utf8 row.1 = (utf8 previousKey).take shared ++ suffix)
      (isRow : codecs.decodeRow rowBytes = .ok row.2)
      (ascends : utf8 previousKey ≤ utf8 row.1) :
      EntryOf restart previousKey row
        (sharedWord ++ (suffixWord ++ (suffix ++ (rowWord ++ rowBytes))))

/-- The bytes of the entries from entry `count` on, and the offsets of their restarts. -/
inductive EntriesOf : Nat → Nat → String → List (String × Row) → Bytes → List Nat → Prop
  | nil {count offset : Nat} {previousKey : String} : EntriesOf count offset previousKey [] [] []
  | restart {count offset : Nat} {previousKey : String} {row : String × Row}
      {rows : List (String × Row)} {entry bytes : Bytes} {restarts : List Nat}
      (isRestart : count % restartInterval = 0)
      (isEntry : EntryOf codecs true previousKey row entry)
      (rest : EntriesOf (count + 1) (offset + entry.length) row.1 rows bytes restarts) :
      EntriesOf count offset previousKey (row :: rows) (entry ++ bytes) (offset :: restarts)
  | shared {count offset : Nat} {previousKey : String} {row : String × Row}
      {rows : List (String × Row)} {entry bytes : Bytes} {restarts : List Nat}
      (notRestart : count % restartInterval ≠ 0)
      (isEntry : EntryOf codecs false previousKey row entry)
      (rest : EntriesOf (count + 1) (offset + entry.length) row.1 rows bytes restarts) :
      EntriesOf count offset previousKey (row :: rows) (entry ++ bytes) restarts

variable {codecs}

theorem EntryOf.nonempty (isEntry : EntryOf codecs restart previousKey row entry) : entry ≠ [] := by
  cases isEntry with
  | spelled sharedLength => simp [sharedLength.nonempty]

theorem EntriesOf.ascend
    (isEntries : EntriesOf codecs count offset previousKey rows bytes restarts) :
    KeysAscend previousKey rows := by
  induction isEntries with
  | nil => exact pairwise_singleton _ _
  | restart _ isEntry _ induction | shared _ isEntry _ induction =>
    cases isEntry with
    | spelled _ _ _ _ _ _ _ ascends => exact .cons ascends induction

theorem decodeEntry_returns (restart : Bool) (previousKey : String) (bytes : Bytes) :
    Returns (fun read => ∃ entry, bytes = entry ++ read.2 ∧
        EntryOf codecs restart previousKey read.1 entry)
      (decodeEntry codecs restart previousKey bytes) := by
  rw [decodeEntry]
  apply Returns.bind (readEntryLength_returns bytes)
  rintro ⟨shared, bytes⟩ ⟨sharedWord, rfl, sharedLength⟩
  apply Returns.bind (readEntryLength_returns bytes)
  rintro ⟨length, bytes⟩ ⟨suffixWord, rfl, suffixLength⟩
  apply Returns.ite
  · exact fun _ => trivial
  intro whole
  apply Returns.ite
  · exact fun _ => trivial
  intro within
  apply Returns.bind (takeSlice_returns bytes length)
  rintro ⟨suffix, bytes⟩ ⟨rfl, rfl⟩
  have boundary : isValid previousKey ⟨shared⟩ = true := by simpa using (not_or.mp within).2
  rcases fromUtf8_take boundary with ⟨start, isStart, startBytes⟩
  dsimp only at suffixLength sharedLength ⊢
  rw [isStart]
  cases isSuffix : fromUtf8 suffix with
  | none => trivial
  | some text =>
    apply Returns.bind (readEntryLength_returns bytes)
    rintro ⟨length, bytes⟩ ⟨rowWord, rfl, rowLength⟩
    apply Returns.bind (takeSlice_returns bytes length)
    rintro ⟨rowBytes, bytes⟩ ⟨rfl, rfl⟩
    dsimp only at rowLength ⊢
    cases isRow : codecs.decodeRow rowBytes with
    | error message => trivial
    | ok row =>
      apply Returns.ite
      · exact fun _ => trivial
      intro ascends
      refine ⟨_, ?_, .spelled sharedLength suffixLength rowLength ?_ boundary ?_ isRow
        (not_lt.mp ascends)⟩
      · simp only [append_assoc]
      · intro isRestart
        by_contra some
        exact whole ⟨isRestart, some⟩
      · rw [utf8_append, startBytes, utf8_of_fromUtf8 isSuffix]

theorem decodeEntries_nil :
    Returns (fun rows => EntriesOf codecs count offset previousKey rows [] restarts)
      (decodeEntries codecs length steps restarts count previousKey []) := by
  have ends : decodeEntries codecs length steps restarts count previousKey [] =
      if restarts.isEmpty then .ok []
      else .error (.malformed "restart array contains unused offsets") := by
    cases steps <;> rfl
  rw [ends]
  apply Returns.ite
  · intro isEmpty
    rw [isEmpty_iff.mp isEmpty]
    exact .nil
  · exact fun _ => trivial

theorem decodeEntries_returns (steps : Nat) {bytes : Bytes} (enough : bytes.length ≤ steps)
    (inside : bytes.length ≤ length) :
    Returns (fun rows => EntriesOf codecs count (length - bytes.length) previousKey rows bytes
        restarts) (decodeEntries codecs length steps restarts count previousKey bytes) := by
  induction steps generalizing restarts count previousKey bytes with
  | zero =>
    rw [eq_nil_of_length_eq_zero (Nat.le_zero.mp enough)]
    exact decodeEntries_nil
  | succ steps induction =>
    cases bytes with
    | nil => exact decodeEntries_nil
    | cons byte bytes =>
      rw [decodeEntries]
      apply Returns.ite
      · exact fun _ => trivial
      intro agrees
      apply Returns.bind (decodeEntry_returns _ previousKey (byte :: bytes))
      rintro ⟨row, rest⟩ ⟨entry, isBytes, isEntry⟩
      dsimp only at isBytes isEntry
      have nonempty := length_pos_iff.mpr isEntry.nonempty
      have lengths := congrArg List.length isBytes
      rw [length_append] at lengths
      apply Returns.bind (induction (by omega) (by omega))
      intro rows isRows
      have next : length - rest.length = length - (byte :: bytes).length + entry.length := by omega
      rw [next] at isRows
      change EntriesOf codecs count _ previousKey (row :: rows) (byte :: bytes) restarts
      rw [isBytes] at isRows ⊢
      by_cases isRestart : count % restartInterval = 0
      · rw [isRestart] at isRows isEntry agrees
        have first : restarts.head? = some (length - (byte :: bytes).length) := by
          simpa using agrees
        rcases List.head?_eq_some_iff.mp first with ⟨later, rfl⟩
        rw [isBytes]
        exact .restart isRestart isEntry isRows
      · have notRestart : (count % restartInterval == 0) = false := by simpa using isRestart
        rw [notRestart] at isRows isEntry
        exact .shared isRestart isEntry isRows

/-! ## Sections and payloads -/

theorem decodeSection_returns (stored : Bytes) (handle : BlockHandle) (compressed : Bool) :
    Returns (fun payload => decodeSection codecs stored handle compressed = .ok payload)
      (decodeSection codecs stored handle compressed) := by
  have never : Returns (fun _ => True) (decodeSection codecs stored handle compressed) := by
    rw [decodeSection]
    apply Returns.ite
    · exact fun _ => trivial
    intro _
    apply Returns.ite
    · exact fun _ => trivial
    intro _
    apply Returns.ite
    · intro _
      cases codecs.decompress stored with
      | error message => trivial
      | ok payload => exact Returns.ite (fun _ => trivial) fun _ => trivial
    · intro _
      apply Returns.ite
      · exact fun _ => trivial
      · intro _
        exact Returns.ite (fun _ => trivial) fun _ => trivial
  cases decoded : decodeSection codecs stored handle compressed with
  | ok payload => rfl
  | error failure =>
    cases failure with
    | stopped message => exact never.ne_stopped message decoded
    | _ => trivial

theorem leBytes_fromLeBytes (bytes : Bytes) : leBytes bytes.length (fromLeBytes bytes) = bytes := by
  induction bytes with
  | nil => rfl
  | cons byte bytes induction =>
    have small := byte.toNat_lt
    have low : (byte.toNat + 256 * fromLeBytes bytes) % 256 = byte.toNat := by omega
    have high : (byte.toNat + 256 * fromLeBytes bytes) / 256 = fromLeBytes bytes := by omega
    rw [length_cons, fromLeBytes, leBytes, low, high, induction, UInt8.ofNat_toNat]

theorem flatMap_leWords32 {bytes : Bytes} (isLength : bytes.length = count * 4) :
    (leWords32 bytes).flatMap (leBytes 4) = bytes ∧ (leWords32 bytes).length = count := by
  induction count generalizing bytes with
  | zero =>
    rw [eq_nil_of_length_eq_zero (isLength.trans (Nat.zero_mul 4))]
    exact ⟨rfl, rfl⟩
  | succ count induction =>
    rcases bytes with _ | ⟨first, _ | ⟨second, _ | ⟨third, _ | ⟨fourth, rest⟩⟩⟩⟩
    case cons.cons.cons.cons =>
      have word := leBytes_fromLeBytes [first, second, third, fourth]
      have others : rest.length = count * 4 := by
        simp only [length_cons] at isLength
        omega
      rcases induction others with ⟨spelled, counted⟩
      rw [leWords32, flatMap_cons, spelled, length_cons, counted]
      exact ⟨congrArg (· ++ rest) word, rfl⟩
    all_goals
      simp only [length_cons, length_nil] at isLength
      omega

theorem decodeDataBlockRows_returns (stored : Bytes) (handle : BlockHandle) :
    Returns (fun rows => ∃ payload, decodeSection codecs stored handle true = .ok payload ∧
        ∃ entries restarts,
          payload = entries ++ restarts.flatMap (leBytes 4) ++ leBytes 4 restarts.length ∧
            EntriesOf codecs 0 0 "" rows entries restarts)
      (decodeDataBlockRows codecs stored handle) := by
  rw [decodeDataBlockRows]
  apply Returns.bind (decodeSection_returns stored handle true)
  intro payload isPayload
  apply Returns.ite
  · exact fun _ => trivial
  intro longEnough
  apply Returns.ite
  · exact fun _ => trivial
  intro fits
  have cut : ∀ (bytes : Bytes) {length : Nat}, length ≤ bytes.length →
      bytes.take (bytes.length - length) ++ bytes.drop (bytes.length - length) = bytes ∧
        (bytes.drop (bytes.length - length)).length = length := by
    intro bytes length inside
    refine ⟨take_append_drop _ _, ?_⟩
    rw [length_drop]
    omega
  rcases cut payload (not_lt.mp longEnough) with ⟨wholePayload, countLength⟩
  rcases cut _ (not_lt.mp fits) with ⟨wholeBody, restartsLength⟩
  rcases flatMap_leWords32 restartsLength with ⟨restarts, count⟩
  have countBytes := leBytes_fromLeBytes (payload.drop (payload.length - 4))
  rw [countLength] at countBytes
  apply Returns.mono (decodeEntries_returns _ le_rfl le_rfl)
  intro rows isRows
  rw [Nat.sub_self] at isRows
  refine ⟨payload, isPayload, _, _, ?_, isRows⟩
  rw [restarts, count, countBytes, wholeBody, wholePayload]

/-! ## Index blocks -/

def SegmentIndexEntry.Follows (previous entry : SegmentIndexEntry) : Prop :=
  utf8 previous.lastRowKey ≤ utf8 entry.lastRowKey ∧
    entry.block.offset = previous.block.offset + previous.block.storedBytes

theorem checkIndexEntries_returns (previous : Option SegmentIndexEntry)
    (entries : List SegmentIndexEntry) :
    Returns (fun _ => (∀ entry ∈ entries, entry.block.offset + entry.block.storedBytes ≤ u64Max) ∧
        (previous.toList ++ entries).IsChain SegmentIndexEntry.Follows)
      (checkIndexEntries (previous.map fun entry =>
        (entry.lastRowKey, entry.block.offset + entry.block.storedBytes)) entries) := by
  induction entries generalizing previous with
  | nil =>
    refine ⟨by simp, ?_⟩
    cases previous <;> simp
  | cons entry entries induction =>
    rw [checkIndexEntries]
    apply Returns.ite
    · exact fun _ => trivial
    intro fits
    have later := induction (some entry)
    cases previous with
    | none =>
      exact later.mono fun _ checked => ⟨forall_mem_cons.mpr ⟨not_lt.mp fits, checked.1⟩, checked.2⟩
    | some previous =>
      apply Returns.ite
      · exact fun _ => trivial
      intro ascends
      apply Returns.ite
      · exact fun _ => trivial
      intro continues
      have follows : previous.Follows entry := ⟨not_lt.mp ascends, not_not.mp continues⟩
      exact later.mono fun _ checked =>
        ⟨forall_mem_cons.mpr ⟨not_lt.mp fits, checked.1⟩, .cons_cons follows checked.2⟩

theorem decodeIndexBlock_returns (stored : Bytes) (handle : BlockHandle) : Returns (fun entries =>
        (∀ entry ∈ entries, entry.block.offset + entry.block.storedBytes ≤ u64Max) ∧
          entries.IsChain SegmentIndexEntry.Follows) (decodeIndexBlock codecs stored handle) := by
  rw [decodeIndexBlock]
  apply Returns.bind (decodeSection_returns stored handle true)
  intro payload _
  cases codecs.decodeIndex payload with
  | error message => trivial
  | ok entries =>
    exact Returns.bind (checkIndexEntries_returns none entries) fun _ checked => checked

end

/-- A reader returns or refuses whatever bytes it gets. Index entries that it returns have
ascending keys and adjoining ranges, and data rows have ascending keys and are the whole
payload. No shift reaches 64, and a checked key is only sliced at a boundary. -/
theorem segment_blocks_decode_safely {Row : Type} (codecs : SegmentCodecs Row) (stored : Bytes)
    (handle : BlockHandle) :
    Returns (fun entries =>
        (∀ entry ∈ entries, entry.block.offset + entry.block.storedBytes ≤ u64Max) ∧
        (entries.Pairwise fun left right => utf8 left.lastRowKey ≤ utf8 right.lastRowKey) ∧
        entries.IsChain fun left right =>
          right.block.offset = left.block.offset + left.block.storedBytes)
      (decodeIndexBlock codecs stored handle) ∧
    Returns (fun rows => KeysAscend "" rows ∧
        ∃ payload, decodeSection codecs stored handle true = .ok payload ∧
          ∃ entries restarts,
            payload = entries ++ restarts.flatMap (leBytes 4) ++ leBytes 4 restarts.length ∧
              EntriesOf codecs 0 0 "" rows entries restarts)
      (decodeDataBlockRows codecs stored handle) ∧
    (∀ bytes, match readVarint bytes with
      | .ok (value, rest) => ∃ word, bytes = word ++ rest ∧ IsVarint word value
      | .error .runsPastTheBlock => bytes.length < varintGroups
      | .error .exceeds64Bits => varintGroups ≤ bytes.length) ∧
    ∀ text position, isValid text ⟨position⟩ = true →
      ∃ start, fromUtf8 ((utf8 text).take position) = some start ∧
        utf8 start = (utf8 text).take position := by
  refine ⟨?_, ?_, readVarint_cases, fun text position => fromUtf8_take⟩
  · refine (decodeIndexBlock_returns stored handle).mono fun entries ⟨fits, chain⟩ => ⟨fits, ?_, ?_⟩
    · have ascending := chain.imp fun _ _ follows => follows.1
      exact ascending.pairwise
    · exact chain.imp fun _ _ follows => follows.2
  · refine (decodeDataBlockRows_returns stored handle).mono fun rows decoded => ⟨?_, decoded⟩
    rcases decoded with ⟨_, _, _, _, _, isEntries⟩
    exact isEntries.ascend

end LoonFs
