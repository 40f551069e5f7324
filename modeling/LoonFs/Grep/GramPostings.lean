import LoonFs.Format.SegmentDecoding

/-! # Posting batches of a gram index -/

namespace LoonFs

open List Foundation

inductive IndexGramsCodecError
  | emptyPostings
  | postingsOutOfOrder (previous ordinal : Nat)
  | malformed (reason : String)

def malformedVarint : VarintError → IndexGramsCodecError
  | .runsPastTheBlock => .malformed "malformed block: varint runs past the block"
  | .exceeds64Bits => .malformed "malformed block: varint exceeds 64 bits"

def encodeGaps (previous : Nat) : List Nat → Except IndexGramsCodecError Bytes
  | [] => .ok []
  | ordinal :: rest =>
    if ordinal ≤ previous then
      .error (.postingsOutOfOrder previous ordinal)
    else do
      return writeVarint (ordinal - previous) ++ (← encodeGaps ordinal rest)

def encodeGramPostings : List Nat → Except IndexGramsCodecError Bytes
  | [] => .error .emptyPostings
  | first :: rest => do
    return writeVarint (rest.length + 1) ++ (writeVarint first ++ (← encodeGaps first rest))

def readPosting (bytes : Bytes) : Except IndexGramsCodecError (Nat × Bytes) :=
  (readVarint bytes).mapError malformedVarint

def decodeGaps : Nat → Nat → Bytes → Except IndexGramsCodecError (List Nat × Bytes)
  | 0, _, bytes => .ok ([], bytes)
  | count + 1, previous, bytes => do
    let (gap, bytes) ← readPosting bytes
    refuseIf (gap = 0) (.postingsOutOfOrder previous previous)
    refuseIf (2 ^ 64 ≤ previous + gap)
      (.malformed s!"posting gap {gap} after ordinal {previous} overflows")
    let (ordinals, bytes) ← decodeGaps count (previous + gap) bytes
    return ((previous + gap) :: ordinals, bytes)

def decodeGramPostings (bytes : Bytes) : Except IndexGramsCodecError (List Nat) := do
  let (count, rest) ← readPosting bytes
  refuseIf (count = 0) .emptyPostings
  refuseIf (bytes.length < count)
    (.malformed s!"posting count {count} exceeds batch bytes {bytes.length}")
  let (first, rest) ← readPosting rest
  let (ordinals, rest) ← decodeGaps (count - 1) first rest
  refuseIf (rest ≠ []) (.malformed s!"{rest.length} trailing bytes after the last posting")
  return first :: ordinals

/-- A LEB128 word: seven bits to a byte from the lowest, the high bit set on all but the last. -/
inductive Leb128 : Bytes → Nat → Prop
  | last : byte &&& 0x80 = 0 → Leb128 [byte] (byte &&& 0x7f).toNat
  | more : byte &&& 0x80 ≠ 0 → Leb128 word value →
      Leb128 (byte :: word) ((byte &&& 0x7f).toNat + 128 * value)

/-- A word of at most 64 bits, which need not be the shortest one of its value. -/
structure Leb64 (word : Bytes) (value : Nat) : Prop where
  groups : Leb128 word value
  atMost : word.length ≤ varintGroups
  fits : value < 2 ^ 64

theorem final_group {byte : UInt8} (last : byte &&& 0x80 = 0)
    (small : (byte &&& 0x7f).toNat < 2) : ¬byte > 1 := by
  rcases byte with ⟨bits⟩
  revert bits
  decide

theorem Leb128.length_pos (leb : Leb128 word value) : 0 < word.length := by
  cases leb <;> exact Nat.succ_pos _

theorem readVarintFrom_eq_ok {groups shift read : Nat} (aligned : shift + 7 * groups = 70)
    (inWord : shift ≤ 63) (readBound : read < 2 ^ shift) :
    readVarintFrom read shift bytes = .ok (total, rest) ↔
    ∃ word value, bytes = word ++ rest ∧ Leb128 word value ∧ word.length ≤ groups ∧
      value < 2 ^ (64 - shift) ∧ total = read + value * 2 ^ shift := by
  induction bytes generalizing groups shift read with
  | nil =>
    refine ⟨fun isRead => (by cases isRead), ?_⟩
    rintro ⟨word, value, split, leb, _⟩
    have := leb.length_pos
    simp_all
  | cons byte bytes induction =>
    have group := group_lt byte
    have bound := or_group_lt readBound group
    rw [readVarintFrom, guard_eq_ok fun _ refused => by cases refused]
    rw [or_group readBound] at bound ⊢
    by_cases last : byte &&& 0x80 = 0
    · rw [if_pos last]
      constructor
      · rintro ⟨small, same⟩
        cases same
        refine ⟨[byte], _, rfl, .last last, by simp; omega, ?_, rfl⟩
        by_cases final : shift = 63
        · subst final
          exact (last_group fun above => small ⟨rfl, above⟩).2
        · exact group.trans_le (Nat.pow_le_pow_right (by decide) (by omega))
      · rintro ⟨word, value, split, leb, _, fits, rfl⟩
        cases leb with
        | last =>
          cases split
          refine ⟨?_, rfl⟩
          rintro ⟨rfl, above⟩
          exact final_group last fits above
        | more more =>
          cases split
          exact absurd last more
    · rw [if_neg last]
      have step (room : shift ≠ 63) := @induction (groups - 1) _ _ (by omega) (by omega) bound
      have product (room : shift ≠ 63) : 2 ^ (64 - shift) = 128 * 2 ^ (64 - (shift + 7)) := by
        rw [show 64 - shift = 7 + (64 - (shift + 7)) by omega, Nat.pow_add]
      have sum (high : Nat) : read + (byte &&& 0x7f).toNat * 2 ^ shift + high * 2 ^ (shift + 7) =
          read + ((byte &&& 0x7f).toNat + 128 * high) * 2 ^ shift := by
        rw [Nat.pow_add]
        ring
      constructor
      · rintro ⟨small, isRead⟩
        have room : shift ≠ 63 := fun final =>
          last (last_group fun above => small ⟨final, above⟩).1
        rcases (step room).mp isRead with ⟨word, value, rfl, leb, atMost, fits, rfl⟩
        have := product room
        exact ⟨byte :: word, _, rfl, .more last leb, by rw [length_cons]; omega, by omega, sum _⟩
      · rintro ⟨word, value, split, leb, atMost, fits, rfl⟩
        cases leb with
        | last isLast =>
          cases split
          exact absurd isLast last
        | @more _ word value _ leb =>
          cases split
          have := leb.length_pos
          rw [length_cons] at atMost
          have room : shift ≠ 63 := by omega
          have := product room
          exact ⟨fun above => room above.1, (step room).mpr
            ⟨word, value, rfl, leb, by omega, by omega, (sum value).symm⟩⟩

theorem readPosting_eq_ok : readPosting bytes = .ok (value, rest) ↔
    ∃ word, bytes = word ++ rest ∧ Leb64 word value := by
  have read := @readVarintFrom_eq_ok bytes value rest varintGroups 0 0 (by decide) (by decide)
    (by decide)
  rw [readPosting, mapError_eq_ok, readVarint, read]
  constructor
  · rintro ⟨word, value, split, leb, atMost, fits, rfl⟩
    exact ⟨word, split, by simpa using leb, atMost, by simpa using fits⟩
  · rintro ⟨word, split, leb, atMost, fits⟩
    exact ⟨word, value, split, leb, atMost, fits, by simp⟩

/-- The gaps that lead from an ordinal to the next ones. -/
inductive GapsOf : Nat → List Nat → Bytes → Prop
  | nil : GapsOf previous [] []
  | cons : Leb64 word gap → 0 < gap → previous + gap < 2 ^ 64 →
      GapsOf (previous + gap) ordinals bytes →
      GapsOf previous ((previous + gap) :: ordinals) (word ++ bytes)

/-- A count, the first ordinal and the gaps between the others. -/
inductive BatchOf : List Nat → Bytes → Prop
  | batch : Leb64 countWord (ordinals.length + 1) → Leb64 firstWord first →
      GapsOf first ordinals bytes → BatchOf (first :: ordinals) (countWord ++ (firstWord ++ bytes))

theorem GapsOf.ascends (gaps : GapsOf previous ordinals bytes) :
    (previous :: ordinals).Pairwise (· < ·) := by
  induction gaps with
  | nil => exact pairwise_singleton _ _
  | cons _ positive _ _ induction =>
    refine pairwise_cons.mpr ⟨fun ordinal member => ?_, induction⟩
    rcases mem_cons.mp member with rfl | later
    · omega
    · have := (pairwise_cons.mp induction).1 ordinal later
      omega

theorem GapsOf.length_le (gaps : GapsOf previous ordinals bytes) :
    ordinals.length ≤ bytes.length := by
  induction gaps with
  | nil => exact Nat.le_refl 0
  | cons word _ _ _ induction =>
    have := word.groups.length_pos
    rw [length_cons, length_append]
    omega

theorem decodeGaps_eq_ok : decodeGaps left previous bytes = .ok (ordinals, rest) ↔
    ordinals.length = left ∧ ∃ gaps, bytes = gaps ++ rest ∧ GapsOf previous ordinals gaps := by
  induction left generalizing previous bytes ordinals rest with
  | zero =>
    constructor
    · intro decoded
      cases decoded
      exact ⟨rfl, [], rfl, .nil⟩
    · rintro ⟨isEmpty, gaps, rfl, gapsOf⟩
      cases gapsOf with
      | nil => rfl
      | cons => cases isEmpty
  | succ left induction =>
    simp only [decodeGaps, bind_eq_ok, refuseIf_eq_ok, Prod.exists, readPosting_eq_ok, induction,
      pure_eq_ok]
    constructor
    · rintro ⟨gap, _, ⟨word, rfl, leb⟩, _, positive, _, fits, later, _, ⟨rfl, gaps, rfl, gapsOf⟩,
        same⟩
      cases same
      exact ⟨rfl, word ++ gaps, (append_assoc ..).symm, .cons leb (by omega) (by omega) gapsOf⟩
    · rintro ⟨isCount, gaps, rfl, gapsOf⟩
      cases gapsOf with
      | nil => cases isCount
      | @cons word gap _ ordinals gaps leb positive fits gapsOf =>
        exact ⟨gap, gaps ++ rest, ⟨word, append_assoc .., leb⟩, ⟨⟩, by omega, ⟨⟩, by omega,
          ordinals, rest, ⟨Nat.succ.inj isCount, gaps, rfl, gapsOf⟩, rfl⟩

theorem decodeGramPostings_eq_ok :
    decodeGramPostings bytes = .ok ordinals ↔ BatchOf ordinals bytes := by
  simp only [decodeGramPostings, bind_eq_ok, refuseIf_eq_ok, Prod.exists, readPosting_eq_ok,
    decodeGaps_eq_ok, pure_eq_ok]
  constructor
  · rintro ⟨count, _, ⟨countWord, rfl, isCount⟩, _, positive, _, _, first, _,
      ⟨firstWord, rfl, isFirst⟩, later, _, ⟨length, gaps, rfl, gapsOf⟩, _, isEnd, rfl⟩
    rw [Classical.not_not.mp isEnd, append_nil]
    exact .batch (by rwa [length, Nat.sub_add_cancel (Nat.pos_of_ne_zero positive)]) isFirst gapsOf
  · rintro ⟨isCount, isFirst, gapsOf⟩
    have := gapsOf.length_le
    have := isCount.groups.length_pos
    exact ⟨_, _, ⟨_, rfl, isCount⟩, ⟨⟩, Nat.succ_ne_zero _, ⟨⟩, by
      simp only [length_append]; omega, _, _,
      ⟨_, rfl, isFirst⟩, _, [], ⟨rfl, _, (append_nil _).symm, gapsOf⟩, ⟨⟩, by simp, rfl⟩

theorem writeVarint_leb64 (fits : value < 2 ^ 64) : Leb64 (writeVarint value) value := by
  have read : readPosting (writeVarint value ++ []) = .ok (value, []) :=
    mapError_eq_ok.mpr (readVarint_writeVarint fits [])
  rcases readPosting_eq_ok.mp read with ⟨word, same, leb⟩
  rw [append_nil, append_nil] at same
  rwa [same]

theorem encodeGaps_gapsOf (fit : ∀ ordinal ∈ ordinals, ordinal < 2 ^ 64)
    (encoded : encodeGaps previous ordinals = .ok bytes) : GapsOf previous ordinals bytes := by
  induction ordinals generalizing previous bytes with
  | nil =>
    cases encoded
    exact .nil
  | cons ordinal ordinals induction =>
    rw [encodeGaps, guard_eq_ok nofun, bind_eq_ok] at encoded
    rcases encoded with ⟨above, gaps, isGaps, same⟩
    cases same
    have bound := fit ordinal mem_cons_self
    have rest := induction (fun other member => fit other (mem_cons_of_mem _ member)) isGaps
    rw [← Nat.add_sub_of_le (Nat.le_of_not_le above)] at rest
    have gapsOf := GapsOf.cons (writeVarint_leb64 (show ordinal - previous < 2 ^ 64 by omega))
      (by omega) (by omega) rest
    rwa [Nat.add_sub_of_le (Nat.le_of_not_le above)] at gapsOf

theorem encodeGaps_ok_iff : (∃ bytes, encodeGaps previous ordinals = .ok bytes) ↔
    (previous :: ordinals).IsChain (· < ·) := by
  induction ordinals generalizing previous with
  | nil => exact ⟨fun _ => .singleton _, fun _ => ⟨[], rfl⟩⟩
  | cons ordinal ordinals induction =>
    rw [isChain_cons_cons, ← induction, encodeGaps]
    split
    next above => exact ⟨nofun, fun ⟨less, _⟩ => absurd above (Nat.not_le.mpr less)⟩
    next below =>
      simp only [bind_eq_ok, pure_eq_ok, Nat.not_le.mp below, true_and]
      constructor
      · rintro ⟨bytes, gaps, isGaps, rfl⟩
        exact ⟨gaps, isGaps⟩
      · rintro ⟨gaps, isGaps⟩
        exact ⟨_, gaps, isGaps, rfl⟩

theorem encodeGramPostings_batchOf (short : ordinals.length < 2 ^ 64)
    (fit : ∀ ordinal ∈ ordinals, ordinal < 2 ^ 64)
    (encoded : encodeGramPostings ordinals = .ok bytes) : BatchOf ordinals bytes := by
  cases ordinals with
  | nil => cases encoded
  | cons first ordinals =>
    rw [encodeGramPostings, bind_eq_ok] at encoded
    rcases encoded with ⟨gaps, isGaps, same⟩
    cases same
    exact .batch (writeVarint_leb64 short) (writeVarint_leb64 (fit first mem_cons_self))
      (encodeGaps_gapsOf (fun other member => fit other (mem_cons_of_mem _ member)) isGaps)

theorem encodeGramPostings_ok_iff : (∃ bytes, encodeGramPostings ordinals = .ok bytes) ↔
    ordinals ≠ [] ∧ ordinals.Pairwise (· < ·) := by
  cases ordinals with
  | nil => exact ⟨nofun, fun ascending => absurd rfl ascending.1⟩
  | cons first ordinals =>
    rw [← isChain_iff_pairwise, ← encodeGaps_ok_iff, encodeGramPostings]
    simp only [bind_eq_ok, pure_eq_ok, ne_eq, reduceCtorEq, not_false_eq_true, true_and]
    constructor
    · rintro ⟨_, gaps, isGaps, _⟩
      exact ⟨gaps, isGaps⟩
    · rintro ⟨gaps, isGaps⟩
      exact ⟨_, gaps, isGaps, rfl⟩

theorem BatchOf.ascends (batch : BatchOf ordinals bytes) : ordinals.Pairwise (· < ·) := by
  cases batch with
  | batch _ _ gaps => exact gaps.ascends

/-- Encoding accepts the ascending batches and decoding returns them; decoding accepts the words
of a batch, of any length, and nothing else. -/
theorem gramPostings_codec : (∀ ordinals : List Nat, ordinals.length < 2 ^ 64 →
      (∀ ordinal ∈ ordinals, ordinal < 2 ^ 64) →
      if ordinals ≠ [] ∧ ordinals.Pairwise (· < ·) then
        ∃ bytes, encodeGramPostings ordinals = .ok bytes ∧ decodeGramPostings bytes = .ok ordinals
      else ∃ error, encodeGramPostings ordinals = .error error) ∧
    ∀ bytes ordinals, (decodeGramPostings bytes = .ok ordinals ↔ BatchOf ordinals bytes) ∧
      (decodeGramPostings bytes = .ok ordinals → ordinals.Pairwise (· < ·)) := by
  refine ⟨fun ordinals short fit => ?_, fun bytes ordinals =>
    ⟨decodeGramPostings_eq_ok, fun decoded => (decodeGramPostings_eq_ok.mp decoded).ascends⟩⟩
  split
  next accepted =>
    rcases encodeGramPostings_ok_iff.mpr accepted with ⟨bytes, encoded⟩
    exact ⟨bytes, encoded,
      decodeGramPostings_eq_ok.mpr (encodeGramPostings_batchOf short fit encoded)⟩
  next refused =>
    cases encoded : encodeGramPostings ordinals with
    | error error => exact ⟨error, rfl⟩
    | ok bytes => exact absurd (encodeGramPostings_ok_iff.mp ⟨bytes, encoded⟩) refused

end LoonFs
