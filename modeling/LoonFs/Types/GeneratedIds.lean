import LoonFs.Format.Text
import Mathlib.Tactic.Ring

/-! # Bodies of generated IDs -/

namespace LoonFs

open List Foundation

def generatedIdBodyError (body : String) : Option String :=
  if (utf8 body).length ≠ generatedIdBodyBytes ∨
      ¬(utf8 body).all (· ∈ generatedIdAlphabet) then
    some ("body must be 26 characters of the lowercase Crockford base 32 alphabet " ++
      "`0123456789abcdefghjkmnpqrstvwxyz`")
  else if ¬body.toList.head?.any (· ≤ '7') then
    some "body must start with a character from `0` through `7`"
  else none

/-- The shift drops the bits above a `u128`. -/
def decodeGeneratedIdBody (body : String) : Option Nat :=
  if (generatedIdBodyError body).isSome then none
  else (utf8 body).foldlM (fun value byte =>
    (generatedIdAlphabet.idxOf? byte).map fun digit => value <<< 5 % 2 ^ 128 ||| digit) 0

def checkedUsize (number : Nat) : Option Nat := if number < 2 ^ 64 then some number else none

def generatedIdBodyPrefixes (width : Nat) : Option (List String) := do
  let count ← match width with
    | 0 => some 1
    | later + 1 => do
      if later < 2 ^ 32 then checkedUsize ((← checkedUsize (32 ^ later)) * 8) else none
  return (List.range count).map fun index => encodeBase32 index width

/-- The body of 26 digits. -/
def bodyOf (word : List Nat) : String := charactersFrom (word.map base32Alphabet.letter)

theorem utf8_bodyOf (small : ∀ digit ∈ word, digit < 32) :
    utf8 (bodyOf word) = word.map base32Alphabet.letter := by
  apply utf8_charactersFrom
  intro code member
  rcases mem_map.mp member with ⟨digit, isDigit, rfl⟩
  exact base32Alphabet.ascii _ (base32Alphabet.letter_mem (small digit isDigit))

theorem encodeBase32_eq (value chars : Nat) :
    encodeBase32 value chars = bodyOf (digits 32 chars value) := by
  apply utf8_injective
  rw [utf8_encodeBase32, utf8_bodyOf fun _ => digit_lt (by decide)]
  rfl

theorem exists_bodyOf (letters : ∀ byte ∈ utf8 body, byte ∈ generatedIdAlphabet) :
    ∃ word, (∀ digit ∈ word, digit < 32) ∧ word.length = (utf8 body).length ∧
      body = bodyOf word := by
  have small : ∀ digit ∈ (utf8 body).map (generatedIdAlphabet.idxOf ·), digit < 32 := by
    intro digit member
    rcases mem_map.mp member with ⟨byte, isByte, rfl⟩
    exact idxOf_lt_length_of_mem (letters byte isByte)
  refine ⟨_, small, length_map _, utf8_injective ?_⟩
  rw [utf8_bodyOf small, map_map]
  conv_lhs => rw [← map_id (utf8 body)]
  apply map_congr_left
  intro byte isByte
  have inside := idxOf_lt_length_of_mem (letters byte isByte)
  change byte = generatedIdAlphabet.getD (generatedIdAlphabet.idxOf byte) 0
  rw [getD_eq_getElem _ _ inside, getElem_idxOf]

theorem generatedIdBodyError_eq_none : generatedIdBodyError body = none ↔
    ∃ first rest, first < 8 ∧ (∀ digit ∈ first :: rest, digit < 32) ∧ rest.length = 25 ∧
      body = bodyOf (first :: rest) := by
  have starts (first : Nat) (rest : List Nat) (small : first < 32) :
      (bodyOf (first :: rest)).toList.head?.any (· ≤ '7') ↔ first < 8 := by
    have letters : ∀ digit < 32,
        (Char.ofUInt8 (base32Alphabet.letter digit) ≤ '7' ↔ digit < 8) := by decide +kernel
    simp [bodyOf, charactersFrom, letters first small]
  constructor
  · intro accepted
    rw [generatedIdBodyError] at accepted
    split at accepted
    next => cases accepted
    next letters =>
      simp only [not_or, Classical.not_not, all_eq_true, decide_eq_true_eq] at letters
      rcases exists_bodyOf letters.2 with ⟨word, small, length, rfl⟩
      rw [letters.1] at length
      cases word with
      | nil => cases length
      | cons first rest =>
        split at accepted
        next => cases accepted
        next low =>
          have isFirst := (starts first rest (small first mem_cons_self)).mp (by simpa using low)
          exact ⟨first, rest, isFirst, small, Nat.succ.inj length, rfl⟩
  · rintro ⟨first, rest, low, small, length, rfl⟩
    rw [generatedIdBodyError, if_neg, if_neg]
    · simpa using (starts first rest (by omega)).mpr low
    · simp only [utf8_bodyOf small, not_or, Classical.not_not, all_eq_true, decide_eq_true_eq]
      refine ⟨by rw [length_map, length_cons, length]; rfl, fun byte member => ?_⟩
      rcases mem_map.mp member with ⟨digit, isDigit, rfl⟩
      exact base32Alphabet.letter_mem (small digit isDigit)

theorem decodes_word (small : ∀ digit ∈ word, digit < 32)
    (fits : value * 32 ^ word.length + fromDigits 32 word < 2 ^ 128) :
    (word.map base32Alphabet.letter).foldlM (fun value byte =>
      (generatedIdAlphabet.idxOf? byte).map fun digit => value <<< 5 % 2 ^ 128 ||| digit) value =
      some (value * 32 ^ word.length + fromDigits 32 word) := by
  induction word generalizing value with
  | nil => simp [fromDigits]
  | cons digit word induction =>
    have bound := small digit mem_cons_self
    have position : ∀ digit < 32,
        generatedIdAlphabet.idxOf? (base32Alphabet.letter digit) = some digit := by decide +kernel
    have total : value * 32 ^ (digit :: word).length + fromDigits 32 (digit :: word) =
        (value * 32 + digit) * 32 ^ word.length + fromDigits 32 word := by
      rw [fromDigits, length_cons]
      ring
    have positive : 0 < 32 ^ word.length := Nat.pow_pos (by decide)
    have step : value <<< 5 % 2 ^ 128 ||| digit = value * 32 + digit := by
      have := Nat.le_mul_of_pos_right (value * 32 + digit) positive
      rw [Nat.shiftLeft_eq, Nat.mod_eq_of_lt (by omega), ← Nat.shiftLeft_eq,
        ← Nat.shiftLeft_add_eq_or_of_lt bound, Nat.shiftLeft_eq]
    rw [total] at fits ⊢
    rw [map_cons, foldlM_cons, position digit bound, Option.map_some, Option.bind_eq_bind,
      Option.bind_some, step]
    exact induction (fun other member => small other (mem_cons_of_mem _ member)) fits

/-- A body is the spelling of a 128-bit value, and decoding returns the value. -/
theorem body_iff : generatedIdBodyError body = none ↔
    ∃ value < 2 ^ 128, encodeGeneratedIdBody value = body := by
  rw [generatedIdBodyError_eq_none]
  constructor
  · rintro ⟨first, rest, low, small, length, rfl⟩
    have bound := fromDigits_lt fun digit member => small digit (mem_cons_of_mem first member)
    refine ⟨fromDigits 32 (first :: rest), ?_, ?_⟩
    · rw [fromDigits, length] at *
      omega
    · have spelled := digits_fromDigits small
      rw [length_cons, length] at spelled
      rw [encodeGeneratedIdBody, encodeBase32_eq]
      exact congrArg bodyOf spelled
  · rintro ⟨value, bound, rfl⟩
    have small : ∀ digit ∈ digits 32 26 value, digit < 32 := fun _ => digit_lt (by decide)
    exact ⟨value / 32 ^ 25 % 32, digits 32 25 value, by omega, small, by
      simp [digits_eq_map_range], encodeBase32_eq value 26⟩

theorem decode_encode_body (bound : value < 2 ^ 128) :
    decodeGeneratedIdBody (encodeGeneratedIdBody value) = some value := by
  have accepted := body_iff.mpr ⟨value, bound, rfl⟩
  have small : ∀ digit ∈ digits 32 26 value, digit < 32 := fun _ => digit_lt (by decide)
  have spelled := fromDigits_digits 32 26 value
  rw [Nat.mod_eq_of_lt (by omega)] at spelled
  rw [decodeGeneratedIdBody, accepted, encodeGeneratedIdBody, encodeBase32_eq,
    show generatedIdBodyBytes = 26 from rfl, utf8_bodyOf small, decodes_word small, spelled]
  · simp
  · omega

theorem encode_body_lt_iff (leftBound : left < 2 ^ 128) (rightBound : right < 2 ^ 128) :
    utf8 (encodeGeneratedIdBody left) < utf8 (encodeGeneratedIdBody right) ↔ left < right := by
  rw [encodeGeneratedIdBody, encodeGeneratedIdBody, utf8_encodeBase32, utf8_encodeBase32]
  exact (base32Alphabet.spelling 26).encode_lt_iff (show left < 32 ^ 26 by omega)
    (show right < 32 ^ 26 by omega)

theorem starts_body_iff (inBody : width ≤ 26) (indexBound : index < 32 ^ width)
    (bound : value < 2 ^ 128) :
    utf8 (encodeBase32 index width) <+: utf8 (encodeGeneratedIdBody value) ↔
      index = value / 32 ^ (26 - width) := by
  have highBound : value / 32 ^ (26 - width) < 32 ^ width := by
    apply Nat.div_lt_of_lt_mul
    rw [← Nat.pow_add, Nat.sub_add_cancel inBody]
    omega
  have high : (base32Alphabet.spelling 26).encode value =
      (base32Alphabet.spelling width).encode (value / 32 ^ (26 - width)) ++
        (base32Alphabet.spelling (26 - width)).encode value := by
    have split := digits_add 32 width (26 - width) value
    rw [Nat.add_sub_cancel' inBody] at split
    change (digits 32 26 value).map _ = _
    rw [split, map_append]
    rfl
  have length (number : Nat) : ((base32Alphabet.spelling width).encode number).length = width := by
    rw [base32Alphabet.spelling_eq, length_map, length_reverse, length_range]
  rw [encodeGeneratedIdBody, utf8_encodeBase32, utf8_encodeBase32, generatedIdBodyBytes, high,
    prefix_iff_eq_take, length, take_left' (length _)]
  exact (base32Alphabet.spelling width).encode_eq_iff indexBound highBound

theorem generatedIdBodyPrefixes_eq (fits : width = 0 ∨ 8 * 32 ^ (width - 1) < 2 ^ 64)
    (inBody : width ≤ 26) : ∃ count, generatedIdBodyPrefixes width =
        some ((List.range count).map fun index => encodeBase32 index width) ∧
      count ≤ 32 ^ width ∧ ∀ value < 2 ^ 128, value / 32 ^ (26 - width) < count := by
  cases width with
  | zero => exact ⟨1, rfl, Nat.le_refl 1, fun value bound => by omega⟩
  | succ later =>
    have small := fits.resolve_left (Nat.succ_ne_zero later)
    rw [Nat.add_sub_cancel] at small
    refine ⟨32 ^ later * 8, ?_, by rw [Nat.pow_succ]; omega, fun value bound => ?_⟩
    · rw [generatedIdBodyPrefixes]
      simp only [checkedUsize, show later < 2 ^ 32 by omega, show 32 ^ later < 2 ^ 64 by omega,
        Option.bind_eq_bind, Option.bind_some, show 32 ^ later * 8 < 2 ^ 64 by omega, if_true]
      rfl
    · apply Nat.div_lt_of_lt_mul
      rw [← Nat.mul_assoc, ← Nat.pow_add, show 26 - (later + 1) + later = 25 by omega]
      omega

/-- Bodies and 128-bit values correspond in order, and the prefixes of a width partition them. -/
theorem generatedIdBodies_partitioned :
    (∀ value < 2 ^ 128, generatedIdBodyError (encodeGeneratedIdBody value) = none ∧
      decodeGeneratedIdBody (encodeGeneratedIdBody value) = some value) ∧
    (∀ body, generatedIdBodyError body = none → ∃ value < 2 ^ 128,
      decodeGeneratedIdBody body = some value ∧ encodeGeneratedIdBody value = body) ∧
    (∀ body, generatedIdBodyError body ≠ none → decodeGeneratedIdBody body = none) ∧
    (∀ left < 2 ^ 128, ∀ right < 2 ^ 128,
      utf8 (encodeGeneratedIdBody left) < utf8 (encodeGeneratedIdBody right) ↔ left < right) ∧
    ∀ width ≤ generatedIdBodyBytes, (width = 0 ∨ 8 * 32 ^ (width - 1) < 2 ^ 64) →
      ∃ stems, generatedIdBodyPrefixes width = some stems ∧ stems.Nodup ∧
        stems.Pairwise (fun left right => utf8 left < utf8 right) ∧
        ∀ body, generatedIdBodyError body = none →
          ∃! stem, stem ∈ stems ∧ utf8 stem <+: utf8 body := by
  refine ⟨fun value bound => ⟨body_iff.mpr ⟨value, bound, rfl⟩, decode_encode_body bound⟩,
    fun body accepted => ?_, fun body refused => ?_, fun left leftBound right rightBound =>
      encode_body_lt_iff leftBound rightBound, fun width inBody fits => ?_⟩
  · rcases body_iff.mp accepted with ⟨value, bound, rfl⟩
    exact ⟨value, bound, decode_encode_body bound, rfl⟩
  · rw [decodeGeneratedIdBody, if_pos (Option.isSome_iff_ne_none.mpr refused)]
  · rcases generatedIdBodyPrefixes_eq fits inBody with ⟨count, isCount, most, covers⟩
    have ascending : ((List.range count).map fun index => encodeBase32 index width).Pairwise
        fun left right => utf8 left < utf8 right := by
      rw [pairwise_map]
      apply pairwise_lt_range.imp_of_mem
      intro left right leftMember rightMember less
      rw [mem_range] at leftMember rightMember
      rw [utf8_encodeBase32, utf8_encodeBase32]
      exact (base32Alphabet.spelling width).strictMonoOn (leftMember.trans_le most)
        (rightMember.trans_le most) less
    refine ⟨_, isCount, ascending.imp fun less same => ?_, ascending, fun body accepted => ?_⟩
    · exact absurd (same ▸ less) (lt_irrefl _)
    · rcases body_iff.mp accepted with ⟨value, bound, rfl⟩
      have inside := covers value bound
      refine ⟨encodeBase32 (value / 32 ^ (26 - width)) width,
        ⟨mem_map.mpr ⟨_, mem_range.mpr inside, rfl⟩,
          (starts_body_iff inBody (inside.trans_le most) bound).mpr rfl⟩, ?_⟩
      rintro stem ⟨member, starts⟩
      rcases mem_map.mp member with ⟨index, isIndex, rfl⟩
      rw [mem_range] at isIndex
      rw [(starts_body_iff inBody (isIndex.trans_le most) bound).mp starts]

end LoonFs
