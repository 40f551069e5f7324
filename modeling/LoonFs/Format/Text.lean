import LoonFs.Foundation.PositionalDigits
import Mathlib.Data.List.GetD
import Mathlib.Data.String.Basic

/-! # Text in durable keys -/

namespace LoonFs

open Foundation List

abbrev Bytes := List UInt8

instance instLinearOrderUInt8 : LinearOrder UInt8 where
  le_refl := UInt8.le_refl
  le_trans _ _ _ := UInt8.le_trans
  le_antisymm _ _ := UInt8.le_antisymm
  le_total := UInt8.le_total
  lt_iff_le_not_ge left right := by
    simp only [UInt8.le_iff_toNat_le, UInt8.lt_iff_toNat_lt]
    omega
  toDecidableLE := inferInstance

def utf8 (text : String) : Bytes := text.toByteArray.data.toList

@[simp] theorem utf8_append (left right : String) :
    utf8 (left ++ right) = utf8 left ++ utf8 right := by
  simp [utf8]

theorem utf8_injective : Function.Injective utf8 := by
  intro left right eq
  apply String.toByteArray_inj.mp
  apply ByteArray.ext
  exact Array.toList_inj.mp eq

theorem utf8_ofList (characters : List Char) :
    utf8 (String.ofList characters) = characters.flatMap String.utf8EncodeChar := by
  simp [utf8, List.utf8Encode]

def fromUtf8 (bytes : Bytes) : Option String := String.fromUTF8? ⟨bytes.toArray⟩

@[simp] theorem fromUtf8_utf8 (text : String) : fromUtf8 (utf8 text) = some text := by
  simp only [fromUtf8, utf8, Array.toArray_toList]
  exact dif_pos text.isValidUTF8

/-! ## Spellings -/

def charactersFrom (codes : Bytes) : String := String.ofList (codes.map Char.ofUInt8)

theorem utf8_charactersFrom (ascii : ∀ code ∈ codes, code < 128) :
    utf8 (charactersFrom codes) = codes := by
  rw [charactersFrom, utf8_ofList]
  induction codes with
  | nil => rfl
  | cons code codes induction =>
    have small : code.toUInt32 ≤ 127 := by
      have bound := UInt8.lt_iff_toNat_lt.mp (ascii code (by simp))
      simp only [UInt32.le_iff_toNat_le, UInt8.toNat_toUInt32]
      exact Nat.le_of_lt_succ bound
    have single : String.utf8EncodeChar (Char.ofUInt8 code) = [code] := by
      have value : (Char.ofUInt8 code).val = code.toUInt32 := rfl
      rw [String.utf8EncodeChar_eq_singleton]
      · simp [value]
      · simp [Char.utf8Size, value, small]
    rw [map_cons, flatMap_cons, single,
      induction fun code mem => ascii code (mem_cons_of_mem _ mem)]
    rfl

def decimalDigits : Bytes := utf8 "0123456789"

def zeroPadded (width number : Nat) : String :=
  charactersFrom ((List.range width).reverse.map fun position =>
    decimalDigits.getD (number / 10 ^ position % 10) 0)

def generatedIdAlphabet : Bytes := utf8 "0123456789abcdefghjkmnpqrstvwxyz"

/-- Spells the low `5 * chars` bits of `value`, most significant first, as one
character for each 5 bits. -/
def encodeBase32 (value chars : Nat) : String :=
  charactersFrom ((List.range chars).reverse.map fun position =>
    generatedIdAlphabet.getD ((value >>> (5 * position)) &&& 0x1f) 0)

def generatedIdBodyBytes : Nat := 26

def encodeGeneratedIdBody (value : Nat) : String := encodeBase32 value generatedIdBodyBytes

def hexAlphabet : Bytes := utf8 "0123456789abcdef"

def hexEncodeBytes (bytes : Bytes) : String :=
  charactersFrom (bytes.flatMap fun byte =>
    [hexAlphabet.getD (byte.toNat >>> 4) 0, hexAlphabet.getD (byte.toNat &&& 0x0f) 0])

/-! ## The order of the spellings -/

/-- The byte of `-`, which ends a component of a key. -/
def separator : UInt8 := 45

@[simp] theorem utf8_hyphen : utf8 "-" = [separator] := rfl

structure Alphabet (base : Nat) where
  letters : Bytes
  length_eq : letters.length = base
  positive : 0 < base
  sorted : letters.Pairwise (· < ·)
  above : ∀ letter ∈ letters, separator < letter
  ascii : ∀ letter ∈ letters, letter < 128

namespace Alphabet

variable (alphabet : Alphabet base)

def letter (digit : Nat) : UInt8 := alphabet.letters.getD digit 0

theorem letter_mem (bound : digit < base) : alphabet.letter digit ∈ alphabet.letters := by
  rw [letter, getD_eq_getElem _ _ (alphabet.length_eq.symm ▸ bound)]
  exact getElem_mem _

theorem letter_strictMonoOn : StrictMonoOn alphabet.letter {digit | digit < base} := by
  intro left leftBound right rightBound less
  simp only [Set.mem_ofPred_eq, ← alphabet.length_eq] at leftBound rightBound
  simp only [letter, getD_eq_getElem _ _ leftBound, getD_eq_getElem _ _ rightBound]
  exact pairwise_iff_getElem.mp alphabet.sorted left right leftBound rightBound less

def spelling (width : Nat) : ComponentEncoding separator Nat :=
  fixedWidth alphabet.positive width alphabet.letter alphabet.letter_strictMonoOn
    fun _ bound => alphabet.above _ (alphabet.letter_mem bound)

theorem spelling_eq (width number : Nat) :
    (alphabet.spelling width).encode number = (List.range width).reverse.map fun position =>
        alphabet.letter (number / base ^ position % base) := by
  change (digits base width number).map _ = _
  rw [digits_eq_map_range, map_map]
  rfl

theorem spelling_ascii (width number : Nat) :
    ∀ code ∈ (alphabet.spelling width).encode number, code < 128 := by
  intro code mem
  rcases mem_map.mp mem with ⟨digit, isDigit, eq⟩
  exact eq ▸ alphabet.ascii _ (alphabet.letter_mem (digit_lt alphabet.positive isDigit))

@[simp] theorem spelling_valid (width number : Nat) :
    (alphabet.spelling width).valid number ↔ number < base ^ width := Iff.rfl

end Alphabet

def decimalAlphabet : Alphabet 10 where
  letters := decimalDigits
  length_eq := by decide
  positive := by decide
  sorted := by decide
  above := by decide +kernel
  ascii := by decide +kernel

def base32Alphabet : Alphabet 32 where
  letters := generatedIdAlphabet
  length_eq := by decide
  positive := by decide
  sorted := by decide
  above := by decide +kernel
  ascii := by decide +kernel

def base16Alphabet : Alphabet 16 where
  letters := hexAlphabet
  length_eq := by decide
  positive := by decide
  sorted := by decide
  above := by decide +kernel
  ascii := by decide +kernel

theorem utf8_zeroPadded (width number : Nat) :
    utf8 (zeroPadded width number) = (decimalAlphabet.spelling width).encode number := by
  have codes := decimalAlphabet.spelling_eq width number
  rw [← utf8_charactersFrom (decimalAlphabet.spelling_ascii width number), codes]
  rfl

theorem utf8_encodeBase32 (value chars : Nat) :
    utf8 (encodeBase32 value chars) = (base32Alphabet.spelling chars).encode value := by
  have codes := base32Alphabet.spelling_eq chars value
  rw [← utf8_charactersFrom (base32Alphabet.spelling_ascii chars value), codes, encodeBase32]
  have sameDigit : ∀ position,
      (value >>> (5 * position)) &&& 0x1f = value / 32 ^ position % 32 := by
    intro position
    rw [Nat.shiftRight_eq_div_pow, Nat.pow_mul, Nat.and_two_pow_sub_one_eq_mod _ 5]
  simp only [sameDigit]
  rfl

private def hexDigits (byte : UInt8) : Bytes := (base16Alphabet.spelling 2).encode byte.toNat

private theorem length_hexDigits (byte : UInt8) : (hexDigits byte).length = 2 := by
  rw [hexDigits, Alphabet.spelling_eq]
  rfl

private theorem hexDigits_strictMono : StrictMono hexDigits := by
  intro left right less
  exact (base16Alphabet.spelling 2).strictMonoOn left.toNat_lt right.toNat_lt
    (UInt8.lt_iff_toNat_lt.mp less)

def hexadecimal : ComponentEncoding separator Bytes where
  encode bytes := bytes.flatMap hexDigits
  valid _ := True
  strictMonoOn _ _ _ _ less := flatMap_lt length_hexDigits hexDigits_strictMono less
  above _ _ letter isMember := by
    rcases List.mem_flatMap.mp isMember with ⟨byte, _, isDigit⟩
    exact (base16Alphabet.spelling 2).above _ byte.toNat_lt letter isDigit

theorem utf8_hexEncodeBytes (bytes : Bytes) :
    utf8 (hexEncodeBytes bytes) = hexadecimal.encode bytes := by
  have codes : ∀ byte : UInt8,
      [hexAlphabet.getD (byte.toNat >>> 4) 0, hexAlphabet.getD (byte.toNat &&& 0x0f) 0] =
        hexDigits byte := by
    intro byte
    have high : byte.toNat / 16 % 16 = byte.toNat / 16 := by
      have := byte.toNat_lt
      omega
    rw [hexDigits, Alphabet.spelling_eq]
    simp only [Nat.shiftRight_eq_div_pow, Nat.and_two_pow_sub_one_eq_mod _ 4]
    change _ = [base16Alphabet.letter (byte.toNat / 16 ^ 1 % 16),
      base16Alphabet.letter (byte.toNat / 16 ^ 0 % 16)]
    rw [Nat.pow_one, high, Nat.pow_zero, Nat.div_one]
    rfl
  rw [hexEncodeBytes, show (fun byte : UInt8 => _) = hexDigits from funext codes]
  apply utf8_charactersFrom
  intro code mem
  rcases mem_flatMap.mp mem with ⟨byte, _, isDigit⟩
  exact base16Alphabet.spelling_ascii 2 _ code isDigit

/-! ## The upper bound of a prefix -/

def raiseLastByte (bytes : Bytes) : Option Bytes :=
  match bytes.reverse.dropWhile (· == 255) with
  | [] => none
  | byte :: rest => some ((byte + 1) :: rest).reverse

def stringPrefixUpperBound (text : String) : Option String :=
  (raiseLastByte (utf8 text)).bind fromUtf8

variable {letter : UInt8}

theorem raiseLastByte_append (raisable : letter ≠ 255) (word : Bytes) :
    raiseLastByte (word ++ [letter]) = some (word ++ [letter + 1]) := by
  simp [raiseLastByte, raisable]

private theorem covBy_succ (raisable : letter ≠ 255) : letter ⋖ letter + 1 := by
  have bound := letter.toNat_lt
  have small : letter.toNat ≠ 255 := fun eq => raisable (UInt8.toNat_inj.mp eq)
  have next : (letter + 1).toNat = letter.toNat + 1 := by
    rw [UInt8.toNat_add]
    exact Nat.mod_eq_of_lt (by simp; omega)
  constructor
  · rw [UInt8.lt_iff_toNat_lt, next]
    omega
  · intro middle above below
    rw [UInt8.lt_iff_toNat_lt] at above below
    omega

theorem stringPrefixUpperBound_spec {text stem : String}
    (ends : utf8 text = utf8 stem ++ [letter]) (ascii : letter < 127) :
    ∃ upper, stringPrefixUpperBound text = some upper ∧
      ∀ key, utf8 text <+: key ↔ utf8 text ≤ key ∧ key < utf8 upper := by
  have raisable : letter ≠ 255 := by
    intro eq
    rw [eq] at ascii
    exact absurd ascii (by decide)
  have nextAscii : letter + 1 < 128 := by
    have bound := UInt8.lt_iff_toNat_lt.mp ascii
    rw [UInt8.lt_iff_toNat_lt, UInt8.toNat_add]
    simp at bound ⊢
    omega
  have raised : utf8 (stem ++ charactersFrom [letter + 1]) = utf8 stem ++ [letter + 1] := by
    rw [utf8_append, utf8_charactersFrom (by simpa using nextAscii)]
  refine ⟨stem ++ charactersFrom [letter + 1], ?_, ?_⟩
  · rw [stringPrefixUpperBound, ends, raiseLastByte_append raisable, ← raised]
    exact fromUtf8_utf8 _
  · intro key
    rw [ends, raised]
    exact prefix_iff_between (covBy_succ raisable) _ _

end LoonFs
