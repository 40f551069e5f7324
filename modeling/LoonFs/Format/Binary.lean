import LoonFs.Format.Text
import LoonFs.Foundation.Outcome
import Mathlib.Data.Nat.Bitwise
import Mathlib.Tactic.Ring

/-! # Numbers in binary sections -/

namespace LoonFs

open List

def leBytes : Nat → Nat → Bytes
  | 0, _ => []
  | width + 1, number => UInt8.ofNat (number % 256) :: leBytes width (number / 256)

def fromLeBytes : Bytes → Nat
  | [] => 0
  | byte :: bytes => byte.toNat + 256 * fromLeBytes bytes

@[simp] theorem length_leBytes (width number : Nat) : (leBytes width number).length = width := by
  induction width generalizing number with
  | zero => rfl
  | succ width induction => simp [leBytes, induction]

theorem fromLeBytes_leBytes (fits : number < 256 ^ width) :
    fromLeBytes (leBytes width number) = number := by
  induction width generalizing number with
  | zero =>
    rw [Nat.pow_zero] at fits
    simp [leBytes, fromLeBytes]
    omega
  | succ width induction =>
    have high : number / 256 < 256 ^ width := by
      apply Nat.div_lt_of_lt_mul
      rwa [Nat.mul_comm, ← Nat.pow_succ]
    have low : (UInt8.ofNat (number % 256)).toNat = number % 256 := by simp
    rw [leBytes, fromLeBytes, induction high, low]
    omega

def leWords32 : Bytes → List Nat
  | first :: second :: third :: fourth :: rest =>
    fromLeBytes [first, second, third, fourth] :: leWords32 rest
  | _ => []

theorem leWords32_flatMap (fit : ∀ word ∈ words, word < 2 ^ 32) :
    leWords32 (words.flatMap (leBytes 4)) = words := by
  induction words with
  | nil => rfl
  | cons word words induction =>
    have small : word < 256 ^ 4 := fit word (by simp)
    have first := fromLeBytes_leBytes small
    have others := induction fun other mem => fit other (mem_cons_of_mem _ mem)
    rw [flatMap_cons]
    change fromLeBytes (leBytes 4 word) :: leWords32 (words.flatMap (leBytes 4)) = _
    rw [first, others]

theorem length_flatMap_leBytes (width : Nat) (words : List Nat) :
    (words.flatMap (leBytes width)).length = words.length * width := by
  simp [length_flatMap]

/-- Enough seven-bit groups for 64 bits. -/
def varintGroups : Nat := 10

def writeVarintGroups : Nat → Nat → Bytes
  | 0, _ => []
  | groups + 1, value =>
    if value >>> 7 = 0 then
      [UInt8.ofNat (value &&& 0x7f)]
    else
      UInt8.ofNat (value &&& 0x7f ||| 0x80) :: writeVarintGroups groups (value >>> 7)

def writeVarint (value : Nat) : Bytes := writeVarintGroups varintGroups value

inductive VarintError where
  | runsPastTheBlock
  | exceeds64Bits
deriving DecidableEq

def readVarintFrom (value shift : Nat) : Bytes → Except VarintError (Nat × Bytes)
  | [] => .error .runsPastTheBlock
  | byte :: rest =>
    if shift = 63 ∧ byte > 1 then
      .error .exceeds64Bits
    else
      let value := value ||| (byte &&& 0x7f).toNat <<< shift
      if byte &&& 0x80 = 0 then .ok (value, rest) else readVarintFrom value (shift + 7) rest

def readVarint (bytes : Bytes) : Except VarintError (Nat × Bytes) := readVarintFrom 0 0 bytes

private theorem low_group (value : Nat) : value &&& 0x7f = value % 128 :=
  Nat.and_two_pow_sub_one_eq_mod value 7

private theorem last_byte (small : group < 128) :
    UInt8.ofNat group &&& 0x80 = 0 ∧ (UInt8.ofNat group &&& 0x7f).toNat = group := by
  revert group
  decide

private theorem top_byte (small : group < 2) : ¬UInt8.ofNat group > 1 := by
  revert group
  decide

private theorem more_byte (small : group < 128) : UInt8.ofNat (group ||| 0x80) &&& 0x80 ≠ 0 ∧
      (UInt8.ofNat (group ||| 0x80) &&& 0x7f).toNat = group := by
  revert group
  decide

variable {value : Nat}

theorem or_group (read : value < 2 ^ shift) (group : Nat) :
    value ||| group <<< shift = value + group * 2 ^ shift := by
  rw [Nat.or_comm, ← Nat.shiftLeft_add_eq_or_of_lt read, Nat.shiftLeft_eq, Nat.add_comm]

theorem readVarintFrom_writeVarintGroups {groups shift read : Nat}
    (aligned : shift + 7 * groups = 70) (inWord : shift ≤ 63) (fits : value < 2 ^ (64 - shift))
    (readBound : read < 2 ^ shift) (rest : Bytes) :
    readVarintFrom read shift (writeVarintGroups groups value ++ rest) =
      .ok (read + value * 2 ^ shift, rest) := by
  induction groups generalizing value shift read with
  | zero => omega
  | succ groups induction =>
    have groupBound : value % 128 < 128 := Nat.mod_lt _ (by decide)
    simp only [writeVarintGroups, low_group, Nat.shiftRight_eq_div_pow]
    split
    case isTrue single =>
      have small : value < 128 := by
        rcases Nat.div_eq_zero_iff.mp single with impossible | small
        · omega
        · exact small
      rw [Nat.mod_eq_of_lt small, cons_append, nil_append, readVarintFrom]
      have accepted : ¬(shift = 63 ∧ UInt8.ofNat value > 1) := by
        intro ⟨last, above⟩
        subst last
        exact top_byte fits above
      rw [if_neg accepted]
      simp only [(last_byte small).1, (last_byte small).2, if_true, or_group readBound]
    case isFalse several =>
      have large : 128 ≤ value := by
        by_contra small
        exact several (Nat.div_eq_of_lt (by omega))
      have room : shift + 7 ≤ 63 := by
        by_contra full
        have tiny : 2 ^ (64 - shift) ≤ 2 ^ 7 := Nat.pow_le_pow_right (by decide) (by omega)
        omega
      rw [cons_append, readVarintFrom, if_neg (by omega)]
      simp only [(more_byte groupBound).1, (more_byte groupBound).2, if_false, or_group readBound]
      have highFits : value / 2 ^ 7 < 2 ^ (64 - (shift + 7)) := by
        apply Nat.div_lt_of_lt_mul
        rw [← Nat.pow_add]
        convert fits using 2
        omega
      have lowFits : read + value % 128 * 2 ^ shift < 2 ^ (shift + 7) := by
        have product : value % 128 * 2 ^ shift ≤ 127 * 2 ^ shift :=
          Nat.mul_le_mul_right _ (by omega)
        rw [Nat.pow_add]
        omega
      rw [induction (by omega) room highFits lowFits]
      have split := Nat.div_add_mod value 128
      have total : read + value % 128 * 2 ^ shift + value / 2 ^ 7 * 2 ^ (shift + 7) =
          read + (128 * (value / 128) + value % 128) * 2 ^ shift := by
        rw [Nat.pow_add, show 2 ^ 7 = 128 from rfl]
        ring
      rw [total, split]

theorem readVarint_writeVarint (fits : value < 2 ^ 64) (rest : Bytes) :
    readVarint (writeVarint value ++ rest) = .ok (value, rest) := by
  have aligned : 0 + 7 * varintGroups = 70 := by decide
  have nothingRead : 0 < 2 ^ 0 := by decide
  have decoded := readVarintFrom_writeVarintGroups aligned (Nat.zero_le 63) fits nothingRead rest
  simpa [readVarint, writeVarint] using decoded

end LoonFs
