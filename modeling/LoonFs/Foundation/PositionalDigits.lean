import LoonFs.Foundation.OrderedKeys
import Mathlib.Algebra.Order.Group.Nat
import Mathlib.Data.Nat.ModEq

/-! # Positional digits -/

namespace LoonFs.Foundation

open List

def digits (base : Nat) : Nat → Nat → List Nat
  | 0, _ => []
  | width + 1, number => number / base ^ width % base :: digits base width number

variable {width base : Nat}

theorem digit_lt (positive : 0 < base) (mem : digit ∈ digits base width number) : digit < base := by
  induction width with
  | zero => cases mem
  | succ width induction =>
    rcases mem_cons.mp mem with eq | mem
    · exact eq ▸ Nat.mod_lt _ positive
    · exact induction mem

theorem digits_eq_map_range (base width number : Nat) : digits base width number =
      (List.range width).reverse.map fun position => number / base ^ position % base := by
  induction width with
  | zero => rfl
  | succ width induction => simp [digits, induction, range_succ]

theorem digits_mod (base width extra number : Nat) :
    digits base width (number % base ^ (width + extra)) = digits base width number := by
  induction width generalizing extra with
  | zero => rfl
  | succ width induction =>
    have split : base ^ (width + 1 + extra) = base ^ width * (base * base ^ extra) := by
      rw [← Nat.mul_assoc, ← Nat.pow_succ, ← Nat.pow_add]
    have lower := induction (extra + 1)
    rw [show width + (extra + 1) = width + 1 + extra by omega] at lower
    simp only [digits]
    rw [lower, split, Nat.mod_mul_right_div_self, Nat.mod_mul_right_mod]

theorem digits_lt (less : left < right) (fits : right < base ^ width) :
    digits base width left < digits base width right := by
  induction width generalizing left right with
  | zero =>
    rw [Nat.pow_zero] at fits
    omega
  | succ width induction =>
    have rightHigh : right / base ^ width < base := by
      apply Nat.div_lt_of_lt_mul
      rwa [← Nat.pow_succ]
    have ordered : left / base ^ width ≤ right / base ^ width := Nat.div_le_div_right less.le
    simp only [digits]
    rw [Nat.mod_eq_of_lt rightHigh, Nat.mod_eq_of_lt (ordered.trans_lt rightHigh)]
    rcases ordered.lt_or_eq with high | same
    · exact .rel high
    · rw [same]
      apply List.Lex.cons
      have positive : 0 < base ^ width := by
        rcases Nat.eq_zero_or_pos (base ^ width) with zero | positive
        · rw [Nat.pow_succ, zero, Nat.zero_mul] at fits
          omega
        · exact positive
      have lowLess : left % base ^ width < right % base ^ width := by
        have leftSplit := Nat.div_add_mod left (base ^ width)
        have rightSplit := Nat.div_add_mod right (base ^ width)
        rw [same] at leftSplit
        omega
      have lower := induction lowLess (Nat.mod_lt _ positive)
      have leftLow := digits_mod base width 0 left
      have rightLow := digits_mod base width 0 right
      rw [Nat.add_zero] at leftLow rightLow
      rwa [leftLow, rightLow] at lower

/-- The number that digits spell, the most significant first. -/
def fromDigits (base : Nat) : List Nat → Nat
  | [] => 0
  | digit :: rest => digit * base ^ rest.length + fromDigits base rest

theorem fromDigits_lt (small : ∀ digit ∈ word, digit < base) :
    fromDigits base word < base ^ word.length := by
  induction word with
  | nil => exact Nat.one_pos
  | cons digit word induction =>
    have rest := induction fun other member => small other (mem_cons_of_mem _ member)
    have top : (digit + 1) * base ^ word.length ≤ base * base ^ word.length :=
      Nat.mul_le_mul_right _ (small digit mem_cons_self)
    rw [fromDigits, length_cons, Nat.pow_succ']
    rw [Nat.add_mul, Nat.one_mul] at top
    omega

theorem digits_fromDigits (small : ∀ digit ∈ word, digit < base) :
    digits base word.length (fromDigits base word) = word := by
  induction word with
  | nil => rfl
  | cons digit word induction =>
    have others := fun other member => small other (mem_cons_of_mem _ member)
    have rest := fromDigits_lt others
    have lower := digits_mod base word.length 0 (fromDigits base (digit :: word))
    rw [Nat.add_zero, fromDigits, Nat.mul_add_mod_of_lt rest, induction others] at lower
    have positive : 0 < base ^ word.length := by omega
    rw [length_cons, digits, fromDigits, ← lower, Nat.mul_comm, Nat.mul_add_div positive,
      Nat.div_eq_of_lt rest, Nat.add_zero, Nat.mod_eq_of_lt (small digit mem_cons_self)]

theorem fromDigits_digits (base width number : Nat) :
    fromDigits base (digits base width number) = number % base ^ width := by
  have length : ∀ width, (digits base width number).length = width := by
    intro width
    simp [digits_eq_map_range]
  induction width with
  | zero => rw [Nat.pow_zero, Nat.mod_one]; rfl
  | succ width induction =>
    rw [digits, fromDigits, length, induction, Nat.mod_pow_succ, Nat.add_comm, Nat.mul_comm]

theorem digits_add (base high low number : Nat) : digits base (high + low) number =
    digits base high (number / base ^ low) ++ digits base low number := by
  induction high with
  | zero => rw [Nat.zero_add]; rfl
  | succ high induction =>
    rw [Nat.add_right_comm, digits, digits, induction, Nat.div_div_eq_div_mul, ← Nat.pow_add,
      Nat.add_comm low]
    rfl

section

variable {Letter : Type u} [LinearOrder Letter] [LinearOrder Source] {right left : List Source}

theorem map_lt {code : Source → Letter} {valid : Source → Prop}
    (ascending : StrictMonoOn code {letter | valid letter})
    (leftValid : ∀ letter ∈ left, valid letter) (rightValid : ∀ letter ∈ right, valid letter)
    (less : left < right) : left.map code < right.map code := by
  induction less with
  | nil => exact .nil
  | cons _ induction =>
    exact .cons (induction (fun letter mem => leftValid letter (by simp [mem]))
      (fun letter mem => rightValid letter (by simp [mem])))
  | rel less => exact .rel (ascending (leftValid _ (by simp)) (rightValid _ (by simp)) less)

private theorem append_lt_of_length_eq {left right : List Letter} (less : left < right)
    (same : left.length = right.length) (leftRest rightRest : List Letter) :
    left ++ leftRest < right ++ rightRest := by
  induction less with
  | nil => simp at same
  | cons _ induction => exact .cons (induction (by simpa using same))
  | rel less => exact .rel less

theorem flatMap_lt {code : Source → List Letter} {width : Nat}
    (lengths : ∀ letter, (code letter).length = width + 1) (ascending : StrictMono code)
    (less : left < right) : left.flatMap code < right.flatMap code := by
  induction less with
  | @nil head tail =>
    rw [flatMap_nil, flatMap_cons]
    cases word : code head with
    | nil => exact absurd (lengths head) (by simp [word])
    | cons letter rest => exact .nil
  | cons _ induction =>
    rw [flatMap_cons, flatMap_cons, append_left_lt_iff]
    exact induction
  | rel less =>
    rw [flatMap_cons, flatMap_cons]
    exact append_lt_of_length_eq (ascending less)
      ((lengths _).trans (lengths _).symm) _ _

def fixedWidth {separator : Letter} {base : Nat} (positive : 0 < base) (width : Nat)
    (alphabet : Nat → Letter) (ascending : StrictMonoOn alphabet {digit | digit < base})
    (above : ∀ digit < base, separator < alphabet digit) :
    ComponentEncoding separator Nat where
  encode number := (digits base width number).map alphabet
  valid number := number < base ^ width
  strictMonoOn _ _ _ rightValid less :=
    map_lt ascending (fun _ => digit_lt positive) (fun _ => digit_lt positive)
      (digits_lt less rightValid)
  above _ _ letter isMember := by
    rcases List.mem_map.mp isMember with ⟨digit, isDigit, equal⟩
    exact equal ▸ above digit (digit_lt positive isDigit)

end

end LoonFs.Foundation
