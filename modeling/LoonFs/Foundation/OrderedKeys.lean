import Mathlib.Data.List.Lex
import Mathlib.Data.Prod.Lex
import Mathlib.Order.Cover

/-! # Order-preserving keys

Components are joined by a separator that is below every letter of a component.
-/

namespace LoonFs.Foundation

open List

section

variable {Letter : Type*} [LinearOrder Letter]

theorem append_separator_lt {separator : Letter} (less : left < right)
    (rightAbove : ∀ letter ∈ right, separator < letter) (leftRest rightRest : List Letter) :
    left ++ separator :: leftRest < right ++ separator :: rightRest := by
  induction less with
  | nil => exact .rel (rightAbove _ (by simp))
  | cons _ induction =>
    exact .cons (induction fun letter mem => rightAbove letter (mem_cons_of_mem _ mem))
  | rel less => exact .rel less

theorem append_left_lt_iff (word left right : List Letter) :
    word ++ left < word ++ right ↔ left < right := by
  induction word with
  | nil => rfl
  | cons letter word induction =>
    rw [cons_append, cons_append, cons_lt_cons_iff]
    simp [induction]

omit [LinearOrder Letter] in
theorem append_separator_prefix_iff {separator : Letter} (leftFree : separator ∉ left)
    (rightFree : separator ∉ right) (leftRest rightRest : List Letter) :
    left ++ separator :: leftRest <+: right ++ separator :: rightRest ↔
      left = right ∧ leftRest <+: rightRest := by
  induction left generalizing right with
  | nil =>
    cases right with
    | nil => simp [cons_prefix_cons]
    | cons letter right =>
      have ne : separator ≠ letter := fun eq => rightFree (eq ▸ mem_cons_self)
      simp [cons_prefix_cons, ne]
  | cons letter left induction =>
    cases right with
    | nil =>
      have ne : letter ≠ separator := fun eq => leftFree (eq ▸ mem_cons_self)
      simp [cons_prefix_cons, ne]
    | cons other right =>
      have tails := induction (fun mem => leftFree (mem_cons_of_mem _ mem))
        (fun mem => rightFree (mem_cons_of_mem other mem))
      simp [cons_prefix_cons, tails, and_assoc]

theorem prefix_le {word key : List Letter} (starts : word <+: key) : word ≤ key := by
  rcases starts with ⟨rest, eq⟩
  subst eq
  cases rest with
  | nil => simp
  | cons letter rest =>
    apply le_of_lt
    have less := (append_left_lt_iff word [] (letter :: rest)).mpr .nil
    rwa [append_nil] at less

theorem prefix_iff_between {letter next : Letter} (covers : letter ⋖ next)
    (word key : List Letter) :
    word ++ [letter] <+: key ↔ word ++ [letter] ≤ key ∧ key < word ++ [next] := by
  constructor
  · intro starts
    refine ⟨prefix_le starts, ?_⟩
    rcases starts with ⟨rest, eq⟩
    subst eq
    rw [append_assoc, append_left_lt_iff]
    exact .rel covers.lt
  · intro ⟨lower, upper⟩
    induction word generalizing key with
    | nil =>
      cases key with
      | nil => exact absurd lower (not_le_of_gt .nil)
      | cons head rest =>
        have atLeast : letter ≤ head := by
          apply le_of_not_gt
          intro less
          exact absurd lower (not_le_of_gt (.rel less))
        have below : head < next := by
          rcases cons_lt_cons_iff.mp upper with less | ⟨_, impossible⟩
          · exact less
          · cases impossible
        have eq : head = letter := le_antisymm (covers.le_of_lt below) atLeast
        simp [eq]
    | cons first word induction =>
      cases key with
      | nil => exact absurd lower (not_le_of_gt .nil)
      | cons head rest =>
        have eq : head = first := by
          apply le_antisymm (head_le_of_lt upper)
          apply le_of_not_gt
          intro less
          exact absurd lower (not_le_of_gt (.rel less))
        subst eq
        rw [cons_append, cons_prefix_cons]
        refine ⟨rfl, induction rest ?_ ?_⟩
        · apply le_of_not_gt
          intro less
          exact absurd lower (not_le_of_gt (.cons less))
        · rw [cons_append] at upper
          simpa using upper

end

structure OrderedEncoding (Letter : Type u) (Value : Type v) [LinearOrder Letter]
    [LinearOrder Value] where
  encode : Value → List Letter
  valid : Value → Prop
  strictMonoOn : StrictMonoOn encode {value | valid value}

/-- An ordered encoding whose letters are all above a separator. -/
structure ComponentEncoding {Letter : Type u} [LinearOrder Letter] (separator : Letter)
    (Value : Type v) [LinearOrder Value] extends OrderedEncoding Letter Value where
  above : ∀ value, valid value → ∀ letter ∈ encode value, separator < letter

namespace OrderedEncoding

variable {Letter : Type u} {Value : Type v} [LinearOrder Letter] [LinearOrder Value]
  (encoding : OrderedEncoding Letter Value) {left right : Value}

theorem encode_lt_iff (leftValid : encoding.valid left) (rightValid : encoding.valid right) :
    encoding.encode left < encoding.encode right ↔ left < right :=
  encoding.strictMonoOn.lt_iff_lt leftValid rightValid

theorem encode_eq_iff (leftValid : encoding.valid left) (rightValid : encoding.valid right) :
    encoding.encode left = encoding.encode right ↔ left = right :=
  encoding.strictMonoOn.injOn.eq_iff leftValid rightValid

def descending (encoding : OrderedEncoding Letter Nat) (top : Nat)
    (fits : ∀ value ≤ top, encoding.valid value) : OrderedEncoding Letter Natᵒᵈ where
  encode value := encoding.encode (top - OrderDual.ofDual value)
  valid value := OrderDual.ofDual value ≤ top
  strictMonoOn := by
    intro left leftValid right rightValid less
    apply encoding.strictMonoOn (fits _ (Nat.sub_le _ _)) (fits _ (Nat.sub_le _ _))
    have reversed : OrderDual.ofDual right < OrderDual.ofDual left := less
    have bounded : OrderDual.ofDual left ≤ top := leftValid
    omega

end OrderedEncoding

namespace ComponentEncoding

variable {Letter : Type u} [LinearOrder Letter] {separator : Letter}
  {First : Type v} {Second : Type w} [LinearOrder First] [LinearOrder Second]

theorem separator_notMem (component : ComponentEncoding separator First)
    (isValid : component.valid value) : separator ∉ component.encode value :=
  fun mem => lt_irrefl _ (component.above value isValid _ mem)

def pair (component : ComponentEncoding separator First)
    (rest : OrderedEncoding Letter Second) : OrderedEncoding Letter (First ×ₗ Second) where
  encode value := component.encode (ofLex value).1 ++ separator :: rest.encode (ofLex value).2
  valid value := component.valid (ofLex value).1 ∧ rest.valid (ofLex value).2
  strictMonoOn := by
    intro left leftValid right rightValid less
    rcases Prod.Lex.lt_iff.mp less with firstLess | ⟨firstSame, secondLess⟩
    · exact append_separator_lt
        (component.strictMonoOn leftValid.1 rightValid.1 firstLess)
        (component.above _ rightValid.1) _ _
    · change component.encode (ofLex left).1 ++ _ < component.encode (ofLex right).1 ++ _
      rw [firstSame, append_left_lt_iff]
      exact .cons (rest.strictMonoOn leftValid.2 rightValid.2 secondLess)

def descending (component : ComponentEncoding separator Nat) (top : Nat)
    (fits : ∀ value ≤ top, component.valid value) : ComponentEncoding separator Natᵒᵈ where
  toOrderedEncoding := component.toOrderedEncoding.descending top fits
  above _ _ := component.above _ (fits _ (Nat.sub_le _ _))

theorem prefix_iff (component : ComponentEncoding separator First)
    (isValid : component.valid value) (otherValid : component.valid other)
    (word rest : List Letter) : component.encode value ++ separator :: word <+:
        component.encode other ++ separator :: rest ↔ value = other ∧ word <+: rest := by
  rw [append_separator_prefix_iff (component.separator_notMem isValid)
    (component.separator_notMem otherValid), component.encode_eq_iff isValid otherValid]

end ComponentEncoding

end LoonFs.Foundation
