import Mathlib.Tactic.TypeStar

/-! # Outcomes of checked computations -/

namespace LoonFs.Foundation

variable {Failure : Type u} {α β : Type v}

theorem bind_eq_ok {next : α → Except Failure β} :
    (first >>= next) = .ok result ↔ ∃ value, first = .ok value ∧ next value = .ok result := by
  cases first with
  | error failure =>
    change Except.error failure = Except.ok result ↔ _
    simp
  | ok value =>
    change next value = Except.ok result ↔ _
    simp

@[simp] theorem ok_bind (value : α) (next : α → Except Failure β) :
    (Except.ok value >>= next) = next value := rfl

variable {result : α}

@[simp] theorem pure_eq_ok : (pure value : Except Failure α) = .ok result ↔ value = result := by
  change Except.ok value = Except.ok result ↔ _
  simp

variable {Other : Type w} {wrap : Failure → Other}

theorem mapError_ok : (Except.ok result).mapError wrap = .ok result := rfl

theorem mapError_error {failure : Failure} :
    (.error failure : Except Failure α).mapError wrap = .error (wrap failure) := rfl

theorem mapError_eq_ok {read : Except Failure α} :
    read.mapError wrap = .ok result ↔ read = .ok result := by
  cases read <;> simp [mapError_ok, mapError_error]

variable {condition : Prop}

theorem guard_eq_ok [Decidable condition] {refusal passed : Except Failure α}
    (refuses : ∀ value, refusal ≠ .ok value) :
    (if condition then refusal else passed) = .ok result ↔ ¬condition ∧ passed = .ok result := by
  by_cases holds : condition
  · simp [holds, refuses result]
  · simp [holds]

def refuseIf (condition : Prop) [Decidable condition] (failure : Failure) : Except Failure PUnit :=
  if condition then .error failure else .ok ⟨⟩

variable {failure : Failure}

@[simp] theorem refuseIf_eq_ok [Decidable condition] {result : PUnit} :
    refuseIf condition failure = .ok result ↔ ¬condition := by
  by_cases holds : condition <;> simp [refuseIf, holds]

def orRefuse (failure : Failure) : Option α → Except Failure α
  | some value => .ok value
  | none => .error failure

@[simp] theorem orRefuse_eq_ok : orRefuse failure value = .ok result ↔ value = some result := by
  cases value <;> simp [orRefuse]

def checkAll (check : α → Except Failure PUnit) : List α → Except Failure PUnit
  | [] => .ok ⟨⟩
  | element :: elements => do
      check element
      checkAll check elements

theorem checkAll_eq_ok {check : α → Except Failure PUnit} {elements : List α} {result : PUnit} :
    checkAll check elements = .ok result ↔ ∀ element ∈ elements, check element = .ok ⟨⟩ := by
  induction elements with
  | nil => simp [checkAll]
  | cons element elements induction =>
    rw [checkAll, bind_eq_ok, List.forall_mem_cons, induction]
    constructor
    · intro ⟨_, passes, rest⟩
      exact ⟨passes, rest⟩
    · intro ⟨passes, rest⟩
      exact ⟨_, passes, rest⟩

end LoonFs.Foundation
