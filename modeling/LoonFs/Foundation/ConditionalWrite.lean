import Mathlib.Tactic.Common

/-! # Writes under a condition -/

namespace LoonFs.Foundation

inductive PutAnswer where
  | stored
  | preconditionFailed
  /-- The response was lost. -/
  | transport
  /-- The store refused the request for another reason. -/
  | other
deriving DecidableEq

inductive ConditionalWrite {State : Type} (condition : Prop) (before written : State) :
    PutAnswer → State → Prop
  | stored : condition → ConditionalWrite condition before written .stored written
  | refused : ¬condition →
      ConditionalWrite condition before written .preconditionFailed before
  | unconfirmed : condition → ConditionalWrite condition before written .transport written
  | lost : ConditionalWrite condition before written .transport before
  | failed : ConditionalWrite condition before written .other before

theorem ConditionalWrite.cases {State : Type} {condition : Prop} {before written after : State}
    {answer : PutAnswer} (write : ConditionalWrite condition before written answer after) :
    (after = before ∧ answer ≠ .stored ∧ (answer = .preconditionFailed → ¬condition)) ∨
      (condition ∧ after = written ∧ (answer = .stored ∨ answer = .transport)) := by
  cases write with
  | stored holds => exact .inr ⟨holds, rfl, .inl rfl⟩
  | refused fails => exact .inl ⟨rfl, by simp, fun _ => fails⟩
  | unconfirmed holds => exact .inr ⟨holds, rfl, .inr rfl⟩
  | lost | failed => exact .inl ⟨rfl, by simp, by simp⟩

end LoonFs.Foundation
