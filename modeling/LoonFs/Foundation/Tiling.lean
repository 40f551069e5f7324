import Mathlib.Data.List.Basic

/-! # Runs of positions -/

namespace LoonFs.Foundation

structure Run where
  offset : Nat
  length : Nat
deriving DecidableEq

namespace Run

def finish (run : Run) : Nat := run.offset + run.length

def Contains (run : Run) (position : Nat) : Prop := run.offset ≤ position ∧ position < run.finish

end Run

def Tiling : Nat → List Run → Nat → Prop
  | start, [], finish => start = finish
  | start, run :: rest, finish => run.offset = start ∧ Tiling (start + run.length) rest finish

namespace Tiling

theorem le (tiling : Tiling start runs finish) : start ≤ finish := by
  induction runs generalizing start with
  | nil => exact Nat.le_of_eq tiling
  | cons run runs induction =>
    have later := induction tiling.2
    omega

theorem append (first : Tiling start runs middle) (second : Tiling middle more finish) :
    Tiling start (runs ++ more) finish := by
  induction runs generalizing start with
  | nil =>
    have same : start = middle := first
    exact same ▸ second
  | cons run runs induction => exact ⟨first.1, induction first.2⟩

theorem contains_iff (tiling : Tiling start runs finish) :
    (∃ run ∈ runs, run.Contains position) ↔ start ≤ position ∧ position < finish := by
  induction runs generalizing start with
  | nil =>
    have same : start = finish := tiling
    simp only [List.not_mem_nil, false_and, exists_false, false_iff]
    omega
  | cons run runs induction =>
    have later := induction tiling.2
    have bound := le tiling.2
    have atStart := tiling.1
    simp only [List.mem_cons, exists_eq_or_imp]
    rw [later, Run.Contains, Run.finish]
    omega

theorem le_offset (tiling : Tiling start runs finish) : ∀ run ∈ runs, start ≤ run.offset := by
  induction runs generalizing start with
  | nil => simp
  | cons first runs induction =>
    intro run mem
    rcases List.mem_cons.mp mem with same | mem
    · exact same ▸ Nat.le_of_eq tiling.1.symm
    · have later := induction tiling.2 run mem
      omega

theorem pairwise (tiling : Tiling start runs finish) :
    runs.Pairwise fun left right => left.finish ≤ right.offset := by
  induction runs generalizing start with
  | nil => exact .nil
  | cons run runs induction =>
    refine List.pairwise_cons.mpr ⟨?_, induction tiling.2⟩
    rw [Run.finish, tiling.1]
    exact le_offset tiling.2

end Tiling

structure CoversOnce (start : Nat) (runs : List Run) (finish : Nat) : Prop where
  contains_iff : ∀ position,
    (∃ run ∈ runs, run.Contains position) ↔ start ≤ position ∧ position < finish
  disjoint : runs.Pairwise fun left right => left.finish ≤ right.offset

theorem Tiling.coversOnce (tiling : Tiling start runs finish) : CoversOnce start runs finish :=
  ⟨fun _ => tiling.contains_iff, tiling.pairwise⟩

end LoonFs.Foundation
