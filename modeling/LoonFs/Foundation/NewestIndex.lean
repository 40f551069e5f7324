import LoonFs.Foundation.Newest
import Mathlib.Data.List.Induction

/-! # Indexes kept row by row -/

namespace LoonFs.Foundation

open List Function

variable {Row : Type u} {Key : Type v} {Index : Type w} [LinearOrder Key] [DecidableEq Index]

/-- Stores the value unless its slot holds one that is at least as new. -/
def replaceIfNewer (map : Index → Option Row) (slot : Index) (value : Row) (order : Row → Key) :
    Index → Option Row :=
  match map slot with
  | some existing =>
    if order existing < order value then Function.update map slot (some value) else map
  | none => Function.update map slot (some value)

def newestIndex (order : Row → Key) (index : Row → Index) (rows : List Row) : Index → Option Row :=
  rows.foldl (fun map row => replaceIfNewer map (index row) row order) fun _ => none

theorem newestIndex_append (order : Row → Key) (index : Row → Index) (rows : List Row) (row : Row) :
    newestIndex order index (rows ++ [row]) =
      replaceIfNewer (newestIndex order index rows) (index row) row order := by
  simp [newestIndex]

theorem replaceIfNewer_of_ne (map : Index → Option Row) (value : Row) (order : Row → Key)
    (ne : other ≠ slot) : replaceIfNewer map slot value order other = map other := by
  unfold replaceIfNewer
  cases map slot with
  | none => exact update_of_ne ne _ _
  | some existing =>
    dsimp only
    split
    · exact update_of_ne ne _ _
    · rfl

theorem replaceIfNewer_self (map : Index → Option Row) (slot : Index) (value : Row)
    (order : Row → Key) : (∃ existing, map slot = some existing ∧ order value ≤ order existing ∧
      replaceIfNewer map slot value order slot = some existing) ∨
    ((∀ existing, map slot = some existing → order existing < order value) ∧
      replaceIfNewer map slot value order slot = some value) := by
  unfold replaceIfNewer
  cases held : map slot with
  | none => exact .inr ⟨by simp, update_self ..⟩
  | some existing =>
    dsimp only
    split
    · rename_i newer
      exact .inr ⟨by simpa using newer, update_self ..⟩
    · rename_i notNewer
      exact .inl ⟨existing, rfl, not_lt.mp notNewer, held⟩

variable {index : Row → Index} {order : Row → Key}

theorem newestIndex_eq_none (empty : newestIndex order index rows slot = none) :
    ∀ row ∈ rows, index row ≠ slot := by
  induction rows using List.reverseRecOn with
  | nil => simp
  | append_singleton rows row induction =>
    rw [newestIndex_append] at empty
    by_cases sameSlot : slot = index row
    · subst sameSlot
      rcases replaceIfNewer_self (newestIndex order index rows) (index row) row order with
        ⟨_, _, _, stored⟩ | ⟨_, stored⟩ <;>
      · rw [stored] at empty
        cases empty
    · rw [replaceIfNewer_of_ne _ _ _ sameSlot] at empty
      intro other mem
      rcases mem_append.mp mem with mem | mem
      · exact induction empty other mem
      · rw [mem_singleton.mp mem]
        exact Ne.symm sameSlot

theorem newestIndex_eq_some (found : newestIndex order index rows slot = some newest) :
    newest ∈ rows ∧ index newest = slot ∧
      ∀ row ∈ rows, index row = slot → order row ≤ order newest := by
  induction rows using List.reverseRecOn generalizing newest with
  | nil => simp [newestIndex] at found
  | append_singleton rows row induction =>
    rw [newestIndex_append] at found
    by_cases sameSlot : slot = index row
    · subst sameSlot
      rcases replaceIfNewer_self (newestIndex order index rows) (index row) row order with
        ⟨existing, held, notNewer, stored⟩ | ⟨newer, stored⟩
      · rw [stored] at found
        cases found
        rcases induction held with ⟨mem, atSlot, newest⟩
        refine ⟨mem_append_left _ mem, atSlot, ?_⟩
        intro other otherMem otherSlot
        rcases mem_append.mp otherMem with otherMem | otherMem
        · exact newest other otherMem otherSlot
        · rwa [mem_singleton.mp otherMem]
      · rw [stored] at found
        cases found
        refine ⟨by simp, rfl, ?_⟩
        intro other otherMem otherSlot
        rcases mem_append.mp otherMem with otherMem | otherMem
        · -- Whatever the slot held was at least as new as the other row.
          cases held : newestIndex order index rows (index row) with
          | none => exact absurd otherSlot (newestIndex_eq_none held other otherMem)
          | some existing =>
            exact ((induction held).2.2 other otherMem otherSlot).trans
              (newer existing held).le
        · rw [mem_singleton.mp otherMem]
    · rw [replaceIfNewer_of_ne _ _ _ sameSlot] at found
      rcases induction found with ⟨mem, atSlot, newer⟩
      refine ⟨mem_append_left _ mem, atSlot, ?_⟩
      intro other otherMem otherSlot
      rcases mem_append.mp otherMem with otherMem | otherMem
      · exact newer other otherMem otherSlot
      · rw [mem_singleton.mp otherMem] at otherSlot
        exact absurd otherSlot.symm sameSlot

theorem newestIndex_eq_newestOf (distinct : KeysDistinct order rows) :
    newestIndex order index rows = newestOf order index rows := by
  funext slot
  cases found : newestIndex order index rows slot with
  | none => exact (newestOf_eq_none_iff.mpr (newestIndex_eq_none found)).symm
  | some newest => exact ((newestOf_eq_some_iff distinct).mpr (newestIndex_eq_some found)).symm

end LoonFs.Foundation
