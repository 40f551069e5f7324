import Mathlib.Data.List.Sort
import Mathlib.Data.List.Dedup

/-! # Pages of keyed rows -/

namespace LoonFs.Foundation

open List

variable {Row : Type u} {Key : Type v} [LinearOrder Key]

def collected [DecidableEq Row] (key : Row → Key) (rows : List Row) : List Row :=
  rows.dedup.insertionSort fun left right => key left ≤ key right

section

variable [DecidableEq Row] {key : Row → Key} {rows : List Row}

@[simp] theorem mem_collected {row : Row} : row ∈ collected key rows ↔ row ∈ rows := by
  rw [collected, mem_insertionSort, mem_dedup]

theorem collected_sorted
    (named : ∀ left ∈ rows, ∀ right ∈ rows, key left = key right → left = right) :
    (collected key rows).Pairwise fun left right => key left < key right := by
  have sorted : (collected key rows).Pairwise fun left right => key left ≤ key right :=
    pairwise_insertionSort _ _
  have distinct : (collected key rows).Nodup :=
    (perm_insertionSort _ _).nodup_iff.mpr (nodup_dedup rows)
  apply List.Pairwise.imp_of_mem _ (sorted.and distinct)
  intro left right leftMem rightMem ⟨le, ne⟩
  apply lt_of_le_of_ne le
  intro same
  exact ne (named left (mem_collected.mp leftMem) right
    (mem_collected.mp rightMem) same)

end

variable {key : Row → Key} {rows : List Row} {row : Row}

theorem mem_take_or_beyond (sorted : rows.Pairwise fun left right => key left < key right)
    (mem : row ∈ rows) (limit : Nat) : row ∈ rows.take limit ∨ (rows.take limit).length = limit ∧
      ∀ other ∈ rows.take limit, key other < key row := by
  rw [← take_append_drop limit rows] at sorted mem
  rcases mem_append.mp mem with inPage | beyond
  · exact .inl inPage
  · right
    constructor
    · rw [length_take]
      have longer : limit < rows.length := by
        by_contra short
        rw [drop_eq_nil_of_le (Nat.le_of_not_lt short)] at beyond
        cases beyond
      omega
    · intro other isOther
      exact (pairwise_append.mp sorted).2.2 other isOther row beyond

def rowsFrom (key : Row → Key) (rows : List Row) (bound : Key) : Nat :=
  rows.countP fun row => decide (bound ≤ key row)

theorem rowsFrom_lt {bound next : Key} (mem : row ∈ rows) (atOrAfter : bound ≤ key row)
    (past : key row < next) : rowsFrom key rows next < rowsFrom key rows bound := by
  have le (rest : List Row) : rowsFrom key rest next ≤ rowsFrom key rest bound := by
    apply countP_mono_left
    intro other _ kept
    rw [decide_eq_true_eq] at kept ⊢
    exact (atOrAfter.trans past.le).trans kept
  obtain ⟨before, after, split⟩ := append_of_mem mem
  have first := le before
  have second := le after
  have dropped := not_le.mpr past
  rw [split]
  simp only [rowsFrom, countP_append, countP_cons, atOrAfter, dropped,
    decide_true, decide_false, if_true, Bool.false_eq_true, if_false] at first second ⊢
  omega

end LoonFs.Foundation
