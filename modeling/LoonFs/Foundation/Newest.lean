import Mathlib.Order.Lattice
import Mathlib.Data.List.Basic

/-! # Newest-wins selection -/

namespace LoonFs.Foundation

open List

variable {Row : Type u} {Key : Type v}

def KeysDistinct (key : Row → Key) (rows : List Row) : Prop :=
  ∀ left ∈ rows, ∀ right ∈ rows, key left = key right → left = right

namespace KeysDistinct

variable {key : Row → Key}

theorem of_subset (distinct : KeysDistinct key rows) (subset : ∀ row ∈ kept, row ∈ rows) :
    KeysDistinct key kept :=
  fun left leftMem right rightMem eq =>
    distinct left (subset left leftMem) right (subset right rightMem) eq

theorem filter (distinct : KeysDistinct key rows) (select : Row → Bool) :
    KeysDistinct key (rows.filter select) :=
  distinct.of_subset fun _ mem => mem_of_mem_filter mem

theorem append {added : List Row} (distinct : KeysDistinct key rows)
    (atMostOne : added.length ≤ 1) (fresh : ∀ row ∈ added, ∀ other ∈ rows, key other ≠ key row) :
    KeysDistinct key (rows ++ added) := by
  intro left leftMem right rightMem eq
  rcases mem_append.mp leftMem with leftMem | leftNew <;>
    rcases mem_append.mp rightMem with rightMem | rightNew
  · exact distinct left leftMem right rightMem eq
  · exact absurd eq (fresh right rightNew left leftMem)
  · exact absurd eq.symm (fresh left leftNew right rightMem)
  · match added, atMostOne with
    | [row], _ => rw [mem_singleton.mp leftNew, mem_singleton.mp rightNew]

end KeysDistinct

variable [LinearOrder Key]

/-- The row with the greatest key, and the last of those when several share
it. -/
def maxByKey (key : Row → Key) : List Row → Option Row
  | [] => none
  | row :: rest =>
    match maxByKey key rest with
    | none => some row
    | some best => if key best < key row then some row else some best

structure IsNewest (key : Row → Key) (rows : List Row) (newest : Row) : Prop where
  mem : newest ∈ rows
  le : ∀ row ∈ rows, key row ≤ key newest

@[simp] theorem maxByKey_nil (key : Row → Key) : maxByKey key [] = none := rfl

theorem maxByKey_eq_none_iff (key : Row → Key) (rows : List Row) :
    maxByKey key rows = none ↔ rows = [] := by
  cases rows with
  | nil => simp
  | cons row rest =>
    simp only [maxByKey, reduceCtorEq, iff_false]
    cases maxByKey key rest with
    | none => simp
    | some best => dsimp only; split <;> simp

variable {key : Row → Key} {rows : List Row}

theorem maxByKey_isNewest (found : maxByKey key rows = some newest) : IsNewest key rows newest := by
  induction rows generalizing newest with
  | nil => simp at found
  | cons row rest induction =>
    simp only [maxByKey] at found
    cases past : maxByKey key rest with
    | none =>
      rw [past] at found
      cases found
      rw [(maxByKey_eq_none_iff key rest).mp past]
      exact ⟨by simp, by simp⟩
    | some best =>
      rw [past] at found
      have bestNewest := induction past
      dsimp only at found
      split at found
      · rename_i smaller
        cases found
        refine ⟨by simp, ?_⟩
        intro other member
        rcases mem_cons.mp member with eq | member
        · exact le_of_eq (congrArg key eq)
        · exact (bestNewest.le other member).trans smaller.le
      · rename_i notSmaller
        cases found
        refine ⟨mem_cons_of_mem _ bestNewest.mem, ?_⟩
        intro other member
        rcases mem_cons.mp member with eq | member
        · exact eq ▸ not_lt.mp notSmaller
        · exact bestNewest.le other member

variable {row : Row}

theorem exists_maxByKey (key : Row → Key) (mem : row ∈ rows) :
    ∃ newest, maxByKey key rows = some newest := by
  cases found : maxByKey key rows with
  | none =>
    rw [(maxByKey_eq_none_iff key rows).mp found] at mem
    cases mem
  | some newest => exact ⟨newest, rfl⟩

theorem IsNewest.unique (distinct : KeysDistinct key rows) (leftNewest : IsNewest key rows left)
    (rightNewest : IsNewest key rows right) : left = right :=
  distinct left leftNewest.mem right rightNewest.mem
    (le_antisymm (rightNewest.le left leftNewest.mem) (leftNewest.le right rightNewest.mem))

theorem maxByKey_eq_some_iff (distinct : KeysDistinct key rows) :
    maxByKey key rows = some newest ↔ IsNewest key rows newest := by
  constructor
  · exact maxByKey_isNewest
  · intro isNewest
    rcases exists_maxByKey key isNewest.mem with ⟨found, foundEq⟩
    rw [foundEq, (maxByKey_isNewest foundEq).unique distinct isNewest]

theorem maxByKey_congr (distinct : KeysDistinct key right)
    (sameRows : ∀ row, row ∈ left ↔ row ∈ right) : maxByKey key left = maxByKey key right := by
  have leftDistinct := distinct.of_subset fun row => (sameRows row).mp
  cases found : maxByKey key right with
  | none =>
    rw [maxByKey_eq_none_iff] at found ⊢
    subst found
    exact eq_nil_iff_forall_not_mem.mpr fun row member => by
      simpa using (sameRows row).mp member
  | some newest =>
    have isNewest := maxByKey_isNewest found
    rw [maxByKey_eq_some_iff leftDistinct]
    exact ⟨(sameRows newest).mpr isNewest.mem,
      fun row member => isNewest.le row ((sameRows row).mp member)⟩

theorem maxByKey_of_subset (distinct : KeysDistinct key rows) (subset : ∀ row ∈ kept, row ∈ rows)
    (found : maxByKey key rows = some newest) (keptNewest : newest ∈ kept) :
    maxByKey key kept = some newest := by
  rw [maxByKey_eq_some_iff (distinct.of_subset subset)]
  exact ⟨keptNewest, fun row mem => (maxByKey_isNewest found).le row (subset row mem)⟩

theorem maxByKey_append_newer (newer : ∀ other ∈ rows, key other < key row) :
    maxByKey key (rows ++ [row]) = some row := by
  induction rows with
  | nil => simp [maxByKey]
  | cons head rest induction =>
    have restNewer := induction fun other mem => newer other (mem_cons_of_mem _ mem)
    have headOlder := newer head (by simp)
    simp [maxByKey, restNewer, not_lt.mpr headOlder.le]

theorem maxByKey_map {Image : Type w} {imageKey : Image → Key} {image : Row → Image}
    (sameKey : ∀ row, imageKey (image row) = key row) (rows : List Row) :
    maxByKey imageKey (rows.map image) = (maxByKey key rows).map image := by
  induction rows with
  | nil => rfl
  | cons row rest induction =>
    simp only [map_cons, maxByKey, induction]
    cases maxByKey key rest with
    | none => rfl
    | some best =>
      simp only [Option.map_some, sameKey]
      split <;> rfl

section

variable {Index : Type w} [DecidableEq Index]

def newestOf (key : Row → Key) (index : Row → Index) (rows : List Row) (slot : Index) :
    Option Row :=
  maxByKey key (rows.filter fun row => index row = slot)

variable {index : Row → Index} {rows : List Row} {key : Row → Key}

theorem newestOf_isNewest (found : newestOf key index rows slot = some newest) :
    newest ∈ rows ∧ index newest = slot ∧
      ∀ row ∈ rows, index row = slot → key row ≤ key newest := by
  have isNewest := maxByKey_isNewest found
  have member := mem_filter.mp isNewest.mem
  refine ⟨member.1, by simpa using member.2, ?_⟩
  intro row rowMem sameIndex
  exact isNewest.le row (mem_filter.mpr ⟨rowMem, by simpa using sameIndex⟩)

theorem newestOf_eq_some_iff (distinct : KeysDistinct key rows) :
    newestOf key index rows slot = some newest ↔ newest ∈ rows ∧ index newest = slot ∧
        ∀ row ∈ rows, index row = slot → key row ≤ key newest := by
  refine ⟨newestOf_isNewest, ?_⟩
  rintro ⟨mem, sameIndex, newer⟩
  rw [newestOf, maxByKey_eq_some_iff (distinct.filter _)]
  refine ⟨mem_filter.mpr ⟨mem, by simpa using sameIndex⟩, ?_⟩
  intro row rowMem
  have parts := mem_filter.mp rowMem
  exact newer row parts.1 (by simpa using parts.2)

theorem newestOf_eq_none_iff :
    newestOf key index rows slot = none ↔ ∀ row ∈ rows, index row ≠ slot := by
  rw [newestOf, maxByKey_eq_none_iff, filter_eq_nil_iff]
  simp

theorem newestOf_filter (key : Row → Key) (index : Row → Index) (select : Row → Bool)
    (rows : List Row) (slot : Index) : newestOf key index (rows.filter select) slot =
      maxByKey key (rows.filter fun row => decide (index row = slot) && select row) := by
  rw [newestOf, filter_filter]

def putAll (index : Row → Index) (map : Index → Option Row) (rows : List Row) :
    Index → Option Row :=
  rows.foldl (fun map row => Function.update map (index row) (some row)) map

@[simp] theorem putAll_nil (index : Row → Index) (map : Index → Option Row) :
    putAll index map [] = map := rfl

@[simp] theorem putAll_singleton (index : Row → Index) (map : Index → Option Row)
    (row : Row) : putAll index map [row] = Function.update map (index row) (some row) := rfl

theorem putAll_of_forall_ne {map : Index → Option Row}
    (elsewhere : ∀ row ∈ rows, index row ≠ slot) : putAll index map rows slot = map slot := by
  induction rows generalizing map with
  | nil => rfl
  | cons row rest induction =>
    have ne := Ne.symm (elsewhere row (by simp))
    have restElsewhere : ∀ other ∈ rest, index other ≠ slot :=
      fun other mem => elsewhere other (mem_cons_of_mem _ mem)
    exact (induction restElsewhere).trans (Function.update_of_ne ne _ _)

theorem newestOf_append_rows {added : List Row} (atMostOne : added.length ≤ 1)
    (newer : ∀ row ∈ added, ∀ other ∈ rows, index other = index row → key other < key row) :
    newestOf key index (rows ++ added) = putAll index (newestOf key index rows) added := by
  match added, atMostOne with
  | [], _ => simp
  | [row], _ =>
    funext slot
    rw [newestOf, filter_append, putAll_singleton]
    by_cases sameIndex : slot = index row
    · subst sameIndex
      rw [Function.update_self]
      simp only [decide_true, filter_cons_of_pos, filter_nil]
      apply maxByKey_append_newer
      intro other mem
      have parts := mem_filter.mp mem
      exact newer row (by simp) other parts.1 (by simpa using parts.2)
    · rw [Function.update_of_ne sameIndex]
      simp [newestOf, Ne.symm sameIndex]

end

structure OrderedLog (key : Row → Key) (rows : List Row) (bound : Key) : Prop where
  sorted : rows.Pairwise fun left right => key left < key right
  below : ∀ row ∈ rows, key row < bound

namespace OrderedLog

variable {key : Row → Key} {rows : List Row} {bound : Key}

theorem nil : OrderedLog key [] bound := ⟨.nil, by simp⟩

section

variable (log : OrderedLog key rows bound)

include log

theorem mono (le : bound ≤ later) : OrderedLog key rows later :=
  ⟨log.sorted, fun row mem => (log.below row mem).trans_le le⟩

theorem append_rows {added : List Row} (atMostOne : added.length ≤ 1)
    (atBound : ∀ row ∈ added, key row = bound) (less : bound < later) :
    OrderedLog key (rows ++ added) later := by
  match added, atMostOne with
  | [], _ => simpa using log.mono less.le
  | [row], _ =>
    have rowKey := atBound row (by simp)
    refine ⟨?_, ?_⟩
    · rw [pairwise_append]
      refine ⟨log.sorted, by simp, ?_⟩
      intro left leftMem right rightMem
      rw [mem_singleton.mp rightMem, rowKey]
      exact log.below left leftMem
    · intro other mem
      rcases mem_append.mp mem with mem | mem
      · exact (log.below other mem).trans less
      · rw [mem_singleton.mp mem, rowKey]
        exact less

theorem rel_of_lt {related : Row → Row → Prop} (pairwise : rows.Pairwise related)
    (leftMem : left ∈ rows) (rightMem : right ∈ rows) (less : key left < key right) :
    related left right := by
  have both := log.sorted.and pairwise
  clear log pairwise
  induction both with
  | nil => cases leftMem
  | @cons head rest headRelated _ induction =>
    rcases mem_cons.mp leftMem with leftHead | leftMem <;>
      rcases mem_cons.mp rightMem with rightHead | rightMem
    · rw [leftHead, rightHead] at less
      exact absurd less (lt_irrefl _)
    · exact leftHead ▸ (headRelated right rightMem).2
    · have reversed := (headRelated left leftMem).1
      rw [← rightHead] at reversed
      exact absurd less (lt_asymm reversed)
    · exact induction leftMem rightMem

theorem keys_nodup : (rows.map key).Nodup := pairwise_map.mpr (log.sorted.imp fun less => less.ne)

theorem keysDistinct : KeysDistinct key rows := by
  have sorted := log.sorted
  clear log
  induction sorted with
  | nil => intro left leftMem; cases leftMem
  | @cons head rest headLess _ induction =>
    intro left leftMem right rightMem eq
    rcases mem_cons.mp leftMem with leftHead | leftMem <;>
      rcases mem_cons.mp rightMem with rightHead | rightMem
    · rw [leftHead, rightHead]
    · have less := headLess right rightMem
      rw [← leftHead, eq] at less
      exact absurd less (lt_irrefl _)
    · have less := headLess left leftMem
      rw [← rightHead, ← eq] at less
      exact absurd less (lt_irrefl _)
    · exact induction left leftMem right rightMem eq

end

end OrderedLog

end LoonFs.Foundation
