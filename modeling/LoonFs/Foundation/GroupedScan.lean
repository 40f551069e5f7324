import Mathlib.Data.List.Sort
import Mathlib.Data.Prod.Lex

/-! # Scans over grouped rows -/

namespace LoonFs.Foundation

open List

universe u v w

variable {Row : Type u} {Group : Type v} {Key : Type w} [LinearOrder Group] [LinearOrder Key]

def GroupSorted (group : Row → Group) (key : Row → Key) (rows : List Row) : Prop :=
  rows.Pairwise fun left right =>
    group left < group right ∨ (group left = group right ∧ key right < key left)

namespace GroupSorted

variable {group : Row → Group} {key : Row → Key}

theorem sublist {kept : List Row} (sorted : GroupSorted group key rows)
    (subset : kept.Sublist rows) : GroupSorted group key kept :=
  List.Pairwise.sublist subset sorted

theorem group_le (sorted : GroupSorted group key (row :: rows)) (mem : later ∈ rows) :
    group row ≤ group later := by
  rcases (pairwise_cons.mp sorted).1 later mem with less | ⟨eq, _⟩
  · exact less.le
  · exact eq.le

theorem key_lt (sorted : GroupSorted group key (row :: rows)) (mem : later ∈ rows)
    (sameGroup : group later = group row) : key later < key row := by
  rcases (pairwise_cons.mp sorted).1 later mem with less | ⟨_, newer⟩
  · exact absurd sameGroup less.ne'
  · exact newer

end GroupSorted

def groupedKey (group : Row → Group) (key : Row → Key) (row : Row) : Group ×ₗ Keyᵒᵈ :=
  toLex (group row, OrderDual.toDual (key row))

def inKeyOrder (group : Row → Group) (key : Row → Key) (rows : List Row) : List Row :=
  rows.insertionSort fun left right => groupedKey group key left ≤ groupedKey group key right

section

variable {group : Row → Group} {key : Row → Key} {rows : List Row}

theorem inKeyOrder_perm (group : Row → Group) (key : Row → Key) (rows : List Row) :
    (inKeyOrder group key rows).Perm rows :=
  perm_insertionSort _ _

@[simp] theorem mem_inKeyOrder : row ∈ inKeyOrder group key rows ↔ row ∈ rows :=
  (inKeyOrder_perm group key rows).mem_iff

theorem inKeyOrder_sorted (distinct : (rows.map key).Nodup) :
    GroupSorted group key (inKeyOrder group key rows) := by
  have sorted : (inKeyOrder group key rows).Pairwise fun left right =>
      groupedKey group key left ≤ groupedKey group key right :=
    pairwise_insertionSort _ _
  have ne : (inKeyOrder group key rows).Pairwise fun left right => key left ≠ key right :=
    pairwise_map.mp (((inKeyOrder_perm group key rows).map key).nodup_iff.mpr distinct)
  refine (sorted.and ne).imp ?_
  intro left right ⟨below, unequal⟩
  rcases Prod.Lex.toLex_le_toLex.mp below with less | ⟨sameGroup, newer⟩
  · exact .inl less
  · exact .inr ⟨sameGroup, lt_of_le_of_ne newer unequal.symm⟩

end

variable {key : Row → Key}

theorem eq_of_strictly_sorted {left right : List Row}
    (leftSorted : left.Pairwise fun first second => key first < key second)
    (rightSorted : right.Pairwise fun first second => key first < key second)
    (same : ∀ row, row ∈ left ↔ row ∈ right) : left = right := by
  have : Std.Irrefl fun first second : Row => key first < key second :=
    ⟨fun row => lt_irrefl (key row)⟩
  have : Std.Antisymm fun first second : Row => key first < key second :=
    ⟨fun _ _ less greater => absurd greater less.asymm⟩
  exact leftSorted.eq_of_mem_iff rightSorted same

def firstSelected (select : Row → Bool) (group : Row → Group) : Option Group → List Row → List Row
  | _, [] => []
  | taken, row :: rest =>
    if taken = some (group row) ∨ select row = false then
      firstSelected select group taken rest
    else row :: firstSelected select group (some (group row)) rest

theorem firstSelected_sublist (select : Row → Bool) (group : Row → Group) (rows : List Row) :
    ∀ taken, (firstSelected select group taken rows).Sublist rows := by
  induction rows with
  | nil => intro taken; exact .slnil
  | cons row rest induction =>
    intro taken
    rw [firstSelected]
    split
    · exact .cons row (induction taken)
    · exact .cons_cons row (induction _)

variable {select : Row → Bool} {group : Row → Group}

theorem mem_firstSelected : ∀ {taken : Option Group}, GroupSorted group key rows →
      (∀ last, taken = some last → ∀ row ∈ rows, last ≤ group row) →
      ∀ row, row ∈ firstSelected select group taken rows ↔
        row ∈ rows ∧ select row = true ∧ taken ≠ some (group row) ∧
          ∀ other ∈ rows, group other = group row → select other = true → key other ≤ key row := by
  induction rows with
  | nil => simp [firstSelected]
  | cons first rest induction =>
    intro taken sorted passed row
    have restSorted : GroupSorted group key rest := (pairwise_cons.mp sorted).2
    rw [firstSelected]
    split
    · -- The first row is skipped: its group is taken, or it is not selected.
      rename_i skipped
      rw [induction restSorted fun last isLast later mem =>
        passed last isLast later (mem_cons_of_mem _ mem)]
      constructor
      · intro ⟨mem, selected, untaken, newest⟩
        refine ⟨mem_cons_of_mem _ mem, selected, untaken, ?_⟩
        intro other otherMem sameGroup otherSelected
        rcases mem_cons.mp otherMem with eq | otherMem
        · rcases skipped with isTaken | unselected
          · rw [← eq, sameGroup] at isTaken
            exact absurd isTaken untaken
          · rw [eq, unselected] at otherSelected
            cases otherSelected
        · exact newest other otherMem sameGroup otherSelected
      · intro ⟨mem, selected, untaken, newest⟩
        rcases mem_cons.mp mem with eq | mem
        · rcases skipped with isTaken | unselected
          · exact absurd (eq ▸ isTaken) untaken
          · rw [eq, unselected] at selected
            cases selected
        · exact ⟨mem, selected, untaken, fun other otherMem =>
            newest other (mem_cons_of_mem _ otherMem)⟩
    · rename_i taking
      rw [not_or, Bool.not_eq_false] at taking
      rw [mem_cons, induction restSorted fun last isLast later mem =>
        Option.some.inj isLast ▸ sorted.group_le mem]
      constructor
      · intro found
        rcases found with eq | ⟨mem, selected, otherGroup, newest⟩
        · subst eq
          refine ⟨mem_cons_self, taking.2, taking.1, ?_⟩
          intro other otherMem sameGroup _
          rcases mem_cons.mp otherMem with eq | otherMem
          · rw [eq]
          · exact (sorted.key_lt otherMem sameGroup).le
        · refine ⟨mem_cons_of_mem _ mem, selected, ?_, ?_⟩
          · intro isTaken
            -- A taken group lies before the first row's group.
            have back := passed (group row) isTaken first mem_cons_self
            exact otherGroup (congrArg some (le_antisymm (sorted.group_le mem) back))
          · intro other otherMem sameGroup otherSelected
            rcases mem_cons.mp otherMem with eq | otherMem
            · exact absurd (congrArg some (eq ▸ sameGroup)) otherGroup
            · exact newest other otherMem sameGroup otherSelected
      · intro ⟨mem, selected, untaken, newest⟩
        rcases mem_cons.mp mem with eq | mem
        · exact .inl eq
        · refine .inr ⟨mem, selected, ?_, fun other otherMem =>
            newest other (mem_cons_of_mem _ otherMem)⟩
          intro sameGroup
          have less := sorted.key_lt mem (Option.some.inj sameGroup).symm
          exact absurd (newest first mem_cons_self (Option.some.inj sameGroup) taking.2)
            (not_le.mpr less)

theorem firstSelected_past {isPast : Row → Bool}
    (past : ∀ row, isPast row = true ↔ group row ≠ taken) (sorted : GroupSorted group key rows)
    (passed : ∀ row ∈ rows, taken ≤ group row) : firstSelected select group (some taken) rows =
      firstSelected select group none (rows.filter isPast) := by
  induction rows with
  | nil => rfl
  | cons row rest induction =>
    have restSorted : GroupSorted group key rest := (pairwise_cons.mp sorted).2
    have restPassed : ∀ later ∈ rest, taken ≤ group later := fun later mem =>
      passed later (mem_cons_of_mem _ mem)
    by_cases isTaken : group row = taken
    · rw [firstSelected, if_pos (.inl (by rw [isTaken])), induction restSorted restPassed,
        filter_cons_of_neg (by simp [past, isTaken])]
    · rw [filter_cons_of_pos ((past row).mpr isTaken), firstSelected, firstSelected]
      have untaken : some taken ≠ some (group row) := fun same =>
        isTaken (Option.some.inj same).symm
      by_cases selected : select row = true
      · -- Past the row, no group is the taken one.
        have later : ∀ other ∈ rest, group other ≠ taken := by
          intro other mem same
          have before := passed row mem_cons_self
          exact isTaken (le_antisymm (same ▸ sorted.group_le mem) before)
        rw [if_neg (by simp [untaken, selected]), if_neg (by simp [selected]),
          filter_eq_self.mpr fun other mem => (past other).mpr (later other mem)]
      · rw [if_pos (.inr (by simpa using selected)), if_pos (.inr (by simpa using selected))]
        exact induction restSorted restPassed

theorem firstSelected_pairwise (sorted : GroupSorted group key rows)
    (passed : ∀ last, taken = some last → ∀ row ∈ rows, last ≤ group row) :
    (firstSelected select group taken rows).Pairwise fun left right =>
      group left < group right := by
  have subset := firstSelected_sublist select group rows taken
  apply List.Pairwise.imp_of_mem _ (sorted.sublist subset)
  intro left right leftMem rightMem ordered
  rcases ordered with less | ⟨sameGroup, older⟩
  · exact less
  · have leftTaken := (mem_firstSelected sorted passed left).mp leftMem
    have rightTaken := (mem_firstSelected sorted passed right).mp rightMem
    have newest := rightTaken.2.2.2 left leftTaken.1 sameGroup leftTaken.2.1
    exact absurd newest (not_le.mpr older)

end LoonFs.Foundation
