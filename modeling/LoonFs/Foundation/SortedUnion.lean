import Mathlib.Data.List.Sort

/-! # Ordered lists and their union -/

namespace LoonFs.Foundation

open List

variable {Row : Type u} {Key : Type v} [LinearOrder Key] (key : Row → Key)

def Ordered (rows : List Row) : Prop := rows.Pairwise fun left right => key left < key right

def atOrAfter (bound : Key) (rows : List Row) : List Row :=
  rows.filter fun row => decide (bound ≤ key row)

def InUnion (first second : List Row) (row : Row) : Prop :=
  row ∈ first ∨ row ∈ second ∧ ∀ other ∈ first, key other ≠ key row

structure IsUnion (first second : List Row) (last : Option Key) (union : List Row) : Prop where
  ordered : Ordered key union
  mem : ∀ row, row ∈ union ↔ InUnion key first second row ∧ last ≠ some (key row)

inductive CursorCall (Key : Type v) where
  | next
  | seek (lowerBound : Key)
deriving Repr, DecidableEq

def cursorRows : List Row → List (CursorCall Key) → List (Option Row)
  | _, [] => []
  | rows, .next :: calls => rows.head? :: cursorRows rows.tail calls
  | rows, .seek lowerBound :: calls => cursorRows (atOrAfter key lowerBound rows) calls

variable {key}

variable {rows : List Row}

@[simp] theorem mem_atOrAfter : row ∈ atOrAfter key bound rows ↔ row ∈ rows ∧ bound ≤ key row := by
  simp [atOrAfter]

theorem atOrAfter_append (bound : Key) (left right : List Row) :
    atOrAfter key bound (left ++ right) = atOrAfter key bound left ++ atOrAfter key bound right :=
  filter_append ..

theorem Ordered.tail (ordered : Ordered key (row :: rows)) : Ordered key rows :=
  (pairwise_cons.mp ordered).2

theorem Ordered.head_lt (ordered : Ordered key (row :: rows)) (mem : other ∈ rows) :
    key row < key other :=
  (pairwise_cons.mp ordered).1 other mem

theorem Ordered.of_head (ordered : Ordered key rows) {holds : Key → Prop}
    (upward : ∀ {left right}, left < right → holds left → holds right)
    (head : ∀ row ∈ rows.head?, holds (key row)) : ∀ row ∈ rows, holds (key row) := by
  intro row mem
  cases rows with
  | nil => cases mem
  | cons first rows =>
    have atFirst := head first rfl
    rcases mem_cons.mp mem with same | later
    · rw [same]
      exact atFirst
    · exact upward (ordered.head_lt later) atFirst

theorem Ordered.atOrAfter (ordered : Ordered key rows) (bound : Key) :
    Ordered key (atOrAfter key bound rows) :=
  List.Pairwise.filter _ ordered

theorem atOrAfter_eq_self (reached : ∀ row ∈ rows, bound ≤ key row) :
    atOrAfter key bound rows = rows := by
  apply filter_eq_self.mpr
  intro row mem
  exact decide_eq_true (reached row mem)

theorem atOrAfter_eq_nil (below : ∀ row ∈ rows, key row < bound) :
    atOrAfter key bound rows = [] := by
  apply filter_eq_nil_iff.mpr
  intro row mem
  rw [decide_eq_true_eq]
  exact not_le.mpr (below row mem)

theorem atOrAfter_atOrAfter (le : bound ≤ new) (rows : List Row) :
    atOrAfter key new (atOrAfter key bound rows) = atOrAfter key new rows := by
  rw [atOrAfter, atOrAfter, filter_filter]
  apply filter_congr
  intro row _
  by_cases reached : new ≤ key row
  · simp [reached, le.trans reached]
  · simp [reached]

theorem Ordered.dropWhile (ordered : Ordered key rows) {below : Row → Bool}
    (isBelow : ∀ row, below row = true ↔ key row < bound) :
    rows.dropWhile below = Foundation.atOrAfter key bound rows := by
  induction rows with
  | nil => rfl
  | cons row rows induction =>
    by_cases less : key row < bound
    · rw [dropWhile_cons_of_pos ((isBelow row).mpr less), induction ordered.tail]
      simp [Foundation.atOrAfter, not_le.mpr less]
    · rw [dropWhile_cons_of_neg fun drops => less ((isBelow row).mp drops)]
      symm
      apply atOrAfter_eq_self
      intro other mem
      rcases mem_cons.mp mem with same | later
      · rw [same]
        exact not_lt.mp less
      · exact (not_lt.mp less).trans (ordered.head_lt later).le

theorem Ordered.afterPage (ordered : Ordered key (page ++ rest))
    (isLast : page.getLast? = some last) (past : key last < bound)
    (new : ∀ other : Key, key last < other → bound ≤ other) :
    Foundation.atOrAfter key bound (page ++ rest) = rest := by
  obtain ⟨before, isPage⟩ := List.getLast?_eq_some_iff.mp isLast
  obtain ⟨pageOrdered, _, crossing⟩ := pairwise_append.mp ordered
  have read : Foundation.atOrAfter key bound page = [] := by
    apply atOrAfter_eq_nil
    intro row mem
    rw [isPage] at mem pageOrdered
    rcases mem_append.mp mem with earlier | same
    · have less := (pairwise_append.mp pageOrdered).2.2 row earlier last (by simp)
      exact less.trans past
    · rw [mem_singleton.mp same]
      exact past
  have unread : Foundation.atOrAfter key bound rest = rest := by
    apply atOrAfter_eq_self
    intro row mem
    exact new (key row) (crossing last (mem_of_getLast? isLast) row mem)
  rw [atOrAfter_append, read, unread, nil_append]

theorem exists_ordered (distinct : rows.Pairwise fun left right => key left ≠ key right) :
    ∃ sorted, Ordered key sorted ∧ ∀ row, row ∈ sorted ↔ row ∈ rows := by
  let sorted := rows.insertionSort fun left right => key left ≤ key right
  have inOrder : sorted.Pairwise fun left right => key left ≤ key right :=
    pairwise_insertionSort _ _
  have apart : sorted.Pairwise fun left right => key left ≠ key right :=
    ((perm_insertionSort _ rows).pairwise_iff fun apart => apart.symm).mpr distinct
  exact ⟨sorted, (inOrder.and apart).imp fun less => lt_of_le_of_ne less.1 less.2,
    fun row => mem_insertionSort _⟩

theorem Ordered.ext (leftOrdered : Ordered key left) (rightOrdered : Ordered key right)
    (mem : ∀ row, row ∈ left ↔ row ∈ right) : left = right := by
  have distinct {rows : List Row} (ordered : Ordered key rows) : rows.Nodup :=
    List.Pairwise.imp (fun less same => less.ne (congrArg key same)) ordered
  have perm := (perm_ext_iff_of_nodup (distinct leftOrdered) (distinct rightOrdered)).mpr mem
  apply perm.eq_of_pairwise _ leftOrdered rightOrdered
  intro first second _ _ less more
  exact absurd less (lt_asymm more)

theorem Ordered.eq_append (ordered : Ordered key rows) (firstOrdered : Ordered key first)
    (inRows : ∀ row ∈ first, row ∈ rows)
    (before : ∀ row ∈ rows, row ∈ first ∨ ∀ other ∈ first, key other < key row) :
    ∃ rest, rows = first ++ rest := by
  classical
  refine ⟨rows.filter fun row => decide (row ∉ first), ?_⟩
  apply ordered.ext
  · apply pairwise_append.mpr
    refine ⟨firstOrdered, List.Pairwise.filter _ ordered, ?_⟩
    intro row isFirst other mem
    rw [mem_filter, decide_eq_true_eq] at mem
    rcases before other mem.1 with inFirst | past
    · exact absurd inFirst mem.2
    · exact past row isFirst
  · intro row
    rw [mem_append, mem_filter, decide_eq_true_eq]
    constructor
    · intro mem
      by_cases isFirst : row ∈ first
      · exact .inl isFirst
      · exact .inr ⟨mem, isFirst⟩
    · rintro (isFirst | ⟨mem, _⟩)
      · exact inRows row isFirst
      · exact mem

omit [LinearOrder Key] in
theorem inUnion_of_first (ne : key other ≠ key row) :
    InUnion key first second other ↔ InUnion key (row :: first) second other := by
  have apart : other ≠ row := fun same => ne (congrArg key same)
  simp [InUnion, mem_cons, Ne.symm ne, apart]

omit [LinearOrder Key] in
theorem inUnion_of_second (ne : key other ≠ key row) :
    InUnion key first second other ↔ InUnion key first (row :: second) other := by
  have apart : other ≠ row := fun same => ne (congrArg key same)
  simp [InUnion, mem_cons, apart]

section

theorem exists_isUnion (firstOrdered : Ordered key first) (secondOrdered : Ordered key second) :
    ∃ union, IsUnion key first second none union := by
  let rows := first ++ second.filter fun row => decide (∀ other ∈ first, key other ≠ key row)
  have mem (row : Row) : row ∈ rows ↔ InUnion key first second row := by simp [rows, InUnion]
  have distinct : rows.Pairwise fun left right => key left ≠ key right := by
    apply pairwise_append.mpr
    refine ⟨firstOrdered.imp fun less => ne_of_lt less,
      (secondOrdered.filter _).imp fun less => ne_of_lt less, ?_⟩
    intro left leftMem right rightMem
    rw [mem_filter, decide_eq_true_eq] at rightMem
    exact rightMem.2 left leftMem
  obtain ⟨union, ordered, same⟩ := exists_ordered distinct
  refine ⟨union, ordered, ?_⟩
  intro row
  rw [same, mem]
  simp

namespace IsUnion

theorem pop (isUnion : IsUnion key first second last union) (inUnion : InUnion key first second row)
    (least : ∀ other, InUnion key first second other → key row ≤ key other)
    (notBefore : ∀ lastKey, last = some lastKey → lastKey ≤ key row)
    (kept : ∀ other, key other ≠ key row → (InUnion key first' second' other ↔
      InUnion key first second other)) :
    (last = some (key row) → IsUnion key first' second' last union) ∧ (last ≠ some (key row) →
        ∃ rest, union = row :: rest ∧ IsUnion key first' second' (some (key row)) rest) := by
  constructor
  · intro repeated
    refine ⟨isUnion.ordered, ?_⟩
    intro other
    rw [isUnion.mem, repeated]
    apply and_congr_left
    intro different
    exact (kept other fun same => different (congrArg some same.symm)).symm
  · intro repeated
    have isMember : row ∈ union := (isUnion.mem row).mpr ⟨inUnion, repeated⟩
    cases union with
    | nil => cases isMember
    | cons head rest =>
      have headIn := (isUnion.mem head).mp mem_cons_self
      have isHead : head = row := by
        rcases mem_cons.mp isMember with same | later
        · exact same.symm
        · have less := isUnion.ordered.head_lt later
          exact absurd (least head headIn.1) (not_le.mpr less)
      subst isHead
      refine ⟨rest, rfl, isUnion.ordered.tail, ?_⟩
      intro other
      constructor
      · intro later
        have less := isUnion.ordered.head_lt later
        have otherIn := (isUnion.mem other).mp (mem_cons_of_mem _ later)
        refine ⟨(kept other less.ne').mpr otherIn.1, ?_⟩
        intro same
        exact less.ne (Option.some.inj same)
      · intro ⟨otherIn, different⟩
        have apart : key other ≠ key head := fun same => different (congrArg some same.symm)
        have original := (kept other apart).mp otherIn
        have notLast : last ≠ some (key other) := by
          intro same
          have le := notBefore _ same
          exact apart (le_antisymm le (least other original))
        have member := (isUnion.mem other).mpr ⟨original, notLast⟩
        rcases mem_cons.mp member with same | later
        · exact absurd (congrArg key same) apart
        · exact later

theorem popFirst (isUnion : IsUnion key (row :: first) second last union)
    (ordered : Ordered key (row :: first)) (least : ∀ other ∈ second, key row ≤ key other)
    (notBefore : ∀ lastKey, last = some lastKey → lastKey ≤ key row) :
    (last = some (key row) → IsUnion key first second last union) ∧ (last ≠ some (key row) →
        ∃ rest, union = row :: rest ∧ IsUnion key first second (some (key row)) rest) := by
  apply isUnion.pop (.inl mem_cons_self) _ notBefore fun other => inUnion_of_first
  intro other inUnion
  rcases inUnion with inFirst | ⟨inSecond, _⟩
  · rcases mem_cons.mp inFirst with same | later
    · rw [same]
    · exact (ordered.head_lt later).le
  · exact least other inSecond

theorem popSecond (isUnion : IsUnion key first (row :: second) last union)
    (ordered : Ordered key (row :: second)) (least : ∀ other ∈ first, key row < key other)
    (notBefore : ∀ lastKey, last = some lastKey → lastKey ≤ key row) :
    (last = some (key row) → IsUnion key first second last union) ∧ (last ≠ some (key row) →
        ∃ rest, union = row :: rest ∧ IsUnion key first second (some (key row)) rest) := by
  have inUnion : InUnion key first (row :: second) row :=
    .inr ⟨mem_cons_self, fun other mem => (least other mem).ne'⟩
  apply isUnion.pop inUnion _ notBefore fun other => inUnion_of_second
  intro other inUnion
  rcases inUnion with inFirst | ⟨inSecond, _⟩
  · exact (least other inFirst).le
  · rcases mem_cons.mp inSecond with same | later
    · rw [same]
    · exact (ordered.head_lt later).le

theorem nil_of_nil (isUnion : IsUnion key ([] : List Row) [] last union) : union = [] := by
  apply eq_nil_iff_forall_not_mem.mpr
  intro row member
  have inUnion := ((isUnion.mem row).mp member).1
  simp [InUnion] at inUnion

theorem atOrAfter (isUnion : IsUnion key first second last union) (bound : Key) :
    IsUnion key (atOrAfter key bound first) (Foundation.atOrAfter key bound second) last
      (Foundation.atOrAfter key bound union) := by
  refine ⟨isUnion.ordered.atOrAfter bound, ?_⟩
  intro row
  simp only [mem_atOrAfter, isUnion.mem, InUnion]
  constructor
  · intro ⟨⟨inUnion, ne⟩, reached⟩
    refine ⟨?_, ne⟩
    rcases inUnion with inFirst | ⟨inSecond, free⟩
    · exact .inl ⟨inFirst, reached⟩
    · exact .inr ⟨⟨inSecond, reached⟩, fun other member => free other member.1⟩
  · intro ⟨inUnion, ne⟩
    rcases inUnion with ⟨inFirst, reached⟩ | ⟨⟨inSecond, reached⟩, free⟩
    · exact ⟨⟨.inl inFirst, ne⟩, reached⟩
    · refine ⟨⟨.inr ⟨inSecond, ?_⟩, ne⟩, reached⟩
      intro other member same
      exact free other ⟨member, same ▸ reached⟩ same

end IsUnion

end

end LoonFs.Foundation
