import LoonFs.Compaction.Locality
import LoonFs.Compaction.RunIterator

/-! # Merging the rows of several runs -/

namespace LoonFs

open Foundation List Option RunRowIterator

abbrev MergedRow (SortKey Row : Type) := SortKey × String × Row

section

variable {SortKey Row : Type} [LinearOrder SortKey] (locality : SortKey → String → Bytes)

/-- Locality first, so that a group's rows arrive together, then family, then key. -/
def mergeKey (sortKey : SortKey) (row : String × Row) : Bytes ×ₗ SortKey ×ₗ Bytes :=
  toLex (locality sortKey row.1, toLex (sortKey, scanKey row))

theorem mergeKey_le_iff : mergeKey locality leftSort left ≤ mergeKey locality rightSort right ↔
      locality leftSort left.1 < locality rightSort right.1 ∨
      locality leftSort left.1 = locality rightSort right.1 ∧
        (leftSort < rightSort ∨ leftSort = rightSort ∧ scanKey left ≤ scanKey right) := by
  rw [mergeKey, mergeKey, Prod.Lex.toLex_le_toLex, Prod.Lex.toLex_le_toLex]

def RunRowIterator.refillIterators (loader : BlockLoader) (maxDecodedInputBytes : Nat)
    (iterators : List (RunRowIterator SortKey Row)) :
    Except CoreError (List (RunRowIterator SortKey Row)) :=
  let maxDecodedBytes := maxDecodedInputBytes / max iterators.length 1
  iterators.mapM fun iterator =>
    if iterator.needsFill then iterator.fill loader maxDecodedBytes (iterator.work + 1)
    else .ok iterator

def selectFrom : Nat → Option (Nat × (Bytes ×ₗ SortKey ×ₗ Bytes)) →
    List (RunRowIterator SortKey Row) → Option (Nat × (Bytes ×ₗ SortKey ×ₗ Bytes))
  | _, best, [] => best
  | position, best, iterator :: iterators =>
    match iterator.head with
    | none => selectFrom (position + 1) best iterators
    | some row =>
      let candidate := mergeKey locality iterator.sortKey row
      let take := best.all fun best => decide (candidate < best.2)
      selectFrom (position + 1) (if take then some (position, candidate) else best) iterators

def selectNextIterator (iterators : List (RunRowIterator SortKey Row)) : Option Nat :=
  (selectFrom locality 0 none iterators).map Prod.fst

def mergeRows (schedule : Nat → BlockLoader × Nat) :
    Nat → Nat → List (RunRowIterator SortKey Row) →
    Except CoreError (List (MergedRow SortKey Row))
  | 0, _, _ => .error .unfinished
  | fuel + 1, turn, iterators => do
      let iterators ← RunRowIterator.refillIterators (schedule turn).1 (schedule turn).2 iterators
      match selectNextIterator locality iterators with
      | none => return []
      | some next =>
        match iterators[next]?.bind fun iterator => iterator.head.map (iterator, ·) with
        | none => .error (.namespaceCorrupt "the selected iterator should have a row")
        | some (iterator, row) =>
          let rest ← mergeRows schedule fuel (turn + 1) (iterators.set next iterator.takeHead)
          return (iterator.sortKey, row) :: rest

def drainRun (schedule : Nat → BlockLoader × Nat) :
    Nat → Nat → RunRowIterator SortKey Row → Except CoreError (List (String × Row))
  | 0, _, _ => .error .unfinished
  | fuel + 1, turn, iterator => do
      let iterators ← RunRowIterator.refillIterators (schedule turn).1 (schedule turn).2 [iterator]
      match iterators with
      | [iterator] =>
        match iterator.head with
        | none => return []
        | some row => return row :: (← drainRun schedule fuel (turn + 1) iterator.takeHead)
      | _ => .error .unfinished

/-! ## Refills -/

open RunRowIterator

structure Refilled (iterator next : RunRowIterator SortKey Row) : Prop where
  continues : iterator.Continues next
  ended : next.blocks = [] → next.unread = []

omit [LinearOrder SortKey] in
theorem RunRowIterator.Valid.refill {iterator : RunRowIterator SortKey Row}
    (valid : iterator.Valid) (loader : BlockLoader) (maxDecodedBytes : Nat) :
    ∃ moved, (if iterator.needsFill then iterator.fill loader maxDecodedBytes (iterator.work + 1)
      else .ok iterator) = .ok moved ∧ Refilled iterator moved := by
  split
  · rcases valid.fill loader maxDecodedBytes (Nat.lt_succ_self _) with
      ⟨moved, filled, continues, ended⟩
    exact ⟨moved, filled, continues, ended⟩
  · rename_i noFill
    refine ⟨iterator, rfl, ⟨valid, rfl, rfl⟩, ?_⟩
    intro noBlocks
    have exhausted : iterator.isExhausted = true := by simpa [needsFill, noBlocks] using noFill
    simp only [isExhausted, noBlocks, isEmpty_nil, Bool.true_and, Bool.and_eq_true,
      decide_eq_true_eq] at exhausted
    have noPending : iterator.pending = [] := by
      rw [pending, drop_eq_nil_of_le exhausted.1]
      cases isIndex : iterator.index with
      | none => rfl
      | some index =>
        rw [isIndex, all_some, decide_eq_true_eq] at exhausted
        simp [drop_eq_nil_of_le exhausted.2]
    rw [unread, noBlocks, noPending]
    rfl

omit [LinearOrder SortKey] in
theorem RunRowIterator.refillIterators_spec (loader : BlockLoader) (maxDecodedInputBytes : Nat)
    {iterators : List (RunRowIterator SortKey Row)}
    (valid : ∀ iterator ∈ iterators, iterator.Valid) :
    ∃ refilled,
      RunRowIterator.refillIterators loader maxDecodedInputBytes iterators = .ok refilled ∧
      List.Forall₂ Refilled iterators refilled := by
  rw [RunRowIterator.refillIterators]
  generalize maxDecodedInputBytes / max iterators.length 1 = maxDecodedBytes
  induction iterators with
  | nil => exact ⟨[], rfl, .nil⟩
  | cons iterator iterators induction =>
    rcases (valid iterator mem_cons_self).refill loader maxDecodedBytes with
      ⟨moved, filled, refilled⟩
    rcases induction fun other mem => valid other (mem_cons_of_mem _ mem) with
      ⟨rest, restFilled, restRefilled⟩
    refine ⟨moved :: rest, ?_, .cons refilled restRefilled⟩
    rw [mapM_cons, filled, restFilled]
    rfl

/-! ## The head that sorts first -/

def headKey (iterator : RunRowIterator SortKey Row) : Option (Bytes ×ₗ SortKey ×ₗ Bytes) :=
  iterator.head.map (mergeKey locality iterator.sortKey)

variable {iterators : List (RunRowIterator SortKey Row)}

theorem selectFrom_spec :
    ∀ {position : Nat} {best : Option (Nat × (Bytes ×ₗ SortKey ×ₗ Bytes))},
      match selectFrom locality position best iterators with
      | none => best = none ∧ ∀ iterator ∈ iterators, headKey locality iterator = none
      | some (chosen, key) =>
        (best = some (chosen, key) ∨ ∃ offset iterator, chosen = position + offset ∧
          iterators[offset]? = some iterator ∧ headKey locality iterator = some key) ∧
        (∀ other ∈ best, key ≤ other.2) ∧
        ∀ iterator ∈ iterators, ∀ other ∈ headKey locality iterator, key ≤ other := by
  induction iterators with
  | nil =>
    intro position best
    rw [selectFrom]
    cases best with
    | none => simp
    | some best => simp
  | cons iterator iterators induction =>
    intro position best
    rw [selectFrom]
    cases isHead : iterator.head with
    | none =>
      have noKey : headKey locality iterator = none := by rw [headKey, isHead]; rfl
      have rest := @induction (position + 1) best
      dsimp only
      cases found : selectFrom locality (position + 1) best iterators with
      | none =>
        rw [found] at rest
        exact ⟨rest.1, by simpa [noKey] using rest.2⟩
      | some chosen =>
        rw [found] at rest
        refine ⟨?_, rest.2.1, ?_⟩
        · refine rest.1.imp id ?_
          rintro ⟨offset, other, isChosen, isOther, key⟩
          exact ⟨offset + 1, other, by omega, isOther, key⟩
        · simpa [noKey] using rest.2.2
    | some row =>
      have isKey : headKey locality iterator =
          some (mergeKey locality iterator.sortKey row) := by rw [headKey, isHead]; rfl
      dsimp only
      generalize mergeKey locality iterator.sortKey row = candidate at isKey ⊢
      generalize isNext : (if (best.all fun best => decide (candidate < best.2)) = true
        then some (position, candidate) else best) = moved
      have improves : ∃ better, moved = some better ∧ better.2 ≤ candidate ∧
          (∀ other ∈ best, better.2 ≤ other.2) ∧
          (best = some better ∨ better = (position, candidate)) := by
        subst isNext
        cases best with
        | none => exact ⟨_, rfl, le_refl _, by simp, .inr rfl⟩
        | some best =>
          by_cases less : candidate < best.2
          · refine ⟨(position, candidate), by simp [less], le_refl _, ?_, .inr rfl⟩
            rintro _ ⟨⟩
            exact less.le
          · refine ⟨best, by simp [less], not_lt.mp less, ?_, .inl rfl⟩
            rintro _ ⟨⟩
            exact le_refl _
      rcases improves with ⟨better, rfl, leCandidate, leBest, isBetter⟩
      have rest := @induction (position + 1) (some better)
      cases found : selectFrom locality (position + 1) (some better) iterators with
      | none =>
        rw [found] at rest
        cases rest.1
      | some chosen =>
        rw [found] at rest
        rcases rest with ⟨isChosen, leBetter, leRest⟩
        have least := leBetter better rfl
        refine ⟨?_, fun other mem => least.trans (leBest other mem), ?_⟩
        · rcases isChosen with same | ⟨offset, other, isOffset, isOther, key⟩
          · cases same
            refine isBetter.imp id ?_
            rintro ⟨⟩
            exact ⟨0, iterator, rfl, rfl, isKey⟩
          · exact .inr ⟨offset + 1, other, by omega, isOther, key⟩
        · intro other mem
          rcases mem_cons.mp mem with same | mem
          · rw [same, isKey]
            rintro _ ⟨⟩
            exact least.trans leCandidate
          · exact leRest other mem

theorem selectNextIterator_eq_none (nothing : selectNextIterator locality iterators = none) :
    ∀ iterator ∈ iterators, iterator.head = none := by
  rw [selectNextIterator, map_eq_none_iff] at nothing
  have spec := @selectFrom_spec _ _ _ locality iterators 0 none
  rw [nothing] at spec
  intro iterator mem
  exact map_eq_none_iff.mp (spec.2 iterator mem)

theorem selectNextIterator_eq_some (found : selectNextIterator locality iterators = some position) :
    ∃ iterator row, iterators[position]? = some iterator ∧ iterator.head = some row ∧
      ∀ other ∈ iterators, ∀ head, other.head = some head →
        mergeKey locality iterator.sortKey row ≤ mergeKey locality other.sortKey head := by
  rw [selectNextIterator, map_eq_some_iff] at found
  rcases found with ⟨chosen, found, rfl⟩
  have spec := @selectFrom_spec _ _ _ locality iterators 0 none
  rw [found] at spec
  rcases spec with ⟨isChosen, _, least⟩
  rcases isChosen with absent | ⟨offset, iterator, isOffset, isIterator, key⟩
  · cases absent
  rcases map_eq_some_iff.mp key with ⟨row, isHead, isKey⟩
  refine ⟨iterator, row, by rwa [isOffset, Nat.zero_add], isHead, ?_⟩
  intro other mem head otherHead
  rw [isKey]
  exact least other mem _ (by rw [headKey, otherHead]; rfl)

/-! ## The merged rows -/

def unreadRows (iterators : List (RunRowIterator SortKey Row)) : List (MergedRow SortKey Row) :=
  iterators.flatMap fun iterator => iterator.unread.map (iterator.sortKey, ·)

def Graded (iterators : List (RunRowIterator SortKey Row)) : Prop :=
  ∀ iterator ∈ iterators, iterator.unread.Pairwise fun left right =>
    mergeKey locality iterator.sortKey left ≤ mergeKey locality iterator.sortKey right

omit [LinearOrder SortKey] in
theorem unreadRows_refilled (refills : List.Forall₂ Refilled iterators refilled) :
    unreadRows refilled = unreadRows iterators := by
  induction refills with
  | nil => rfl
  | cons refill _ induction =>
    rw [unreadRows, flatMap_cons, refill.continues.unread, refill.continues.sortKey]
    exact congrArg _ induction

omit [LinearOrder SortKey] in
theorem refilled_of_mem (refills : List.Forall₂ Refilled iterators refilled)
    (mem : moved ∈ refilled) : ∃ iterator ∈ iterators, Refilled iterator moved := by
  induction refills with
  | nil => cases mem
  | @cons iterator other _ _ refill _ induction =>
    rcases mem_cons.mp mem with same | mem
    · exact ⟨iterator, mem_cons_self, same ▸ refill⟩
    · rcases induction mem with ⟨iterator, isIterator, refilled⟩
      exact ⟨iterator, mem_cons_of_mem _ isIterator, refilled⟩

omit [LinearOrder SortKey] in
theorem Refilled.head (refilled : Refilled iterator moved) {row : String × Row}
    (mem : row ∈ moved.unread) :
    ∃ first, moved.head = some first ∧ moved.unread = first :: moved.takeHead.unread := by
  have someBlock : moved.blocks ≠ [] := by
    intro noBlocks
    rw [refilled.ended noBlocks] at mem
    cases mem
  rcases refilled.continues.valid.head_of_blocks someBlock with ⟨first, isHead⟩
  exact ⟨first, isHead, (refilled.continues.valid.takeHead isHead).1⟩

omit [LinearOrder SortKey] in
theorem unreadRows_set {moved : RunRowIterator SortKey Row} {row : String × Row}
    (isIterator : iterators[position]? = some iterator)
    (isUnread : iterator.unread = row :: moved.unread)
    (sameKey : moved.sortKey = iterator.sortKey) :
    (unreadRows iterators).Perm
      ((iterator.sortKey, row) :: unreadRows (iterators.set position moved)) := by
  rcases List.getElem?_eq_some_iff.mp isIterator with ⟨inBounds, isElement⟩
  have before : iterators =
      iterators.take position ++ iterator :: iterators.drop (position + 1) := by
    rw [← isElement, ← drop_eq_getElem_cons inBounds, take_append_drop]
  have after : iterators.set position moved =
      iterators.take position ++ moved :: iterators.drop (position + 1) := by
    rw [set_eq_take_append_cons_drop, if_pos inBounds]
  rw [after]
  conv_lhs => rw [before]
  simp only [unreadRows, flatMap_append, flatMap_cons, isUnread, sameKey, map_cons, cons_append]
  exact perm_middle

theorem mergeRows_spec (schedule : Nat → BlockLoader × Nat) {fuel : Nat} :
    ∀ {turn : Nat} {iterators : List (RunRowIterator SortKey Row)},
      (∀ iterator ∈ iterators, iterator.Valid) → Graded locality iterators →
      (unreadRows iterators).length < fuel →
      ∃ output, mergeRows locality schedule fuel turn iterators = .ok output ∧
        output.Perm (unreadRows iterators) ∧ output.Pairwise fun left right =>
          mergeKey locality left.1 left.2 ≤ mergeKey locality right.1 right.2 := by
  induction fuel with
  | zero => exact fun _ _ enough => absurd enough (Nat.not_lt_zero _)
  | succ fuel induction =>
    intro turn iterators valid graded enough
    rcases refillIterators_spec (schedule turn).1 (schedule turn).2 valid with
      ⟨refilled, refills, isRefilled⟩
    rw [← unreadRows_refilled isRefilled] at enough ⊢
    have refilledValid : ∀ moved ∈ refilled, moved.Valid := by
      intro moved member
      rcases refilled_of_mem isRefilled member with ⟨_, _, refill⟩
      exact refill.continues.valid
    have refilledGraded : Graded locality refilled := by
      intro moved member
      rcases refilled_of_mem isRefilled member with ⟨iterator, isIterator, refill⟩
      rw [refill.continues.unread, refill.continues.sortKey]
      exact graded iterator isIterator
    rw [mergeRows]
    cases selected : selectNextIterator locality refilled with
    | none =>
      have noHeads := selectNextIterator_eq_none locality selected
      have nothing : unreadRows refilled = [] := by
        rw [unreadRows, flatMap_eq_nil_iff]
        intro moved member
        rw [map_eq_nil_iff, eq_nil_iff_forall_not_mem]
        intro row isUnread
        rcases refilled_of_mem isRefilled member with ⟨_, _, refill⟩
        rcases refill.head isUnread with ⟨first, isHead, _⟩
        rw [noHeads moved member] at isHead
        cases isHead
      refine ⟨[], bind_eq_ok.mpr ⟨refilled, refills, ?_⟩, by rw [nothing], .nil⟩
      rw [selected]
      rfl
    | some position =>
      rcases selectNextIterator_eq_some locality selected with
        ⟨iterator, row, isIterator, isHead, least⟩
      have mem := mem_of_getElem? isIterator
      rcases (refilledValid iterator mem).takeHead isHead with ⟨isUnread, takenValid, takenKey⟩
      have taken := unreadRows_set isIterator isUnread takenKey
      have iteratorGraded := refilledGraded iterator mem
      rw [isUnread, pairwise_cons] at iteratorGraded
      have nextGraded : Graded locality (refilled.set position iterator.takeHead) := by
        intro moved member
        rcases mem_or_eq_of_mem_set member with member | rfl
        · exact refilledGraded moved member
        · rw [takenKey]
          exact iteratorGraded.2
      have nextValid : ∀ moved ∈ refilled.set position iterator.takeHead, moved.Valid := by
        intro moved member
        rcases mem_or_eq_of_mem_set member with member | rfl
        · exact refilledValid moved member
        · exact takenValid
      have shorter := taken.length_eq
      rw [length_cons] at shorter
      rcases @induction (turn + 1) _ nextValid nextGraded (by omega) with
        ⟨output, merged, perm, sorted⟩
      refine ⟨(iterator.sortKey, row) :: output, bind_eq_ok.mpr ⟨refilled, refills, ?_⟩,
        (perm.cons _).trans taken.symm, pairwise_cons.mpr ⟨?_, sorted⟩⟩
      · rw [selected]
        dsimp only
        rw [isIterator, bind_some, isHead, map_some]
        exact bind_eq_ok.mpr ⟨output, merged, rfl⟩
      · intro other member
        rcases mem_flatMap.mp (perm.mem_iff.mp member) with ⟨moved, isNext, isTagged⟩
        rcases mem_map.mp isTagged with ⟨otherRow, isOther, rfl⟩
        rcases mem_or_eq_of_mem_set isNext with isNext | rfl
        · rcases refilled_of_mem isRefilled isNext with ⟨_, _, refill⟩
          rcases refill.head isOther with ⟨first, isFirst, firstUnread⟩
          refine (least moved isNext first isFirst).trans ?_
          have nextOrdered := refilledGraded moved isNext
          rw [firstUnread] at isOther nextOrdered
          rcases mem_cons.mp isOther with rfl | later
          · exact le_refl _
          · exact (pairwise_cons.mp nextOrdered).1 otherRow later
        · rw [takenKey]
          exact iteratorGraded.1 otherRow isOther

omit [LinearOrder SortKey] in
theorem drainRun_spec (schedule : Nat → BlockLoader × Nat) {fuel : Nat} :
    ∀ {turn : Nat} {iterator : RunRowIterator SortKey Row}, iterator.Valid →
      iterator.unread.length < fuel →
      drainRun schedule fuel turn iterator = .ok iterator.unread := by
  induction fuel with
  | zero => exact fun _ enough => absurd enough (Nat.not_lt_zero _)
  | succ fuel induction =>
    intro turn iterator valid enough
    have alone : ∀ other ∈ [iterator], other.Valid := by simpa using valid
    rcases refillIterators_spec (schedule turn).1 (schedule turn).2 alone with
      ⟨refilled, refills, isRefilled⟩
    rcases isRefilled with _ | ⟨refill, ⟨⟩⟩
    rename_i moved
    rw [drainRun]
    refine bind_eq_ok.mpr ⟨[moved], refills, ?_⟩
    rw [← refill.continues.unread] at enough ⊢
    dsimp only
    cases isHead : moved.head with
    | none =>
      have nothing : moved.unread = [] := by
        apply refill.ended
        by_contra someBlock
        rcases refill.continues.valid.head_of_blocks someBlock with ⟨row, found⟩
        rw [isHead] at found
        cases found
      rw [nothing]
      rfl
    | some row =>
      rcases refill.continues.valid.takeHead isHead with ⟨isUnread, takenValid, _⟩
      rw [isUnread, length_cons] at enough
      rw [isUnread]
      exact bind_eq_ok.mpr ⟨_, induction takenValid (by omega), rfl⟩

end

theorem split_at_key {Row Key : Type} [LinearOrder Key] {key : Row → Key} {rows : List Row}
    (sorted : rows.Pairwise fun left right => key left ≤ key right) (value : Key) :
    rows = (rows.filter fun row => key row < value) ++ (rows.filter fun row => key row = value) ++
      rows.filter fun row => value < key row := by
  induction sorted with
  | nil => rfl
  | @cons row rest least _ induction =>
    have above : ∀ {bound : Key}, bound < key row → ∀ other ∈ rest, bound < key other :=
      fun less other mem => less.trans_le (least other mem)
    rcases lt_trichotomy (key row) value with less | eq | greater
    · simp only [filter_cons, less, less.ne, less.not_gt, decide_true, decide_false,
        if_true, cons_append, Bool.false_eq_true, if_false]
      exact congrArg _ induction
    · have noneBelow : rest.filter (fun row => key row < value) = [] :=
        filter_eq_nil_iff.mpr fun other mem => by
          simpa [eq] using least other mem
      rw [noneBelow, nil_append] at induction
      simpa [filter_cons, eq, noneBelow] using induction
    · have noneBelow : rest.filter (fun row => key row < value) = [] :=
        filter_eq_nil_iff.mpr fun other mem => by
          simpa using (above greater other mem).le
      have noneAt : rest.filter (fun row => key row = value) = [] :=
        filter_eq_nil_iff.mpr fun other mem => by
          simpa using (above greater other mem).ne'
      rw [noneBelow, noneAt, nil_append, nil_append] at induction
      simpa [filter_cons, greater, greater.ne', greater.not_gt, noneBelow, noneAt]
        using induction

/-! ## Runs of metadata rows -/

def MetadataRowFamily.rank : MetadataRowFamily → Nat
  | .inodes => 0
  | .direntryBinds => 1
  | .direntryChildBinds => 2
  | .revisions => 3
  | .tombstones => 4
  | .activeDeletions => 5
  | .commitReceipts => 6
  | .commits => 7
  | .contentLayouts => 8
  | .attributes => 9
  | .access => 10
  | .merges => 11

theorem MetadataRowFamily.rank_injective : Function.Injective MetadataRowFamily.rank := by
  intro left right
  cases left <;> cases right <;> simp [MetadataRowFamily.rank]

instance : LinearOrder MetadataRowFamily :=
  LinearOrder.lift' MetadataRowFamily.rank MetadataRowFamily.rank_injective

structure CompactionInput where
  family : MetadataRowFamily
  segments : List (List (ScanBlock MetadataRow))

namespace CompactionInput

def rows (input : CompactionInput) : List (String × MetadataRow) :=
  input.segments.flatten.flatMap ScanBlock.rows

structure WellFormed (input : CompactionInput) : Prop where
  sorted : RunRowIterator.SegmentsSorted input.segments
  keyed : ∀ row ∈ input.rows, ∃ keyed : KeyedRow input.family, keyed.key = row.1

def iterator (input : CompactionInput) : RunRowIterator MetadataRowFamily MetadataRow :=
  RunRowIterator.new input.family input.segments none

theorem unread_iterator (input : CompactionInput) : input.iterator.unread = input.rows := by
  rw [iterator, new_unread]
  exact filter_eq_self.mpr fun _ _ => rfl

variable {inputs : List CompactionInput}

theorem graded (locality : LocalityGrouping) (wellFormed : ∀ input ∈ inputs, input.WellFormed) :
    Graded (localityOf locality) (inputs.map iterator) := by
  intro reader mem
  rcases mem_map.mp mem with ⟨input, isInput, rfl⟩
  rw [unread_iterator]
  have keyed := (wellFormed input isInput).keyed
  refine (wellFormed input isInput).sorted.ordered.imp_of_mem ?_
  intro left right leftMem rightMem less
  rcases keyed left leftMem with ⟨leftKeyed, leftKey⟩
  rcases keyed right rightMem with ⟨rightKeyed, rightKey⟩
  have groups : localityOf locality input.family left.1 ≤
      localityOf locality input.family right.1 := by
    rw [← leftKey, ← rightKey]
    apply localityOf_mono
    rw [leftKey, rightKey]
    exact less
  rw [mergeKey_le_iff]
  exact groups.lt_or_eq.imp id fun eq => ⟨eq, .inr ⟨rfl, less.le⟩⟩

theorem key_le_of_mergeKey_le {family : MetadataRowFamily} {left right : String × MetadataRow}
    (leftKeyed : ∃ keyed : KeyedRow family, keyed.key = left.1)
    (rightKeyed : ∃ keyed : KeyedRow family, keyed.key = right.1)
    (le : mergeKey (localityOf locality) family left ≤
      mergeKey (localityOf locality) family right) : scanKey left ≤ scanKey right := by
  rcases leftKeyed with ⟨leftKeyed, leftKey⟩
  rcases rightKeyed with ⟨rightKeyed, rightKey⟩
  by_contra notLe
  have groups := localityOf_mono locality rightKeyed leftKeyed (by
    rw [leftKey, rightKey]
    exact not_le.mp notLe)
  rw [leftKey, rightKey] at groups
  rcases (mergeKey_le_iff _).mp le with less | ⟨_, less | ⟨_, le⟩⟩
  · exact absurd groups (not_le.mpr less)
  · exact lt_irrefl _ less
  · exact notLe le

def allRows (inputs : List CompactionInput) : List (MergedRow MetadataRowFamily MetadataRow) :=
  inputs.flatMap fun input => input.rows.map (input.family, ·)

theorem unreadRows_iterators (inputs : List CompactionInput) :
    unreadRows (inputs.map iterator) = allRows inputs := by
  rw [unreadRows, flatMap_map, allRows]
  congr 1
  funext input
  rw [unread_iterator]
  rfl

theorem keyed_of_mem (wellFormed : ∀ input ∈ inputs, input.WellFormed)
    {row : MergedRow MetadataRowFamily MetadataRow} (mem : row ∈ allRows inputs) :
    ∃ keyed : KeyedRow row.1, keyed.key = row.2.1 := by
  rcases mem_flatMap.mp mem with ⟨input, isInput, isTagged⟩
  rcases mem_map.mp isTagged with ⟨stored, isStored, rfl⟩
  exact (wellFormed input isInput).keyed stored isStored

end CompactionInput

def MergedRow.group (locality : LocalityGrouping)
    (row : MergedRow MetadataRowFamily MetadataRow) : Bytes :=
  localityOf locality row.1 row.2.1

/-- Reading a run gives its rows above the bound once each in key order, and merging runs
gives all their rows, each family in key order and each locality group in one piece. -/
theorem compaction_rows_exact {SortKey Row : Type} (schedule : Nat → BlockLoader × Nat) :
    (∀ (sortKey : SortKey) (segments : List (List (ScanBlock Row))) (lower : Option String),
      RunRowIterator.SegmentsSorted segments →
      let rows := (segments.flatten.flatMap ScanBlock.rows).filter (RunRowIterator.reaches lower)
      ∀ fuel, rows.length < fuel →
        drainRun schedule fuel 0 (RunRowIterator.new sortKey segments lower) = .ok rows ∧
          Ordered scanKey rows) ∧
    (∀ (locality : LocalityGrouping) (inputs : List CompactionInput),
      (∀ input ∈ inputs, input.WellFormed) →
      ∀ fuel, (CompactionInput.allRows inputs).length < fuel →
        ∃ output, mergeRows (localityOf locality) schedule fuel 0
            (inputs.map CompactionInput.iterator) = .ok output ∧
          output.Perm (CompactionInput.allRows inputs) ∧
          (∀ family, (output.filter fun row => row.1 = family).Pairwise fun left right =>
            scanKey left.2 ≤ scanKey right.2) ∧
          ∀ group, ∃ before members after, output = before ++ members ++ after ∧
            (∀ row ∈ members, MergedRow.group locality row = group) ∧
            ∀ row ∈ before ++ after, MergedRow.group locality row ≠ group) := by
  constructor
  · intro sortKey segments lower sorted rows fuel enough
    have valid := new_valid sorted sortKey lower
    have unread := new_unread segments sortKey lower
    refine ⟨?_, List.Pairwise.filter _ sorted.ordered⟩
    rw [drainRun_spec schedule valid (by rw [unread]; exact enough), unread]
  · intro locality inputs wellFormed fuel enough
    have valid : ∀ reader ∈ inputs.map CompactionInput.iterator, reader.Valid := by
      intro reader member
      rcases mem_map.mp member with ⟨input, isInput, rfl⟩
      exact new_valid (wellFormed input isInput).sorted _ _
    rw [← CompactionInput.unreadRows_iterators] at enough
    rcases mergeRows_spec (localityOf locality) schedule valid
      (CompactionInput.graded locality wellFormed) enough with ⟨output, merged, perm, sorted⟩
    rw [CompactionInput.unreadRows_iterators] at perm
    have keyed : ∀ row ∈ output, ∃ keyed : KeyedRow row.1, keyed.key = row.2.1 :=
      fun row member => CompactionInput.keyed_of_mem wellFormed (perm.mem_iff.mp member)
    refine ⟨output, merged, perm, ?_, ?_⟩
    · intro family
      refine (sorted.filter _).imp_of_mem ?_
      intro left right leftMem rightMem le
      have leftFamily : left.1 = family := by simpa using (mem_filter.mp leftMem).2
      have rightFamily : right.1 = family := by simpa using (mem_filter.mp rightMem).2
      have leftKeyed := keyed left (mem_of_mem_filter leftMem)
      have rightKeyed := keyed right (mem_of_mem_filter rightMem)
      rw [leftFamily] at leftKeyed le
      rw [rightFamily] at rightKeyed le
      exact CompactionInput.key_le_of_mergeKey_le leftKeyed rightKeyed le
    · intro group
      have grouped : output.Pairwise fun left right =>
          MergedRow.group locality left ≤ MergedRow.group locality right := by
        refine sorted.imp fun le => ?_
        rcases (mergeKey_le_iff _).mp le with less | ⟨equal, _⟩
        · exact less.le
        · exact equal.le
      refine ⟨_, _, _, split_at_key grouped group, ?_, ?_⟩
      · intro row member
        simpa using (mem_filter.mp member).2
      · intro row member
        rcases mem_append.mp member with below | above
        · have less : MergedRow.group locality row < group := by simpa using (mem_filter.mp below).2
          exact less.ne
        · have greater : group < MergedRow.group locality row := by
            simpa using (mem_filter.mp above).2
          exact greater.ne'

namespace MergeSample

def inodeRow (inodeId : InodeId) : InodeRecord where
  inodeId
  inodeKind := .directory
  committedSeq := 1
  commitId := "c"
  committedBy := "a"
  committedAtMs := 0

def storedRow (inodeId : InodeId) : String × MetadataRow :=
  (LookupKeys.inodeKey inodeId, .inode (inodeRow inodeId))

def block (inodeIds : List InodeId) : ScanBlock MetadataRow :=
  { entry := { lastRowKey := LookupKeys.inodeKey (inodeIds.getLastD 0), block := ⟨0, 10, 10, 0⟩ }
    rows := inodeIds.map storedRow }

/-- A run's segments as lists of blocks, and these as lists of inodes. -/
def input (segments : List (List (List InodeId))) : CompactionInput where
  family := .inodes
  segments := segments.map fun blocks => blocks.map block

def left : CompactionInput := input [[[2, 3], [5]], [[9]]]

def right : CompactionInput := input [[[1], [4, 6]]]

theorem keyed {segments : List (List (List InodeId))}
    (bounded : ∀ inodeId ∈ segments.flatten.flatten, inodeId < 2 ^ 128) :
    ∀ row ∈ (input segments).segments.flatten.flatMap ScanBlock.rows,
      ∃ keyed : KeyedRow MetadataRowFamily.inodes, keyed.key = row.1 := by
  intro row isRow
  obtain ⟨found, isBlock, inBlock⟩ := mem_flatMap.mp isRow
  obtain ⟨_, isSegment, inSegment⟩ := mem_flatten.mp isBlock
  obtain ⟨blocks, isBlocks, rfl⟩ := mem_map.mp isSegment
  obtain ⟨inodeIds, isInodes, rfl⟩ := mem_map.mp inSegment
  obtain ⟨inodeId, isInode, rfl⟩ := mem_map.mp inBlock
  have inRange := bounded inodeId
    (mem_flatten.mpr ⟨inodeIds, mem_flatten.mpr ⟨blocks, isBlocks, isInodes⟩, isInode⟩)
  exact ⟨⟨.inode (inodeRow inodeId), inodeId, LookupKeys.inodeKey inodeId, rfl, inRange, rfl⟩, rfl⟩

theorem left_sorted : SegmentsSorted left.segments := by
  refine ⟨?_, by decide +kernel⟩
  unfold Ordered
  decide +kernel

theorem right_sorted : SegmentsSorted right.segments := by
  refine ⟨?_, by decide +kernel⟩
  unfold Ordered
  decide +kernel

end MergeSample

open MergeSample in
/-- Runs of several blocks and segments, read with refills of one byte, and the first of them
from a key inside its first block. -/
theorem compaction_rows_exact_two_runs :
    drainRun (fun _ => (.metadata, 1)) 4 0
        (RunRowIterator.new () left.segments (some (LookupKeys.inodeKey 3))) =
      .ok ([3, 5, 9].map storedRow) ∧
    ∃ output, mergeRows (localityOf (.leadingKeyComponents 1)) (fun _ => (.metadata, 1)) 8 0
        ([left, right].map CompactionInput.iterator) = .ok output ∧
      output.Perm (CompactionInput.allRows [left, right]) ∧
      (output.filter fun row => row.1 = MetadataRowFamily.inodes).Pairwise fun first second =>
        scanKey first.2 ≤ scanKey second.2 := by
  have rows := @compaction_rows_exact Unit MetadataRow fun _ => (.metadata, 1)
  have wellFormed : ∀ input ∈ [left, right], input.WellFormed := by
    intro input member
    rcases mem_pair.mp member with rfl | rfl
    · exact ⟨left_sorted, keyed (by decide)⟩
    · exact ⟨right_sorted, keyed (by decide)⟩
  constructor
  · have above : (left.segments.flatten.flatMap ScanBlock.rows).filter
        (RunRowIterator.reaches (some (LookupKeys.inodeKey 3))) = [3, 5, 9].map storedRow := by
      decide +kernel
    have drained := rows.1 () left.segments (some (LookupKeys.inodeKey 3)) left_sorted 4
      (by rw [above]; decide)
    rw [drained.1, above]
  · rcases rows.2 (.leadingKeyComponents 1) [left, right] wellFormed 8 (by decide) with
      ⟨output, merged, perm, inOrder, _⟩
    exact ⟨output, merged, perm, inOrder _⟩

end LoonFs
