import LoonFs.Metadata.ManifestIndex

/-! # What a walk over pages finds -/

namespace LoonFs

open Foundation LookupKeys
open List hiding lookup not_le

/-! ## Bounds -/

theorem append_zero_lt_or_eq {word : Bytes} (less : word < key) :
    word ++ [0] < key ∨ word ++ [0] = key := by
  induction less with
  | @nil letter rest =>
    by_cases zero : letter = 0
    · subst zero
      cases rest with
      | nil => exact .inr rfl
      | cons next rest => exact .inl (.cons .nil)
    · refine .inl (.rel ?_)
      have positive : letter.toNat ≠ 0 := fun same => zero (UInt8.toNat_inj.mp same)
      rw [UInt8.lt_iff_toNat_lt]
      exact Nat.pos_of_ne_zero positive
  | cons _ induction =>
    rcases induction with less | same
    · exact .inl (.cons less)
    · exact .inr (congrArg (List.cons _) same)
  | rel less => exact .inl (.rel less)

theorem utf8_afterRowKey (rowKey : String) : utf8 (afterRowKey rowKey) = utf8 rowKey ++ [0] := by
  rw [afterRowKey, utf8_append]
  congr 1

theorem lt_afterRowKey (rowKey : String) : utf8 rowKey < utf8 (afterRowKey rowKey) := by
  rw [utf8_afterRowKey]
  have less := (append_left_lt_iff (utf8 rowKey) [] [0]).mpr .nil
  rwa [append_nil] at less

theorem afterRowKey_le {rowKey : String} (less : utf8 rowKey < key) :
    utf8 (afterRowKey rowKey) ≤ key := by
  rw [utf8_afterRowKey]
  rcases append_zero_lt_or_eq less with less | same
  · exact le_of_lt less
  · exact le_of_eq same

/-! ## Pages -/

structure Pages (lookup : LookupPrefix) (rows : List StoredRow)
    (page : String → List StoredRow) : Prop where
  mem : ∀ {bound}, lookup.StartsAt bound → ∀ stored ∈ page bound,
    stored ∈ rows ∧ utf8 bound ≤ stored.keyBytes

structure LeadsTo (lookup : LookupPrefix) (page : String → List StoredRow) (limit : Nat)
    (target : StoredRow) : Prop where
  found : ∀ {bound}, lookup.StartsAt bound → utf8 bound ≤ target.keyBytes →
    ∃ rows : List StoredRow, page bound = rows.take limit ∧
      rows.Pairwise (fun left right => left.keyBytes < right.keyBytes) ∧ target ∈ rows

theorem Pages.afterLast {page : String → List StoredRow} (pages : Pages lookup rows page)
    (starts : lookup.StartsAt bound) (isLast : (page bound).getLast? = some last) :
    lookup.StartsAt (afterRowKey last.1) ∧ last ∈ page bound ∧
      ∀ next : Bytes, utf8 (afterRowKey last.1) ≤ next →
        rowsFrom StoredRow.keyBytes rows next < rowsFrom StoredRow.keyBytes rows (utf8 bound) := by
  have isMember := mem_of_getLast? isLast
  obtain ⟨inRows, atOrAfter⟩ := pages.mem starts last isMember
  refine ⟨.afterRow starts atOrAfter, isMember, ?_⟩
  intro next le
  exact rowsFrom_lt inRows atOrAfter ((lt_afterRowKey last.1).trans_le le)

/-! ## One row under a prefix -/

section

variable {Record : Type} {decode : MetadataRow → Except CoreError Record}
  {committedSeq : Record → ChangeSeq}

def DecodesRows (decode : MetadataRow → Except CoreError Record)
    (committedSeq : Record → ChangeSeq) (rows : List StoredRow) : Prop :=
  ∀ stored ∈ rows, ∃ record, decode stored.2 = .ok record ∧
    committedSeq record = stored.committedSeq

theorem firstVisible_skips (rest : List StoredRow) (decodes : DecodesRows decode committedSeq rows)
    (hidden : ∀ stored ∈ rows, visibleSeq < stored.committedSeq) :
    firstVisible decode committedSeq visibleSeq (rows ++ rest) =
      firstVisible decode committedSeq visibleSeq rest := by
  induction rows with
  | nil => rfl
  | cons stored rows induction =>
    obtain ⟨record, isRecord, sameSeq⟩ := decodes stored mem_cons_self
    have notVisible := hidden stored mem_cons_self
    rw [← sameSeq] at notVisible
    rw [cons_append, firstVisible, isRecord, ok_bind, if_neg (Nat.not_le.mpr notVisible)]
    exact induction (fun other isOther => decodes other (mem_cons_of_mem _ isOther))
      fun other isOther => hidden other (mem_cons_of_mem _ isOther)

theorem firstVisible_eq_none (decodes : DecodesRows decode committedSeq rows)
    (hidden : ∀ stored ∈ rows, visibleSeq < stored.committedSeq) :
    firstVisible decode committedSeq visibleSeq rows = .ok none := by
  have skips := firstVisible_skips [] decodes hidden
  rw [append_nil] at skips
  exact skips

theorem firstVisible_eq_some (rest : List StoredRow)
    (decodes : DecodesRows decode committedSeq before)
    (hidden : ∀ stored ∈ before, visibleSeq < stored.committedSeq)
    (isRecord : decode target.2 = .ok record) (visible : committedSeq record ≤ visibleSeq) :
    firstVisible decode committedSeq visibleSeq (before ++ target :: rest) = .ok (some record) := by
  rw [firstVisible_skips _ decodes hidden, firstVisible, isRecord, ok_bind, if_pos visible]
  rfl

variable (pages : Pages lookup rows page) (decodes : DecodesRows decode committedSeq rows)
include pages decodes

theorem newestRowFrom_eq_none (hidden : ∀ stored ∈ rows, visibleSeq < stored.committedSeq)
    (starts : lookup.StartsAt bound)
    (enough : rowsFrom StoredRow.keyBytes rows (utf8 bound) < fuel) :
    newestRowFrom decode committedSeq page visibleSeq fuel bound = .ok none := by
  induction fuel generalizing bound with
  | zero => exact absurd enough (Nat.not_lt_zero _)
  | succ fuel induction =>
    have inRows := fun stored isStored => (pages.mem starts stored isStored).1
    have first :=
      firstVisible_eq_none (fun stored isStored => decodes stored (inRows stored isStored))
        fun stored isStored => hidden stored (inRows stored isStored)
    rw [newestRowFrom, first, ok_bind]
    dsimp only
    split
    · rfl
    split
    · rfl
    · rename_i last isLast
      obtain ⟨next, _, fewer⟩ := pages.afterLast starts isLast
      exact induction next (by have := fewer _ le_rfl; omega)

theorem newestRowFrom_eq_some (leads : LeadsTo lookup page wholeStateRawScanLimit target)
    (isRecord : decode target.2 = .ok record) (visible : committedSeq record ≤ visibleSeq)
    (first : ∀ stored ∈ rows, stored.committedSeq ≤ visibleSeq → target.keyBytes ≤ stored.keyBytes)
    (starts : lookup.StartsAt bound) (before : utf8 bound ≤ target.keyBytes)
    (enough : rowsFrom StoredRow.keyBytes rows (utf8 bound) < fuel) :
    newestRowFrom decode committedSeq page visibleSeq fuel bound = .ok (some record) := by
  induction fuel generalizing bound with
  | zero => exact absurd enough (Nat.not_lt_zero _)
  | succ fuel induction =>
    obtain ⟨found, isPage, sorted, isTarget⟩ := leads.found starts before
    have inRows := fun stored isStored => (pages.mem starts stored isStored).1
    have hidden {stored : StoredRow} (isStored : stored ∈ page bound)
        (less : stored.keyBytes < target.keyBytes) : visibleSeq < stored.committedSeq := by
      by_contra shown
      exact absurd (first stored (inRows stored isStored) (Nat.le_of_not_lt shown))
        (not_le.mpr less)
    rw [newestRowFrom]
    rcases mem_take_or_beyond sorted isTarget wholeStateRawScanLimit with inPage | ⟨full, past⟩
    · rw [← isPage] at inPage
      obtain ⟨earlier, rest, split⟩ := append_of_mem inPage
      have pageSorted := isPage ▸ sorted.sublist (take_sublist _ _)
      rw [split] at pageSorted
      have isEarlier {stored : StoredRow} (isStored : stored ∈ earlier) : stored ∈ page bound := by
        rw [split]
        exact mem_append_left _ isStored
      have taken := firstVisible_eq_some rest
        (fun stored isStored => decodes stored (inRows stored (isEarlier isStored)))
        (fun stored isStored => hidden (isEarlier isStored)
          ((pairwise_append.mp pageSorted).2.2 stored isStored target mem_cons_self))
        isRecord visible
      rw [split, taken]
      rfl
    · rw [← isPage] at full past
      have passed :=
        firstVisible_eq_none (fun stored isStored => decodes stored (inRows stored isStored))
          fun stored isStored => hidden isStored (past stored isStored)
      rw [passed, ok_bind]
      dsimp only
      rw [if_neg (by omega)]
      split
      · rename_i isNil
        rw [List.getLast?_eq_none_iff] at isNil
        rw [isNil] at full
        cases full
      · rename_i last isLast
        obtain ⟨next, isMember, fewer⟩ := pages.afterLast starts isLast
        exact induction next (afterRowKey_le (past last isMember))
          (by have := fewer _ le_rfl; omega)

end

/-! ## The rows of an edge walk -/

section

variable {edgeEnd : DirentryBindingRecord → String} {visibleSeq : ChangeSeq}

/-- A binding that the read may see. -/
def StoredRow.Shows (visibleSeq : ChangeSeq) (stored : StoredRow)
    (record : DirentryBindingRecord) : Prop :=
  stored.2 = .direntryBinding record ∧ record.committedSeq ≤ visibleSeq

def ClearOf (edgeEnd : DirentryBindingRecord → String) (visibleSeq : ChangeSeq)
    (rows : List StoredRow) (target : StoredRow) : Prop :=
  ∀ stored ∈ rows, ∀ record, stored.Shows visibleSeq record →
    stored.keyBytes < target.keyBytes → utf8 (edgeEnd record) ≤ target.keyBytes

theorem walkPage_spec (edgeEnd : DirentryBindingRecord → String) (visibleSeq : ChangeSeq)
    (bindings : ∀ stored ∈ rows, ∃ record, stored.2 = .direntryBinding record) :
    ∀ readEdgeEnd, ∃ edges last, walkPage edgeEnd visibleSeq readEdgeEnd rows = .ok (edges, last) ∧
      (∀ record ∈ edges, ∃ stored ∈ rows, stored.Shows visibleSeq record) ∧
      (last = readEdgeEnd ∨ ∃ record ∈ edges, last = some (edgeEnd record)) ∧
      ∀ target ∈ rows, ∀ record, target.Shows visibleSeq record →
        rows.Pairwise (fun left right => left.keyBytes < right.keyBytes) →
        (∀ passed, readEdgeEnd = some passed → utf8 passed ≤ target.keyBytes) →
        ClearOf edgeEnd visibleSeq rows target → record ∈ edges := by
  induction rows with
  | nil => exact fun readEdgeEnd => ⟨[], readEdgeEnd, rfl, by simp, .inl rfl, by simp⟩
  | cons stored rest induction =>
    intro readEdgeEnd
    obtain ⟨record, isRecord⟩ := bindings stored mem_cons_self
    have walk := induction fun other isOther => bindings other (mem_cons_of_mem _ isOther)
    have clearRest {target : StoredRow}
        (clear : ClearOf edgeEnd visibleSeq (stored :: rest) target) :
        ClearOf edgeEnd visibleSeq rest target :=
      fun other isOther => clear other (mem_cons_of_mem _ isOther)
    -- A row that is passed over is not the target, and the rest is walked on.
    have passOver (notTaken : ∀ taken, stored.Shows visibleSeq taken →
        ∃ passed, readEdgeEnd = some passed ∧ stored.keyBytes < utf8 passed)
        (isWalk : walkPage edgeEnd visibleSeq readEdgeEnd (stored :: rest) =
          walkPage edgeEnd visibleSeq readEdgeEnd rest) :
        ∃ edges last, walkPage edgeEnd visibleSeq readEdgeEnd (stored :: rest) = .ok (edges, last) ∧
          (∀ record ∈ edges, ∃ other ∈ stored :: rest, other.Shows visibleSeq record) ∧
          (last = readEdgeEnd ∨ ∃ record ∈ edges, last = some (edgeEnd record)) ∧
          ∀ target ∈ stored :: rest, ∀ record, target.Shows visibleSeq record →
            (stored :: rest).Pairwise (fun left right => left.keyBytes < right.keyBytes) →
            (∀ passed, readEdgeEnd = some passed → utf8 passed ≤ target.keyBytes) →
            ClearOf edgeEnd visibleSeq (stored :: rest) target → record ∈ edges := by
      obtain ⟨edges, last, isOk, shown, isLast, complete⟩ := walk readEdgeEnd
      refine ⟨edges, last, isWalk.trans isOk, ?_, isLast, ?_⟩
      · intro taken isTaken
        obtain ⟨other, isOther, shows⟩ := shown taken isTaken
        exact ⟨other, mem_cons_of_mem _ isOther, shows⟩
      · intro target isTarget taken shows sorted passed clear
        rcases mem_cons.mp isTarget with isStored | isTarget
        · subst isStored
          obtain ⟨bound, isBound, less⟩ := notTaken taken shows
          exact absurd (passed bound isBound) (not_le.mpr less)
        · exact complete target isTarget taken shows (pairwise_cons.mp sorted).2 passed
            (clearRest clear)
    by_cases skipped : readEdgeEnd.any (fun passed => decide (utf8 stored.1 < utf8 passed)) = true
    · apply passOver
      · intro _ _
        cases isEnd : readEdgeEnd with
        | none =>
          rw [isEnd] at skipped
          cases skipped
        | some passed =>
          rw [isEnd, Option.any_some] at skipped
          exact ⟨passed, rfl, of_decide_eq_true skipped⟩
      · rw [walkPage, if_pos skipped]
    · have decoded : direntryBindingFromManifestRow stored.2 = .ok record := by
        rw [isRecord]
        rfl
      by_cases hidden : visibleSeq < record.committedSeq
      · apply passOver
        · intro taken shows
          have same : taken = record := by
            have eq := shows.1.symm.trans isRecord
            cases eq
            rfl
          subst same
          exact absurd shows.2 (Nat.not_le.mpr hidden)
        · rw [walkPage, if_neg skipped, decoded, ok_bind, if_pos hidden]
      · obtain ⟨edges, last, isOk, shown, isLast, complete⟩ := walk (some (edgeEnd record))
        have shows : stored.Shows visibleSeq record := ⟨isRecord, Nat.le_of_not_lt hidden⟩
        refine ⟨record :: edges, last, ?_, ?_, ?_, ?_⟩
        · rw [walkPage, if_neg skipped, decoded, ok_bind, if_neg hidden, isOk]
          rfl
        · intro taken isTaken
          rcases mem_cons.mp isTaken with isHere | isLater
          · exact ⟨stored, mem_cons_self, isHere ▸ shows⟩
          · obtain ⟨other, isOther, otherShows⟩ := shown taken isLater
            exact ⟨other, mem_cons_of_mem _ isOther, otherShows⟩
        · right
          rcases isLast with isHere | ⟨taken, isTaken, isEnd⟩
          · exact ⟨record, mem_cons_self, isHere⟩
          · exact ⟨taken, mem_cons_of_mem _ isTaken, isEnd⟩
        · intro target isTarget taken targetShows sorted _ clear
          rcases mem_cons.mp isTarget with isStored | isTarget
          · subst isStored
            have eq := targetShows.1.symm.trans isRecord
            cases eq
            exact mem_cons_self
          · apply mem_cons_of_mem
            apply complete target isTarget taken targetShows (pairwise_cons.mp sorted).2
              _ (clearRest clear)
            intro passed isPassed
            cases isPassed
            exact clear stored mem_cons_self record shows
              ((pairwise_cons.mp sorted).1 target isTarget)

theorem afterRowKey_le_nextLowerBound (last : StoredRow) (readEdgeEnd : Option String) :
    utf8 (afterRowKey last.1) ≤ utf8 (nextLowerBound last readEdgeEnd) := by
  cases readEdgeEnd with
  | none => exact le_refl _
  | some edgeEnd =>
    rw [nextLowerBound]
    split
    · assumption
    · exact le_refl _

theorem newestEdgeRowsFrom_spec {page : String → List StoredRow} (pages : Pages lookup rows page)
    (bindings : ∀ stored ∈ rows, ∃ record, stored.2 = .direntryBinding record)
    (ends : ∀ stored ∈ rows, ∀ record, stored.2 = .direntryBinding record →
      lookup.StartsAt (edgeEnd record)) (starts : lookup.StartsAt bound)
    (enough : rowsFrom StoredRow.keyBytes rows (utf8 bound) < fuel) :
    ∃ edges, newestEdgeRowsFrom edgeEnd visibleSeq page fuel bound = .ok edges ∧
      (∀ record ∈ edges, ∃ stored ∈ rows, stored.Shows visibleSeq record) ∧
      ∀ target record, target.Shows visibleSeq record →
        LeadsTo lookup page edgeWalkPageRows target → ClearOf edgeEnd visibleSeq rows target →
        utf8 bound ≤ target.keyBytes → record ∈ edges := by
  induction fuel generalizing bound with
  | zero => exact absurd enough (Nat.not_lt_zero _)
  | succ fuel induction =>
    have inRows := fun stored isStored => (pages.mem starts stored isStored).1
    rw [newestEdgeRowsFrom]
    cases isLast : (page bound).getLast? with
    | none =>
      refine ⟨[], rfl, by simp, ?_⟩
      intro target record _ leads _ before
      obtain ⟨found, isPage, _, isTarget⟩ := leads.found starts before
      rw [List.getLast?_eq_none_iff, isPage, take_eq_nil_iff] at isLast
      rcases isLast with zero | isNil
      · cases zero
      · rw [isNil] at isTarget
        cases isTarget
    | some last =>
      obtain ⟨walked, readEdgeEnd, isWalk, shown, isEnd, complete⟩ :=
        walkPage_spec edgeEnd visibleSeq
          (fun stored isStored => bindings stored (inRows stored isStored)) none
      obtain ⟨after, isMember, fewer⟩ := pages.afterLast starts isLast
      have inPage {target : StoredRow} {record : DirentryBindingRecord}
          (shows : target.Shows visibleSeq record)
          (clear : ClearOf edgeEnd visibleSeq rows target) {found : List StoredRow}
          (isPage : page bound = found.take edgeWalkPageRows)
          (sorted : found.Pairwise (fun left right => left.keyBytes < right.keyBytes))
          (isTarget : target ∈ found.take edgeWalkPageRows) : record ∈ walked := by
        apply complete target (isPage ▸ isTarget) record shows
          (isPage ▸ sorted.sublist (take_sublist _ _)) (by simp)
        intro stored isStored
        exact clear stored (inRows stored isStored)
      have shownRows : ∀ record ∈ walked, ∃ stored ∈ rows, stored.Shows visibleSeq record := by
        intro record isRecord
        obtain ⟨stored, isStored, shows⟩ := shown record isRecord
        exact ⟨stored, inRows stored isStored, shows⟩
      dsimp only
      rw [isWalk, ok_bind]
      by_cases full : (page bound).length = edgeWalkPageRows
      · rw [if_pos full]
        have next : lookup.StartsAt (nextLowerBound last readEdgeEnd) := by
          rcases isEnd with noEdge | ⟨record, isRecord, isEnd⟩
          · rw [noEdge]
            exact after
          · obtain ⟨stored, isStored, shows⟩ := shownRows record isRecord
            rw [isEnd]
            exact .later after (ends stored isStored record shows.1)
        obtain ⟨more, isMore, moreShown, moreComplete⟩ := induction next
          (by have := fewer _ (afterRowKey_le_nextLowerBound last readEdgeEnd); omega)
        refine ⟨walked ++ more, by rw [isMore]; rfl, ?_, ?_⟩
        · intro record isRecord
          rcases mem_append.mp isRecord with isRecord | isRecord
          · exact shownRows record isRecord
          · exact moreShown record isRecord
        · intro target record shows leads clear before
          obtain ⟨found, isPage, sorted, isTarget⟩ := leads.found starts before
          rcases mem_take_or_beyond sorted isTarget edgeWalkPageRows with inside | ⟨_, past⟩
          · exact mem_append_left _ (inPage shows clear isPage sorted inside)
          · rw [← isPage] at past
            apply mem_append_right
            apply moreComplete target record shows leads clear
            rcases isEnd with noEdge | ⟨taken, isTaken, isEnd⟩
            · rw [noEdge]
              exact afterRowKey_le (past last isMember)
            · obtain ⟨stored, isStored, takenShows⟩ := shown taken isTaken
              rw [isEnd, nextLowerBound]
              split
              · exact clear stored (inRows stored isStored) taken takenShows
                  (past stored isStored)
              · exact afterRowKey_le (past last isMember)
      · rw [if_neg full]
        refine ⟨walked, rfl, shownRows, ?_⟩
        intro target record shows leads clear before
        obtain ⟨found, isPage, sorted, isTarget⟩ := leads.found starts before
        rcases mem_take_or_beyond sorted isTarget edgeWalkPageRows with inside | ⟨isFull, _⟩
        · exact inPage shows clear isPage sorted inside
        · rw [← isPage] at isFull
          exact absurd isFull full

end

end LoonFs
