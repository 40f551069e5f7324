import LoonFs.Diff.Touches
import LoonFs.Metadata.NewestRows

/-! # Keys of a history's rows -/

namespace LoonFs

open Foundation LookupKeys

/-- The rows of a history that the lookups of newest facts read. -/
def MetadataState.Holds (state : MetadataState) : MetadataRow → Prop
  | .direntryBinding record => record ∈ state.direntryBinds
  | .fileRevision record => record ∈ state.revisions
  | .tombstone record => record ∈ state.subtreeTombstones
  | .attributesRevision record => record ∈ state.attributesRevisions
  | .accessRevision record => record ∈ state.accessRevisions
  | .merge record => ∃ commit ∈ state.commits, MergeIndexRecord.fromCommit commit = some record
  | _ => False

variable {Second First : Type} {second' second : Second} {first' first : First}

theorem toLex_pair_inj (same : toLex (first, second) = toLex (first', second')) :
    first = first' ∧ second = second' :=
  Prod.mk.inj (toLex_inj.mp same)

theorem toLex_lt_of_lt [LT First] [LT Second] (less : first < first') :
    toLex (first, second) < toLex (first', second') :=
  Prod.Lex.left _ _ less

theorem toLex_lt_of_eq [LT First] [LT Second] (same : first = first') (less : second < second') :
    toLex (first, second) < toLex (first', second') := by
  subst same
  exact Prod.Lex.right _ less

theorem fromCommit_committedSeq (isRecord : MergeIndexRecord.fromCommit commit = some record) :
    record.committedSeq = commit.committedSeq := by
  obtain ⟨merge, _, isRecord⟩ := Option.map_eq_some_iff.mp isRecord
  rw [← isRecord]

variable {state : MetadataState}

theorem Reachable.merge_unique (reachable : Reachable policy history state)
    (held : state.Holds (.merge record)) (otherHeld : state.Holds (.merge other))
    (same : record.committedSeq = other.committedSeq) : record = other := by
  obtain ⟨commit, isCommit, isRecord⟩ := held
  obtain ⟨another, isAnother, isOther⟩ := otherHeld
  have sameSeq : commit.committedSeq = another.committedSeq := by
    rw [← fromCommit_committedSeq isRecord, ← fromCommit_committedSeq isOther, same]
  have distinct : (state.commits.map WalCommitPayload.committedSeq).Nodup := by
    have sorted := reachable.commits_ordered
    exact (List.pairwise_map.mpr sorted).imp Nat.ne_of_lt
  have sameCommit := List.inj_on_of_nodup_map distinct isCommit isAnother sameSeq
  subst sameCommit
  exact Option.some.inj (isRecord.symm.trans isOther)

variable {other row : MetadataRow}

theorem Reachable.eq_of_tuple (reachable : Reachable policy history state)
    (held : state.Holds row) (otherHeld : state.Holds other)
    (isTuple : row.logicalTuple family = some tuple)
    (otherTuple : other.logicalTuple family = some tuple) : row = other := by
  have ordered := reachable.settled.ordered
  have position_eq {left right : DeltaPosition}
      (same : toLex (left.seq, left.deltaIndex) = toLex (right.seq, right.deltaIndex)) :
      left = right :=
    congrArg₂ DeltaPosition.mk (toLex_pair_inj same).1 (toLex_pair_inj same).2
  cases row with
  | direntryBinding record =>
    cases family <;> cases isTuple <;> cases other <;> try cases otherTuple
    all_goals
      rename_i another
      have parts := (toLex_pair_inj (toLex_pair_inj (toLex_pair_inj
        (Option.some.inj otherTuple)).2).2).2
      rw [ordered.binds.keysDistinct another otherHeld record held (position_eq parts)]
  | fileRevision record =>
    cases family <;> cases isTuple
    cases other <;> try cases otherTuple
    rename_i another
    have parts := (toLex_pair_inj ((toLex_pair_inj (Option.some.inj otherTuple)).2)).2
    rw [ordered.revisions.keysDistinct another otherHeld record held (position_eq parts)]
  | tombstone record =>
    cases family <;> cases isTuple
    cases other <;> try cases otherTuple
    rename_i another
    have parts := (toLex_pair_inj (Option.some.inj otherTuple)).2
    rw [ordered.tombstones.keysDistinct another otherHeld record held (position_eq parts)]
  | attributesRevision record =>
    cases family <;> cases isTuple
    cases other <;> try cases otherTuple
    rename_i another
    have parts := (toLex_pair_inj ((toLex_pair_inj (Option.some.inj otherTuple)).2)).2
    rw [ordered.attributes.keysDistinct another otherHeld record held (position_eq parts)]
  | accessRevision record =>
    cases family <;> cases isTuple
    cases other <;> try cases otherTuple
    rename_i another
    have parts := (toLex_pair_inj ((toLex_pair_inj (Option.some.inj otherTuple)).2)).2
    rw [ordered.access.keysDistinct another otherHeld record held (position_eq parts)]
  | merge record =>
    cases family <;> cases isTuple
    cases other <;> try cases otherTuple
    rename_i another
    have sameSeq := (toLex_pair_inj (Option.some.inj otherTuple)).2
    rw [reachable.merge_unique held otherHeld sameSeq.symm]
  | _ => exact absurd held id

/-- The prefixes under which the row of a later commit has the smaller key. -/
def LookupPrefix.NewestFirst : LookupPrefix → Prop
  | .tombstone _ | .merge _ | .revision _ | .attributes _ | .access _ => True
  | _ => False

theorem Reachable.tuple_lt (reachable : Reachable policy history state) {lookup : LookupPrefix}
    (newestFirst : lookup.NewestFirst) {tuple otherTuple : LogicalTuple lookup.family}
    (held : state.Holds row) (otherHeld : state.Holds other)
    (isTuple : row.logicalTuple lookup.family = some tuple)
    (isOtherTuple : other.logicalTuple lookup.family = some otherTuple)
    (selects : lookup.Selects row) (otherSelects : lookup.Selects other)
    (less : manifestRowCommitSeq row < manifestRowCommitSeq other) : otherTuple < tuple := by
  have ordered := reachable.settled.ordered
  have numbered := reachable.numbered
  have position_lt {seq otherSeq : ChangeSeq} {index otherIndex : Nat} (less : seq < otherSeq) :
      (⟨seq, index⟩ : DeltaPosition) < ⟨otherSeq, otherIndex⟩ :=
    (DeltaPosition.lt_iff _ _).mpr (.inl less)
  cases lookup <;> try exact absurd newestFirst id
  all_goals
    cases row <;> try exact absurd selects id
    cases other <;> try exact absurd otherSelects id
    cases isTuple
    cases isOtherTuple
    have same := otherSelects.trans selects.symm
  case tombstone => exact toLex_lt_of_eq same (toLex_lt_of_lt less)
  case merge => exact toLex_lt_of_eq (congrArg utf8 same) less
  case revision =>
    exact toLex_lt_of_eq same (toLex_lt_of_lt (ordered.revisions.rel_of_lt numbered.revisions held
      otherHeld (position_lt less) same.symm))
  case attributes =>
    exact toLex_lt_of_eq same (toLex_lt_of_lt (ordered.attributes.rel_of_lt numbered.attributes
      held otherHeld (position_lt less) same.symm))
  case access =>
    exact toLex_lt_of_eq same (toLex_lt_of_lt (ordered.access.rel_of_lt numbered.access held
      otherHeld (position_lt less) same.symm))

end LoonFs
