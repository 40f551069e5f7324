import LoonFs.History
import LoonFs.Diff.Pages
import Mathlib.Data.List.SplitBy

/-! # The deltas of a commit by operation -/

namespace LoonFs

open Foundation List

def KeepsOpIndex (opIndex : Nat) (result : Except CommitError (Value × CommitNumbering)) : Prop :=
  ∀ value next, result = .ok (value, next) → next.nextOpIndex = opIndex

namespace KeepsOpIndex

theorem pure {new : CommitNumbering} (same : new.nextOpIndex = opIndex) :
    KeepsOpIndex opIndex (.ok (value, new)) := by
  intro _ _ eq
  cases eq
  exact same

theorem check {rest : Other → Except CommitError (Value × CommitNumbering)}
    (keeps : ∀ value, KeepsOpIndex opIndex (rest value)) :
    KeepsOpIndex opIndex (first >>= rest) := by
  intro value new accepted
  rcases bind_eq_ok.mp accepted with ⟨checked, _, accepted⟩
  exact keeps checked value new accepted

theorem numbered {rest : Other × CommitNumbering → Except CommitError (Value × CommitNumbering)}
    (keeps : KeepsOpIndex opIndex first) (keepsRest : ∀ value new, new.nextOpIndex = opIndex →
      KeepsOpIndex opIndex (rest (value, new))) : KeepsOpIndex opIndex (first >>= rest) := by
  intro value new accepted
  rcases bind_eq_ok.mp accepted with ⟨⟨reserved, after⟩, isReserved, accepted⟩
  exact keepsRest reserved after (keeps reserved after isReserved) value new accepted

theorem reserve {numbering : CommitNumbering} (same : numbering.nextOpIndex = opIndex) :
    KeepsOpIndex opIndex numbering.reserveDeltaIndex := by
  intro value new reserved
  rw [CommitNumbering.reserveDeltaIndex] at reserved
  split at reserved <;> cases reserved
  exact same

variable {numbering : CommitNumbering} (same : numbering.nextOpIndex = opIndex)

include same

theorem revisionDelta : KeepsOpIndex opIndex
      (LoonFs.revisionDelta numbering edge revisionNo contentRef appendOffset) :=
  .numbered (reserve same) fun _ _ => .pure

theorem unbindDelta : KeepsOpIndex opIndex (LoonFs.unbindDelta numbering binding inode) :=
  .numbered (reserve same) fun _ _ => .pure

theorem bindDelta : KeepsOpIndex opIndex
      (LoonFs.bindDelta numbering parent nameKey displayName inode revision) :=
  .numbered (reserve same) fun _ _ => .pure

theorem deleteDeltas : KeepsOpIndex opIndex (LoonFs.deleteDeltas numbering inode binding) :=
  .numbered (unbindDelta same) fun _ _ unbound => .numbered (reserve unbound) fun _ _ => .pure

theorem createDeltas : KeepsOpIndex opIndex
      (LoonFs.createDeltas numbering header child parent nameKey displayName newChild) := by
  refine .numbered (reserve same) fun _ _ created => .numbered (reserve created) fun _ _ bound => ?_
  cases newChild with
  | directory => exact .pure bound
  | file contentRef => exact .numbered (reserve bound) fun _ _ => .pure

theorem validateOperation (view : MetadataView) (policy : NamePolicy) (header : CommitHeader)
    (op : CommitOperation) :
    KeepsOpIndex opIndex (view.validateOperation policy header numbering op) := by
  cases op with
  | createDirectory child parent displayName =>
    exact .check fun _ => .check fun _ => .check fun _ => createDeltas same
  | createFile child parent displayName contentRef =>
    exact .check fun _ => .check fun _ => .check fun _ => createDeltas same
  | replaceFile node baseRevisionNo contentRef appendOffset =>
    exact .check fun _ => .check fun _ => .check fun _ => .check fun _ =>
      .numbered (revisionDelta same) fun _ _ => .pure
  | restoreRevision node sourceRevisionNo baseRevisionNo =>
    exact .check fun _ => .check fun _ => .check fun _ => .check fun _ => .check fun _ =>
      .numbered (revisionDelta same) fun _ _ => .pure
  | deleteFile node sourceBinding =>
    exact .check fun _ => .check fun _ => .check fun _ => deleteDeltas same
  | rename node sourceBinding newParentInodeId newDisplayName =>
    exact .check fun _ => .check fun _ => .check fun _ => .check fun _ => .check fun _ =>
      .check fun _ => .check fun _ => .check fun _ =>
        .numbered (unbindDelta same) fun _ _ unbound =>
          .numbered (bindDelta unbound) fun _ _ => .pure
  | deleteSubtree rootInodeId sourceBinding requireEmpty =>
    refine .check fun _ => .check fun _ => .check fun occupied => ?_
    cases occupied with
    | true => exact fun _ _ accepted => nomatch accepted
    | false => exact .check fun _ => deleteDeltas same
  | undelete node deletionSeq parentInodeId displayName =>
    exact .check fun _ => .check fun _ => .check fun _ => .check fun _ => .check fun _ =>
      .check fun _ => .numbered (reserve same) fun _ _ revoked =>
        .numbered (bindDelta revoked) fun _ _ => .pure
  | updateAttributes node baseNo attributes =>
    exact .check fun _ => .check fun _ => .check fun _ => .numbered (reserve same) fun _ _ => .pure
  | updateAccess node baseNo boundary grants =>
    exact .check fun _ => .check fun _ => .check fun _ => .numbered (reserve same) fun _ _ => .pure

end KeepsOpIndex

structure OperationGroup where
  opIndex : Nat
  deltas : List WalDelta

def OperationGroup.marked (group : OperationGroup) : List WalCommitDelta :=
  group.deltas.map fun delta => ⟨group.opIndex, delta⟩

structure OperationGroups (header : CommitHeader) (first : Nat) (groups : List OperationGroup) :
    Prop where
  ordered : groups.Pairwise fun earlier later => earlier.opIndex < later.opIndex
  numbered : ∀ group ∈ groups, first ≤ group.opIndex
  effects : ∀ group ∈ groups, ∃ snapshot firstDelta,
    Effect snapshot header firstDelta group.deltas

theorem Effect.deltas_ne_nil (effect : Effect snapshot header first deltas) : deltas ≠ [] := by
  cases effect <;> simp

theorem OperationGroups.semanticOperationGroups (grouped : OperationGroups header first groups) :
    LoonFs.semanticOperationGroups (groups.flatMap OperationGroup.marked) =
      groups.map OperationGroup.marked := by
  have nonempty : ∀ group ∈ groups, group.marked ≠ [] := by
    intro group mem empty
    rcases grouped.effects group mem with ⟨snapshot, firstDelta, effect⟩
    exact effect.deltas_ne_nil (map_eq_nil_iff.mp empty)
  have index : ∀ (group : OperationGroup), ∀ delta ∈ group.marked,
      delta.semanticOperationIndex = group.opIndex := by
    intro group delta mem
    rcases mem_map.mp mem with ⟨_, _, rfl⟩
    rfl
  rw [LoonFs.semanticOperationGroups, flatMap_def]
  apply splitBy_flatten
  · intro mem
    rcases mem_map.mp mem with ⟨group, isGroup, empty⟩
    exact nonempty group isGroup empty
  · intro marked mem
    rcases mem_map.mp mem with ⟨group, isGroup, rfl⟩
    apply List.Pairwise.isChain
    apply pairwise_of_forall_mem_list
    intro left isLeft right isRight
    simp [index group left isLeft, index group right isRight]
  · apply List.Pairwise.isChain
    rw [pairwise_map]
    apply grouped.ordered.imp_of_mem
    intro past later isEarlier isLater less
    refine ⟨nonempty past isEarlier, nonempty later isLater, ?_⟩
    rw [index past _ (getLast_mem _), index later _ (head_mem _)]
    simpa using less.ne

namespace CommitValidationSession

variable {policy : NamePolicy} {revisionLayout : ContentRef → Option ContentLayout}

theorem validateNext_marks {session : CommitValidationSession}
    (accepted : session.validateNext policy revisionLayout op = .ok (deltas, new)) :
    deltas = OperationGroup.marked
        ⟨session.numbering.nextOpIndex, deltas.map WalCommitDelta.delta⟩ ∧
      new.numbering.nextOpIndex = session.numbering.nextOpIndex + 1 := by
  rcases bind_eq_ok.mp accepted with ⟨⟨opIndex, numbering⟩, reserved, accepted⟩
  rcases bind_eq_ok.mp accepted with ⟨⟨operationDeltas, after⟩, validated, accepted⟩
  cases accepted
  rw [CommitNumbering.reserveOpIndex] at reserved
  split at reserved <;> cases reserved
  constructor
  · simp [OperationGroup.marked]
  · exact KeepsOpIndex.validateOperation rfl _ _ _ op _ _ validated

inductive Emits (policy : NamePolicy) (revisionLayout : ContentRef → Option ContentLayout) :
    CommitValidationSession → List CommitOperation → List (List WalCommitDelta) → Prop
  | nil {session : CommitValidationSession} : Emits policy revisionLayout session [] []
  | cons {session next : CommitValidationSession} {op : CommitOperation}
      {ops : List CommitOperation} {deltas : List WalCommitDelta}
      {groups : List (List WalCommitDelta)}
      (accepted : session.validateNext policy revisionLayout op = .ok (deltas, next))
      (rest : Emits policy revisionLayout next ops groups) :
      Emits policy revisionLayout session (op :: ops) (deltas :: groups)

theorem validate_groups : ∀ {session final : CommitValidationSession} {before : List WalDelta}
      {deltas : List WalCommitDelta}, Reaches older start session before →
      session.Planned policy revisionLayout ops →
      session.validate policy revisionLayout ops = .ok (deltas, final) →
      ∃ groups : List OperationGroup, deltas = groups.flatMap OperationGroup.marked ∧
        OperationGroups session.header session.numbering.nextOpIndex groups ∧
        session.Emits policy revisionLayout ops (groups.map OperationGroup.marked) := by
  induction ops with
  | nil =>
    intro session final before deltas _ _ accepted
    cases accepted
    exact ⟨[], rfl, ⟨.nil, by simp, by simp⟩, .nil⟩
  | cons op ops induction =>
    intro session final before deltas reaches planned accepted
    rcases bind_eq_ok.mp accepted with ⟨⟨opDeltas, new⟩, acceptedOp, accepted⟩
    rcases bind_eq_ok.mp accepted with ⟨⟨rest, last⟩, acceptedRest, accepted⟩
    cases accepted
    rcases reaches.next planned.1 acceptedOp with ⟨effect, sameHeader, reachesNext⟩
    rcases validateNext_marks acceptedOp with ⟨marked, nextIndex⟩
    have nextPlanned := planned.2
    rw [acceptedOp] at nextPlanned
    rcases induction reachesNext nextPlanned acceptedRest with ⟨groups, isRest, grouped, emits⟩
    rw [sameHeader, nextIndex] at grouped
    refine ⟨⟨session.numbering.nextOpIndex, opDeltas.map WalCommitDelta.delta⟩ :: groups, ?_,
      ⟨?_, ?_, ?_⟩, .cons (marked ▸ acceptedOp) emits⟩
    · rw [flatMap_cons, ← marked, isRest]
    · exact pairwise_cons.mpr
        ⟨fun group mem => grouped.numbered group mem, grouped.ordered⟩
    · exact forall_mem_cons.mpr ⟨le_rfl, fun group mem =>
        (Nat.le_succ _).trans (grouped.numbered group mem)⟩
    · exact forall_mem_cons.mpr ⟨⟨_, _, effect⟩, grouped.effects⟩

end CommitValidationSession

theorem Accepted.groups (accepted : Accepted policy state record)
    (ready : Ready record.header state 0) :
    ∃ groups, record.deltas = groups.flatMap OperationGroup.marked ∧
      OperationGroups record.header 0 groups := by
  rcases accepted with ⟨older, batch, floor, revisionLayout, ops, final, rfl, planned, validated⟩
  rcases CommitValidationSession.validate_groups
    ⟨rfl, MetadataState.append_empty _, rfl, ready, .start⟩ planned validated with
    ⟨groups, isDeltas, grouped, _⟩
  exact ⟨groups, isDeltas, grouped⟩

end LoonFs
