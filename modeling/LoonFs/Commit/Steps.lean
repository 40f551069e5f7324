import LoonFs.Commit.Preservation
import LoonFs.Metadata.SameRows

/-! # Validated commits as steps -/

namespace LoonFs

open Foundation List MetadataState

/-- After some operations of a commit the rows are in order and the snapshot is consistent. -/
structure Ready (header : CommitHeader) (state : MetadataState) (first : Nat) : Prop where
  ordered : state.Ordered ⟨header.committedSeq, first⟩
  root_unbound : ∀ row ∈ state.direntryBinds, row.childInodeId ≠ rootInodeId
  consistent : (state.snapshotAt header.committedSeq).Consistent

variable {state : MetadataState}

theorem MetadataState.binding_mem (found : (state.snapshotAt seq).binding node = some event) :
    event ∈ state.direntryBinds ∧ event.isBindingEvent = true ∧ event.committedSeq ≤ seq := by
  rw [Snapshot.binding] at found
  split at found
  · cases found
  · have newest := (Option.filter_eq_some_iff.mp found).1
    rw [snapshotAt, FamilyRows.snapshotAt_child] at newest
    have mem := (newestOf_isNewest newest).1
    simp only [familyRows, mem_filter, decide_eq_true_eq] at mem
    exact ⟨mem.1.1.1, mem.1.1.2, mem.2⟩

theorem MetadataState.family_applyDeltas {Row : Type} {family : MetadataState → List Row}
    (appends : ∀ left right, family (left ++ right) = family left ++ family right)
    (state : MetadataState) (header : CommitHeader) (deltas : List WalDelta) :
    family (state.applyCommittedWalDeltas header deltas) =
      family state ++ deltas.flatMap fun delta => family (deltaRows header delta) := by
  induction deltas generalizing state with
  | nil => simp [applyCommittedWalDeltas]
  | cons delta rest induction =>
    have step : state.applyCommittedWalDeltas header (delta :: rest) =
      (state ++ deltaRows header delta).applyCommittedWalDeltas header rest := rfl
    rw [step, induction, appends, List.flatMap_cons, List.append_assoc]

variable {header : CommitHeader} {deltas : List WalDelta}

theorem MetadataState.mem_binds_applyDeltas :
    row ∈ (state.applyCommittedWalDeltas header deltas).direntryBinds ↔ row ∈ state.direntryBinds ∨
        ∃ delta ∈ deltas, row ∈ (deltaRows header delta).direntryBinds := by
  rw [family_applyDeltas append_direntryBinds, mem_append, mem_flatMap]

theorem Ready.below (ready : Ready header state first) : ∀ node event,
      (state.snapshotAt header.committedSeq).binding node = some event →
      event.position < ⟨header.committedSeq, first⟩ :=
  fun _ event found => ready.ordered.binds.below event (binding_mem found).1

theorem Ready.effect (ready : Ready header state first)
    (effect : Effect (state.snapshotAt header.committedSeq) header first deltas) :
    Ready header (state.applyCommittedWalDeltas header deltas) (first + deltas.length) ∧
      (state.applyCommittedWalDeltas header deltas).snapshotAt header.committedSeq =
        (state.snapshotAt header.committedSeq).addDeltas header deltas := by
  rcases ready.ordered.replay (effect.replayable ready.consistent) with ⟨ordered, eq⟩
  refine ⟨⟨ordered, ?_, ?_⟩, eq⟩
  · intro row mem
    rcases mem_binds_applyDeltas.mp mem with before | ⟨delta, isDelta, added⟩
    · exact ready.root_unbound row before
    · exact effect.root_unbound ready.consistent delta isDelta row added
  · rw [eq]
    exact effect.consistent ready.consistent ready.below

theorem MetadataState.applyCommittedWalDeltas_append (state : MetadataState)
    (header : CommitHeader) (first second : List WalDelta) :
    state.applyCommittedWalDeltas header (first ++ second) =
      (state.applyCommittedWalDeltas header first).applyCommittedWalDeltas header second :=
  foldl_append ..

inductive CommitSteps (header : CommitHeader) (start : MetadataState) : List WalDelta → Prop
  | start : CommitSteps header start []
  | operation {before deltas : List WalDelta} (steps : CommitSteps header start before)
      (effect : Effect ((start.applyCommittedWalDeltas header before).snapshotAt
        header.committedSeq) header before.length deltas) :
      CommitSteps header start (before ++ deltas)

variable {start : MetadataState}

theorem CommitSteps.ready (steps : CommitSteps header start deltas) (ready : Ready header start 0) :
    Ready header (start.applyCommittedWalDeltas header deltas) deltas.length := by
  induction steps with
  | start => exact ready
  | operation steps effect induction =>
    rw [applyCommittedWalDeltas_append, length_append]
    exact (induction.effect effect).1

theorem CommitSteps.writesSummary (steps : CommitSteps header start deltas)
    (ready : Ready header start 0) : ∀ delta ∈ deltas, delta.WritesSummary header := by
  induction steps with
  | start => simp
  | operation steps effect induction =>
    intro delta mem
    rcases mem_append.mp mem with past | added
    · exact induction delta past
    · have here := steps.ready ready
      exact effect.writesSummary here.consistent here.below delta added

namespace FamilyRows

theorem sameRows_append (first second third : MetadataState) :
    (third.familyRows ++ second.familyRows ++ first.familyRows).SameRows
      (first ++ second ++ third).familyRows := by
  have reorder : ∀ {Row : Type} (first second third : List Row),
      (third ++ second ++ first).Perm (first ++ second ++ third) := by
    intro Row first second third
    rw [append_assoc first]
    exact perm_append_comm.trans (perm_append_comm.append_left first)
  rw [familyRows_append, familyRows_append]
  exact ⟨reorder .., reorder .., reorder .., reorder .., reorder .., reorder .., reorder ..⟩

end FamilyRows

theorem MetadataState.append_applyCommittedWalDeltas (before overlay : MetadataState)
    (header : CommitHeader) (deltas : List WalDelta) :
    before ++ overlay.applyCommittedWalDeltas header deltas =
      (before ++ overlay).applyCommittedWalDeltas header deltas := by
  induction deltas generalizing overlay with
  | nil => rfl
  | cons delta rest induction =>
    change before ++ (overlay ++ deltaRows header delta).applyCommittedWalDeltas header rest =
      (before ++ overlay ++ deltaRows header delta).applyCommittedWalDeltas header rest
    rw [induction, append_assoc]

namespace CommitValidationSession

/-- Everything that the session's next operation is validated against. -/
def stateOver (session : CommitValidationSession) (older : MetadataState) : MetadataState :=
  older ++ session.batchAccepted ++ session.overlay

def Planned (policy : NamePolicy) (revisionLayout : ContentRef → Option ContentLayout) :
    CommitValidationSession → List CommitOperation → Prop
  | _, [] => True
  | session, op :: ops =>
    op.PlannedOver session.view.rows ∧
      match session.validateNext policy revisionLayout op with
      | .ok (_, next) => next.Planned policy revisionLayout ops
      | .error _ => True

variable {older : MetadataState} {session : CommitValidationSession}

theorem snapshot_view (base : session.base = older.familyRows)
    (ready : Ready session.header (session.stateOver older) session.numbering.nextDeltaIndex) :
    session.view.snapshot = (session.stateOver older).snapshotAt session.header.committedSeq := by
  have same := FamilyRows.sameRows_append older session.batchAccepted session.overlay
  rw [← base] at same
  exact same.snapshotAt ready.ordered.distinct _

theorem validateNext_step {next : CommitValidationSession} {op : CommitOperation}
    {deltas : List WalCommitDelta} (base : session.base = older.familyRows)
    (ready : Ready session.header (session.stateOver older) session.numbering.nextDeltaIndex)
    (planned : op.PlannedOver session.view.rows)
    (accepted : session.validateNext policy revisionLayout op = .ok (deltas, next)) :
    Effect ((session.stateOver older).snapshotAt session.header.committedSeq) session.header
        session.numbering.nextDeltaIndex (deltas.map (·.delta)) ∧
      next.base = session.base ∧ next.header = session.header ∧ next.numbering.nextDeltaIndex =
        session.numbering.nextDeltaIndex + (deltas.map (·.delta)).length ∧
      next.stateOver older = (session.stateOver older).applyCommittedWalDeltas session.header
        (deltas.map (·.delta)) := by
  rcases bind_eq_ok.mp accepted with ⟨⟨opIndex, numbering⟩, reserved, accepted⟩
  rcases bind_eq_ok.mp accepted with ⟨⟨operationDeltas, after⟩, validated, accepted⟩
  cases accepted
  have firstIndex : numbering.nextDeltaIndex = session.numbering.nextDeltaIndex := by
    rw [CommitNumbering.reserveOpIndex] at reserved
    split at reserved
    · cases reserved
      rfl
    · cases reserved
  have consistent := ready.consistent
  rw [← snapshot_view base ready] at consistent ⊢
  rcases session.view.validateOperation_yields consistent rfl planned validated with
    ⟨effect, advanced⟩
  rw [firstIndex] at effect advanced
  have mapped : ((operationDeltas.map (WalDelta.withLayout revisionLayout)).map
      fun delta => (⟨opIndex, delta⟩ : WalCommitDelta)).map (·.delta) =
      operationDeltas.map (WalDelta.withLayout revisionLayout) := by
    rw [map_map]
    exact map_id _
  simp only [mapped]
  refine ⟨effect.withLayout revisionLayout, trivial, trivial, by simpa using advanced, ?_⟩
  exact append_applyCommittedWalDeltas _ _ _ _

structure Reaches (older start : MetadataState) (session : CommitValidationSession)
    (before : List WalDelta) : Prop where
  base : session.base = older.familyRows
  state : session.stateOver older = start.applyCommittedWalDeltas session.header before
  numbered : session.numbering.nextDeltaIndex = before.length
  ready : Ready session.header start 0
  steps : CommitSteps session.header start before

theorem Reaches.next {next : CommitValidationSession} {op : CommitOperation}
    {before : List WalDelta} {deltas : List WalCommitDelta}
    (reaches : Reaches older start session before) (planned : op.PlannedOver session.view.rows)
    (accepted : session.validateNext policy revisionLayout op = .ok (deltas, next)) :
    Effect ((start.applyCommittedWalDeltas session.header before).snapshotAt
        session.header.committedSeq) session.header before.length
        (deltas.map (·.delta)) ∧ next.header = session.header ∧
      Reaches older start next (before ++ deltas.map (·.delta)) := by
  rcases reaches with ⟨base, state, numbered, ready, steps⟩
  have here := steps.ready ready
  rw [← state, ← numbered] at here
  rcases validateNext_step base here planned accepted with
    ⟨effect, sameBase, sameHeader, advanced, nextState⟩
  rw [state, numbered] at effect
  rw [state, ← applyCommittedWalDeltas_append, ← sameHeader] at nextState
  rw [numbered, ← length_append] at advanced
  have nextSteps := steps.operation effect
  rw [← sameHeader] at ready nextSteps
  exact ⟨effect, sameHeader, sameBase.trans base, nextState, advanced, ready, nextSteps⟩

theorem validate_steps {ops : List CommitOperation} :
    ∀ {session final : CommitValidationSession} {before : List WalDelta}
      {deltas : List WalCommitDelta}, Reaches older start session before →
      session.Planned policy revisionLayout ops →
      session.validate policy revisionLayout ops = .ok (deltas, final) →
      CommitSteps session.header start (before ++ deltas.map (·.delta)) := by
  induction ops with
  | nil =>
    intro session final before deltas reaches _ accepted
    cases accepted
    simpa using reaches.steps
  | cons op ops induction =>
    intro session final before deltas reaches planned accepted
    rcases bind_eq_ok.mp accepted with ⟨⟨opDeltas, next⟩, acceptedOp, accepted⟩
    rcases bind_eq_ok.mp accepted with ⟨⟨rest, last⟩, acceptedRest, accepted⟩
    cases accepted
    rcases reaches.next planned.1 acceptedOp with ⟨_, sameHeader, reachesNext⟩
    have nextPlanned := planned.2
    rw [acceptedOp] at nextPlanned
    rw [← sameHeader, List.map_append, ← List.append_assoc]
    exact induction reachesNext nextPlanned acceptedRest

end CommitValidationSession

end LoonFs
