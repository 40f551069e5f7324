import LoonFs.History

/-! # Running histories -/

namespace LoonFs

instance CommitOperation.decidablePlannedOver (rows : FamilyRows) (op : CommitOperation) :
    Decidable (op.PlannedOver rows) :=
  match op with
  | .createDirectory .. | .createFile .. =>
    inferInstanceAs (Decidable (∀ record ∈ rows.inodes, record.inodeId ≠ _))
  | .deleteFile .. | .rename .. | .deleteSubtree .. => inferInstanceAs (Decidable (_ = _))
  | .replaceFile .. | .restoreRevision .. | .undelete .. | .updateAttributes ..
  | .updateAccess .. => inferInstanceAs (Decidable True)

instance CommitValidationSession.decidablePlanned (policy : NamePolicy)
    (revisionLayout : ContentRef → Option ContentLayout) :
    (ops : List CommitOperation) → (session : CommitValidationSession) →
    Decidable (session.Planned policy revisionLayout ops)
  | [], _ => .isTrue trivial
  | op :: ops, session =>
    have _ : Decidable (match session.validateNext policy revisionLayout op with
        | .ok (_, next) => next.Planned policy revisionLayout ops
        | .error _ => True) :=
      match session.validateNext policy revisionLayout op with
      | .ok (_, next) => decidablePlanned policy revisionLayout ops next
      | .error _ => .isTrue trivial
    inferInstanceAs (Decidable (_ ∧ _))

structure Run where
  history : List WalCommitPayload
  state : MetadataState

namespace Run

def genesis : Run := ⟨[], MetadataState.bootstrap 0 []⟩

def commit (policy : NamePolicy) (run : Run) (ops : List CommitOperation) : Option Run :=
  let header : CommitHeader :=
    { committedSeq := run.history.length + 1
      commitId := "c_commit"
      actorId := "writer"
      committedAtMs := 1000 + run.history.length }
  let session : CommitValidationSession :=
    { base := run.state.familyRows
      batchAccepted := {}
      retentionFloorSeq := 0
      header }
  if session.Planned policy (fun _ => none) ops then
    match session.validate policy (fun _ => none) ops with
    | .error _ => none
    | .ok (deltas, _) =>
      let record : WalCommitPayload :=
        { committedSeq := header.committedSeq
          commitId := header.commitId
          committedBy := header.actorId
          semanticCommitFingerprint := ""
          committedAtMs := header.committedAtMs
          message := none
          merge := none
          deltas }
      some ⟨run.history ++ [record], run.state.applyCommittedWalRecord record⟩
  else none

def commits (policy : NamePolicy) : Run → List (List CommitOperation) → Option Run
  | run, [] => some run
  | run, ops :: rest => (run.commit policy ops).bind fun next => next.commits policy rest

theorem commit_reachable {run : Run} (reachable : Reachable policy run.history run.state)
    (committed : run.commit policy ops = some next) : Reachable policy next.history next.state := by
  rw [commit] at committed
  split at committed
  · rename_i planned
    split at committed
    · cases committed
    · rename_i deltas final validated
      cases committed
      exact reachable.commit rfl ⟨run.state, {}, 0, fun _ => none, ops, final,
        (MetadataState.append_empty _).symm, planned, validated⟩
  · cases committed

theorem commits_reachable {commits : List (List CommitOperation)} :
    ∀ {run final : Run}, Reachable policy run.history run.state →
      run.commits policy commits = some final → Reachable policy final.history final.state := by
  induction commits with
  | nil =>
    intro run final reachable ran
    cases ran
    exact reachable
  | cons ops rest induction =>
    intro run final reachable ran
    rcases Option.bind_eq_some_iff.mp ran with ⟨next, committed, ran⟩
    exact induction (commit_reachable reachable committed) ran

end Run

def NamePolicy.plain : NamePolicy where
  normalize := id
  foldString := id

def sampleContent (sizeBytes : Nat) : ContentRef where
  contentId := "content"
  sizeBytes
  checksum := { algorithm := "sha256", value := "" }

def sampleCommits : List (List CommitOperation) := [
  [.createDirectory 1 0 "docs", .createFile 2 1 "readme" (sampleContent 3)],
  [.rename 2
    { parentInodeId := 1
      nameKey := "readme"
      displayName := "readme"
      childInodeId := 2
      bindPosition := ⟨1, 3⟩ } 0 "readme",
    .replaceFile 2 1 (sampleContent 5) none],
  [.deleteSubtree 1
    { parentInodeId := 0
      nameKey := "docs"
      displayName := "docs"
      childInodeId := 1
      bindPosition := ⟨1, 1⟩ } true],
  [.undelete 1 3 0 "docs"]]

def sampleRun : Run := (Run.genesis.commits .plain sampleCommits).getD Run.genesis

theorem sampleRun_reachable : Reachable .plain sampleRun.history sampleRun.state := by
  have ran : (Run.genesis.commits .plain sampleCommits).isSome = true := by decide +kernel
  rcases Option.isSome_iff_exists.mp ran with ⟨final, ran⟩
  rw [sampleRun, ran]
  exact Run.commits_reachable (.genesis 0 []) ran

end LoonFs
