import LoonFs.Manifest.Payload

/-! # Succession of manifests -/

namespace LoonFs

namespace NamespaceManifestPayload

structure Succession (manifests : List NamespaceManifestPayload) : Prop where
  first : ∀ manifest, manifests.head? = some manifest → manifest.ensureFirstManifest = .ok ()
  successors : manifests.IsChain fun manifest next => manifest.ensureSuccessor next = .ok ()

structure Precedes (manifest later : NamespaceManifestPayload) : Prop where
  follows : manifest.Follows later
  less : manifest.manifestNo < later.manifestNo
  inRange : later.manifestNo ≤ maxPublicInteger

instance : IsTrans NamespaceManifestPayload Precedes where
  trans _ _ _ lower upper :=
    ⟨lower.follows.trans upper.follows, lower.less.trans upper.less, upper.inRange⟩

variable {manifest : NamespaceManifestPayload}

theorem precedes_of_ensureSuccessor (accepted : manifest.ensureSuccessor next = .ok ()) :
    manifest.Precedes next := by
  obtain ⟨follows, numbered⟩ := ensureSuccessor_eq_ok.mp accepted
  obtain ⟨isNext, inRange⟩ := nextPublicOrdinal_eq_some.mp numbered
  exact ⟨follows, isNext ▸ Nat.lt_succ_self _, isNext ▸ inRange⟩

theorem Succession.pairwise (succession : Succession manifests) : manifests.Pairwise Precedes := by
  rw [← List.isChain_iff_pairwise]
  exact succession.successors.imp fun _ _ => precedes_of_ensureSuccessor

variable {later : NamespaceManifestPayload}

theorem Precedes.ensureLater (precedes : manifest.Precedes later) :
    manifest.ensureLater later = .ok () :=
  ensureLater_eq_ok.mpr ⟨precedes.follows, precedes.less⟩

theorem Precedes.ensureFollowedBy (precedes : manifest.Precedes later)
    (numbered : next = true → later.manifestNo = manifest.manifestNo + 1) :
    manifest.ensureFollowedBy later next = .ok () := by
  rw [ensureFollowedBy_eq_ok]
  refine ⟨precedes.follows, ?_⟩
  cases next with
  | false => exact precedes.less
  | true =>
    have isNext := numbered rfl
    exact nextPublicOrdinal_eq_some.mpr ⟨isNext, isNext ▸ precedes.inRange⟩

structure Grows (manifest later : NamespaceManifestPayload) : Prop where
  headSeq : manifest.headSeq ≤ later.headSeq
  foldedWalNo : manifest.foldedWalNo ≤ later.foldedWalNo
  writerEpoch : manifest.writerEpoch ≤ later.writerEpoch
  compactorEpoch : manifest.compactorEpoch ≤ later.compactorEpoch
  nextRunNo : manifest.nextRunNo ≤ later.nextRunNo
  retentionFloorSeq : manifest.retentionFloorSeq ≤ later.retentionFloorSeq
  contentBytes : manifest.activity.contentBytes ≤ later.activity.contentBytes
  fileRevisions : manifest.activity.fileRevisions ≤ later.activity.fileRevisions
  mutations : manifest.activity.mutations ≤ later.activity.mutations

theorem Follows.grows (follows : manifest.Follows later) : manifest.Grows later :=
  ⟨follows.headSeq, follows.foldedWalNo, follows.writerEpoch, follows.compactorEpoch,
    follows.nextRunNo, follows.retentionFloorSeq, follows.contentBytes, follows.fileRevisions,
    follows.mutations⟩

end NamespaceManifestPayload

open NamespaceManifestPayload

/-- The checks accept every two manifests of a succession, and nothing follows a deleted one. -/
theorem succession_transitive {manifests : List NamespaceManifestPayload}
    (succession : Succession manifests) :
    manifests.Pairwise (fun manifest later =>
      manifest.ensureLater later = .ok () ∧
      (∀ next : Bool, (next = true → later.manifestNo = manifest.manifestNo + 1) →
        manifest.ensureFollowedBy later next = .ok ()) ∧
      manifest.Grows later ∧ manifest.status.isDeleted = false) ∧
    ∀ manifest ∈ manifests, manifest.status.isDeleted = true →
      ∀ next, manifest.ensureSuccessor next ≠ .ok () := by
  refine ⟨succession.pairwise.imp fun precedes => ?_, ?_⟩
  · exact ⟨precedes.ensureLater, fun _ => precedes.ensureFollowedBy, precedes.follows.grows,
      precedes.follows.active⟩
  · intro manifest _ deleted next accepted
    have active := (ensureSuccessor_eq_ok.mp accepted).1.active
    rw [deleted] at active
    cases active

def sampleSuccession : List NamespaceManifestPayload :=
  let first := NamespaceManifestPayload.initial "ns" 5 "actor" .unrestricted
  [first, { first with manifestNo := 2, writerEpoch := 1, writer := some ⟨"writer", 6⟩ },
    { first with manifestNo := 3, writerEpoch := 1, status := .deleted 9 }]

theorem succession_transitive_deleted :
    Succession sampleSuccession ∧
      sampleSuccession.Pairwise (fun manifest later => manifest.ensureLater later = .ok ()) := by
  have succession : Succession sampleSuccession :=
    ⟨by intro manifest isFirst; cases isFirst; rfl, by decide⟩
  exact ⟨succession, (succession_transitive succession).1.imp fun accepted => accepted.1⟩

end LoonFs
