import LoonFs.Wal.Object
import Mathlib.Data.List.Dedup

/-! # What an accepted WAL object satisfies -/

namespace LoonFs

open Foundation List Option

def WalInlineContent.run (entry : WalInlineContent) : Foundation.Run :=
  ⟨entry.offset, entry.bytes.length⟩

namespace WalRecord

variable {record : WalRecord} {contentId : ContentId}

structure IsLargestReference (record : WalRecord) (contentId : ContentId) (finish : Nat) :
    Prop where
  attained : ∃ revision ∈ record.revisions,
    revision.1.contentId = contentId ∧ revision.1.sizeBytes = finish
  bounds : ∀ revision ∈ record.revisions,
    revision.1.contentId = contentId → revision.1.sizeBytes ≤ finish

structure PiecesRun (record : WalRecord) (contentId : ContentId) (first finish : Nat) : Prop where
  ascending : (record.pieces contentId).Pairwise fun left right => left.offset < right.offset
  tiling : Tiling first ((record.pieces contentId).map WalInlineContent.run) finish
  largest : record.IsLargestReference contentId finish

/-- What the rules give for one record: the pieces of a chain run on from one another, behind
a layout that has every byte before them once. -/
structure Accepted (record : WalRecord) : Prop where
  pieces : ∀ contentId first rest, record.pieces contentId = first :: rest →
    ∃ finish, record.PiecesRun contentId first.offset finish
  whole : ∀ revision ∈ record.revisions, ∀ first rest,
    record.pieces revision.1.contentId = first :: rest → first.offset = 0 → revision.2 = none
  continued : ∀ revision ∈ record.revisions, ∀ layout first rest, revision.2 = some layout →
    record.pieces revision.1.contentId = first :: rest →
    ∃ finish, record.IsLargestReference revision.1.contentId finish ∧
      CoversOnce 0
        (layout.runs ++ (record.pieces revision.1.contentId).map WalInlineContent.run) finish
  stored : ∀ revision ∈ record.revisions, record.pieces revision.1.contentId = [] →
    ∃ layout, revision.2 = some layout ∧ CoversOnce 0 layout.runs revision.1.sizeBytes

/-! ## References -/

/-- One revision's part of the largest reference to a chain. -/
private def raise (contentId : ContentId) (finish : Option Nat)
    (revision : ContentRef × Option ContentLayout) : Option Nat :=
  if revision.1.contentId = contentId then
    some (max (finish.getD 0) revision.1.sizeBytes)
  else
    finish

private theorem raise_cases (contentId : ContentId) (reached : Option Nat)
    (revision : ContentRef × Option ContentLayout) :
    (revision.1.contentId ≠ contentId ∧ raise contentId reached revision = reached) ∨
    (revision.1.contentId = contentId ∧ ∃ size, raise contentId reached revision = some size ∧
      (reached = some size ∨ revision.1.sizeBytes = size) ∧
      revision.1.sizeBytes ≤ size ∧ ∀ past, reached = some past → past ≤ size) := by
  rw [raise]
  split
  case isFalse ne => exact .inl ⟨ne, rfl⟩
  case isTrue same =>
    refine .inr ⟨same, _, rfl, ?_, le_max_right _ _, ?_⟩
    · cases reached with
      | none => exact .inr (Nat.zero_max _).symm
      | some past =>
        rcases max_choice past revision.1.sizeBytes with left | right
        · exact .inl (congrArg some left.symm)
        · exact .inr right.symm
    · intro past isReached
      rw [isReached]
      exact le_max_left _ _

private theorem foldl_raise {revisions : List (ContentRef × Option ContentLayout)}
    (result : revisions.foldl (raise contentId) reached = some finish) :
    (reached = some finish ∨ ∃ revision ∈ revisions,
      revision.1.contentId = contentId ∧ revision.1.sizeBytes = finish) ∧
    (∀ size, reached = some size → size ≤ finish) ∧
    ∀ revision ∈ revisions, revision.1.contentId = contentId → revision.1.sizeBytes ≤ finish := by
  induction revisions generalizing reached with
  | nil =>
    rw [foldl_nil] at result
    refine ⟨.inl result, fun size same => ?_, by simp⟩
    cases result.symm.trans same
    exact le_refl _
  | cons revision revisions induction =>
    rw [foldl_cons] at result
    rcases induction result with ⟨attained, reachedBound, bounds⟩
    have later : (∃ other ∈ revisions, other.1.contentId = contentId ∧
        other.1.sizeBytes = finish) → ∃ other ∈ revision :: revisions,
          other.1.contentId = contentId ∧ other.1.sizeBytes = finish := fun
      | ⟨other, mem, facts⟩ => ⟨other, mem_cons_of_mem _ mem, facts⟩
    rcases raise_cases contentId reached revision with
      ⟨ne, unchanged⟩ | ⟨same, size, raised, isMax, ownBound, earlierBound⟩
    · rw [unchanged] at attained reachedBound
      refine ⟨attained.imp_right later, reachedBound, forall_mem_cons.mpr ⟨?_, bounds⟩⟩
      exact fun same => absurd same ne
    · rw [raised] at attained reachedBound
      have sizeBound := reachedBound size rfl
      refine ⟨?_, fun past isReached => (earlierBound past isReached).trans sizeBound,
        forall_mem_cons.mpr ⟨fun _ => ownBound.trans sizeBound, bounds⟩⟩
      rcases attained with isSize | attained
      · cases isSize
        exact isMax.imp_right fun own => ⟨revision, by simp, same, own⟩
      · exact .inr (later attained)

theorem referenceEnd_isLargest (isEnd : record.referenceEnd contentId = some finish) :
    record.IsLargestReference contentId finish := by
  rcases foldl_raise isEnd with ⟨attained, _, bounds⟩
  refine ⟨?_, bounds⟩
  rcases attained with impossible | attained
  · cases impossible
  · exact attained

/-! ## Pieces -/

theorem mem_pieces : entry ∈ record.pieces contentId ↔
      entry ∈ record.inlineContent ∧ entry.contentId = contentId := by
  rw [pieces, mem_insertionSort, mem_filter, decide_eq_true_iff]

/-- Two entries are of one chain at one offset. -/
def SamePlace (left right : WalInlineContent) : Prop :=
  left.contentId = right.contentId ∧ left.offset = right.offset

theorem checkEntries_ok (checked : record.checkEntries totalBytes seen entries = .ok result) :
    entries.Pairwise (fun left right => ¬SamePlace left right) ∧
    (∀ past ∈ seen, ∀ entry ∈ entries, ¬SamePlace past entry) ∧
      ∀ entry ∈ entries, record.referenceEnd entry.contentId ≠ none := by
  induction entries generalizing totalBytes seen with
  | nil => exact ⟨.nil, by simp, by simp⟩
  | cons entry entries induction =>
    simp only [checkEntries, bind_eq_ok] at checked
    rcases checked with ⟨_, _, _, _, _, referenced, _, isNew, checked⟩
    rcases induction checked with ⟨distinct, apart, others⟩
    have isNew := refuseIf_eq_ok.mp isNew
    refine ⟨pairwise_cons.mpr ⟨apart entry (by simp), distinct⟩, ?_,
      forall_mem_cons.mpr ⟨refuseIf_eq_ok.mp referenced, others⟩⟩
    intro past mem
    refine forall_mem_cons.mpr ⟨fun same => isNew ⟨past, mem, same⟩, ?_⟩
    exact apart past (mem_cons_of_mem _ mem)

theorem pieces_ascending
    (distinct : record.inlineContent.Pairwise fun left right => ¬SamePlace left right) :
    (record.pieces contentId).Pairwise fun left right => left.offset < right.offset := by
  have sorted : (record.pieces contentId).Pairwise fun left right =>
      left.offset ≤ right.offset := pairwise_insertionSort _ _
  have apart : (record.pieces contentId).Pairwise fun left right => ¬SamePlace left right := by
    apply ((perm_insertionSort _ _).pairwise_iff _).mpr
    · exact List.Pairwise.sublist filter_sublist distinct
    · exact fun ne same => ne ⟨same.1.symm, same.2.symm⟩
  apply (sorted.and apart).imp_of_mem
  intro left right leftMem rightMem ⟨ordered, ne⟩
  have sameChain := (mem_pieces.mp leftMem).2.trans (mem_pieces.mp rightMem).2.symm
  exact lt_of_le_of_ne ordered fun sameOffset => ne ⟨sameChain, sameOffset⟩

theorem piecesEnd_tiling
    (ends : record.piecesEnd contentId (some start) entries = .ok (some finish)) :
    Tiling start (entries.map WalInlineContent.run) finish := by
  induction entries generalizing start with
  | nil =>
    cases ends
    exact rfl
  | cons entry entries induction =>
    rcases bind_eq_ok.mp ends with ⟨_, contiguous, rest⟩
    have atStart : start = entry.offset := by
      by_contra ne
      exact refuseIf_eq_ok.mp contiguous ⟨start, rfl, ne⟩
    split at rest
    case h_1 => cases rest
    case h_2 next added =>
      rw [← (checkedAdd_eq_some.mp added).1] at rest
      exact ⟨atStart.symm, atStart ▸ induction rest⟩

theorem checkPieces_run
    (distinct : record.inlineContent.Pairwise fun left right => ¬SamePlace left right)
    (nonempty : record.pieces contentId = first :: rest)
    (hasReference : record.referenceEnd contentId ≠ none)
    (checked : record.checkPieces contentId = .ok ()) :
    ∃ finish, record.PiecesRun contentId first.offset finish := by
  rcases bind_eq_ok.mp checked with ⟨reached, ends, atReference⟩
  have sameEnd := not_not.mp (refuseIf_eq_ok.mp atReference)
  rcases ne_none_iff_exists'.mp hasReference with ⟨finish, isEnd⟩
  rw [sameEnd, isEnd] at ends
  refine ⟨finish, pieces_ascending distinct, ?_, referenceEnd_isLargest isEnd⟩
  have fromFirst : record.piecesEnd contentId (some first.offset) (first :: rest) =
      .ok (some finish) := by
    rw [nonempty, piecesEnd] at ends
    rcases bind_eq_ok.mp ends with ⟨_, _, ends⟩
    rw [piecesEnd]
    exact bind_eq_ok.mpr ⟨⟨⟩, refuseIf_eq_ok.mpr (by simp), ends⟩
  rw [nonempty]
  exact piecesEnd_tiling fromFirst

theorem checkInlineContent_runs (checked : record.checkInlineContent space totalBytes = .ok result)
    (contentId : ContentId) (first : WalInlineContent) (rest : List WalInlineContent)
    (nonempty : record.pieces contentId = first :: rest) :
    ∃ finish, record.PiecesRun contentId first.offset finish := by
  have isPiece := nonempty ▸ mem_cons_self
  rcases mem_pieces.mp isPiece with ⟨isEntry, sameChain⟩
  rw [checkInlineContent] at checked
  split at checked
  case isTrue isEmpty =>
    rw [isEmpty_iff.mp isEmpty] at isEntry
    cases isEntry
  case isFalse =>
    rcases bind_eq_ok.mp checked with ⟨_, entries, checked⟩
    rcases bind_eq_ok.mp checked with ⟨_, _, checked⟩
    rcases bind_eq_ok.mp checked with ⟨_, chains, _⟩
    rcases checkEntries_ok entries with ⟨distinct, _, referenced⟩
    apply checkPieces_run distinct nonempty (sameChain ▸ referenced first isEntry)
    apply checkAll_eq_ok.mp chains
    rw [contentIds, mem_insertionSort, mem_dedup, ← sameChain]
    exact mem_map_of_mem isEntry

/-! ## Layouts -/

theorem checkRevisionLayout_ok (checked : record.checkRevisionLayout revision = .ok ()) :
    let firstOffset := (record.pieces revision.1.contentId).head?.map WalInlineContent.offset
    (firstOffset = some 0 → revision.2 = none) ∧
    (firstOffset = none → revision.2 ≠ none) ∧
    ∀ layout, revision.2 = some layout →
      layout.sizeBytes = firstOffset.getD revision.1.sizeBytes := by
  intro firstOffset
  rw [checkRevisionLayout] at checked
  change (if firstOffset = some 0 then _ else _) = _ at checked
  split at checked
  case isTrue whole =>
    have noLayout : revision.2 = none := by simpa using refuseIf_eq_ok.mp checked
    refine ⟨fun _ => noLayout, fun isNone => ?_, fun layout isLayout => ?_⟩
    · cases whole.symm.trans isNone
    · cases noLayout.symm.trans isLayout
  case isFalse notWhole =>
    split at checked
    case h_1 noLayout =>
      refine ⟨fun _ => noLayout, fun isNone => absurd isNone (refuseIf_eq_ok.mp checked), ?_⟩
      intro layout isLayout
      cases noLayout.symm.trans isLayout
    case h_2 layout isLayout =>
      refine ⟨fun whole => absurd whole notWhole, fun _ isNone => ?_, fun other isOther => ?_⟩
      · cases isNone.symm.trans isLayout
      · cases isLayout.symm.trans isOther
        rcases bind_eq_ok.mp checked with ⟨sizeBytes, _, checked⟩
        rcases bind_eq_ok.mp checked with ⟨_, isValid, sameSize⟩
        rw [ContentLayout.sizeBytes_of_validate (mapError_eq_ok.mp isValid)]
        exact not_not.mp (refuseIf_eq_ok.mp sameSize)

theorem accepted (inlineChecked : record.checkInlineContent space totalBytes = .ok result)
    (layoutsChecked : ∀ revision ∈ record.revisions, record.checkRevisionLayout revision = .ok ()) :
    record.Accepted := by
  have runs := checkInlineContent_runs inlineChecked
  have whole : ∀ revision ∈ record.revisions, ∀ first rest,
      record.pieces revision.1.contentId = first :: rest → first.offset = 0 →
        revision.2 = none := by
    intro revision mem first rest nonempty atZero
    apply (checkRevisionLayout_ok (layoutsChecked revision mem)).1
    rw [nonempty, List.head?_cons, map_some, atZero]
  refine ⟨runs, whole, ?_, ?_⟩
  · intro revision mem layout first rest isLayout nonempty
    rcases runs _ first rest nonempty with ⟨finish, run⟩
    refine ⟨finish, run.largest, ?_⟩
    have size := (checkRevisionLayout_ok (layoutsChecked revision mem)).2.2 layout isLayout
    rw [nonempty, List.head?_cons, map_some, getD_some] at size
    have tiling := layout.runs_tiling
    rw [size] at tiling
    exact (tiling.append run.tiling).coversOnce
  · intro revision mem isEmpty
    have rule := checkRevisionLayout_ok (layoutsChecked revision mem)
    simp only [isEmpty, List.head?_nil, map_none, getD_none] at rule
    rcases ne_none_iff_exists'.mp (rule.2.1 trivial) with ⟨layout, isLayout⟩
    refine ⟨layout, isLayout, ?_⟩
    have tiling := layout.runs_tiling
    rw [rule.2.2 layout isLayout] at tiling
    exact tiling.coversOnce

end WalRecord

/-! ## Payloads -/

private theorem validateWalInlineContentFrom_ok
    (checked : validateWalInlineContentFrom space totalBytes records = .ok ()) :
    ∀ record ∈ records, ∃ totalBytes result,
      record.checkInlineContent space totalBytes = .ok result := by
  induction records generalizing totalBytes with
  | nil => simp
  | cons record records induction =>
    rcases bind_eq_ok.mp checked with ⟨result, first, rest⟩
    exact forall_mem_cons.mpr ⟨⟨totalBytes, result, first⟩, induction rest⟩

theorem validateWalPayload_accepted (isValid : validateWalPayload payload = .ok ()) :
    ∀ record ∈ payload.records, record.Accepted := by
  rcases bind_eq_ok.mp isValid with ⟨_, inlineChecked, isValid⟩
  rcases bind_eq_ok.mp isValid with ⟨_, layoutsChecked, _⟩
  intro record mem
  rcases validateWalInlineContentFrom_ok inlineChecked record mem with ⟨_, _, checked⟩
  exact WalRecord.accepted checked
    (checkAll_eq_ok.mp (checkAll_eq_ok.mp layoutsChecked record mem))

/-! ## The codec -/

/-- The serializers and the compression give back what they were given for this
payload. -/
structure WalCodecs.Restore (codecs : WalCodecs) (payload : WalObjectPayload) : Prop where
  decodePayload : codecs.decodePayload (codecs.encodePayload payload) = .ok payload
  decodeDocument : codecs.decodeDocument (encodedDocument codecs payload) =
    .ok (walObjectDocument codecs payload)
  decodeProbe : codecs.decodeProbe (encodedDocument codecs payload) =
    .ok { kind := walObjectKind, formatVersion := walFormatVersion }
  decompress : codecs.decompress (codecs.compress (encodedDocument codecs payload)) =
    .ok (encodedDocument codecs payload)

variable {codecs : WalCodecs} {payload : WalObjectPayload}

theorem decompressDocument_encoded (restore : codecs.Restore payload)
    (fits : (encodedDocument codecs payload).length ≤ maxWalObjectBytes) :
    decompressDocument codecs (codecs.compress (encodedDocument codecs payload))
      maxWalObjectBytes = .ok (some (encodedDocument codecs payload)) := by
  have whole := take_of_length_le (Nat.le_succ_of_le fits)
  rw [decompressDocument, restore.decompress]
  simp only [mapError_ok, ok_bind, whole, if_pos fits]
  rfl

theorem decode_encodedDocument (restore : codecs.Restore payload)
    (fits : (encodedDocument codecs payload).length ≤ maxWalObjectBytes) :
    decodeWalObjectEnvelopeZstd codecs (codecs.compress (encodedDocument codecs payload)) = (do
        validateWalPayload payload
        pure { payloadChecksum := codecs.sha256 (codecs.encodePayload payload), payload }) := by
  have sameKind : ensureKind walObjectKind walObjectKind = .ok () :=
    refuseIf_eq_ok.mpr (not_not.mpr rfl)
  have sameVersion : ensureVersion walObjectKind walFormatVersion walFormatVersion = .ok () :=
    refuseIf_eq_ok.mpr (not_not.mpr rfl)
  have sameDigest : verifyPayloadChecksum codecs (walObjectDocument codecs payload).payloadChecksum
      (walObjectDocument codecs payload).payload = .ok () :=
    refuseIf_eq_ok.mpr (not_not.mpr rfl)
  have samePayload : codecs.decodePayload (walObjectDocument codecs payload).payload =
      .ok payload := restore.decodePayload
  rw [decodeWalObjectEnvelopeZstd, decodeWalObjectEnvelopeZstdWithLimit,
    decompressDocument_encoded restore fits]
  simp only [mapError_ok, orRefuse, ok_bind, restore.decodeProbe, restore.decodeDocument,
    sameKind, sameVersion, sameDigest, samePayload]
  rfl

/-- A payload within the limit is encoded exactly when the decoder would accept it, and what
is encoded decodes to the payload, with pieces that run on behind their layouts. -/
theorem walObject_roundTrips (restore : codecs.Restore payload)
    (fits : (encodedDocument codecs payload).length ≤ maxWalObjectBytes) :
    (∀ encoded, encodeWalObjectEnvelopeZstd codecs payload = .ok encoded →
      decodeWalObjectEnvelopeZstd codecs encoded.bytes = .ok encoded.envelope ∧
      encoded.envelope.payload = payload ∧ ∀ record ∈ payload.records, record.Accepted) ∧
    ∀ failure, encodeWalObjectEnvelopeZstd codecs payload = .error failure ↔
      decodeWalObjectEnvelopeZstd codecs (codecs.compress (encodedDocument codecs payload)) =
        .error failure := by
  have decoded := decode_encodedDocument restore fits
  rw [encodeWalObjectEnvelopeZstd]
  cases isValid : validateWalPayload payload with
  | ok value =>
    rw [isValid] at decoded
    refine ⟨fun encoded equal => ?_, fun failure => ?_⟩
    · cases equal
      exact ⟨decoded, rfl, validateWalPayload_accepted isValid⟩
    · rw [decoded]
      exact iff_of_false (by nofun) (by nofun)
  | error failure =>
    rw [isValid] at decoded
    refine ⟨(fun encoded impossible => nomatch impossible), fun other => ?_⟩
    rw [decoded]
    change Except.error failure = Except.error other ↔ Except.error failure = Except.error other
    rw [Except.error.injEq, Except.error.injEq]

namespace Sample

def appendTo (contentId : ContentId) (sizeBytes : Nat) (layout : Option ContentLayout) :
    WalCommitDelta :=
  { semanticOperationIndex := 0
    delta := .appendFileRevision 0 2 1 "f" "f" ⟨1, 0⟩ "a" 0 2
      { contentId, sizeBytes, checksum := ⟨"sha256", ""⟩ } layout none }

/-- A commit that continues a stored chain and writes a whole value beside it. -/
def walCommit : WalCommitPayload where
  committedSeq := 5
  commitId := "c"
  committedBy := "a"
  semanticCommitFingerprint := ""
  committedAtMs := 0
  message := none
  merge := none
  deltas := [appendTo "con_1" 7 (some ⟨"n", [⟨"con_1", .whole, 0, 3⟩]⟩), appendTo "con_2" 1 none]

/-- The two pieces of the chain are listed with the later one first. -/
def walPayload : WalObjectPayload where
  namespaceId := "n"
  walNo := 3
  writerEpoch := 1
  headSeq := 5
  records := [⟨walCommit, [⟨"con_1", 5, [1, 2]⟩, ⟨"con_2", 0, [9]⟩, ⟨"con_1", 3, [3, 4]⟩]⟩]

/-- The object after it, with no commits. -/
def nextWalPayload : WalObjectPayload := { walPayload with walNo := 4, records := [] }

def encodeText (text : String) : Bytes := UInt8.ofNat (utf8 text).length :: utf8 text

def decodeText : Bytes → Except String (String × Bytes)
  | [] => .error "unexpected end of the document"
  | length :: rest =>
    match fromUtf8 (rest.take length.toNat) with
    | some text => .ok (text, rest.drop length.toNat)
    | none => .error "a text is not valid UTF-8"

def decodeDocument (bytes : Bytes) : Except String WalObjectDocument := do
  let (kind, rest) ← decodeText bytes
  match rest with
  | [] => .error "unexpected end of the document"
  | formatVersion :: rest =>
    let (payloadChecksum, payload) ← decodeText rest
    return { kind, formatVersion := formatVersion.toNat, payloadChecksum, payload }

/-- Documents byte by byte, of the payloads above. -/
def walCodecs : WalCodecs where
  encodePayload payload :=
    if payload = walPayload then [1] else if payload = nextWalPayload then [2] else []
  decodePayload
    | [1] => .ok walPayload
    | [2] => .ok nextWalPayload
    | _ => .error "unknown payload"
  encodeDocument document := encodeText document.kind ++
    UInt8.ofNat document.formatVersion :: encodeText document.payloadChecksum ++ document.payload
  decodeDocument
  decodeProbe bytes := do
    let document ← decodeDocument bytes
    return { kind := document.kind, formatVersion := document.formatVersion }
  compress document := 40 :: document
  decompress
    | 40 :: document => .ok document
    | _ => .error "unknown frame"
  sha256 bytes := toString (bytes.foldl (fun sum byte => (31 * sum + byte.toNat) % 65521) 1)

theorem walPayload_isValid : validateWalPayload walPayload = .ok () := by decide +kernel

end Sample

theorem sampleWalObject_roundTrips :
    encodedDocument Sample.walCodecs Sample.walPayload ≠
      encodedDocument Sample.walCodecs Sample.nextWalPayload ∧
    ∃ encoded, encodeWalObjectEnvelopeZstd Sample.walCodecs Sample.walPayload = .ok encoded ∧
      decodeWalObjectEnvelopeZstd Sample.walCodecs encoded.bytes = .ok encoded.envelope ∧
      encoded.envelope.payload = Sample.walPayload ∧
        ∀ record ∈ Sample.walPayload.records, record.Accepted := by
  have restore : Sample.walCodecs.Restore Sample.walPayload := by
    constructor <;> decide +kernel
  have fits : (encodedDocument Sample.walCodecs Sample.walPayload).length ≤ maxWalObjectBytes := by
    decide +kernel
  have isEncoded : ∃ encoded,
      encodeWalObjectEnvelopeZstd Sample.walCodecs Sample.walPayload = .ok encoded :=
    ⟨_, bind_eq_ok.mpr ⟨_, Sample.walPayload_isValid, rfl⟩⟩
  rcases isEncoded with ⟨encoded, isEncoded⟩
  exact ⟨by decide +kernel, encoded, isEncoded,
    (walObject_roundTrips restore fits).1 encoded isEncoded⟩

end LoonFs
