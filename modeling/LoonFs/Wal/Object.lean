import LoonFs.Storage.Layout
import Mathlib.Data.List.Sort

/-! # WAL objects -/

namespace LoonFs

open Foundation

abbrev WalNo := Nat
abbrev WriterEpoch := Nat
abbrev PayloadChecksum := String

def walFormatVersion : Nat := 1

def maxWalObjectBytes : Nat := 512 * 1024 * 1024

def maxWalInlineContentBytes : Nat := 256 * 1024

def maxWalObjectInlineContentBytes : Nat := 4 * 1024 * 1024

/-- Bytes of a chain that a commit carries itself. -/
structure WalInlineContent where
  contentId : ContentId
  offset : Nat
  bytes : Bytes
deriving DecidableEq

structure WalRecord where
  commit : WalCommitPayload
  inlineContent : List WalInlineContent
deriving DecidableEq

structure WalObjectPayload where
  namespaceId : NamespaceId
  walNo : WalNo
  writerEpoch : WriterEpoch
  headSeq : ChangeSeq
  records : List WalRecord
deriving DecidableEq

/-! ## Errors -/

inductive EnvelopeCodecError where
  | envelopeDecode (message : String)
  | payloadDecode (message : String)
  | decompress (message : String)
  | documentTooLarge (kind : String) (maxBytes : Nat)
  | kindMismatch (expected found : String)
  | unsupportedFormatVersion (kind : String) (found supported : Nat)
  | checksumMismatch (expected actual : PayloadChecksum)
deriving DecidableEq

inductive WalCodecError where
  | envelope (failure : EnvelopeCodecError)
  | invalidWalInlineContent (seq : ChangeSeq) (contentId : ContentId) (reason : String)
  | invalidWalBind (seq : ChangeSeq) (childInodeId : InodeId) (reason : String)
  | invalidWalRevisionLayout (seq : ChangeSeq) (contentId : ContentId) (reason : String)
  | invalidWalMerge (seq : ChangeSeq) (sourceNamespaceId : NamespaceId) (reason : String)
deriving DecidableEq

/-! ## Rules -/

namespace WalRecord

def revisions (record : WalRecord) : List (ContentRef × Option ContentLayout) :=
  record.commit.deltas.filterMap fun delta =>
    match delta.delta with
    | .appendFileRevision _ _ _ _ _ _ _ _ _ contentRef layout _ => some (contentRef, layout)
    | _ => none

/-- The largest reference to a chain in the commit. -/
def referenceEnd (record : WalRecord) (contentId : ContentId) : Option Nat :=
  record.revisions.foldl (fun finish revision =>
    if revision.1.contentId = contentId then
      some (max (finish.getD 0) revision.1.sizeBytes)
    else
      finish) none

/-- The chains that the commit has pieces of, in key order. -/
def contentIds (record : WalRecord) : List ContentId :=
  (record.inlineContent.map WalInlineContent.contentId).dedup.insertionSort fun left right =>
    utf8 left ≤ utf8 right

def pieces (record : WalRecord) (contentId : ContentId) : List WalInlineContent :=
  (record.inlineContent.filter fun entry => entry.contentId = contentId).insertionSort
    fun left right => left.offset ≤ right.offset

def invalidInlineContent (record : WalRecord) (contentId : ContentId) (reason : String) :
    WalCodecError :=
  .invalidWalInlineContent record.commit.committedSeq contentId reason

def checkEntries (record : WalRecord) (totalBytes : Nat) (seen : List WalInlineContent) :
    List WalInlineContent → Except WalCodecError Nat
  | [] => .ok totalBytes
  | entry :: entries => do
      refuseIf (entry.bytes.length > maxWalInlineContentBytes)
        (record.invalidInlineContent entry.contentId
          "value exceeds `MAX_WAL_INLINE_CONTENT_BYTES`")
      let totalBytes := totalBytes + entry.bytes.length
      refuseIf (totalBytes > maxWalObjectInlineContentBytes)
        (record.invalidInlineContent entry.contentId
          "WAL object inline total exceeds `MAX_WAL_OBJECT_INLINE_CONTENT_BYTES`")
      refuseIf (record.referenceEnd entry.contentId = none)
        (record.invalidInlineContent entry.contentId
          "no `append_file_revision` reference in the same commit")
      refuseIf (∃ earlier ∈ seen,
          earlier.contentId = entry.contentId ∧ earlier.offset = entry.offset)
        (record.invalidInlineContent entry.contentId
          "duplicate `content_id` and `offset` in commit")
      record.checkEntries totalBytes (entry :: seen) entries

def checkCreator (record : WalRecord) (namespaceId : NamespaceId)
    (revision : ContentRef × Option ContentLayout) : Except WalCodecError Unit :=
  match revision.2 with
  | none => .ok ()
  | some layout =>
    refuseIf (revision.1.contentId ∈ record.inlineContent.map WalInlineContent.contentId ∧
        layout.creatorNamespaceId ≠ namespaceId)
      (record.invalidInlineContent revision.1.contentId
        "a layout of a chain with pieces records another namespace as its creator")

def piecesEnd (record : WalRecord) (contentId : ContentId) (finish : Option Nat) :
    List WalInlineContent → Except WalCodecError (Option Nat)
  | [] => .ok finish
  | entry :: entries => do
      refuseIf (∃ reached, finish = some reached ∧ reached ≠ entry.offset)
        (record.invalidInlineContent contentId "entries are not contiguous")
      match checkedAdd entry.offset entry.bytes.length with
      | none => .ok none
      | some next => record.piecesEnd contentId (some next) entries

def checkPieces (record : WalRecord) (contentId : ContentId) : Except WalCodecError Unit := do
  let finish ← record.piecesEnd contentId none (record.pieces contentId)
  refuseIf (finish ≠ record.referenceEnd contentId)
    (record.invalidInlineContent contentId "entries do not end at the reference `size_bytes`")

def checkInlineContent (record : WalRecord) (namespaceId : NamespaceId) (totalBytes : Nat) :
    Except WalCodecError Nat := do
  if record.inlineContent.isEmpty then
    pure totalBytes
  else
    let totalBytes ← record.checkEntries totalBytes [] record.inlineContent
    checkAll (record.checkCreator namespaceId) record.revisions
    checkAll record.checkPieces record.contentIds
    pure totalBytes

def layoutLength (length : Nat) : List ContentExtent → Option Nat
  | [] => some length
  | extent :: extents => do layoutLength (← checkedAdd length extent.length) extents

def checkRevisionLayout (record : WalRecord) (revision : ContentRef × Option ContentLayout) :
    Except WalCodecError Unit :=
  let invalid reason :=
    .invalidWalRevisionLayout record.commit.committedSeq revision.1.contentId reason
  let firstOffset := (record.pieces revision.1.contentId).head?.map WalInlineContent.offset
  if firstOffset = some 0 then
    refuseIf (revision.2.isSome) (invalid "a whole value carries no layout")
  else
    match revision.2 with
    | none => refuseIf (firstOffset = none) (invalid "a reference without pieces requires a layout")
    | some layout => do
        let sizeBytes ← orRefuse (invalid "layout length overflows")
          (layoutLength 0 layout.extents)
        (layout.validate sizeBytes).mapError invalid
        refuseIf (sizeBytes ≠ firstOffset.getD revision.1.sizeBytes)
          (invalid "layout size must equal the first piece offset or the reference size")

def checkBindRevision (record : WalRecord) (delta : WalCommitDelta) : Except WalCodecError Unit :=
  match delta.delta with
  | .bindDirentry _ _ _ _ childInodeId childKind _ _ revision =>
    let invalid reason := .error (.invalidWalBind record.commit.committedSeq childInodeId reason)
    match childKind, revision with
    | .file, some _ | .directory, none => .ok ()
    | .file, none => invalid "a file bind requires the file's revision summary"
    | .directory, some _ => invalid "a directory bind can't include a revision summary"
  | _ => .ok ()

def checkMerge (record : WalRecord) (namespaceId : NamespaceId) : Except WalCodecError Unit :=
  match record.commit.merge with
  | none => .ok ()
  | some merge =>
    let invalid reason :=
      .error (.invalidWalMerge record.commit.committedSeq merge.sourceNamespaceId reason)
    if merge.sourceAfterSeq ≥ merge.sourceThroughSeq then
      invalid "`source_after_seq` must be below `source_through_seq`"
    else if merge.sourceNamespaceId = namespaceId then
      invalid "the source is the committing namespace"
    else
      .ok ()

end WalRecord

def validateWalInlineContentFrom (namespaceId : NamespaceId) (totalBytes : Nat) :
    List WalRecord → Except WalCodecError Unit
  | [] => .ok ()
  | record :: records => do
      validateWalInlineContentFrom namespaceId
        (← record.checkInlineContent namespaceId totalBytes) records

def validateWalInlineContent (payload : WalObjectPayload) : Except WalCodecError Unit :=
  validateWalInlineContentFrom payload.namespaceId 0 payload.records

def validateWalRevisionLayouts (payload : WalObjectPayload) : Except WalCodecError Unit :=
  checkAll (fun record => checkAll record.checkRevisionLayout record.revisions) payload.records

def validateWalBindRevisions (payload : WalObjectPayload) : Except WalCodecError Unit :=
  checkAll (fun record => checkAll record.checkBindRevision record.commit.deltas) payload.records

def validateWalMerges (payload : WalObjectPayload) : Except WalCodecError Unit :=
  checkAll (fun record => record.checkMerge payload.namespaceId) payload.records

def validateWalPayload (payload : WalObjectPayload) : Except WalCodecError Unit := do
  validateWalInlineContent payload
  validateWalRevisionLayouts payload
  validateWalBindRevisions payload
  validateWalMerges payload

/-! ## The codec -/

structure WalObjectDocument where
  kind : String
  formatVersion : Nat
  payloadChecksum : PayloadChecksum
  payload : Bytes
deriving DecidableEq

structure EnvelopeProbe where
  kind : String
  formatVersion : Nat
deriving DecidableEq

structure WalCodecs where
  encodePayload : WalObjectPayload → Bytes
  decodePayload : Bytes → Except String WalObjectPayload
  encodeDocument : WalObjectDocument → Bytes
  decodeDocument : Bytes → Except String WalObjectDocument
  decodeProbe : Bytes → Except String EnvelopeProbe
  compress : Bytes → Bytes
  decompress : Bytes → Except String Bytes
  sha256 : Bytes → PayloadChecksum

structure VerifiedEnvelope (Payload : Type) where
  payloadChecksum : PayloadChecksum
  payload : Payload
deriving DecidableEq

structure EncodedEnvelope (Payload : Type) where
  envelope : VerifiedEnvelope Payload
  bytes : Bytes
  documentBytes : Nat
deriving DecidableEq

def walObjectKind : String := "wal_object"

def ensureKind (expected found : String) : Except EnvelopeCodecError Unit :=
  refuseIf (found ≠ expected) (.kindMismatch expected found)

def ensureVersion (kind : String) (found supported : Nat) : Except EnvelopeCodecError Unit :=
  refuseIf (found ≠ supported) (.unsupportedFormatVersion kind found supported)

section

variable (codecs : WalCodecs)

def verifyPayloadChecksum (expected : PayloadChecksum) (payload : Bytes) :
    Except EnvelopeCodecError Unit :=
  refuseIf (codecs.sha256 payload ≠ expected) (.checksumMismatch expected (codecs.sha256 payload))

def decompressDocument (stored : Bytes) (maxBytes : Nat) :
    Except EnvelopeCodecError (Option Bytes) := do
  let document ← (codecs.decompress stored).mapError .decompress
  let document := document.take (maxBytes + 1)
  pure (if document.length ≤ maxBytes then some document else none)

def walObjectDocument (payload : WalObjectPayload) : WalObjectDocument where
  kind := walObjectKind
  formatVersion := walFormatVersion
  payloadChecksum := codecs.sha256 (codecs.encodePayload payload)
  payload := codecs.encodePayload payload

def encodedDocument (payload : WalObjectPayload) : Bytes :=
  codecs.encodeDocument (walObjectDocument codecs payload)

def encodeWalObjectEnvelopeZstd (payload : WalObjectPayload) :
    Except WalCodecError (EncodedEnvelope WalObjectPayload) := do
  validateWalPayload payload
  pure
    { envelope := { payloadChecksum := (walObjectDocument codecs payload).payloadChecksum, payload }
      bytes := codecs.compress (encodedDocument codecs payload)
      documentBytes := (encodedDocument codecs payload).length }

def decodeWalObjectEnvelopeZstdWithLimit (bytes : Bytes) (limit : Nat) :
    Except WalCodecError (VerifiedEnvelope WalObjectPayload) := do
  let decompressed ← (decompressDocument codecs bytes limit).mapError .envelope
  let decompressed ← orRefuse (.envelope (.documentTooLarge walObjectKind limit)) decompressed
  let probe ← (codecs.decodeProbe decompressed).mapError fun message =>
    .envelope (.envelopeDecode message)
  (ensureKind walObjectKind probe.kind).mapError .envelope
  (ensureVersion probe.kind probe.formatVersion walFormatVersion).mapError .envelope
  let document ← (codecs.decodeDocument decompressed).mapError fun message =>
    .envelope (.envelopeDecode message)
  (verifyPayloadChecksum codecs document.payloadChecksum document.payload).mapError .envelope
  let payload ← (codecs.decodePayload document.payload).mapError fun message =>
    .envelope (.payloadDecode message)
  validateWalPayload payload
  pure { payloadChecksum := document.payloadChecksum, payload }

def decodeWalObjectEnvelopeZstd (bytes : Bytes) :
    Except WalCodecError (VerifiedEnvelope WalObjectPayload) :=
  decodeWalObjectEnvelopeZstdWithLimit codecs bytes maxWalObjectBytes

end

end LoonFs
