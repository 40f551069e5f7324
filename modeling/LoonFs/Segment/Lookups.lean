import LoonFs.Format.RowKeyOrder
import LoonFs.Segment.Writer

/-! # Lookups and the filters that they ask -/

namespace LoonFs

open Foundation LookupKeys List

structure ProbedScan where
  family : MetadataRowFamily
  lowerBound : String
  upperBound : Option String
  filterProbe : String

def ProbedScan.Contains (scan : ProbedScan) (rowKey : String) : Prop :=
  utf8 scan.lowerBound ≤ utf8 rowKey ∧
    ∀ upper, scan.upperBound = some upper → utf8 rowKey < utf8 upper

def findRow (family : MetadataRowFamily) (key filterProbe : String) : ProbedScan where
  family := family
  lowerBound := key
  upperBound := stringPrefixUpperBound key
  filterProbe := filterProbe

namespace LookupPrefix

def filterProbe : LookupPrefix → Option String
  | .wholeFamily _ | .direntryBindEdge _ _ _ | .direntryChildBindEdge _ _ _ => none
  | .direntryParent parentInodeId => some (direntryParentProbe parentInodeId)
  | .direntryBind parentInodeId nameKey => some (direntryBindProbe parentInodeId nameKey)
  | .direntryChild childInodeId => some (direntryChildProbe childInodeId)
  | .tombstone rootInodeId => some (tombstoneProbe rootInodeId)
  | .contentLayout contentId => some (contentLayoutProbe contentId)
  | .commitReceipt commitId => some (commitReceiptProbe commitId)
  | .merge sourceNamespaceId => some (mergeProbe sourceNamespaceId)
  | .revision inodeId | .inodeRevision inodeId _ => some (revisionProbe inodeId)
  | .attributes inodeId => some (attributesProbe inodeId)
  | .access inodeId => some (accessProbe inodeId)

def scanFrom (lookup : LookupPrefix) (filterProbe lowerBound : String) : ProbedScan where
  family := lookup.family
  lowerBound := lowerBound
  upperBound := stringPrefixUpperBound lookup.text
  filterProbe := filterProbe

/-- The bounds at which a page of a prefix's scan starts. -/
inductive StartsAt (lookup : LookupPrefix) : String → Prop
  | first : StartsAt lookup lookup.text
  | afterRow {bound rowKey : String} : StartsAt lookup bound → utf8 bound ≤ utf8 rowKey →
      StartsAt lookup (afterRowKey rowKey)
  | afterPrefix (inner : LookupPrefix) {upper : String} :
      utf8 lookup.text <+: utf8 inner.text → stringPrefixUpperBound inner.text = some upper →
      StartsAt lookup upper
  | later {left right : String} : StartsAt lookup left → StartsAt lookup right →
      StartsAt lookup (if utf8 left ≤ utf8 right then right else left)

theorem exists_upperBound (lookup : LookupPrefix) :
    ∃ upper, stringPrefixUpperBound lookup.text = some upper ∧
      ∀ key, utf8 lookup.text <+: key ↔ utf8 lookup.text ≤ key ∧ key < utf8 upper := by
  rcases lookup.text_ends_in_hyphen with ⟨stem, ends⟩
  exact stringPrefixUpperBound_spec ends (by decide)

theorem StartsAt.text_le {lookup : LookupPrefix} (starts : lookup.StartsAt bound) :
    utf8 lookup.text ≤ utf8 bound := by
  induction starts with
  | first => exact le_refl _
  | @afterRow bound rowKey _ atOrAfter induction =>
    have next : utf8 rowKey <+: utf8 (afterRowKey rowKey) := by
      rw [afterRowKey, utf8_append]
      exact prefix_append _ _
    exact (induction.trans atOrAfter).trans (prefix_le next)
  | @afterPrefix inner upper extendsText isUpper =>
    rcases inner.exists_upperBound with ⟨innerUpper, isInnerUpper, between⟩
    cases isUpper.symm.trans isInnerUpper
    have below := ((between (utf8 inner.text)).mp prefix_rfl).2
    exact (prefix_le extendsText).trans below.le
  | later _ _ leftInduction rightInduction =>
    split
    · exact rightInduction
    · exact leftInduction

end LookupPrefix

inductive Issued : ProbedScan → Prop
  | inode (inodeId : InodeId) : inodeId < 2 ^ 128 →
      Issued (findRow .inodes (inodeKey inodeId) (inodeKey inodeId))
  | commit (seq : ChangeSeq) : seq ≤ u64Max →
      Issued (findRow .commits (commitRowKey seq) (commitRowKey seq))
  | page (lookup : LookupPrefix) {filterProbe lowerBound : String} : lookup.InRange →
      lookup.filterProbe = some filterProbe → lookup.StartsAt lowerBound →
      Issued (lookup.scanFrom filterProbe lowerBound)

variable {filterProbe : String}

theorem LookupPrefix.Selects.hasFilterKey {lookup : LookupPrefix} (selects : lookup.Selects row)
    (probes : lookup.filterProbe = some filterProbe) :
    row.HasFilterKey lookup.family filterProbe := by
  cases lookup with
  | wholeFamily | direntryBindEdge | direntryChildBindEdge => cases probes
  | direntryParent =>
    cases row <;> cases selects
    exact .inr probes
  | direntryBind | inodeRevision =>
    cases row <;> rcases selects with ⟨⟨⟩, ⟨⟩⟩
    exact .inl probes
  | direntryChild | tombstone | contentLayout | commitReceipt | merge | revision | attributes
  | access =>
    cases row <;> cases selects
    exact .inl probes

private theorem spelling_ends (alphabet : Alphabet base)
    (raisable : ∀ letter ∈ alphabet.letters, letter < 127) (width number : Nat) :
    ∃ stem letter, (alphabet.spelling (width + 1)).encode number = utf8 stem ++ [letter] ∧
      letter < 127 := by
  have someLetters : (alphabet.spelling (width + 1)).encode number ≠ [] := by
    rw [Alphabet.spelling_eq]
    simp
  have split := dropLast_append_getLast someLetters
  refine ⟨charactersFrom ((alphabet.spelling (width + 1)).encode number).dropLast,
    ((alphabet.spelling (width + 1)).encode number).getLast someLetters, ?_, ?_⟩
  · rw [utf8_charactersFrom, split]
    intro code mem
    exact alphabet.spelling_ascii _ _ code (dropLast_subset _ mem)
  · rcases mem_map.mp (getLast_mem someLetters) with ⟨digit, isDigit, eq⟩
    rw [← eq]
    exact raisable _ (alphabet.letter_mem (digit_lt alphabet.positive isDigit))

private theorem findRow_exact {alphabet : Alphabet base}
    (raisable : ∀ letter ∈ alphabet.letters, letter < 127)
    (spelled : utf8 key = utf8 stem ++ (alphabet.spelling (width + 1)).encode number)
    (rowSpelled : utf8 rowKey = utf8 stem ++ (alphabet.spelling (width + 1)).encode rowNumber)
    (inside : (findRow family key filterProbe).Contains rowKey) : rowKey = key := by
  rcases spelling_ends alphabet raisable width number with ⟨body, letter, ends, small⟩
  have keyEnds : utf8 key = utf8 (stem ++ body) ++ [letter] := by
    rw [spelled, ends, utf8_append, append_assoc]
  rcases stringPrefixUpperBound_spec keyEnds small with ⟨upper, isUpper, between⟩
  have starts : utf8 key <+: utf8 rowKey := (between _).mpr ⟨inside.1, inside.2 upper isUpper⟩
  have sameLength : (utf8 key).length = (utf8 rowKey).length := by
    rw [spelled, rowSpelled]
    simp only [Alphabet.spelling_eq, length_append, length_map]
  exact utf8_injective (starts.eq_of_length sameLength).symm

theorem Issued.hasFilterKey (issued : Issued scan) (keyed : KeyedRow scan.family)
    (inside : scan.Contains keyed.key) : keyed.row.HasFilterKey scan.family scan.filterProbe := by
  cases issued with
  | inode inodeId =>
    rcases keyed with ⟨row, tuple, key, inFamily, inRange, isKey⟩
    cases row <;> cases inFamily
    have spelled : ∀ inodeId, utf8 (inodeKey inodeId) =
        utf8 inodeRowPrefix ++ (base32Alphabet.spelling (25 + 1)).encode inodeId := by
      intro inodeId
      rw [inodeKey, utf8_append]
      exact congrArg _ (utf8_inodeIdBody inodeId)
    have same : key = inodeKey inodeId := by
      cases isKey
      exact findRow_exact (by decide +kernel) (spelled inodeId) (spelled _) inside
    exact .inl (isKey.trans (congrArg some same))
  | commit seq =>
    rcases keyed with ⟨row, tuple, key, inFamily, inRange, isKey⟩
    cases row <;> cases inFamily
    have spelled : ∀ seq, utf8 (commitRowKey seq) =
        utf8 commitRowPrefix ++ (decimalAlphabet.spelling (19 + 1)).encode seq := by
      intro seq
      rw [commitRowKey, utf8_append, utf8_zeroPadded]
    have same : key = commitRowKey seq := by
      cases isKey
      exact findRow_exact (by decide +kernel) (spelled seq) (spelled _) inside
    exact .inl (isKey.trans (congrArg some same))
  | page lookup inRange probes starts =>
    rcases lookup.exists_range inRange with ⟨upper, isUpper, between⟩
    have selects : lookup.Selects keyed.row :=
      (between keyed).mp ⟨starts.text_le.trans inside.1, inside.2 upper isUpper⟩
    exact selects.hasFilterKey probes

def NeverHides (codecs : SegmentCodecs MetadataRow) (family : MetadataRowFamily)
    (segment : BuiltSegmentBlocks) (rows : List MetadataRow) : Prop :=
  ∃ filter, decodeFilterBlock codecs (segment.filter.slice segment.bytes) segment.filter =
      .ok filter ∧
    ∀ scan, Issued scan → scan.family = family →
      ∀ keyed : KeyedRow family, keyed.row ∈ rows → scan.Contains keyed.key →
        filter.mayContain codecs scan.filterProbe = true

/-- Filters never hide a row: each row is in one of the segments, and no filter refuses the
probe of a scan that it is in the range of. -/
theorem familySegments_neverHide {codecs : SegmentCodecs MetadataRow}
    {policy : MetadataRunPolicy} {family : MetadataRowFamily} {rows : List MetadataRow}
    {segments : List BuiltSegmentBlocks}
    (written : MetadataSegmentWriter.familySegments codecs policy family rows = .ok segments) :
    ∃ groups : List (List MetadataRow), groups.flatten = rows ∧
      List.Forall₂ (NeverHides codecs family) segments groups := by
  rcases MetadataSegmentWriter.familySegments_ok written with ⟨groups, allRows, admitted⟩
  refine ⟨groups, allRows, admitted.imp fun segment group admits => ?_⟩
  rcases admits with ⟨filter, decoded, admitsKeys⟩
  refine ⟨filter, decoded, fun scan issued sameFamily keyed isMember inside => ?_⟩
  subst sameFamily
  exact admitsKeys keyed.row isMember scan.filterProbe (issued.hasFilterKey keyed inside)

namespace Sample

def plainCodecs : SegmentCodecs MetadataRow where
  encodeRow _ := []
  decodeRow _ := .error "not decoded"
  encodeIndex _ := []
  decodeIndex _ := .error "not decoded"
  compress payload := payload
  decompress stored := .ok stored
  crc32c bytes := UInt32.ofNat bytes.length
  xxh64 bytes seed := bytes.foldl (fun hash byte => hash * 31 + byte.toUInt64) seed

def binding (nameKey : NameKey) (childInodeId : InodeId) : MetadataRow :=
  .direntryBinding
    { parentInodeId := 1
      nameKey
      childInodeId
      childKind := .directory
      childCreatedBy := "a"
      childCreatedAtMs := 0
      committedSeq := 7
      deltaIndex := 0
      commitId := "c"
      committedBy := "a"
      committedAtMs := 0
      bindPosition := ⟨7, 0⟩
      state := .bound nameKey none }

/-- Three entries of one directory, which two segments hold. -/
def directoryRows : List MetadataRow := [binding "a" 2, binding "b" 3, binding "c" 4]

theorem directorySegments_length :
    (MetadataSegmentWriter.familySegments plainCodecs ⟨2, 4096⟩ .direntryBinds
      directoryRows).toOption.any (fun segments => segments.length == 2) = true := by
  decide +kernel

end Sample

theorem sampleDirectory_neverHides : ∃ segments groups,
    MetadataSegmentWriter.familySegments Sample.plainCodecs ⟨2, 4096⟩ .direntryBinds
      Sample.directoryRows = .ok segments ∧ segments.length = 2 ∧
    groups.flatten = Sample.directoryRows ∧
      List.Forall₂ (NeverHides Sample.plainCodecs .direntryBinds) segments groups := by
  have written := Sample.directorySegments_length
  cases result : MetadataSegmentWriter.familySegments Sample.plainCodecs ⟨2, 4096⟩
      .direntryBinds Sample.directoryRows with
  | error failure =>
    rw [result] at written
    cases written
  | ok segments =>
    rw [result] at written
    rcases familySegments_neverHide result with ⟨groups, allRows, neverHide⟩
    exact ⟨segments, groups, rfl, beq_iff_eq.mp written, allRows, neverHide⟩

end LoonFs
