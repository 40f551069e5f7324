import LoonFs.Format.RowKeys

/-! # The order of row keys -/

namespace LoonFs

open Foundation LookupKeys List

/-! ## Logical tuples -/

/-- The tuple that orders the rows of a family. -/
def LogicalTuple : MetadataRowFamily → Type
  | .inodes => InodeId
  | .direntryBinds => InodeId ×ₗ Bytes ×ₗ InodeId ×ₗ ChangeSeqᵒᵈ ×ₗ Natᵒᵈ
  | .direntryChildBinds => InodeId ×ₗ InodeId ×ₗ Bytes ×ₗ ChangeSeqᵒᵈ ×ₗ Natᵒᵈ
  | .revisions => InodeId ×ₗ RevisionNoᵒᵈ ×ₗ ChangeSeqᵒᵈ ×ₗ Natᵒᵈ
  | .tombstones => InodeId ×ₗ ChangeSeqᵒᵈ ×ₗ Natᵒᵈ
  | .activeDeletions => ChangeSeq ×ₗ InodeId ×ₗ Nat
  | .commitReceipts => Bytes ×ₗ ChangeSeq
  | .commits => ChangeSeq
  | .contentLayouts => Bytes ×ₗ Natᵒᵈ ×ₗ ChangeSeqᵒᵈ
  | .attributes => InodeId ×ₗ AttributesRevisionNoᵒᵈ ×ₗ ChangeSeqᵒᵈ ×ₗ Natᵒᵈ
  | .access => InodeId ×ₗ AccessRevisionNoᵒᵈ ×ₗ ChangeSeqᵒᵈ ×ₗ Natᵒᵈ
  | .merges => Bytes ×ₗ ChangeSeqᵒᵈ

instance : (family : MetadataRowFamily) → LinearOrder (LogicalTuple family)
  | .inodes => inferInstanceAs (LinearOrder Nat)
  | .direntryBinds => inferInstanceAs (LinearOrder (Nat ×ₗ Bytes ×ₗ Nat ×ₗ Natᵒᵈ ×ₗ Natᵒᵈ))
  | .direntryChildBinds => inferInstanceAs (LinearOrder (Nat ×ₗ Nat ×ₗ Bytes ×ₗ Natᵒᵈ ×ₗ Natᵒᵈ))
  | .revisions => inferInstanceAs (LinearOrder (Nat ×ₗ Natᵒᵈ ×ₗ Natᵒᵈ ×ₗ Natᵒᵈ))
  | .tombstones => inferInstanceAs (LinearOrder (Nat ×ₗ Natᵒᵈ ×ₗ Natᵒᵈ))
  | .activeDeletions => inferInstanceAs (LinearOrder (Nat ×ₗ Nat ×ₗ Nat))
  | .commitReceipts => inferInstanceAs (LinearOrder (Bytes ×ₗ Nat))
  | .commits => inferInstanceAs (LinearOrder Nat)
  | .contentLayouts => inferInstanceAs (LinearOrder (Bytes ×ₗ Natᵒᵈ ×ₗ Natᵒᵈ))
  | .attributes => inferInstanceAs (LinearOrder (Nat ×ₗ Natᵒᵈ ×ₗ Natᵒᵈ ×ₗ Natᵒᵈ))
  | .access => inferInstanceAs (LinearOrder (Nat ×ₗ Natᵒᵈ ×ₗ Natᵒᵈ ×ₗ Natᵒᵈ))
  | .merges => inferInstanceAs (LinearOrder (Bytes ×ₗ Natᵒᵈ))

def MetadataRow.logicalTuple (row : MetadataRow) :
    (family : MetadataRowFamily) → Option (LogicalTuple family)
  | .inodes =>
    match row with
    | .inode record => some record.inodeId
    | _ => none
  | .direntryBinds =>
    match row with
    | .direntryBinding record =>
      some (toLex (record.parentInodeId, toLex (utf8 record.nameKey,
        toLex (record.childInodeId,
          toLex (OrderDual.toDual record.committedSeq, OrderDual.toDual record.deltaIndex)))))
    | _ => none
  | .direntryChildBinds =>
    match row with
    | .direntryBinding record =>
      some (toLex (record.childInodeId, toLex (record.parentInodeId,
        toLex (utf8 record.nameKey,
          toLex (OrderDual.toDual record.committedSeq, OrderDual.toDual record.deltaIndex)))))
    | _ => none
  | .revisions =>
    match row with
    | .fileRevision record =>
      some (toLex (record.inodeId, toLex (OrderDual.toDual record.revisionNo,
        toLex (OrderDual.toDual record.committedSeq, OrderDual.toDual record.deltaIndex))))
    | _ => none
  | .tombstones =>
    match row with
    | .tombstone record =>
      some (toLex (record.rootInodeId,
        toLex (OrderDual.toDual record.committedSeq, OrderDual.toDual record.deltaIndex)))
    | _ => none
  | .activeDeletions =>
    match row with
    | .activeDeletion record =>
      some (toLex (record.deletionSeq, toLex (record.rootInodeId, record.action.sortRank)))
    | _ => none
  | .commitReceipts =>
    match row with
    | .commitReceipt record => some (toLex (utf8 record.commitId, record.committedSeq))
    | _ => none
  | .commits =>
    match row with
    | .commit record => some record.committedSeq
    | _ => none
  | .contentLayouts =>
    match row with
    | .contentLayout record =>
      some (toLex (utf8 record.contentId,
        toLex (OrderDual.toDual record.sizeBytes, OrderDual.toDual record.committedSeq)))
    | _ => none
  | .attributes =>
    match row with
    | .attributesRevision record =>
      some (toLex (record.inodeId, toLex (OrderDual.toDual record.attributesRevisionNo,
        toLex (OrderDual.toDual record.committedSeq, OrderDual.toDual record.deltaIndex))))
    | _ => none
  | .access =>
    match row with
    | .accessRevision record =>
      some (toLex (record.inodeId, toLex (OrderDual.toDual record.accessRevisionNo,
        toLex (OrderDual.toDual record.committedSeq, OrderDual.toDual record.deltaIndex))))
    | _ => none
  | .merges =>
    match row with
    | .merge record =>
      some (toLex (utf8 record.sourceNamespaceId, OrderDual.toDual record.committedSeq))
    | _ => none

/-! ## Machine ranges -/

def IsContentId (contentId : ContentId) : Prop :=
  ∃ value < 2 ^ 128, contentId = "con_" ++ encodeGeneratedIdBody value

/-- The fields that a row's key spells are values of the source's types. -/
def MetadataRow.InRange : MetadataRow → Prop
  | .inode record => record.inodeId < 2 ^ 128
  | .direntryBinding record =>
    record.parentInodeId < 2 ^ 128 ∧ record.childInodeId < 2 ^ 128 ∧
      record.committedSeq ≤ u64Max ∧ record.deltaIndex ≤ u32Max
  | .fileRevision record =>
    record.inodeId < 2 ^ 128 ∧ record.revisionNo ≤ u64Max ∧
      record.committedSeq ≤ u64Max ∧ record.deltaIndex ≤ u32Max
  | .tombstone record =>
    record.rootInodeId < 2 ^ 128 ∧ record.committedSeq ≤ u64Max ∧ record.deltaIndex ≤ u32Max
  | .activeDeletion record => record.deletionSeq ≤ u64Max ∧ record.rootInodeId < 2 ^ 128
  | .commitReceipt record => record.committedSeq ≤ u64Max
  | .commit record => record.committedSeq ≤ u64Max
  | .merge record => record.committedSeq ≤ u64Max
  | .contentLayout record =>
    IsContentId record.contentId ∧ record.sizeBytes ≤ u64Max ∧ record.committedSeq ≤ u64Max
  | .attributesRevision record =>
    record.inodeId < 2 ^ 128 ∧ record.attributesRevisionNo ≤ u64Max ∧
      record.committedSeq ≤ u64Max ∧ record.deltaIndex ≤ u32Max
  | .accessRevision record =>
    record.inodeId < 2 ^ 128 ∧ record.accessRevisionNo ≤ u64Max ∧
      record.committedSeq ≤ u64Max ∧ record.deltaIndex ≤ u32Max

/-! ## The components -/

private theorem u64_fits (value : Nat) (bound : value ≤ u64Max) :
    (decimalAlphabet.spelling 20).valid value := by
  simp only [Alphabet.spelling_valid, u64Max] at bound ⊢
  omega

private theorem u32_fits (value : Nat) (bound : value ≤ u32Max) :
    (decimalAlphabet.spelling 10).valid value := by
  simp only [Alphabet.spelling_valid, u32Max] at bound ⊢
  omega

/-- A 64-bit number in 20 decimal digits. -/
def u64Ascending : ComponentEncoding separator Nat := decimalAlphabet.spelling 20

def u64Descending : ComponentEncoding separator Natᵒᵈ :=
  (decimalAlphabet.spelling 20).descending u64Max u64_fits

def u32Ascending : ComponentEncoding separator Nat := decimalAlphabet.spelling 10

def u32Descending : ComponentEncoding separator Natᵒᵈ :=
  (decimalAlphabet.spelling 10).descending u32Max u32_fits

/-- A 128-bit identifier in 26 letters. -/
def inodeComponent : ComponentEncoding separator Nat := base32Alphabet.spelling 26

theorem utf8_inodeIdBody (inodeId : InodeId) :
    utf8 (inodeIdBody inodeId) = inodeComponent.encode inodeId :=
  utf8_encodeBase32 inodeId 26

theorem utf8_hexEncodeRowKeyComponent (value : String) :
    utf8 (hexEncodeRowKeyComponent value) = hexadecimal.encode (utf8 value) :=
  utf8_hexEncodeBytes _

theorem inode_valid (bound : inodeId < 2 ^ 128) : inodeComponent.valid inodeId :=
  bound.trans_le (by decide)

def contentComponent : ComponentEncoding separator Bytes where
  encode bytes := bytes.drop 4
  valid bytes := ∃ value < 2 ^ 128, bytes = utf8 "con_" ++ inodeComponent.encode value
  strictMonoOn := by
    intro left ⟨leftValue, _, leftEqual⟩ right ⟨rightValue, _, rightEqual⟩ less
    subst leftEqual rightEqual
    exact (append_left_lt_iff _ _ _).mp less
  above bytes isValid letter isMember := by
    rcases isValid with ⟨value, bound, equal⟩
    subst equal
    exact inodeComponent.above value (inode_valid bound) letter isMember

variable {contentId : ContentId}

theorem content_valid (isContentId : IsContentId contentId) :
    contentComponent.valid (utf8 contentId) := by
  rcases isContentId with ⟨value, bound, eq⟩
  exact ⟨value, bound, by rw [eq, utf8_append]; exact congrArg _ (utf8_encodeBase32 value 26)⟩

theorem utf8_contentIdBody (isContentId : IsContentId contentId) :
    utf8 (contentIdBody contentId) = contentComponent.encode (utf8 contentId) := by
  rcases isContentId with ⟨value, _, eq⟩
  have body : contentIdBody contentId = encodeGeneratedIdBody value := by
    rw [eq, contentIdBody, String.toList_append]
    exact String.ofList_toList
  rw [body, eq, utf8_append]
  rfl

private def positionEncoding : OrderedEncoding UInt8 (Natᵒᵈ ×ₗ Natᵒᵈ) :=
  u64Descending.pair u32Descending.toOrderedEncoding

def familyEncoding : (family : MetadataRowFamily) → OrderedEncoding UInt8 (LogicalTuple family)
  | .inodes => inodeComponent.toOrderedEncoding
  | .direntryBinds => inodeComponent.pair (hexadecimal.pair (inodeComponent.pair positionEncoding))
  | .direntryChildBinds =>
    inodeComponent.pair (inodeComponent.pair (hexadecimal.pair positionEncoding))
  | .revisions => inodeComponent.pair (u64Descending.pair positionEncoding)
  | .tombstones => inodeComponent.pair positionEncoding
  | .activeDeletions => u64Ascending.pair (inodeComponent.pair u32Ascending.toOrderedEncoding)
  | .commitReceipts => hexadecimal.pair u64Ascending.toOrderedEncoding
  | .commits => u64Ascending.toOrderedEncoding
  | .contentLayouts => contentComponent.pair (u64Descending.pair u64Descending.toOrderedEncoding)
  | .attributes => inodeComponent.pair (u64Descending.pair positionEncoding)
  | .access => inodeComponent.pair (u64Descending.pair positionEncoding)
  | .merges => hexadecimal.pair u64Descending.toOrderedEncoding

theorem utf8_descendingPosition (committedSeq : ChangeSeq) (deltaIndex : Nat) :
    utf8 (descendingPosition committedSeq deltaIndex) = positionEncoding.encode
        (toLex (OrderDual.toDual committedSeq, OrderDual.toDual deltaIndex)) := by
  simp only [descendingPosition, utf8_append, utf8_zeroPadded, utf8_hyphen, append_assoc]
  rfl

private theorem sortRank_valid (action : ActiveDeletionRowAction) :
    u32Ascending.valid action.sortRank := by
  cases action with
  | listed => exact (by decide : 1 < 10 ^ 10)
  | removed => exact (by decide : 0 < 10 ^ 10)

theorem MetadataRow.rowKey_spells {row : MetadataRow}
    (inFamily : row.logicalTuple family = some tuple) (inRange : row.InRange) :
    (familyEncoding family).valid tuple ∧ ∃ key, row.rowKeyForFamily family = some key ∧
        utf8 key = utf8 family.rowKeyPrefix ++ (familyEncoding family).encode tuple := by
  cases family <;> cases row <;> cases inFamily
  case inodes.inode.refl =>
    refine ⟨inode_valid inRange, _, rfl, ?_⟩
    simp only [inodeKey, utf8_append, utf8_inodeIdBody]
    rfl
  case direntryBinds.direntryBinding.refl =>
    rcases inRange with ⟨parent, child, seq, index⟩
    refine ⟨⟨inode_valid parent, trivial, inode_valid child, seq, index⟩, _, rfl, ?_⟩
    simp only [direntryBindRowKey, direntryBindEdgePrefix, direntryBindPrefix,
      direntryBindProbe, direntryParentPrefix, direntryParentProbe, utf8_append,
      utf8_inodeIdBody, utf8_hexEncodeRowKeyComponent, utf8_descendingPosition, utf8_hyphen,
      append_assoc]
    rfl
  case direntryChildBinds.direntryBinding.refl =>
    rcases inRange with ⟨parent, child, seq, index⟩
    refine ⟨⟨inode_valid child, inode_valid parent, trivial, seq, index⟩, _, rfl, ?_⟩
    simp only [direntryChildBindRowKey, direntryChildBindEdgePrefix, direntryChildPrefix,
      direntryChildProbe, utf8_append, utf8_inodeIdBody, utf8_hexEncodeRowKeyComponent,
      utf8_descendingPosition, utf8_hyphen, append_assoc]
    rfl
  case revisions.fileRevision.refl | attributes.attributesRevision.refl |
      access.accessRevision.refl =>
    rcases inRange with ⟨inode, revision, seq, index⟩
    refine ⟨⟨inode_valid inode, revision, seq, index⟩, _, rfl, ?_⟩
    simp only [revisionRowKey, revisionNoPrefix, revisionPrefix, revisionProbe,
      attributesRowKey, attributesPrefix, attributesProbe, accessRowKey, accessPrefix,
      accessProbe, utf8_append, utf8_inodeIdBody, utf8_zeroPadded, utf8_descendingPosition,
      utf8_hyphen, append_assoc]
    rfl
  case tombstones.tombstone.refl =>
    rcases inRange with ⟨root, seq, index⟩
    refine ⟨⟨inode_valid root, seq, index⟩, _, rfl, ?_⟩
    simp only [tombstoneRowKey, tombstonePrefix, tombstoneProbe, utf8_append,
      utf8_inodeIdBody, utf8_descendingPosition, utf8_hyphen, append_assoc]
    rfl
  case activeDeletions.activeDeletion.refl record =>
    rcases inRange with ⟨seq, root⟩
    refine ⟨⟨u64_fits _ seq, inode_valid root, sortRank_valid record.action⟩, _, rfl, ?_⟩
    simp only [activeDeletionRowKey, activeDeletionProbe, utf8_append, utf8_inodeIdBody,
      utf8_zeroPadded, utf8_hyphen, append_assoc]
    rfl
  case commitReceipts.commitReceipt.refl =>
    refine ⟨⟨trivial, u64_fits _ inRange⟩, _, rfl, ?_⟩
    simp only [commitReceiptRowKey, commitReceiptPrefix, commitReceiptProbe, utf8_append,
      utf8_hexEncodeRowKeyComponent, utf8_zeroPadded, utf8_hyphen, append_assoc]
    rfl
  case commits.commit.refl =>
    refine ⟨u64_fits _ inRange, _, rfl, ?_⟩
    simp only [commitRowKey, utf8_append, utf8_zeroPadded]
    rfl
  case contentLayouts.contentLayout.refl =>
    rcases inRange with ⟨content, size, seq⟩
    refine ⟨⟨content_valid content, size, seq⟩, _, rfl, ?_⟩
    simp only [contentLayoutRowKey, contentLayoutPrefix, contentLayoutProbe, utf8_append,
      utf8_contentIdBody content, utf8_zeroPadded, utf8_hyphen, append_assoc]
    rfl
  case merges.merge.refl =>
    refine ⟨⟨trivial, inRange⟩, _, rfl, ?_⟩
    simp only [mergeRowKey, mergePrefix, mergeProbe, utf8_append,
      utf8_hexEncodeRowKeyComponent, utf8_zeroPadded, utf8_hyphen, append_assoc]
    rfl

/-! ## Lookups -/

inductive LookupPrefix where
  | wholeFamily (family : MetadataRowFamily)
  | direntryParent (parentInodeId : InodeId)
  | direntryBind (parentInodeId : InodeId) (nameKey : NameKey)
  | direntryBindEdge (parentInodeId : InodeId) (nameKey : NameKey) (childInodeId : InodeId)
  | direntryChild (childInodeId : InodeId)
  | direntryChildBindEdge (childInodeId parentInodeId : InodeId) (nameKey : NameKey)
  | tombstone (rootInodeId : InodeId)
  | contentLayout (contentId : ContentId)
  | commitReceipt (commitId : CommitId)
  | merge (sourceNamespaceId : NamespaceId)
  | revision (inodeId : InodeId)
  | inodeRevision (inodeId : InodeId) (revisionNo : RevisionNo)
  | attributes (inodeId : InodeId)
  | access (inodeId : InodeId)

namespace LookupPrefix

def family : LookupPrefix → MetadataRowFamily
  | .wholeFamily family => family
  | .direntryParent _ | .direntryBind _ _ | .direntryBindEdge _ _ _ => .direntryBinds
  | .direntryChild _ | .direntryChildBindEdge _ _ _ => .direntryChildBinds
  | .tombstone _ => .tombstones
  | .contentLayout _ => .contentLayouts
  | .commitReceipt _ => .commitReceipts
  | .merge _ => .merges
  | .revision _ | .inodeRevision _ _ => .revisions
  | .attributes _ => .attributes
  | .access _ => .access

def text : LookupPrefix → String
  | .wholeFamily family => family.rowKeyPrefix
  | .direntryParent parentInodeId => direntryParentPrefix parentInodeId
  | .direntryBind parentInodeId nameKey => direntryBindPrefix parentInodeId nameKey
  | .direntryBindEdge parentInodeId nameKey childInodeId =>
    direntryBindEdgePrefix parentInodeId nameKey childInodeId
  | .direntryChild childInodeId => direntryChildPrefix childInodeId
  | .direntryChildBindEdge childInodeId parentInodeId nameKey =>
    direntryChildBindEdgePrefix childInodeId parentInodeId nameKey
  | .tombstone rootInodeId => tombstonePrefix rootInodeId
  | .contentLayout contentId => contentLayoutPrefix contentId
  | .commitReceipt commitId => commitReceiptPrefix commitId
  | .merge sourceNamespaceId => mergePrefix sourceNamespaceId
  | .revision inodeId => revisionPrefix inodeId
  | .inodeRevision inodeId revisionNo => revisionNoPrefix inodeId revisionNo
  | .attributes inodeId => attributesPrefix inodeId
  | .access inodeId => accessPrefix inodeId

/-- The components of the prefix are values of the source's types. -/
def InRange : LookupPrefix → Prop
  | .wholeFamily _ | .commitReceipt _ | .merge _ => True
  | .direntryParent inodeId | .direntryBind inodeId _ | .direntryChild inodeId
  | .tombstone inodeId | .revision inodeId | .attributes inodeId | .access inodeId =>
    inodeId < 2 ^ 128
  | .direntryBindEdge parentInodeId _ childInodeId
  | .direntryChildBindEdge childInodeId parentInodeId _ =>
    parentInodeId < 2 ^ 128 ∧ childInodeId < 2 ^ 128
  | .inodeRevision inodeId revisionNo => inodeId < 2 ^ 128 ∧ revisionNo ≤ u64Max
  | .contentLayout contentId => IsContentId contentId

def Selects : LookupPrefix → MetadataRow → Prop
  | .wholeFamily _, _ => True
  | .direntryParent parentInodeId, .direntryBinding record => record.parentInodeId = parentInodeId
  | .direntryBind parentInodeId nameKey, .direntryBinding record =>
    record.parentInodeId = parentInodeId ∧ record.nameKey = nameKey
  | .direntryBindEdge parentInodeId nameKey childInodeId, .direntryBinding record =>
    record.parentInodeId = parentInodeId ∧ record.nameKey = nameKey ∧
      record.childInodeId = childInodeId
  | .direntryChild childInodeId, .direntryBinding record => record.childInodeId = childInodeId
  | .direntryChildBindEdge childInodeId parentInodeId nameKey, .direntryBinding record =>
    record.childInodeId = childInodeId ∧ record.parentInodeId = parentInodeId ∧
      record.nameKey = nameKey
  | .tombstone rootInodeId, .tombstone record => record.rootInodeId = rootInodeId
  | .contentLayout contentId, .contentLayout record => record.contentId = contentId
  | .commitReceipt commitId, .commitReceipt record => record.commitId = commitId
  | .merge sourceNamespaceId, .merge record => record.sourceNamespaceId = sourceNamespaceId
  | .revision inodeId, .fileRevision record => record.inodeId = inodeId
  | .inodeRevision inodeId revisionNo, .fileRevision record =>
    record.inodeId = inodeId ∧ record.revisionNo = revisionNo
  | .attributes inodeId, .attributesRevision record => record.inodeId = inodeId
  | .access inodeId, .accessRevision record => record.inodeId = inodeId
  | _, _ => False

theorem text_ends_in_hyphen (lookup : LookupPrefix) :
    ∃ stem, utf8 lookup.text = utf8 stem ++ [separator] := by
  have hyphen : ∀ stem, utf8 (stem ++ "-") = utf8 stem ++ [separator] := fun stem =>
    utf8_append stem "-"
  cases lookup with
  | wholeFamily family =>
    cases family
    · exact ⟨"inode", rfl⟩
    · exact ⟨"direntry-bind", rfl⟩
    · exact ⟨"direntry-child-bind", rfl⟩
    · exact ⟨"revision", rfl⟩
    · exact ⟨"tombstone", rfl⟩
    · exact ⟨"active-deletion", rfl⟩
    · exact ⟨"commit-receipt", rfl⟩
    · exact ⟨"commit", rfl⟩
    · exact ⟨"content-layout", rfl⟩
    · exact ⟨"attribute", rfl⟩
    · exact ⟨"access", rfl⟩
    · exact ⟨"merge", rfl⟩
  | _ => exact ⟨_, hyphen _⟩

section

variable {First : Type} [LinearOrder First] (component : ComponentEncoding separator First)
  {value other : First} (isValid : component.valid value) (otherValid : component.valid other)

include isValid otherValid

private theorem leading_iff (word rest : Bytes) :
    component.encode value ++ ([separator] ++ word) <+:
        component.encode other ++ separator :: rest ↔ other = value ∧ word <+: rest := by
  rw [eq_comm]
  exact component.prefix_iff isValid otherValid word rest

private theorem last_iff (rest : Bytes) :
    component.encode value ++ [separator] <+: component.encode other ++ separator :: rest ↔
      other = value := by
  simpa using leading_iff component isValid otherValid [] rest

end

private theorem utf8_eq_iff (left right : String) : utf8 left = utf8 right ↔ left = right :=
  utf8_injective.eq_iff

theorem prefix_iff_selects {lookup : LookupPrefix} {row : MetadataRow}
    {tuple : LogicalTuple lookup.family} {key : String} (inRange : lookup.InRange)
    (inFamily : row.logicalTuple lookup.family = some tuple) (rowInRange : row.InRange)
    (isKey : row.rowKeyForFamily lookup.family = some key) :
    utf8 lookup.text <+: utf8 key ↔ lookup.Selects row := by
  rcases row.rowKey_spells inFamily rowInRange with ⟨isValid, spelledKey, keyEqual, spells⟩
  cases isKey.symm.trans keyEqual
  rw [spells]
  clear spells keyEqual isKey
  cases lookup with
  | wholeFamily family => exact iff_of_true (prefix_append _ _) trivial
  | direntryParent node | direntryChild node | tombstone node | revision node
  | attributes node | access node =>
    cases row <;> cases inFamily
    simp only [text, direntryParentPrefix, direntryParentProbe, direntryChildPrefix,
      direntryChildProbe, tombstonePrefix, tombstoneProbe, revisionPrefix, revisionProbe,
      attributesPrefix, attributesProbe, accessPrefix, accessProbe, utf8_append,
      utf8_inodeIdBody, utf8_hyphen, append_assoc]
    apply (prefix_append_right_inj _).trans
    exact last_iff inodeComponent (inode_valid inRange) isValid.1 _
  | direntryBind parentInodeId nameKey =>
    cases row <;> cases inFamily
    simp only [text, direntryBindPrefix, direntryBindProbe, direntryParentPrefix,
      direntryParentProbe, utf8_append, utf8_inodeIdBody, utf8_hexEncodeRowKeyComponent,
      utf8_hyphen, append_assoc]
    apply (prefix_append_right_inj _).trans
    apply (leading_iff inodeComponent (inode_valid inRange) isValid.1 _ _).trans
    exact and_congr_right fun _ => (last_iff hexadecimal trivial trivial _).trans (utf8_eq_iff _ _)
  | direntryBindEdge parentInodeId nameKey child =>
    cases row <;> cases inFamily
    simp only [text, direntryBindEdgePrefix, direntryBindPrefix, direntryBindProbe,
      direntryParentPrefix, direntryParentProbe, utf8_append, utf8_inodeIdBody,
      utf8_hexEncodeRowKeyComponent, utf8_hyphen, append_assoc]
    apply (prefix_append_right_inj _).trans
    apply (leading_iff inodeComponent (inode_valid inRange.1) isValid.1 _ _).trans
    apply and_congr_right fun _ => ?_
    apply (leading_iff hexadecimal trivial trivial _ _).trans
    exact and_congr (utf8_eq_iff _ _)
      (last_iff inodeComponent (inode_valid inRange.2) isValid.2.2.1 _)
  | direntryChildBindEdge child parentInodeId nameKey =>
    cases row <;> cases inFamily
    simp only [text, direntryChildBindEdgePrefix, direntryChildPrefix, direntryChildProbe,
      utf8_append, utf8_inodeIdBody, utf8_hexEncodeRowKeyComponent, utf8_hyphen, append_assoc]
    apply (prefix_append_right_inj _).trans
    apply (leading_iff inodeComponent (inode_valid inRange.2) isValid.1 _ _).trans
    apply and_congr_right fun _ => ?_
    apply (leading_iff inodeComponent (inode_valid inRange.1) isValid.2.1 _ _).trans
    exact and_congr_right fun _ => (last_iff hexadecimal trivial trivial _).trans (utf8_eq_iff _ _)
  | contentLayout contentId =>
    cases row <;> cases inFamily
    simp only [text, contentLayoutPrefix, contentLayoutProbe, utf8_append,
      utf8_contentIdBody inRange, utf8_hyphen, append_assoc]
    apply (prefix_append_right_inj _).trans
    exact (last_iff contentComponent (content_valid inRange) isValid.1 _).trans
      (utf8_eq_iff _ _)
  | commitReceipt value | merge value =>
    cases row <;> cases inFamily
    simp only [text, commitReceiptPrefix, commitReceiptProbe, mergePrefix, mergeProbe,
      utf8_append, utf8_hexEncodeRowKeyComponent, utf8_hyphen, append_assoc]
    apply (prefix_append_right_inj _).trans
    exact (last_iff hexadecimal trivial trivial _).trans (utf8_eq_iff _ _)
  | inodeRevision node revisionNo =>
    cases row <;> cases inFamily
    simp only [text, revisionNoPrefix, revisionPrefix, revisionProbe, utf8_append,
      utf8_inodeIdBody, utf8_zeroPadded, utf8_hyphen, append_assoc]
    apply (prefix_append_right_inj _).trans
    apply (leading_iff inodeComponent (inode_valid inRange.1) isValid.1 _ _).trans
    have bounded : u64Descending.valid (OrderDual.toDual revisionNo) := inRange.2
    exact and_congr_right fun _ => last_iff u64Descending bounded isValid.2.1 _

end LookupPrefix

/-! ## The order law -/

structure KeyedRow (family : MetadataRowFamily) where
  row : MetadataRow
  tuple : LogicalTuple family
  key : String
  inFamily : row.logicalTuple family = some tuple
  inRange : row.InRange
  isKey : row.rowKeyForFamily family = some key

namespace KeyedRow

theorem spells (keyed : KeyedRow family) :
    (familyEncoding family).valid keyed.tuple ∧ utf8 keyed.key =
        utf8 family.rowKeyPrefix ++ (familyEncoding family).encode keyed.tuple := by
  rcases keyed.row.rowKey_spells keyed.inFamily keyed.inRange with ⟨isValid, key, isKey, spelled⟩
  cases keyed.isKey.symm.trans isKey
  exact ⟨isValid, spelled⟩

theorem key_lt_iff (left right : KeyedRow family) :
    utf8 left.key < utf8 right.key ↔ left.tuple < right.tuple := by
  rw [left.spells.2, right.spells.2, append_left_lt_iff]
  exact (familyEncoding family).encode_lt_iff left.spells.1 right.spells.1

theorem key_eq_iff (left right : KeyedRow family) :
    left.key = right.key ↔ left.tuple = right.tuple := by
  rw [← utf8_injective.eq_iff, left.spells.2, right.spells.2, append_right_inj]
  exact (familyEncoding family).encode_eq_iff left.spells.1 right.spells.1

end KeyedRow

theorem LookupPrefix.exists_range (lookup : LookupPrefix) (inRange : lookup.InRange) :
    ∃ upper, stringPrefixUpperBound lookup.text = some upper ∧ ∀ keyed : KeyedRow lookup.family,
        utf8 lookup.text ≤ utf8 keyed.key ∧ utf8 keyed.key < utf8 upper ↔
          lookup.Selects keyed.row := by
  rcases lookup.text_ends_in_hyphen with ⟨stem, ends⟩
  rcases stringPrefixUpperBound_spec ends (by decide) with ⟨upper, bound, between⟩
  refine ⟨upper, bound, fun keyed => ?_⟩
  rw [← between]
  exact prefix_iff_selects inRange keyed.inFamily keyed.inRange keyed.isKey

/-- Keys compare bytewise as the tuples of their rows do, and the keys from a lookup prefix up
to its upper bound are those of the rows whose leading components are the prefix's. -/
theorem rowKeys_orderLaw (family : MetadataRowFamily) :
    (∀ row : MetadataRow, ∀ tuple : LogicalTuple family,
      row.logicalTuple family = some tuple → row.InRange →
        ∃ keyed : KeyedRow family, keyed.row = row) ∧
    (∀ left right : KeyedRow family,
      (utf8 left.key < utf8 right.key ↔ left.tuple < right.tuple) ∧
        (left.key = right.key ↔ left.tuple = right.tuple)) ∧
    ∀ lookup : LookupPrefix, lookup.family = family → lookup.InRange →
      ∃ upper, stringPrefixUpperBound lookup.text = some upper ∧
        ∀ keyed : KeyedRow family,
          utf8 lookup.text ≤ utf8 keyed.key ∧ utf8 keyed.key < utf8 upper ↔
            lookup.Selects keyed.row := by
  refine ⟨?_, fun left right => ⟨left.key_lt_iff right, left.key_eq_iff right⟩, ?_⟩
  · intro row tuple inFamily inRange
    rcases row.rowKey_spells inFamily inRange with ⟨_, key, isKey, _⟩
    exact ⟨⟨row, tuple, key, inFamily, inRange, isKey⟩, rfl⟩
  · intro lookup sameFamily inRange
    subst sameFamily
    exact lookup.exists_range inRange

end LoonFs
