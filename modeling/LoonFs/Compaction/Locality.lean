import LoonFs.Format.RowKeyOrder

/-! # Locality groups -/

namespace LoonFs

open Foundation List

def leadingComponents {Letter : Type} [DecidableEq Letter] (separator : Letter) :
    Nat → List Letter → List Letter
  | 0, _ => []
  | _, [] => []
  | components + 1, letter :: rest =>
    if letter = separator then
      if components = 0 then [] else letter :: leadingComponents separator components rest
    else letter :: leadingComponents separator (components + 1) rest

variable {Letter : Type} {right left : List Letter}

theorem cons_le_cons_of_le [LinearOrder Letter] (letter : Letter) (le : left ≤ right) :
    letter :: left ≤ letter :: right := by
  rcases le.lt_or_eq with less | eq
  · exact le_of_lt (.cons less)
  · rw [eq]

theorem leadingComponents_mono [LinearOrder Letter] [DecidableEq Letter] {separator : Letter}
    (less : left < right) (leftLeast : ∀ letter ∈ left, separator ≤ letter) (components : Nat) :
    leadingComponents separator components left ≤ leadingComponents separator components right := by
  induction less generalizing components with
  | nil =>
    cases components with
    | zero => exact le_refl _
    | succ components => exact prefix_le nil_prefix
  | @cons letter left right less induction =>
    have rest := fun components => induction
      (fun other mem => leftLeast other (mem_cons_of_mem _ mem)) components
    cases components with
    | zero => exact le_refl _
    | succ components =>
      simp only [leadingComponents]
      split
      · split
        · exact le_refl _
        · exact cons_le_cons_of_le _ (rest _)
      · exact cons_le_cons_of_le _ (rest _)
  | @rel letter left other right less =>
    cases components with
    | zero => exact le_refl _
    | succ components =>
      -- The greater letter is above the separator.
      have above : other ≠ separator := ((leftLeast letter mem_cons_self).trans_lt less).ne'
      simp only [leadingComponents, if_neg above]
      split
      · split
        · exact prefix_le nil_prefix
        · exact le_of_lt (.rel less)
      · exact le_of_lt (.rel less)

inductive LocalityGrouping where
  | row
  | leadingKeyComponents (components : Nat)
deriving Repr, DecidableEq

def localityOf (locality : LocalityGrouping) (family : MetadataRowFamily) (rowKey : String) :
    Bytes :=
  let prefixLen := (utf8 family.rowKeyPrefix).length
  let tail := if prefixLen ≤ (utf8 rowKey).length then (utf8 rowKey).drop prefixLen else utf8 rowKey
  match locality with
  | .row => tail
  | .leadingKeyComponents components => leadingComponents separator components tail

def Foundation.OrderedEncoding.AtLeast {Value : Type} [LinearOrder Value]
    (encoding : OrderedEncoding UInt8 Value) : Prop :=
  ∀ value, encoding.valid value → ∀ letter ∈ encoding.encode value, separator ≤ letter

theorem component_atLeast {Value : Type} [LinearOrder Value]
    (component : ComponentEncoding separator Value) : component.toOrderedEncoding.AtLeast :=
  fun value isValid letter mem => (component.above value isValid letter mem).le

theorem pair_atLeast {First Second : Type} [LinearOrder First] [LinearOrder Second]
    (component : ComponentEncoding separator First) {rest : OrderedEncoding UInt8 Second}
    (least : rest.AtLeast) : (component.pair rest).AtLeast := by
  intro value isValid letter mem
  rcases mem_append.mp mem with mem | mem
  · exact component_atLeast component _ isValid.1 letter mem
  · rcases mem_cons.mp mem with same | mem
    · exact same.ge
    · exact least _ isValid.2 letter mem

theorem familyEncoding_atLeast (family : MetadataRowFamily) : (familyEncoding family).AtLeast := by
  cases family with
  | inodes => exact component_atLeast _
  | direntryBinds | direntryChildBinds =>
    exact pair_atLeast _ (pair_atLeast _ (pair_atLeast _ (pair_atLeast _ (component_atLeast _))))
  | revisions => exact pair_atLeast _ (pair_atLeast _ (pair_atLeast _ (component_atLeast _)))
  | tombstones | activeDeletions => exact pair_atLeast _ (pair_atLeast _ (component_atLeast _))
  | commitReceipts => exact pair_atLeast _ (component_atLeast _)
  | commits => exact component_atLeast _
  | contentLayouts => exact pair_atLeast _ (pair_atLeast _ (component_atLeast _))
  | attributes | access =>
    exact pair_atLeast _ (pair_atLeast _ (pair_atLeast _ (component_atLeast _)))
  | merges => exact pair_atLeast _ (component_atLeast _)

theorem localityOf_mono {family : MetadataRowFamily} (locality : LocalityGrouping)
    (left right : KeyedRow family) (less : utf8 left.key < utf8 right.key) :
    localityOf locality family left.key ≤ localityOf locality family right.key := by
  have tail : ∀ keyed : KeyedRow family,
      (if (utf8 family.rowKeyPrefix).length ≤ (utf8 keyed.key).length
        then (utf8 keyed.key).drop (utf8 family.rowKeyPrefix).length else utf8 keyed.key) =
        (familyEncoding family).encode keyed.tuple := by
    intro keyed
    rw [keyed.spells.2, length_append, if_pos (Nat.le_add_right _ _), drop_left]
  have tailsLess : (familyEncoding family).encode left.tuple <
      (familyEncoding family).encode right.tuple := by
    rwa [left.spells.2, right.spells.2, append_left_lt_iff] at less
  simp only [localityOf, tail]
  cases locality with
  | row => exact tailsLess.le
  | leadingKeyComponents components =>
    exact leadingComponents_mono tailsLess
      (familyEncoding_atLeast family left.tuple left.spells.1) components

end LoonFs
