import LoonFs.Grep.GramPlan

/-! # Grams of a text -/

namespace LoonFs

open Foundation

@[simp] theorem toAsciiLowercase_idem (byte : UInt8) :
    toAsciiLowercase (toAsciiLowercase byte) = toAsciiLowercase byte := by
  unfold toAsciiLowercase
  by_cases upper : 65 ≤ byte ∧ byte ≤ 90
  · rw [if_pos upper, if_neg]
    rintro ⟨_, le⟩
    simp only [UInt8.le_iff_toNat_le, UInt8.toNat_add] at upper le
    simp at upper le
    omega
  · rw [if_neg upper, if_neg upper]

theorem windows_foldBytes (text : Bytes) : windows (foldBytes text) = windows text := by
  induction text using windows.induct with
  | case1 first second third rest induction =>
    simp only [foldBytes, List.map_cons, windows, toAsciiLowercase_idem] at induction ⊢
    rw [induction]
  | case2 text short =>
    rcases text with _ | ⟨first, _ | ⟨second, _ | ⟨third, rest⟩⟩⟩
    · rfl
    · rfl
    · rfl
    · exact absurd rfl (short first second third rest)

variable {text : Bytes} {gram : Gram}

@[simp] theorem mem_extractGrams : gram ∈ extractGrams text ↔ gram ∈ windows text := by
  rw [extractGrams, gramSet, mem_collected]

theorem windows_append_left (before : Bytes) (mem : gram ∈ windows text) :
    gram ∈ windows (before ++ text) := by
  induction before with
  | nil => exact mem
  | cons byte before induction =>
    rw [List.cons_append]
    match joined : before ++ text with
    | [] | [_] => rw [joined] at induction; cases induction
    | second :: third :: rest =>
      rw [joined] at induction
      exact List.mem_cons_of_mem _ induction

theorem windows_append_right (after : Bytes) (mem : gram ∈ windows text) :
    gram ∈ windows (text ++ after) := by
  induction text using windows.induct with
  | case1 first second third rest induction =>
    rcases List.mem_cons.mp mem with same | later
    · rw [same]
      exact List.mem_cons_self
    · exact List.mem_cons_of_mem _ (induction later)
  | case2 text short =>
    rcases text with _ | ⟨first, _ | ⟨second, _ | ⟨third, rest⟩⟩⟩
    · cases mem
    · cases mem
    · cases mem
    · exact absurd rfl (short first second third rest)

variable {part : Bytes}

theorem windows_of_part (isPart : part <:+: text) (mem : gram ∈ windows part) :
    gram ∈ windows text := by
  obtain ⟨before, after, joined⟩ := isPart
  rw [← joined]
  exact windows_append_right after (windows_append_left before mem)

theorem windows_eq_nil_iff : windows text = [] ↔ text.length < gramLen := by
  rcases text with _ | ⟨first, _ | ⟨second, _ | ⟨third, rest⟩⟩⟩ <;> simp [windows, gramLen]

theorem extractGrams_eq_nil_iff : extractGrams text = [] ↔ text.length < gramLen := by
  rw [← windows_eq_nil_iff]
  simp only [List.eq_nil_iff_forall_not_mem, mem_extractGrams]

def Hits (set : GramSet) (text : Bytes) : Prop := ∃ gram ∈ set, gram ∈ extractGrams text

theorem Hits.of_part {set : GramSet} (hits : Hits set part) (isPart : part <:+: text) :
    Hits set text := by
  obtain ⟨gram, isGram, inPart⟩ := hits
  exact ⟨gram, isGram, mem_extractGrams.mpr (windows_of_part isPart (mem_extractGrams.mp inPart))⟩

theorem windows_of_run (isPart : run <:+: foldBytes text) (mem : gram ∈ windows run) :
    gram ∈ windows text := by
  rw [← windows_foldBytes]
  exact windows_of_part isPart mem

theorem hits_pushRunGrams (hits : ∀ set ∈ sets, Hits set text) (isPart : run <:+: foldBytes text) :
    ∀ set ∈ pushRunGrams sets run, Hits set text := by
  intro set mem
  rcases List.mem_append.mp mem with old | new
  · exact hits set old
  · obtain ⟨gram, isGram, isSet⟩ := List.mem_map.mp new
    subst isSet
    rw [mem_extractGrams] at isGram
    exact ⟨gram, List.mem_singleton_self gram, mem_extractGrams.mpr (windows_of_run isPart isGram)⟩

theorem pushRunGrams_eq_nil_iff :
    pushRunGrams sets run = [] ↔ sets = [] ∧ run.length < gramLen := by
  rw [pushRunGrams, List.append_eq_nil_iff, List.map_eq_nil_iff, extractGrams_eq_nil_iff]

theorem foldInto_eq_some (folds : foldInto folded byte = some result) :
    result = some (toAsciiLowercase byte) ∧ ∀ existing, folded = some existing →
      result = some existing := by
  cases folded with
  | none =>
    cases folds
    exact ⟨rfl, fun existing same => nomatch same⟩
  | some existing =>
    simp only [foldInto] at folds
    split at folds
    · next same =>
        cases folds
        exact ⟨congrArg some same, fun other isOther => isOther⟩
    · cases folds

def KeepsByte (fold : Option UInt8 → Nat → Option (Option UInt8)) : Prop :=
  ∀ folded value result, fold folded value = some result →
    ∀ existing, folded = some existing → result = some existing

theorem foldByte_keeps : KeepsByte foldByte := by
  intro folded value result folds
  exact (foldInto_eq_some folds).2

theorem foldCharacter_keeps : KeepsByte foldCharacter := by
  intro folded value result folds existing isFolded
  unfold foldCharacter at folds
  split at folds
  · split at folds
    · exact (foldInto_eq_some folds).2 existing isFolded
    · cases folds
  · cases folds
    exact isFolded

section

variable {fold : Option UInt8 → Nat → Option (Option UInt8)} (keeps : KeepsByte fold)

include keeps

theorem foldRange_keeps (folds : foldRange fold count value folded = some result)
    (isFolded : folded = some existing) : result = some existing := by
  induction count generalizing value folded with
  | zero =>
    cases folds
    exact isFolded
  | succ count induction =>
    rw [foldRange] at folds
    cases step : fold folded value with
    | none => rw [step] at folds; cases folds
    | some next =>
      rw [step] at folds
      exact induction folds (keeps _ _ _ step existing isFolded)

theorem foldRange_member (folds : foldRange fold count first folded = some result)
    (ends : ∀ other, result = some other → other = byte) (reached : first ≤ value)
    (inRange : value < first + count) :
    ∃ before after, fold before value = some after ∧
      ∀ other, after = some other → other = byte := by
  induction count generalizing first folded with
  | zero => omega
  | succ count induction =>
    rw [foldRange] at folds
    cases step : fold folded first with
    | none => rw [step] at folds; cases folds
    | some next =>
      rw [step] at folds
      by_cases same : value = first
      · subst same
        refine ⟨folded, next, step, ?_⟩
        intro other isNext
        exact ends other (foldRange_keeps keeps folds isNext)
      · exact induction folds (by omega) (by omega)

theorem foldRanges_keeps (folds : foldRanges fold ranges folded = some result)
    (isFolded : folded = some existing) : result = some existing := by
  induction ranges generalizing folded with
  | nil =>
    cases folds
    exact isFolded
  | cons range ranges induction =>
    rw [foldRanges] at folds
    split at folds
    · cases folds
    · next step => exact induction folds (foldRange_keeps keeps step isFolded)

theorem foldRanges_member (folds : foldRanges fold ranges folded = some (some byte))
    (mem : range ∈ ranges) (reached : range.1 ≤ value) (inRange : value ≤ range.2) :
    ∃ before after, fold before value = some after ∧
      ∀ other, after = some other → other = byte := by
  induction ranges generalizing folded with
  | nil => cases mem
  | cons head ranges induction =>
    rw [foldRanges] at folds
    cases step : foldRange fold (head.2 + 1 - head.1) head.1 folded with
    | none => rw [step] at folds; cases folds
    | some next =>
      rw [step] at folds
      rcases List.mem_cons.mp mem with same | later
      · subst same
        apply foldRange_member keeps step _ reached (by omega)
        intro other isNext
        exact (Option.some.inj (foldRanges_keeps keeps folds isNext)).symm
      · exact induction folds later

end

theorem singleFoldedByte_matches (single : singleFoldedByte members = some byte)
    (matches_ : members.Matches matched) : foldBytes matched = [byte] := by
  cases members with
  | bytes ranges =>
    obtain ⟨range, isRange, value, reached, inRange, isMatch⟩ := matches_
    have folds := Option.join_eq_some_iff.mp single
    obtain ⟨before, after, step, ends⟩ := foldRanges_member foldByte_keeps folds
      (List.mem_map.mpr ⟨range, isRange, rfl⟩) (UInt8.le_iff_toNat_le.mp reached)
      (UInt8.le_iff_toNat_le.mp inRange)
    rw [foldByte, UInt8.ofNat_toNat] at step
    rw [isMatch, foldBytes, List.map_singleton, ends _ (foldInto_eq_some step).1]
  | unicode ranges =>
    obtain ⟨range, isRange, character, reached, inRange, isMatch⟩ := matches_
    have folds := Option.join_eq_some_iff.mp single
    obtain ⟨before, after, step, ends⟩ := foldRanges_member foldCharacter_keeps folds
      (List.mem_map.mpr ⟨range, isRange, rfl⟩)
      (show range.1.toNat ≤ character.toNat from reached)
      (show character.toNat ≤ range.2.toNat from inRange)
    have valid : character.toNat.isValidChar := character.valid
    rw [foldCharacter, if_pos valid, Char.ofNat_toNat] at step
    rw [isMatch]
    split at step
    · next encoded => rw [encoded, foldBytes, List.map_singleton, ends _ (foldInto_eq_some step).1]
    · cases step

end LoonFs
