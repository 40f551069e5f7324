import LoonFs.Grep.Grams

/-! # What a gram plan promises -/

namespace LoonFs

open Foundation List Option

/-! ## Runs that end at an open front -/

structure RunShape where
  /-- The number of fixed bytes at the end of a match, if the part goes on with them. -/
  length : Option Nat
  /-- These bytes are the whole match. -/
  whole : Bool
  /-- The part already forces a gram. -/
  forced : Bool
deriving Repr, DecidableEq

namespace RunShape

def open_ : RunShape := { length := none, whole := false, forced := false }

def exactly (length : Nat) : RunShape := { length := some length, whole := true, forced := false }

def forcesGram (shape : RunShape) : Bool :=
  shape.forced || shape.length.any fun length => decide (gramLen ≤ length)

def join (before part : RunShape) : RunShape :=
  let forced := before.forced || part.forced
  match before.length, part.length with
  | some length, some more =>
    { length := some (length + more), whole := before.whole && part.whole, forced }
  | some length, none =>
    { length := none, whole := false, forced := forced || decide (gramLen ≤ length) }
  | none, length => { length, whole := false, forced }

/-- The fixed bytes of `part` directly follow fixed bytes only if they are all of it. -/
def joinsWhole (before part : RunShape) : Bool :=
  part.whole || part.length.isNone || before.length.all fun length => decide (length = 0)

def joinsAllWhole : RunShape → List RunShape → Bool
  | _, [] => true
  | before, part :: parts => before.joinsWhole part && (before.join part).joinsAllWhole parts

def concatEnd (joined : RunShape) : RunShape :=
  if joined.length.isSome && !joined.forced then joined
  else { length := none, whole := false, forced := joined.forced }

def concat (parts : List RunShape) : RunShape := concatEnd (parts.foldl join (exactly 0))

end RunShape

mutual

def Hir.runShape : Hir → RunShape
  | .empty => .exactly 0
  | .literal bytes => .exactly bytes.length
  | .charClass members => if (singleFoldedByte members).isSome then .exactly 1 else .open_
  | .look _ => .exactly 0
  | .repetition min max _ sub =>
    if min = 0 then .open_
    else if min = 1 ∧ max = some 1 then sub.runShape
    else { length := none, whole := false, forced := sub.runShape.forcesGram }
  | .capture _ _ sub => sub.runShape
  | .concat subs => .concat (Hir.runShapes subs)
  | .alternation subs =>
    { length := none, whole := false, forced := (Hir.runShapes subs).all RunShape.forcesGram }

def Hir.runShapes : List Hir → List RunShape
  | [] => []
  | sub :: subs => sub.runShape :: Hir.runShapes subs

end

mutual

/-- No concatenation that the plan is made of puts fixed bytes before a part whose fixed end is
not the whole of it. What may be absent, or is one of several branches of which one forces no
gram, is not in the plan. -/
def Hir.joinsWholeRuns : Hir → Bool
  | .repetition min _ _ sub => min == 0 || sub.joinsWholeRuns
  | .capture _ _ sub => sub.joinsWholeRuns
  | .concat subs =>
    Hir.allJoinWholeRuns subs && (RunShape.exactly 0).joinsAllWhole (Hir.runShapes subs)
  | .alternation subs =>
    !(Hir.runShapes subs).all RunShape.forcesGram || Hir.allJoinWholeRuns subs
  | _ => true

def Hir.allJoinWholeRuns : List Hir → Bool
  | [] => true
  | sub :: subs => sub.joinsWholeRuns && Hir.allJoinWholeRuns subs

end

@[simp] theorem Hir.runShapes_eq_map (subs : List Hir) :
    Hir.runShapes subs = subs.map Hir.runShape := by
  induction subs with
  | nil => rfl
  | cons sub subs induction => rw [Hir.runShapes, induction, map_cons]

@[simp] theorem Hir.allJoinWholeRuns_iff :
    Hir.allJoinWholeRuns subs = true ↔ ∀ sub ∈ subs, sub.joinsWholeRuns = true := by
  induction subs with
  | nil => simp [Hir.allJoinWholeRuns]
  | cons sub subs induction => simp [Hir.allJoinWholeRuns, induction]

structure Analysis.HasShape (analysis : Analysis) (shape : RunShape) : Prop where
  length : analysis.run.map List.length = shape.length
  forced : analysis.sets = [] ↔ shape.forced = false

theorem Analysis.HasShape.constrains_eq {analysis : Analysis} (hasShape : analysis.HasShape shape) :
    analysis.constrains = shape.forcesGram := by
  have sets : (!analysis.sets.isEmpty) = shape.forced := by
    have forced := hasShape.forced
    cases isForced : shape.forced
    · simp [forced.mpr isForced]
    · simp [isForced] at forced
      simpa using forced
  rw [Analysis.constrains, RunShape.forcesGram, sets, ← hasShape.length]
  cases analysis.run <;> rfl

section

variable {sets : List GramSet} {run : Option Bytes} {before : RunShape}

section

variable (acc : Analysis.HasShape ⟨sets, run⟩ before)

include acc

theorem concatStep_hasShape (hasShape : child.HasShape part) :
    Analysis.HasShape ⟨(concatStep sets run child).1, (concatStep sets run child).2⟩
      (before.join part) := by
  have accLength := acc.length
  have accForced := acc.forced
  have partLength := hasShape.length
  have partForced := hasShape.forced
  dsimp only at accLength accForced
  have forced : sets ++ child.sets = [] ↔ (before.forced || part.forced) = false := by
    rw [append_eq_nil_iff, accForced, partForced, Bool.or_eq_false_iff]
  unfold concatStep RunShape.join
  cases run with
  | none =>
    rw [map_none] at accLength
    rw [← accLength]
    exact ⟨partLength, forced⟩
  | some run =>
    rw [map_some] at accLength
    rw [← accLength]
    cases isRun : child.run with
    | none =>
      rw [isRun, map_none] at partLength
      rw [← partLength]
      refine ⟨rfl, ?_⟩
      dsimp only
      simp only [pushRunGrams_eq_nil_iff, forced, Bool.or_eq_false_iff,
        decide_eq_false_iff_not, Nat.not_le]
    | some childRun =>
      rw [isRun, map_some] at partLength
      rw [← partLength]
      exact ⟨by simp, forced⟩

theorem concatEnd_cases : (concatEnd sets run = ⟨sets, run⟩ ∧ before.concatEnd = before) ∨
      (run = none ∧ concatEnd sets run = ⟨sets, none⟩ ∧
        before.concatEnd = ⟨none, false, before.forced⟩) ∨
      ∃ bytes, run = some bytes ∧ sets ≠ [] ∧ concatEnd sets run = ⟨pushRunGrams sets bytes, none⟩ ∧
        before.concatEnd = ⟨none, false, true⟩ := by
  have accLength := acc.length
  have accForced := acc.forced
  dsimp only at accLength accForced
  cases run with
  | none => exact .inr (.inl ⟨rfl, rfl, by simp [RunShape.concatEnd, ← accLength]⟩)
  | some bytes =>
    by_cases noSets : sets = []
    · have notForced := accForced.mp noSets
      subst noSets
      exact .inl ⟨rfl, by simp [RunShape.concatEnd, ← accLength, notForced]⟩
    · have isForced : before.forced = true := by simpa using mt accForced.mpr noSets
      exact .inr (.inr ⟨bytes, rfl, noSets, by simp [concatEnd, noSets],
        by simp [RunShape.concatEnd, isForced]⟩)

theorem concatEnd_hasShape : (concatEnd sets run).HasShape before.concatEnd := by
  obtain ⟨ended, shape⟩ | ⟨_, ended, shape⟩ | ⟨bytes, _, someSets, ended, shape⟩ :=
    concatEnd_cases acc
  · rw [ended, shape]
    exact acc
  · rw [ended, shape]
    exact ⟨rfl, acc.forced⟩
  · rw [ended, shape]
    exact ⟨rfl, by simp [pushRunGrams_eq_nil_iff, someSets]⟩

end

/-- What the analysis of a part says of a text that the part matches. -/
structure Analysis.Describes (analysis : Analysis) (shape : RunShape) (matched : Bytes) : Prop where
  sets : ∀ set ∈ analysis.sets, Hits set matched
  run : ∀ run, analysis.run = some run → run <:+ foldBytes matched
  whole : shape.whole = true → ∀ run, analysis.run = some run → run = foldBytes matched

theorem foldBytes_append (left right : Bytes) :
    foldBytes (left ++ right) = foldBytes left ++ foldBytes right :=
  map_append

theorem concatStep_describes (accShape : Analysis.HasShape ⟨sets, run⟩ before)
    (acc : Analysis.Describes ⟨sets, run⟩ before text) (hasShape : child.HasShape part)
    (describes : child.Describes part childText) (joins : before.joinsWhole part = true) :
    Analysis.Describes ⟨(concatStep sets run child).1, (concatStep sets run child).2⟩
      (before.join part) (text ++ childText) := by
  have hits : ∀ set ∈ sets ++ child.sets, Hits set (text ++ childText) := by
    intro set mem
    rcases mem_append.mp mem with old | new
    · exact (acc.sets set old).of_part (prefix_append ..).isInfix
    · exact (describes.sets set new).of_part (suffix_append ..).isInfix
  have accLength := accShape.length
  have partLength := hasShape.length
  unfold concatStep RunShape.join
  cases run with
  | none =>
    rw [map_none] at accLength
    rw [← accLength]
    refine ⟨hits, ?_, fun isWhole => nomatch isWhole⟩
    intro childRun isRun
    rw [foldBytes_append]
    exact (describes.run childRun isRun).trans (suffix_append ..)
  | some run =>
    rw [map_some] at accLength
    rw [← accLength]
    have ends := acc.run run rfl
    cases isRun : child.run with
    | none =>
      rw [isRun, map_none] at partLength
      rw [← partLength]
      refine ⟨?_, (fun _ isNone => nomatch isNone), (fun isWhole => nomatch isWhole)⟩
      apply hits_pushRunGrams hits
      rw [foldBytes_append]
      exact ends.isInfix.trans (prefix_append ..).isInfix
    | some childRun =>
      rw [isRun, map_some] at partLength
      rw [← partLength]
      refine ⟨hits, ?_, ?_⟩
      · intro joined isJoined
        cases isJoined
        rw [foldBytes_append]
        by_cases isWhole : part.whole = true
        · rw [describes.whole isWhole childRun isRun]
          obtain ⟨front, isFront⟩ := ends
          exact ⟨front, by rw [← isFront, append_assoc]⟩
        · have noBytes : run = [] := by
            simp only [RunShape.joinsWhole, isWhole, ← partLength, ← accLength,
              isNone_some, all_some, Bool.false_or, decide_eq_true_eq] at joins
            exact eq_nil_of_length_eq_zero joins
          rw [noBytes, nil_append]
          exact (describes.run childRun isRun).trans (suffix_append ..)
      · intro bothWhole joined isJoined
        cases isJoined
        rw [Bool.and_eq_true] at bothWhole
        rw [foldBytes_append, acc.whole bothWhole.1 run rfl,
          describes.whole bothWhole.2 childRun isRun]

theorem concatEnd_describes (accShape : Analysis.HasShape ⟨sets, run⟩ before)
    (acc : Analysis.Describes ⟨sets, run⟩ before text) :
    (concatEnd sets run).Describes before.concatEnd text := by
  obtain ⟨ended, shape⟩ | ⟨_, ended, shape⟩ | ⟨bytes, isRun, _, ended, shape⟩ :=
    concatEnd_cases accShape
  · rw [ended, shape]
    exact acc
  · rw [ended, shape]
    exact ⟨acc.sets, (fun _ isNone => nomatch isNone), (fun _ _ isNone => nomatch isNone)⟩
  · rw [ended, shape]
    exact ⟨hits_pushRunGrams acc.sets (acc.run bytes isRun).isInfix,
      (fun _ isNone => nomatch isNone), (fun _ _ isNone => nomatch isNone)⟩

end

section

variable (holds : Look → Bytes → Bytes → Prop) {subs : List Hir} {sets : List GramSet}
  {run : Option Bytes}

theorem concatParts_hasShape (parts : ∀ sub ∈ subs, (analyze sub).HasShape sub.runShape)
    {before : RunShape} (acc : Analysis.HasShape ⟨sets, run⟩ before) : Analysis.HasShape
      ⟨(concatParts (subs.map analyze) sets run).1, (concatParts (subs.map analyze) sets run).2⟩
      ((subs.map Hir.runShape).foldl RunShape.join before) := by
  induction subs generalizing sets run before with
  | nil => exact acc
  | cons sub subs induction =>
    have step := concatStep_hasShape acc (parts sub mem_cons_self)
    exact induction (fun other mem => parts other (mem_cons_of_mem _ mem)) step

/-- What a part says of every text that it matches. -/
def Hir.Described (hir : Hir) : Prop :=
  ∀ before matched after, hir.Matches holds before matched after →
    (analyze hir).Describes hir.runShape matched

variable {shape : RunShape} {matched before after : Bytes}

theorem concatParts_describes (shapes : ∀ sub ∈ subs, (analyze sub).HasShape sub.runShape)
    (parts : ∀ sub ∈ subs, sub.Described holds) (accShape : Analysis.HasShape ⟨sets, run⟩ shape)
    (acc : Analysis.Describes ⟨sets, run⟩ shape text)
    (joins : shape.joinsAllWhole (subs.map Hir.runShape) = true)
    (matchesAll : Hir.MatchesAll holds subs before matched after) :
    Analysis.Describes
      ⟨(concatParts (subs.map analyze) sets run).1, (concatParts (subs.map analyze) sets run).2⟩
      ((subs.map Hir.runShape).foldl RunShape.join shape) (text ++ matched) := by
  induction subs generalizing sets run shape text before matched with
  | nil =>
    rw [Hir.MatchesAll] at matchesAll
    subst matchesAll
    rw [append_nil]
    exact acc
  | cons sub subs induction =>
    rw [Hir.MatchesAll] at matchesAll
    obtain ⟨first, rest, isMatched, matchesFirst, matchesRest⟩ := matchesAll
    subst isMatched
    rw [map_cons, RunShape.joinsAllWhole, Bool.and_eq_true] at joins
    have subShape := shapes sub mem_cons_self
    have step := concatStep_describes accShape acc subShape
      (parts sub mem_cons_self _ _ _ matchesFirst) joins.1
    rw [← append_assoc]
    exact induction (fun other mem => shapes other (mem_cons_of_mem _ mem))
      (fun other mem => parts other (mem_cons_of_mem _ mem))
      (concatStep_hasShape accShape subShape) step joins.2 matchesRest

theorem emptyMatch_hasShape : Analysis.emptyMatch.HasShape (.exactly 0) :=
  ⟨rfl, by simp [Analysis.emptyMatch, RunShape.exactly]⟩

theorem unconstrained_hasShape : Analysis.unconstrained.HasShape .open_ :=
  ⟨rfl, by simp [Analysis.unconstrained, RunShape.open_]⟩

variable {inner : Analysis}

theorem analyzeRepetition_hasShape (min : Nat) (max : Option Nat)
    (hasShape : inner.HasShape shape) : (analyzeRepetition min max inner).HasShape
      (if min = 0 then .open_ else if min = 1 ∧ max = some 1 then shape
      else { length := none, whole := false, forced := shape.forcesGram }) := by
  have length := hasShape.length
  have forced := hasShape.forced
  unfold analyzeRepetition
  by_cases zero : min = 0
  · rw [if_pos zero, if_pos zero]
    exact unconstrained_hasShape
  · rw [if_neg zero, if_neg zero]
    by_cases once : min = 1 ∧ max = some 1
    · rw [if_pos once, if_pos once]
      exact hasShape
    · rw [if_neg once, if_neg once]
      cases isRun : inner.run with
      | none =>
        rw [isRun, map_none] at length
        refine ⟨rfl, ?_⟩
        simp [RunShape.forcesGram, ← length, forced]
      | some run =>
        rw [isRun, map_some] at length
        refine ⟨rfl, ?_⟩
        simp [RunShape.forcesGram, ← length, forced, pushRunGrams_eq_nil_iff]

theorem all_constrains_eq (parts : ∀ sub ∈ subs, (analyze sub).HasShape sub.runShape) :
    (subs.map analyze).all Analysis.constrains =
      (subs.map Hir.runShape).all RunShape.forcesGram := by
  rw [Bool.eq_iff_iff, List.all_map, List.all_map, List.all_eq_true, List.all_eq_true]
  apply forall₂_congr
  intro sub mem
  rw [Function.comp, Function.comp, (parts sub mem).constrains_eq]

theorem analyzeAlternation_hasShape (parts : ∀ sub ∈ subs, (analyze sub).HasShape sub.runShape) :
    (analyzeAlternation (subs.map analyze)).HasShape
      { length := none, whole := false,
        forced := (subs.map Hir.runShape).all RunShape.forcesGram } := by
  unfold analyzeAlternation
  rw [all_constrains_eq parts]
  cases (subs.map Hir.runShape).all RunShape.forcesGram with
  | false => exact ⟨rfl, by simp [Analysis.unconstrained]⟩
  | true => exact ⟨rfl, by simp⟩

theorem analyze_hasShape (hir : Hir) : (analyze hir).HasShape hir.runShape := by
  induction hir using Hir.induct with
  | empty => exact emptyMatch_hasShape
  | literal bytes => exact ⟨by simp [analyze, Hir.runShape, RunShape.exactly, foldBytes],
      by simp [analyze, Hir.runShape, RunShape.exactly]⟩
  | charClass members =>
    rw [analyze, Hir.runShape]
    cases singleFoldedByte members with
    | none => exact unconstrained_hasShape
    | some byte => exact ⟨rfl, by simp [RunShape.exactly]⟩
  | look assertion => exact emptyMatch_hasShape
  | repetition min max greedy sub induction => exact analyzeRepetition_hasShape min max induction
  | capture index name sub induction => exact induction
  | concat subs induction =>
    rw [analyze, Hir.runShape, analyzeAll_eq_map, Hir.runShapes_eq_map]
    exact concatEnd_hasShape (concatParts_hasShape induction emptyMatch_hasShape)
  | alternation subs induction =>
    rw [analyze, Hir.runShape, analyzeAll_eq_map, Hir.runShapes_eq_map]
    exact analyzeAlternation_hasShape induction

/-! ## Matches have the grams -/

theorem emptyMatch_describes : Analysis.emptyMatch.Describes (.exactly 0) [] where
  sets := by simp [Analysis.emptyMatch]
  run := by
    intro run isRun
    cases isRun
    exact suffix_refl _
  whole := by
    intro _ run isRun
    cases isRun
    rfl

theorem unconstrained_describes : Analysis.unconstrained.Describes shape matched where
  sets := by simp [Analysis.unconstrained]
  run := by
    intro run isRun
    cases isRun
  whole := by
    intro _ run isRun
    cases isRun

theorem analyzeRepetition_describes {min : Nat} {max : Option Nat}
    {one : Bytes → Bytes → Bytes → Prop}
    (described : ∀ before matched after, one before matched after → inner.Describes shape matched)
    {count : Nat} (atLeast : min ≤ count) (atMost : ∀ most ∈ max, count ≤ most)
    (repeated : RepeatedMatch one count before matched after) :
    (analyzeRepetition min max inner).Describes
      (if min = 0 then .open_
      else if min = 1 ∧ max = some 1 then shape
      else { length := none, whole := false, forced := shape.forcesGram }) matched := by
  unfold analyzeRepetition
  by_cases zero : min = 0
  · rw [if_pos zero, if_pos zero]
    exact unconstrained_describes
  rw [if_neg zero, if_neg zero]
  obtain ⟨more, isCount⟩ : ∃ more, count = more + 1 := ⟨count - 1, by omega⟩
  subst isCount
  obtain ⟨first, rest, isMatched, matchesFirst, matchesRest⟩ := repeated
  have describes := described _ _ _ matchesFirst
  by_cases once : min = 1 ∧ max = some 1
  · rw [if_pos once, if_pos once]
    have single := atMost 1 once.2
    have noMore : more = 0 := by omega
    subst noMore
    rw [RepeatedMatch] at matchesRest
    rw [isMatched, matchesRest, append_nil]
    exact describes
  · rw [if_neg once, if_neg once]
    have isPart := isMatched ▸ (prefix_append ..).isInfix
    have hits : ∀ set ∈ inner.sets, Hits set matched :=
      fun set mem => (describes.sets set mem).of_part isPart
    cases isRun : inner.run with
    | none => exact ⟨hits, (fun _ isNone => nomatch isNone), (fun _ _ isNone => nomatch isNone)⟩
    | some run =>
      have inFirst : run <:+: foldBytes first := (describes.run run isRun).isInfix
      have inMatched : run <:+: foldBytes matched := by
        rw [isMatched, foldBytes_append]
        exact inFirst.trans (prefix_append ..).isInfix
      exact ⟨hits_pushRunGrams hits inMatched, (fun _ isNone => nomatch isNone),
        (fun _ _ isNone => nomatch isNone)⟩

variable {analysis : Analysis}

theorem Analysis.Describes.hits_allGrams (describes : analysis.Describes shape matched)
    (constrained : analysis.constrains = true) : Hits analysis.allGrams matched := by
  rw [Analysis.constrains, Bool.or_eq_true] at constrained
  rcases constrained with someSets | longRun
  · cases isSets : analysis.sets with
    | nil => simp [isSets] at someSets
    | cons set sets =>
      have isSet := isSets ▸ mem_cons_self
      obtain ⟨gram, isGram, inMatched⟩ := describes.sets set isSet
      exact ⟨gram, mem_append_left _ (mem_flatten.mpr ⟨set, isSet, isGram⟩), inMatched⟩
  · cases isRun : analysis.run with
    | none => simp [isRun] at longRun
    | some run =>
      rw [isRun, any_some, decide_eq_true_eq] at longRun
      have someGrams : windows run ≠ [] := fun none => by
        have short := windows_eq_nil_iff.mp none
        omega
      obtain ⟨gram, isGram⟩ := exists_mem_of_ne_nil _ someGrams
      refine ⟨gram, ?_, ?_⟩
      · rw [Analysis.allGrams, isRun]
        exact mem_append_right _ (mem_extractGrams.mpr isGram)
      · exact mem_extractGrams.mpr
          (windows_of_run (describes.run run isRun).isInfix isGram)

theorem analyzeAlternation_describes {sub : Hir} (mem : sub ∈ subs)
    (describes : (analyze sub).Describes sub.runShape matched) :
    (analyzeAlternation (subs.map analyze)).Describes shape matched := by
  unfold analyzeAlternation
  split
  · next constrained =>
      refine ⟨?_, (fun _ isNone => nomatch isNone), (fun _ _ isNone => nomatch isNone)⟩
      intro set isSet
      rw [mem_singleton.mp isSet]
      have subConstrained := all_eq_true.mp constrained (analyze sub)
        (mem_map_of_mem mem)
      obtain ⟨gram, isGram, inMatched⟩ := describes.hits_allGrams subConstrained
      refine ⟨gram, ?_, inMatched⟩
      rw [gramSet, mem_collected]
      exact mem_flatMap.mpr ⟨analyze sub, mem_map_of_mem mem, isGram⟩
  · exact unconstrained_describes

theorem analyze_described {hir : Hir} (joins : hir.joinsWholeRuns = true) :
    hir.Described holds := by
  induction hir using Hir.induct with
  | empty =>
    intro before matched after isMatch
    rw [Hir.Matches] at isMatch
    subst isMatch
    exact emptyMatch_describes
  | literal bytes =>
    intro before matched after isMatch
    rw [Hir.Matches] at isMatch
    subst isMatch
    constructor
    · simp [analyze]
    · intro run isRun
      cases isRun
      exact suffix_refl _
    · intro _ run isRun
      cases isRun
      rfl
  | charClass members =>
    intro before matched after isMatch
    rw [Hir.Matches] at isMatch
    rw [analyze, Hir.runShape]
    cases single : singleFoldedByte members with
    | none => exact unconstrained_describes
    | some byte =>
      have folds := singleFoldedByte_matches single isMatch
      constructor
      · simp
      · intro run isRun
        cases isRun
        exact folds.symm ▸ suffix_refl [byte]
      · intro _ run isRun
        cases isRun
        rw [folds]
  | look assertion =>
    intro before matched after isMatch
    rw [Hir.Matches] at isMatch
    rw [isMatch.1]
    exact emptyMatch_describes
  | repetition min max greedy sub induction =>
    intro before matched after isMatch
    rw [Hir.Matches] at isMatch
    obtain ⟨count, atLeast, atMost, repeated⟩ := isMatch
    rw [Hir.joinsWholeRuns, Bool.or_eq_true, beq_iff_eq] at joins
    rcases joins with absent | joins
    · rw [analyze, Hir.runShape, analyzeRepetition, if_pos absent]
      exact unconstrained_describes
    · exact analyzeRepetition_describes (induction joins) atLeast atMost repeated
  | capture index name sub induction =>
    intro before matched after isMatch
    rw [Hir.Matches] at isMatch
    rw [Hir.joinsWholeRuns] at joins
    exact induction joins before matched after isMatch
  | concat subs induction =>
    intro before matched after isMatch
    rw [Hir.Matches] at isMatch
    rw [Hir.joinsWholeRuns, Bool.and_eq_true, Hir.allJoinWholeRuns_iff,
      Hir.runShapes_eq_map] at joins
    rw [analyze, Hir.runShape, analyzeAll_eq_map, Hir.runShapes_eq_map]
    have shapes : ∀ sub ∈ subs, (analyze sub).HasShape sub.runShape :=
      fun sub _ => analyze_hasShape sub
    have joined := concatParts_hasShape shapes emptyMatch_hasShape
    exact concatEnd_describes joined (concatParts_describes holds shapes
      (fun sub mem => induction sub mem (joins.1 sub mem)) emptyMatch_hasShape
      emptyMatch_describes joins.2 isMatch)
  | alternation subs induction =>
    intro before matched after isMatch
    rw [Hir.Matches, Hir.matchesSome_iff] at isMatch
    obtain ⟨sub, mem, matchesSub⟩ := isMatch
    rw [Hir.joinsWholeRuns, Bool.or_eq_true, Hir.allJoinWholeRuns_iff, Hir.runShapes_eq_map,
      ← all_constrains_eq fun sub _ => analyze_hasShape sub] at joins
    rw [analyze, Hir.runShape, analyzeAll_eq_map, Hir.runShapes_eq_map]
    rcases joins with free | joins
    · rw [analyzeAlternation, if_neg (by simpa using free)]
      exact unconstrained_describes
    · exact analyzeAlternation_describes mem
        (induction sub mem (joins sub mem) before matched after matchesSub)

variable {set : GramSet}

theorem mem_requiredSets (mem : set ∈ requiredSets analysis) :
    set ∈ match analysis.run with
      | some run => pushRunGrams analysis.sets run
      | none => analysis.sets := by
  have inSorted := mem_dedup.mp (mem_of_mem_take mem)
  rw [mem_insertionSort] at inSorted
  exact (mem_filter.mp inSorted).1

theorem hits_requiredSets (describes : analysis.Describes shape matched)
    (mem : set ∈ requiredSets analysis) : Hits set matched := by
  have isSet := mem_requiredSets mem
  cases isRun : analysis.run with
  | none =>
    rw [isRun] at isSet
    exact describes.sets set isSet
  | some run =>
    rw [isRun] at isSet
    exact hits_pushRunGrams describes.sets (describes.run run isRun).isInfix set isSet

end

theorem compilePattern_eq_ok (compiles : compilePattern library request = .ok compiled) :
    ∃ hir, library.build (patternSettings request) request.pattern = .ok compiled.regex ∧
      library.parse (patternSettings request) request.pattern = .ok hir ∧
      compiled.plan = planOf hir := by
  unfold compilePattern at compiles
  split at compiles
  · cases compiles
  · next regex built =>
      split at compiles
      · cases compiles
      · next hir parsed =>
          cases compiles
          exact ⟨hir, built, parsed, rfl⟩

theorem planOf_eq_indexable (indexable : planOf hir = .indexable plan) :
    plan.required = requiredSets (analyze hir) := by
  unfold planOf at indexable
  dsimp only at indexable
  split at indexable
  · cases indexable
  · cases indexable
    rfl

def CompiledPattern.PlanIsSound (library : RegexLibrary Regex)
    (compiled : CompiledPattern Regex) : Prop :=
  ∀ plan, compiled.plan = .indexable plan → ∀ searched, library.isMatch compiled.regex searched →
    ∀ set ∈ plan.required, Hits set searched

/-- The plan of a pattern whose concatenations join whole runs is sound. -/
theorem compilePattern_sound_of_joinsWholeRuns {Regex : Type} (library : RegexLibrary Regex)
    (agrees : library.Agrees) (request : GrepRequest) (compiled : CompiledPattern Regex)
    (compiles : compilePattern library request = .ok compiled)
    (joins : ∀ hir, library.parse (patternSettings request) request.pattern = .ok hir →
      hir.joinsWholeRuns = true) :
    compiled.PlanIsSound library := by
  obtain ⟨hir, built, parsed, isPlan⟩ := compilePattern_eq_ok compiles
  intro plan isIndexable searched isMatch set member
  rw [isPlan] at isIndexable
  rw [planOf_eq_indexable isIndexable] at member
  obtain ⟨before, matched, after, isSearched, matchesHir⟩ :=
    (agrees _ _ _ _ built parsed searched).mp isMatch
  have describes := analyze_described library.holds (joins hir parsed) before matched after
    matchesHir
  have isPart : matched <:+: searched := isSearched ▸ ⟨before, after, rfl⟩
  exact (hits_requiredSets describes member).of_part isPart

/-! ## A join at an open front -/

namespace SamplePattern

def anythingThenFoo : Hir :=
  .concat [.repetition 0 none true
    (.charClass (.unicode [('\x00', '\t'), ('\x0b', Char.ofNat 0x10ffff)])),
    .literal (utf8 "foo")]

def joinedAfterBytes : Hir := .concat [.literal (utf8 "ab"), .capture 1 none anythingThenFoo]

def joinedBeforeBytes : Hir := .concat [.capture 1 none anythingThenFoo, .literal (utf8 "ab")]

def parse (pattern : String) : Except String Hir :=
  if pattern = "ab(.*foo)" then .ok joinedAfterBytes
  else if pattern = "(.*foo)ab" then .ok joinedBeforeBytes
  else .error "unknown pattern"

/-- A library of the two patterns, whose expressions are the parser's trees. -/
def library : RegexLibrary Hir where
  build _ := parse
  parse _ := parse
  isMatch hir searched := hir.MatchesIn (fun _ _ _ => True) searched
  holds _ _ _ := True

theorem library_agrees : library.Agrees := by
  intro settings pattern regex hir built parsed searched
  have same := built.symm.trans parsed
  cases same
  exact Iff.rfl

theorem underscore_matches (before after : Bytes) :
    anythingThenFoo.Matches (fun _ _ _ => True) before (utf8 "_foo") after := by
  rw [anythingThenFoo, Hir.Matches, Hir.MatchesAll]
  refine ⟨utf8 "_", utf8 "foo", by decide, ?_, ?_⟩
  · rw [Hir.Matches]
    refine ⟨1, by decide, by simp, utf8 "_", [], by decide, ?_, rfl⟩
    rw [Hir.Matches]
    exact ⟨('\x0b', Char.ofNat 0x10ffff), by decide, '_', by decide, by decide, by decide⟩
  · rw [Hir.MatchesAll]
    exact ⟨utf8 "foo", [], by decide, by rw [Hir.Matches], by rw [Hir.MatchesAll]⟩

theorem joinedAfterBytes_matches :
    joinedAfterBytes.MatchesIn (fun _ _ _ => True) (utf8 "ab_foo") := by
  refine ⟨[], utf8 "ab_foo", [], by decide, ?_⟩
  rw [joinedAfterBytes, Hir.Matches, Hir.MatchesAll]
  refine ⟨utf8 "ab", utf8 "_foo", by decide, by rw [Hir.Matches], ?_⟩
  rw [Hir.MatchesAll]
  refine ⟨utf8 "_foo", [], by decide, ?_, by rw [Hir.MatchesAll]⟩
  rw [Hir.Matches]
  exact underscore_matches _ _

theorem joinedAfterBytes_plan :
    planOf joinedAfterBytes =
      .indexable ⟨[[⟨97, 98, 102⟩], [⟨98, 102, 111⟩], [⟨102, 111, 111⟩]]⟩ := by
  decide

end SamplePattern

open SamplePattern in
/-- `ab(.*foo)` matches `ab_foo`, but its plan requires the gram `abf`. -/
theorem compilePattern_unsound_after_bytes :
    ∃ compiled, compilePattern library { pattern := "ab(.*foo)", caseInsensitive := false } =
        .ok compiled ∧
      library.isMatch compiled.regex (utf8 "ab_foo") ∧
      ∃ plan, compiled.plan = .indexable plan ∧
        ∃ set ∈ plan.required, ¬Hits set (utf8 "ab_foo") := by
  refine ⟨⟨joinedAfterBytes, planOf joinedAfterBytes⟩, rfl, joinedAfterBytes_matches, _,
    joinedAfterBytes_plan, [⟨97, 98, 102⟩], by simp, ?_⟩
  rintro ⟨gram, isGram, inText⟩
  rw [mem_singleton.mp isGram] at inText
  revert inText
  decide

open SamplePattern in
theorem compilePattern_sound_before_bytes :
    ∃ compiled, compilePattern library { pattern := "(.*foo)ab", caseInsensitive := false } =
        .ok compiled ∧ compiled.PlanIsSound library := by
  refine ⟨⟨joinedBeforeBytes, planOf joinedBeforeBytes⟩, rfl, ?_⟩
  apply compilePattern_sound_of_joinsWholeRuns library library_agrees
    { pattern := "(.*foo)ab", caseInsensitive := false } _ rfl
  intro hir parsed
  cases parsed
  decide

end LoonFs
