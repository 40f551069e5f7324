import LoonFs.Foundation.PageWalk
import LoonFs.Grep.Pattern

/-! # Gram plans -/

namespace LoonFs

open Foundation

/-! ## Grams -/

def toAsciiLowercase (byte : UInt8) : UInt8 := if 65 ≤ byte ∧ byte ≤ 90 then byte + 32 else byte

def foldBytes (bytes : Bytes) : Bytes := bytes.map toAsciiLowercase

/-- Three content bytes, ASCII-case-folded. -/
structure Gram where
  first : UInt8
  second : UInt8
  third : UInt8
deriving Repr, DecidableEq

/-- The bytes as one number, whose order is the order of the grams. -/
def Gram.code (gram : Gram) : Nat :=
  (gram.first.toNat * 256 + gram.second.toNat) * 256 + gram.third.toNat

def gramLen : Nat := 3

abbrev GramSet := List Gram

def gramSet (grams : List Gram) : GramSet := collected Gram.code grams

def windows : Bytes → List Gram
  | first :: second :: third :: rest =>
    ⟨toAsciiLowercase first, toAsciiLowercase second, toAsciiLowercase third⟩ ::
      windows (second :: third :: rest)
  | _ => []

def extractGrams (content : Bytes) : GramSet := gramSet (windows content)

/-! ## Classes of one byte -/

def foldInto (folded : Option UInt8) (byte : UInt8) : Option (Option UInt8) :=
  match folded with
  | none => some (some (toAsciiLowercase byte))
  | some existing => if existing = toAsciiLowercase byte then some (some existing) else none

def foldCharacter (folded : Option UInt8) (value : Nat) : Option (Option UInt8) :=
  -- A range of characters has no surrogates.
  if value.isValidChar then
    match String.utf8EncodeChar (Char.ofNat value) with
    | [byte] => foldInto folded byte
    | _ => none
  else some folded

def foldByte (folded : Option UInt8) (value : Nat) : Option (Option UInt8) :=
  foldInto folded (UInt8.ofNat value)

def foldRange (fold : Option UInt8 → Nat → Option (Option UInt8)) :
    Nat → Nat → Option UInt8 → Option (Option UInt8)
  | 0, _, folded => some folded
  | count + 1, value, folded =>
    match fold folded value with
    | none => none
    | some folded => foldRange fold count (value + 1) folded

def foldRanges (fold : Option UInt8 → Nat → Option (Option UInt8)) :
    List (Nat × Nat) → Option UInt8 → Option (Option UInt8)
  | [], folded => some folded
  | range :: ranges, folded =>
    match foldRange fold (range.2 + 1 - range.1) range.1 folded with
    | none => none
    | some folded => foldRanges fold ranges folded

def singleFoldedByte (members : HirClass) : Option UInt8 :=
  match members with
  | .bytes ranges =>
    (foldRanges foldByte (ranges.map fun range => (range.1.toNat, range.2.toNat)) none).join
  | .unicode ranges =>
    (foldRanges foldCharacter (ranges.map fun range => (range.1.toNat, range.2.toNat))
      none).join

/-! ## Analysis -/

/-- What one part of a pattern guarantees about any text it matches. -/
structure Analysis where
  sets : List GramSet
  run : Option Bytes
deriving Repr, DecidableEq

namespace Analysis

def unconstrained : Analysis := { sets := [], run := none }

def emptyMatch : Analysis := { sets := [], run := some [] }

def constrains (analysis : Analysis) : Bool :=
  !analysis.sets.isEmpty || analysis.run.any fun run => decide (gramLen ≤ run.length)

def allGrams (analysis : Analysis) : List Gram :=
  analysis.sets.flatten ++
    match analysis.run with
    | some run => extractGrams run
    | none => []

end Analysis

def pushRunGrams (sets : List GramSet) (run : Bytes) : List GramSet :=
  sets ++ (extractGrams run).map fun gram => [gram]

def concatStep (sets : List GramSet) (pendingRun : Option Bytes) (child : Analysis) :
    List GramSet × Option Bytes :=
  let sets := sets ++ child.sets
  match pendingRun, child.run with
  | some run, some childRun => (sets, some (run ++ childRun))
  | some run, none => (pushRunGrams sets run, none)
  | none, childRun => (sets, childRun)

def concatParts : List Analysis → List GramSet → Option Bytes → List GramSet × Option Bytes
  | [], sets, pendingRun => (sets, pendingRun)
  | child :: children, sets, pendingRun =>
    let (sets, pendingRun) := concatStep sets pendingRun child
    concatParts children sets pendingRun

def concatEnd (sets : List GramSet) (pendingRun : Option Bytes) : Analysis :=
  match pendingRun with
  | some run =>
    if sets.isEmpty then { sets, run := some run }
    else { sets := pushRunGrams sets run, run := none }
  | none => { sets, run := none }

def analyzeConcat (children : List Analysis) : Analysis :=
  let (sets, pendingRun) := concatParts children [] (some [])
  concatEnd sets pendingRun

def analyzeAlternation (branches : List Analysis) : Analysis :=
  if branches.all Analysis.constrains then
    { sets := [gramSet (branches.flatMap Analysis.allGrams)], run := none }
  else .unconstrained

def analyzeRepetition (min : Nat) (max : Option Nat) (inner : Analysis) : Analysis :=
  if min = 0 then .unconstrained
  else if min = 1 ∧ max = some 1 then inner
  else
    match inner.run with
    | some run => { sets := pushRunGrams inner.sets run, run := none }
    | none => { sets := inner.sets, run := none }

mutual

def analyze : Hir → Analysis
  | .empty => .emptyMatch
  | .literal bytes => { sets := [], run := some (foldBytes bytes) }
  | .charClass members =>
    match singleFoldedByte members with
    | some byte => { sets := [], run := some [byte] }
    | none => .unconstrained
  -- Zero-width assertions neither add constraints nor break a byte run.
  | .look _ => .emptyMatch
  | .repetition min max _ sub => analyzeRepetition min max (analyze sub)
  | .capture _ _ sub => analyze sub
  | .concat subs => analyzeConcat (analyzeAll subs)
  | .alternation subs => analyzeAlternation (analyzeAll subs)

def analyzeAll : List Hir → List Analysis
  | [] => []
  | sub :: subs => analyze sub :: analyzeAll subs

end

@[simp] theorem analyzeAll_eq_map (subs : List Hir) : analyzeAll subs = subs.map analyze := by
  induction subs with
  | nil => rfl
  | cons sub subs induction => rw [analyzeAll, induction, List.map_cons]

/-! ## Plans -/

def maxRequiredSets : Nat := 16

def maxOrSetGrams : Nat := 64

def maxPatternNestDepth : Nat := 250

structure GramQueryPlan where
  required : List GramSet
deriving Repr, DecidableEq

inductive GramPlanOutcome where
  | indexable (plan : GramQueryPlan)
  | unindexable
deriving Repr, DecidableEq

structure GrepRequest where
  pattern : String
  caseInsensitive : Bool
deriving Repr, DecidableEq

structure CompiledPattern (Regex : Type) where
  regex : Regex
  plan : GramPlanOutcome

inductive GrepError where
  | invalidPattern (message : String)
deriving Repr, DecidableEq

structure PatternSettings where
  caseInsensitive : Bool
  multiLine : Bool
  utf8 : Bool
  nestLimit : Nat
deriving Repr, DecidableEq

/-- The regular-expression library: the builder, the parser, and what is found. -/
structure RegexLibrary (Regex : Type) where
  build : PatternSettings → String → Except String Regex
  parse : PatternSettings → String → Except String Hir
  isMatch : Regex → Bytes → Prop
  holds : Look → Bytes → Bytes → Prop

def RegexLibrary.Agrees (library : RegexLibrary Regex) : Prop :=
  ∀ settings pattern regex hir, library.build settings pattern = .ok regex →
    library.parse settings pattern = .ok hir →
      ∀ searched, library.isMatch regex searched ↔ hir.MatchesIn library.holds searched

def requiredSets (analysis : Analysis) : List GramSet :=
  let required :=
    match analysis.run with
    | some run => pushRunGrams analysis.sets run
    | none => analysis.sets
  let required := required.filter fun set => !set.isEmpty && decide (set.length ≤ maxOrSetGrams)
  let sorted := required.insertionSort fun left right => left.map Gram.code ≤ right.map Gram.code
  sorted.dedup.take maxRequiredSets

def planOf (hir : Hir) : GramPlanOutcome :=
  let required := requiredSets (analyze hir)
  if required.isEmpty then .unindexable else .indexable { required }

def patternSettings (request : GrepRequest) : PatternSettings :=
  { caseInsensitive := request.caseInsensitive, multiLine := true, utf8 := false,
    nestLimit := maxPatternNestDepth }

def compilePattern (library : RegexLibrary Regex) (request : GrepRequest) :
    Except GrepError (CompiledPattern Regex) :=
  -- The verifier's builder has the same limit by its own default.
  match library.build (patternSettings request) request.pattern with
  | .error message => .error (.invalidPattern message)
  | .ok regex =>
    match library.parse (patternSettings request) request.pattern with
    | .error message => .error (.invalidPattern message)
    | .ok hir => .ok { regex, plan := planOf hir }

end LoonFs
