import LoonFs.Format.Text

/-! # Parsed search patterns -/

namespace LoonFs

inductive HirClass where
  | unicode (ranges : List (Char × Char))
  | bytes (ranges : List (UInt8 × UInt8))
deriving Repr, DecidableEq

inductive Look where
  | start
  | finish
  | startLf
  | finishLf
  | startCrlf
  | finishCrlf
  | wordAscii
  | wordAsciiNegate
  | wordUnicode
  | wordUnicodeNegate
  | wordStartAscii
  | wordEndAscii
  | wordStartUnicode
  | wordEndUnicode
  | wordStartHalfAscii
  | wordEndHalfAscii
  | wordStartHalfUnicode
  | wordEndHalfUnicode
deriving Repr, DecidableEq

inductive Hir where
  | empty
  | literal (bytes : Bytes)
  | charClass (members : HirClass)
  | look (assertion : Look)
  | repetition (min : Nat) (max : Option Nat) (greedy : Bool) (sub : Hir)
  | capture (index : Nat) (name : Option String) (sub : Hir)
  | concat (subs : List Hir)
  | alternation (subs : List Hir)
deriving Repr

def HirClass.Matches : HirClass → Bytes → Prop
  | .unicode ranges, matched => ∃ range ∈ ranges, ∃ character : Char,
      range.1 ≤ character ∧ character ≤ range.2 ∧ matched = String.utf8EncodeChar character
  | .bytes ranges, matched => ∃ range ∈ ranges, ∃ byte : UInt8,
      range.1 ≤ byte ∧ byte ≤ range.2 ∧ matched = [byte]

def RepeatedMatch (one : Bytes → Bytes → Bytes → Prop) : Nat → Bytes → Bytes → Bytes → Prop
  | 0, _, matched, _ => matched = []
  | count + 1, before, matched, after => ∃ first rest, matched = first ++ rest ∧
      one before first (rest ++ after) ∧ RepeatedMatch one count (before ++ first) rest after

section

-- Where an assertion holds: between the bytes before and the bytes after a position.
variable (holds : Look → Bytes → Bytes → Prop)

mutual

def Hir.Matches : Hir → Bytes → Bytes → Bytes → Prop
  | .empty, _, matched, _ => matched = []
  | .literal bytes, _, matched, _ => matched = bytes
  | .charClass members, _, matched, _ => members.Matches matched
  | .look assertion, before, matched, after => matched = [] ∧ holds assertion before after
  | .repetition min max _ sub, before, matched, after => ∃ count, min ≤ count ∧
      (∀ most ∈ max, count ≤ most) ∧ RepeatedMatch sub.Matches count before matched after
  | .capture _ _ sub, before, matched, after => sub.Matches before matched after
  | .concat subs, before, matched, after => Hir.MatchesAll subs before matched after
  | .alternation subs, before, matched, after => Hir.MatchesSome subs before matched after

def Hir.MatchesAll : List Hir → Bytes → Bytes → Bytes → Prop
  | [], _, matched, _ => matched = []
  | sub :: subs, before, matched, after => ∃ first rest, matched = first ++ rest ∧
      sub.Matches before first (rest ++ after) ∧ Hir.MatchesAll subs (before ++ first) rest after

def Hir.MatchesSome : List Hir → Bytes → Bytes → Bytes → Prop
  | [], _, _, _ => False
  | sub :: subs, before, matched, after =>
    sub.Matches before matched after ∨ Hir.MatchesSome subs before matched after

end

def Hir.MatchesIn (hir : Hir) (searched : Bytes) : Prop :=
  ∃ before matched after, searched = before ++ matched ++ after ∧
    hir.Matches holds before matched after

theorem Hir.matchesSome_iff {subs : List Hir} {before matched after : Bytes} :
    Hir.MatchesSome holds subs before matched after ↔
      ∃ sub ∈ subs, sub.Matches holds before matched after := by
  induction subs with
  | nil => simp [Hir.MatchesSome]
  | cons sub subs induction => simp [Hir.MatchesSome, induction]

end

theorem Hir.induct {motive : Hir → Prop} (empty : motive .empty)
    (literal : ∀ bytes, motive (.literal bytes))
    (charClass : ∀ members, motive (.charClass members))
    (look : ∀ assertion, motive (.look assertion))
    (repetition : ∀ min max greedy sub, motive sub → motive (.repetition min max greedy sub))
    (capture : ∀ index name sub, motive sub → motive (.capture index name sub))
    (concat : ∀ subs, (∀ sub ∈ subs, motive sub) → motive (.concat subs))
    (alternation : ∀ subs, (∀ sub ∈ subs, motive sub) → motive (.alternation subs))
    (hir : Hir) : motive hir := by
  match hir with
  | .empty => exact empty
  | .literal bytes => exact literal bytes
  | .charClass members => exact charClass members
  | .look assertion => exact look assertion
  | .repetition min max greedy sub =>
    exact repetition min max greedy sub
      (Hir.induct empty literal charClass look repetition capture concat alternation sub)
  | .capture index name sub =>
    exact capture index name sub
      (Hir.induct empty literal charClass look repetition capture concat alternation sub)
  | .concat subs =>
    exact concat subs fun sub _ =>
      Hir.induct empty literal charClass look repetition capture concat alternation sub
  | .alternation subs =>
    exact alternation subs fun sub _ =>
      Hir.induct empty literal charClass look repetition capture concat alternation sub

end LoonFs
