import Mathlib.Data.List.Nodup
import Mathlib.Data.List.Perm.Subperm

/-! # Forests given by parent pointers -/

namespace LoonFs.Foundation

open List Function

variable {Node : Type u}

inductive Chain (parent : Node → Option Node) : Node → List Node → Prop
  | last {node} : parent node = none → Chain parent node [node]
  | step {node above rest} : parent node = some above →
      Chain parent above rest → Chain parent node (node :: rest)

/-- Every upward walk ends. -/
def Acyclic (parent : Node → Option Node) : Prop := ∀ node, ∃ ancestry, Chain parent node ancestry

def AtOrBelow (parent : Node → Option Node) (node ancestor : Node) : Prop :=
  Relation.ReflTransGen (fun lower upper => parent lower = some upper) node ancestor

namespace AtOrBelow

variable {parent : Node → Option Node}

theorem refl (node : Node) : AtOrBelow parent node node := Relation.ReflTransGen.refl

theorem head (pointer : parent node = some above) (rest : AtOrBelow parent above ancestor) :
    AtOrBelow parent node ancestor :=
  Relation.ReflTransGen.head pointer rest

theorem cases (below : AtOrBelow parent node ancestor) :
    node = ancestor ∨ ∃ above, parent node = some above ∧ AtOrBelow parent above ancestor := by
  rcases Relation.ReflTransGen.cases_head below with eq | ⟨above, pointer, rest⟩
  · exact .inl eq
  · exact .inr ⟨above, pointer, rest⟩

theorem eq_of_top (top : parent node = none) (below : AtOrBelow parent node ancestor) :
    node = ancestor := by
  rcases below.cases with eq | ⟨above, pointer, _⟩
  · exact eq
  · rw [top] at pointer
    cases pointer

theorem induct {motive : Node → Prop} (below : AtOrBelow parent node ancestor) (start : motive node)
    (climb : ∀ lower upper, parent lower = some upper → motive lower → motive upper) :
    motive ancestor := by
  induction below with
  | refl => exact start
  | tail _ pointer induction => exact climb _ _ pointer induction

end AtOrBelow

namespace Chain

variable {parent : Node → Option Node} {ancestry : List Node} {node : Node}

theorem head_mem (chain : Chain parent node ancestry) : node ∈ ancestry := by cases chain <;> simp

theorem exists_tail (chain : Chain parent node ancestry) : ∃ above, ancestry = node :: above := by
  cases chain <;> exact ⟨_, rfl⟩

theorem unique (leftChain : Chain parent node left) (rightChain : Chain parent node right) :
    left = right := by
  induction leftChain generalizing right with
  | last top =>
    cases rightChain with
    | last => rfl
    | step pointer _ =>
      rw [top] at pointer
      cases pointer
  | step pointer _ induction =>
    cases rightChain with
    | last top =>
      rw [top] at pointer
      cases pointer
    | step otherPointer rest =>
      rw [pointer] at otherPointer
      cases otherPointer
      rw [induction rest]

variable {member : Node}

section

variable (chain : Chain parent node ancestry)

include chain

theorem suffix_of_mem (mem : member ∈ ancestry) :
    ∃ rest, Chain parent member rest ∧ rest.IsSuffix ancestry := by
  induction chain with
  | last top =>
    rw [mem_singleton] at mem
    subst mem
    exact ⟨_, .last top, suffix_refl _⟩
  | @step node above rest pointer upper induction =>
    rcases mem_cons.mp mem with eq | mem
    · subst eq
      exact ⟨_, .step pointer upper, suffix_refl _⟩
    · rcases induction mem with ⟨tail, tailChain, suffix⟩
      exact ⟨tail, tailChain, suffix.trans (suffix_cons node rest)⟩

theorem nodup : ancestry.Nodup := by
  induction chain with
  | last => simp
  | @step node above rest pointer upper induction =>
    refine nodup_cons.mpr ⟨?_, induction⟩
    intro revisited
    rcases upper.suffix_of_mem revisited with ⟨tail, tailChain, suffix⟩
    have sameList := tailChain.unique (.step pointer upper)
    have shorter := suffix.length_le
    rw [sameList, length_cons] at shorter
    omega

theorem mem_iff : member ∈ ancestry ↔ AtOrBelow parent node member := by
  induction chain with
  | last top =>
    rw [mem_singleton]
    exact ⟨fun eq => eq ▸ .refl _, fun below => (below.eq_of_top top).symm⟩
  | @step node above rest pointer upper induction =>
    rw [mem_cons, induction]
    constructor
    · rintro (eq | below)
      · exact eq ▸ .refl _
      · exact .head pointer below
    · intro below
      rcases below.cases with eq | ⟨other, otherPointer, rest⟩
      · exact .inl eq.symm
      · rw [pointer] at otherPointer
        cases otherPointer
        exact .inr rest

theorem congr {parent' : Node → Option Node}
    (same : ∀ member ∈ ancestry, parent' member = parent member) : Chain parent' node ancestry := by
  induction chain with
  | last top => exact .last ((same _ (by simp)).trans top)
  | step pointer _ induction =>
    refine .step ((same _ (by simp)).trans pointer) (induction ?_)
    intro member mem
    exact same member (mem_cons_of_mem _ mem)

theorem length_le {domain : List Node}
    (bounded : ∀ member above, parent member = some above → member ∈ domain) :
    ancestry.length ≤ domain.length + 1 := by
  have initial : ∀ {node ancestry}, Chain parent node ancestry →
      ∀ member ∈ ancestry.dropLast, member ∈ domain := by
    intro node ancestry chain
    induction chain with
    | last => simp
    | @step node above rest pointer upper induction =>
      have nonempty : rest ≠ [] := ne_nil_of_mem upper.head_mem
      rw [dropLast_cons_of_ne_nil nonempty]
      intro member mem
      rcases mem_cons.mp mem with eq | mem
      · exact eq ▸ bounded node above pointer
      · exact induction member mem
  have distinct : ancestry.dropLast.Nodup := chain.nodup.sublist (dropLast_sublist _)
  have shorter := (subperm_of_subset distinct (initial chain)).length_le
  rw [length_dropLast] at shorter
  omega

end

end Chain

namespace Acyclic

variable {parent : Node → Option Node}

theorem update [DecidableEq Node] (acyclic : Acyclic parent) (node : Node) (target : Option Node)
    (outside : ∀ above, target = some above → ¬AtOrBelow parent above node) :
    Acyclic (Function.update parent node target) := by
  have untouched : ∀ start ancestry, Chain parent start ancestry → node ∉ ancestry →
      Chain (Function.update parent node target) start ancestry := by
    intro start ancestry chain absent
    apply chain.congr
    intro member mem
    have ne : member ≠ node := fun eq => absent (eq ▸ mem)
    exact update_of_ne ne _ _
  have atNode : ∃ ancestry, Chain (Function.update parent node target) node ancestry := by
    cases target with
    | none => exact ⟨_, .last (update_self _ _ _)⟩
    | some above =>
      rcases acyclic above with ⟨ancestry, chain⟩
      refine ⟨_, .step (update_self _ _ _) (untouched above ancestry chain ?_)⟩
      exact fun mem => outside above rfl (chain.mem_iff.mp mem)
  intro start
  rcases acyclic start with ⟨ancestry, chain⟩
  induction chain with
  | @last start top =>
    by_cases eq : start = node
    · exact eq ▸ atNode
    · exact ⟨_, .last ((update_of_ne eq _ _).trans top)⟩
  | @step start above rest pointer _ induction =>
    by_cases eq : start = node
    · exact eq ▸ atNode
    · rcases induction with ⟨upper, upperChain⟩
      exact ⟨_, .step ((update_of_ne eq _ _).trans pointer) upperChain⟩

end Acyclic

end LoonFs.Foundation
