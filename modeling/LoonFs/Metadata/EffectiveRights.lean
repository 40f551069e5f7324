import LoonFs.Metadata.Ancestry

/-! # Effective rights -/

namespace LoonFs

open Foundation

structure AccessRights where
  bits : UInt8
deriving DecidableEq

inductive AccessRight where
  | read
  | history
  | write
  | create
  | remove
  | share
  | manage
  | admin
deriving DecidableEq

def AccessRight.bit : AccessRight → UInt8
  | .read => 1
  | .history => 2
  | .write => 4
  | .create => 8
  | .remove => 16
  | .share => 32
  | .manage => 64
  | .admin => 128

namespace AccessRights

def empty : AccessRights := ⟨0⟩

def all : AccessRights := ⟨255⟩

def admin : AccessRights := ⟨AccessRight.admin.bit⟩

def contains (rights : AccessRights) (right : AccessRight) : Bool := rights.bits &&& right.bit != 0

def union (left right : AccessRights) : AccessRights := ⟨left.bits ||| right.bits⟩

def difference (left right : AccessRights) : AccessRights := ⟨left.bits &&& ~~~right.bits⟩

theorem union_assoc (left middle right : AccessRights) :
    (left.union middle).union right = left.union (middle.union right) := by
  simp [union, UInt8.or_assoc]

@[simp] theorem empty_union (rights : AccessRights) : empty.union rights = rights := by
  simp [union, empty]

@[simp] theorem union_empty (rights : AccessRights) : rights.union empty = rights := by
  simp [union, empty]

theorem union_comm (left right : AccessRights) : left.union right = right.union left := by
  simp [union, UInt8.or_comm]

theorem union_difference_difference (left right without : AccessRights) :
    (left.union (right.difference without)).difference without =
      (left.union right).difference without := by
  simp only [union, difference, AccessRights.mk.injEq]
  apply UInt8.toBitVec_inj.mp
  ext index
  simp only [UInt8.toBitVec_and, UInt8.toBitVec_or, UInt8.toBitVec_not, BitVec.getElem_and,
    BitVec.getElem_or, BitVec.getElem_not]
  grind

@[simp] theorem empty_difference (without : AccessRights) : empty.difference without = empty := by
  simp [empty, difference]

end AccessRights

def AccessGrants.get (grants : AccessGrants) (principal : PrincipalId) : AccessRights :=
  ((grants.find? (·.1 = principal)).map fun entry => ⟨entry.2⟩).getD .empty

abbrev PrincipalSet := List PrincipalId

/-! ## The walk -/

def AncestorWalk.continueAt (walk : AncestorWalk) (inodeId : InodeId) : AncestorWalk :=
  { walk with next := some (.inode inodeId) }

/-- The inodes that a walk reached with their rows, and where it stopped. -/
structure AccessWalk where
  walked : List (InodeId × Option AccessRevisionRecord)
  knownAncestor : Option InodeId

namespace MetadataVisibilityReads

variable (reads : MetadataVisibilityReads)

def hasBoundary (row : Option AccessRevisionRecord) : Bool := row.any AccessRevisionRecord.boundary

def walkAccess (known : InodeId → Bool) : Nat → AncestorWalk → InodeId →
    List (InodeId × Option AccessRevisionRecord) → Except VisiblePathError AccessWalk
  | 0, _, _, _ => .error .walkUnfinished
  | budget + 1, walk, last, walked =>
    match walk.advance reads with
    | .error error => .error error
    | .ok (none, walk) =>
      -- The saved parent of a recoverable deletion repairs the edge of its root.
      match reads.findHidingSubtreeTombstone last with
      | none => .ok ⟨walked, none⟩
      | some tombstone =>
        if tombstone.committedSeq > reads.retentionFloorSeq then
          match tombstone.action with
          | .set _ deletedBinding =>
            walkAccess known budget (walk.continueAt deletedBinding.parentInodeId) last
              walked
          | .revoke _ => .ok ⟨walked, none⟩
        else .ok ⟨walked, none⟩
    | .ok (some current, walk) =>
      if known current then .ok ⟨walked, some current⟩
      else
        let row := reads.findAccessRow current
        let walked := walked ++ [(current, row)]
        if hasBoundary row || current = rootInodeId then .ok ⟨walked, none⟩
        else walkAccess known budget walk current walked

def walkAccessRows (budget : Nat) (inodeId : InodeId) (known : InodeId → Bool) :
    Except VisiblePathError AccessWalk :=
  reads.walkAccess known budget (AncestorWalk.new inodeId) inodeId []

def isAdministrator (principals : PrincipalSet) : Bool :=
  (reads.findAccessRow rootInodeId).any fun row =>
    principals.any fun principal => (row.grants.get principal).contains .admin

end MetadataVisibilityReads

/-! ## The memo -/

/-- Effective rights that one subject's checks have found on one view. -/
structure EffectiveRightsMemo where
  administrator : Option Bool := none
  inherited : InodeId → Option AccessRights := fun _ => none

namespace EffectiveRightsMemo

variable (reads : MetadataVisibilityReads) (principals : PrincipalSet) (budget : Nat)

def rightsWithRow (row : Option AccessRevisionRecord) (rights : AccessRights) : AccessRights :=
  match row with
  | none => rights
  | some row => ((principals.map row.grants.get).foldl AccessRights.union rights).difference .admin

def remember (rights : AccessRights) (inherited : InodeId → Option AccessRights)
    (walked : List (InodeId × Option AccessRevisionRecord)) :
    AccessRights × (InodeId → Option AccessRights) :=
  walked.foldr (fun (inodeId, row) (rights, inherited) =>
    let rights := rightsWithRow principals row rights
    (rights, Function.update inherited inodeId (some rights))) (rights, inherited)

def inheritedRights (memo : EffectiveRightsMemo) (inodeId : InodeId) :
    Except VisiblePathError AccessRights × EffectiveRightsMemo :=
  match reads.walkAccessRows budget inodeId fun inodeId => (memo.inherited inodeId).isSome with
  | .error error => (.error error, memo)
  | .ok walk =>
    let rights := (walk.knownAncestor.bind memo.inherited).getD .empty
    let (rights, inherited) := remember principals rights memo.inherited walk.walked
    (.ok rights, { memo with inherited })

def effectiveRights (memo : EffectiveRightsMemo) (inodeId : InodeId) :
    Except VisiblePathError AccessRights × EffectiveRightsMemo :=
  let administrator := memo.administrator.getD (reads.isAdministrator principals)
  let memo := { memo with administrator := some administrator }
  if administrator then (.ok .all, memo)
  else inheritedRights reads principals budget memo inodeId

def answers : EffectiveRightsMemo → List InodeId → List (Except VisiblePathError AccessRights)
  | _, [] => []
  | memo, inodeId :: rest =>
    let (answer, memo) := memo.effectiveRights reads principals budget inodeId
    answer :: answers memo rest

end EffectiveRightsMemo

/-! ## Direct rights -/

namespace MetadataVisibilityReads

variable (reads : MetadataVisibilityReads)

/-- The inode whose rights an inode inherits: its parent, or the saved parent of a recoverable
deletion. -/
def inheritsFrom (inodeId : InodeId) : Option InodeId :=
  if hasBoundary (reads.findAccessRow inodeId) || inodeId = rootInodeId then none
  else
    match reads.currentParentBindingForChild inodeId with
    | some binding => some binding.parentInodeId
    | none =>
      match reads.findHidingSubtreeTombstone inodeId with
      | none => none
      | some tombstone =>
        if tombstone.committedSeq > reads.retentionFloorSeq then
          match tombstone.action with
          | .set _ deletedBinding => some deletedBinding.parentInodeId
          | .revoke _ => none
        else none

def grantedRights (principals : PrincipalSet) (inodeId : InodeId) : AccessRights :=
  match reads.findAccessRow inodeId with
  | none => .empty
  | some row => (principals.map row.grants.get).foldr AccessRights.union .empty

def chainRights (principals : PrincipalSet) (chain : List InodeId) : AccessRights :=
  ((chain.map (reads.grantedRights principals)).foldr AccessRights.union .empty).difference .admin

def HasRights (principals : PrincipalSet) (inodeId : InodeId) (rights : AccessRights) : Prop :=
  if reads.isAdministrator principals then rights = .all
  else ∃ chain, Chain reads.inheritsFrom inodeId chain ∧
    rights = reads.chainRights principals chain

end MetadataVisibilityReads

theorem foldl_union (rights : AccessRights) (grants : List AccessRights) :
    grants.foldl AccessRights.union rights =
      rights.union (grants.foldr AccessRights.union .empty) := by
  induction grants generalizing rights with
  | nil => simp
  | cons grant grants induction =>
    rw [List.foldl_cons, induction, List.foldr_cons, AccessRights.union_assoc]

theorem rightsWithRow_chainRights (reads : MetadataVisibilityReads) (principals : PrincipalSet)
    (node : InodeId) (chain : List InodeId) :
    EffectiveRightsMemo.rightsWithRow principals (reads.findAccessRow node)
        (reads.chainRights principals chain) = reads.chainRights principals (node :: chain) := by
  rw [MetadataVisibilityReads.chainRights, MetadataVisibilityReads.chainRights, List.map_cons,
    List.foldr_cons, MetadataVisibilityReads.grantedRights]
  cases reads.findAccessRow node with
  | none => simp [EffectiveRightsMemo.rightsWithRow]
  | some row =>
    rw [EffectiveRightsMemo.rightsWithRow, foldl_union, AccessRights.union_comm,
      AccessRights.union_difference_difference]

/-! ## What a walk reaches -/

inductive Reaches {Node : Type u} (parent : Node → Option Node) (known : Node → Bool) :
    Node → List Node → Option Node → Prop
  | known {node} : known node = true → Reaches parent known node [] (some node)
  | last {node} : parent node = none → Reaches parent known node [node] none
  | step {node above rest stop} : parent node = some above →
      Reaches parent known above rest stop → Reaches parent known node (node :: rest) stop

namespace MetadataVisibilityReads

variable {reads : MetadataVisibilityReads} {known : InodeId → Bool}

def Arrives (reads : MetadataVisibilityReads) (walk : AncestorWalk) (inodeId : InodeId) : Prop :=
  ∃ followed, walk.advance reads = walk.visit inodeId followed

def Walks (reads : MetadataVisibilityReads) (known : InodeId → Bool) (inodeId : InodeId)
    (walked : List (InodeId × Option AccessRevisionRecord)) (result : AccessWalk) : Prop :=
  ∃ segment : List InodeId,
    result.walked = walked ++ segment.map (fun inodeId => (inodeId, reads.findAccessRow inodeId)) ∧
    Reaches reads.inheritsFrom known inodeId segment result.knownAncestor

theorem inheritsFrom_cases
    (inherits : (hasBoundary (reads.findAccessRow node) || node = rootInodeId) = false) :
    (∃ binding, reads.currentParentBindingForChild node = some binding ∧
      reads.inheritsFrom node = some binding.parentInodeId) ∨
    (reads.currentParentBindingForChild node = none ∧ ((∃ tombstone rootKind deletedBinding,
          reads.findHidingSubtreeTombstone node = some tombstone ∧
          tombstone.committedSeq > reads.retentionFloorSeq ∧
          tombstone.action = .set rootKind deletedBinding ∧
          reads.inheritsFrom node = some deletedBinding.parentInodeId) ∨
        (reads.inheritsFrom node = none ∧
          ∀ tombstone, reads.findHidingSubtreeTombstone node = some tombstone →
            tombstone.committedSeq > reads.retentionFloorSeq →
            ∃ target, tombstone.action = .revoke target))) := by
  rw [inheritsFrom, if_neg (by simp [inherits])]
  cases bound : reads.currentParentBindingForChild node with
  | some binding => exact .inl ⟨binding, rfl, rfl⟩
  | none =>
    refine .inr ⟨rfl, ?_⟩
    cases found : reads.findHidingSubtreeTombstone node with
    | none => exact .inr ⟨rfl, fun tombstone isTombstone => nomatch isTombstone⟩
    | some tombstone =>
      dsimp only
      by_cases recoverable : tombstone.committedSeq > reads.retentionFloorSeq
      · rw [if_pos recoverable]
        cases action : tombstone.action with
        | set rootKind deletedBinding =>
          exact .inl ⟨tombstone, rootKind, deletedBinding, rfl, recoverable, action, rfl⟩
        | revoke target =>
          refine .inr ⟨rfl, ?_⟩
          intro other isOther _
          cases isOther
          exact ⟨target, action⟩
      · rw [if_neg recoverable]
        refine .inr ⟨rfl, ?_⟩
        intro other isOther above
        cases isOther
        exact absurd above recoverable

theorem walkAccess_above (next : walk.next = some (.parentOf node))
    (inherits : (hasBoundary (reads.findAccessRow node) || node = rootInodeId) = false) :
    (reads.inheritsFrom node = none ∧
      reads.walkAccess known (budget + 1) walk node walked = .ok ⟨walked, none⟩) ∨
    ∃ above, reads.inheritsFrom node = some above ∧ (reads.Arrives walk above ∨
        ∃ after, reads.Arrives after above ∧ after.seen = walk.seen ∧
          reads.walkAccess known (budget + 1) walk node walked =
            reads.walkAccess known budget after node walked) := by
  rcases inheritsFrom_cases inherits with ⟨binding, bound, from_⟩ |
      ⟨unbound, ⟨tombstone, rootKind, deletedBinding, found, recoverable, action, from_⟩ |
        ⟨nothing, revoked⟩⟩
  · refine .inr ⟨binding.parentInodeId, from_, .inl ⟨some binding, ?_⟩⟩
    simp [AncestorWalk.advance, next, bound]
  · let after : AncestorWalk :=
      { walk with next := some (.inode deletedBinding.parentInodeId), followed := none }
    refine .inr ⟨deletedBinding.parentInodeId, from_, .inr ⟨after, ⟨none, rfl⟩, rfl, ?_⟩⟩
    simp only [walkAccess, AncestorWalk.advance, next, unbound, found, if_pos recoverable, action]
    rfl
  · refine .inl ⟨nothing, ?_⟩
    simp only [walkAccess, AncestorWalk.advance, next, unbound]
    cases found : reads.findHidingSubtreeTombstone node with
    | none => rfl
    | some tombstone =>
      dsimp only
      split
      · rename_i recoverable
        obtain ⟨target, action⟩ := revoked tombstone found recoverable
        rw [action]
      · rfl

theorem walkAccess_arrives (arrives : reads.Arrives walk node) :
    ∃ after : AncestorWalk, after.next = some (.parentOf node) ∧ after.seen = node :: walk.seen ∧
      reads.walkAccess known (budget + 1) walk last walked =
        if node ∈ walk.seen then .error (.parentBindingCycle node)
        else if known node then .ok ⟨walked, some node⟩
        else if hasBoundary (reads.findAccessRow node) || node = rootInodeId then
          .ok ⟨walked ++ [(node, reads.findAccessRow node)], none⟩
        else reads.walkAccess known budget after node
          (walked ++ [(node, reads.findAccessRow node)]) := by
  obtain ⟨followed, arrives⟩ := arrives
  refine ⟨⟨some (.parentOf node), node :: walk.seen, followed⟩, rfl, rfl, ?_⟩
  rw [walkAccess, arrives, AncestorWalk.visit]
  by_cases seen : node ∈ walk.seen
  · simp only [if_pos seen]
  · simp only [if_neg seen]

theorem inheritsFrom_eq_none
    (stops : (hasBoundary (reads.findAccessRow node) || node = rootInodeId) = true) :
    reads.inheritsFrom node = none := by
  rw [inheritsFrom, if_pos stops]

theorem walkAccess_walks (budget : Nat) : ∀ {walk : AncestorWalk} {node last : InodeId}
    {walked : List (InodeId × Option AccessRevisionRecord)} {result : AccessWalk},
    reads.Arrives walk node → reads.walkAccess known budget walk last walked = .ok result →
      reads.Walks known node walked result := by
  -- Between two inodes the loop may take one turn more, for a saved parent.
  induction budget using Nat.strong_induction_on with
  | _ budget induction =>
    intro walk node last walked result arrives ended
    cases budget with
    | zero => cases ended
    | succ budget =>
      obtain ⟨after, next, _, turn⟩ := walkAccess_arrives arrives
      rw [turn] at ended
      split at ended
      · cases ended
      split at ended
      · rename_i isKnown
        cases ended
        exact ⟨[], by simp, .known isKnown⟩
      split at ended
      · rename_i stops
        cases ended
        exact ⟨[node], rfl, .last (inheritsFrom_eq_none stops)⟩
      rename_i inherits
      cases budget with
      | zero => cases ended
      | succ budget =>
        -- What the rest of the walk reaches comes after this inode.
        have goesOn {above : InodeId} (pointer : reads.inheritsFrom node = some above)
            (rest : reads.Walks known above
              (walked ++ [(node, reads.findAccessRow node)]) result) :
            reads.Walks known node walked result := by
          obtain ⟨segment, isWalked, reaches⟩ := rest
          exact ⟨node :: segment, by simpa using isWalked, .step pointer reaches⟩
        rcases walkAccess_above next (by simpa using inherits) with
          ⟨nothing, isEnd⟩ | ⟨above, pointer, arrivesAbove | ⟨later, arrivesLater, _, same⟩⟩
        · rw [isEnd] at ended
          cases ended
          exact ⟨[node], rfl, .last nothing⟩
        · exact goesOn pointer (induction (budget + 1) (by omega) arrivesAbove ended)
        · rw [same] at ended
          exact goesOn pointer (induction budget (by omega) arrivesLater ended)

theorem walkAccess_ends (isChain : Chain reads.inheritsFrom node chain) :
    ∀ (budget : Nat) {walk : AncestorWalk} {last : InodeId}
      {walked : List (InodeId × Option AccessRevisionRecord)},
      reads.Arrives walk node → 2 * chain.length ≤ budget →
      (∀ ancestor ∈ chain, ancestor ∉ walk.seen) →
      ∃ result, reads.walkAccess known budget walk last walked = .ok result := by
  induction isChain with
  | @last node top =>
    intro budget walk last walked arrives enough unseen
    match budget, enough with
    | budget + 2, _ =>
      obtain ⟨after, next, _, turn⟩ := walkAccess_arrives arrives
      rw [turn, if_neg (unseen node List.mem_cons_self)]
      split
      · exact ⟨_, rfl⟩
      split
      · exact ⟨_, rfl⟩
      rename_i inherits
      rcases walkAccess_above next (by simpa using inherits) with ⟨_, isEnd⟩ | ⟨above, pointer, _⟩
      · exact ⟨_, isEnd⟩
      · rw [top] at pointer
        cases pointer
  | @step node above rest pointer upper induction =>
    intro budget walk last walked arrives enough unseen
    rw [List.length_cons] at enough
    match budget, enough with
    | budget + 2, enough =>
      obtain ⟨after, next, seen, turn⟩ := walkAccess_arrives arrives
      have distinct := List.nodup_cons.mp (Chain.step pointer upper).nodup
      have stillUnseen : ∀ ancestor ∈ rest, ancestor ∉ after.seen := by
        intro ancestor mem isSeen
        rw [seen] at isSeen
        rcases List.mem_cons.mp isSeen with same | isSeen
        · exact distinct.1 (same ▸ mem)
        · exact unseen ancestor (List.mem_cons_of_mem _ mem) isSeen
      rw [turn, if_neg (unseen node List.mem_cons_self)]
      split
      · exact ⟨_, rfl⟩
      split
      · exact ⟨_, rfl⟩
      rename_i inherits
      rcases walkAccess_above next (by simpa using inherits) with
        ⟨nothing, _⟩ | ⟨other, otherPointer, arrivesAbove | ⟨later, arrivesLater, sameSeen, same⟩⟩
      · rw [pointer] at nothing
        cases nothing
      · cases pointer.symm.trans otherPointer
        exact induction (budget + 1) arrivesAbove (by omega) stillUnseen
      · cases pointer.symm.trans otherPointer
        rw [same]
        exact induction budget arrivesLater (by omega) (sameSeen ▸ stillUnseen)

end MetadataVisibilityReads

/-! ## What a memo has -/

namespace EffectiveRightsMemo

variable {reads : MetadataVisibilityReads} {principals : PrincipalSet}

def Inherited (reads : MetadataVisibilityReads) (principals : PrincipalSet)
    (inherited : InodeId → Option AccessRights) : Prop :=
  ∀ inodeId rights, inherited inodeId = some rights →
    ∃ chain, Chain reads.inheritsFrom inodeId chain ∧
      rights = reads.chainRights principals chain

structure Valid (reads : MetadataVisibilityReads) (principals : PrincipalSet)
    (memo : EffectiveRightsMemo) : Prop where
  administrator : ∀ administrator, memo.administrator = some administrator →
    administrator = reads.isAdministrator principals
  inherited : Inherited reads principals memo.inherited

variable {inherited : InodeId → Option AccessRights}

theorem Inherited.update (valid : Inherited reads principals inherited)
    (isChain : Chain reads.inheritsFrom node chain) : Inherited reads principals
      (Function.update inherited node (some (reads.chainRights principals chain))) := by
  intro other rights isRights
  by_cases same : other = node
  · subst same
    rw [Function.update_self] at isRights
    exact ⟨chain, isChain, (Option.some.inj isRights).symm⟩
  · rw [Function.update_of_ne same] at isRights
    exact valid other rights isRights

theorem remember_spec (valid : Inherited reads principals inherited) {segment : List InodeId}
    (reaches : Reaches reads.inheritsFrom (fun node => (inherited node).isSome) node segment stop) :
    ∃ chain after, Chain reads.inheritsFrom node chain ∧
      remember principals ((stop.bind inherited).getD .empty) inherited
        (segment.map fun node => (node, reads.findAccessRow node)) =
          (reads.chainRights principals chain, after) ∧ Inherited reads principals after := by
  induction reaches with
  | @known node isKnown =>
    obtain ⟨rights, isRights⟩ := Option.isSome_iff_exists.mp isKnown
    obtain ⟨chain, isChain, same⟩ := valid node rights isRights
    refine ⟨chain, inherited, isChain, ?_, valid⟩
    rw [← same]
    simp [remember, isRights]
  | @last node top =>
    have isChain : Chain reads.inheritsFrom node [node] := .last top
    have nothing : reads.chainRights principals [] = .empty := by
      simp [MetadataVisibilityReads.chainRights]
    refine ⟨[node], _, isChain, ?_, valid.update isChain⟩
    rw [← rightsWithRow_chainRights, nothing]
    rfl
  | @step node above rest stop pointer _ induction =>
    obtain ⟨chain, after, isChain, isRest, afterValid⟩ := induction
    have longer : Chain reads.inheritsFrom node (node :: chain) := .step pointer isChain
    refine ⟨node :: chain, _, longer, ?_, afterValid.update longer⟩
    rw [← rightsWithRow_chainRights]
    rw [remember] at isRest ⊢
    rw [List.map_cons, List.foldr_cons, isRest]

variable {memo : EffectiveRightsMemo}

theorem inheritedRights_spec (valid : memo.Valid reads principals) (node : InodeId) :
    (inheritedRights reads principals budget memo node).2.Valid reads principals ∧
      ∀ rights, (inheritedRights reads principals budget memo node).1 = .ok rights →
        ∃ chain, Chain reads.inheritsFrom node chain ∧
          rights = reads.chainRights principals chain := by
  rw [inheritedRights]
  cases walked : reads.walkAccessRows budget node
      (fun node => (memo.inherited node).isSome) with
  | error error => exact ⟨valid, fun rights isRights => nomatch isRights⟩
  | ok walk =>
    obtain ⟨segment, isWalked, reaches⟩ :=
      MetadataVisibilityReads.walkAccess_walks budget ⟨none, rfl⟩ walked
    obtain ⟨chain, after, isChain, remembered, afterValid⟩ := remember_spec valid.inherited reaches
    rw [List.nil_append] at isWalked
    dsimp only
    rw [isWalked, remembered]
    refine ⟨⟨valid.administrator, afterValid⟩, ?_⟩
    intro rights isRights
    cases isRights
    exact ⟨chain, isChain, rfl⟩

theorem effectiveRights_spec (budget : Nat) (valid : memo.Valid reads principals) (node : InodeId) :
    (memo.effectiveRights reads principals budget node).2.Valid reads principals ∧
      ∀ rights, (memo.effectiveRights reads principals budget node).1 = .ok rights →
        reads.HasRights principals node rights := by
  have isAdministrator : memo.administrator.getD (reads.isAdministrator principals) =
      reads.isAdministrator principals := by
    cases known : memo.administrator with
    | none => rfl
    | some administrator => exact valid.administrator administrator known
  have recorded : Valid reads principals
      { memo with administrator := some (reads.isAdministrator principals) } :=
    ⟨fun administrator isSome => (Option.some.inj isSome).symm, valid.inherited⟩
  simp only [effectiveRights, isAdministrator, MetadataVisibilityReads.HasRights]
  split
  · refine ⟨recorded, ?_⟩
    intro rights isRights
    cases isRights
    rfl
  · exact inheritedRights_spec recorded node

theorem effectiveRights_ok (isChain : Chain reads.inheritsFrom node chain)
    (enough : 2 * chain.length ≤ budget) :
    ∃ rights, (memo.effectiveRights reads principals budget node).1 = .ok rights := by
  have ends : ∃ walk, reads.walkAccessRows budget node
      (fun node => (memo.inherited node).isSome) = .ok walk :=
    MetadataVisibilityReads.walkAccess_ends isChain budget ⟨none, rfl⟩ enough
      (by simp [AncestorWalk.new])
  obtain ⟨walk, walked⟩ := ends
  rw [effectiveRights]
  split
  · exact ⟨_, rfl⟩
  · rw [inheritedRights, walked]
    exact ⟨_, rfl⟩

theorem answers_spec (budget : Nat) (valid : memo.Valid reads principals) (queries : List InodeId) :
    List.Forall₂ (fun node answer => ∀ rights, answer = .ok rights →
      reads.HasRights principals node rights) queries
        (answers reads principals budget memo queries) := by
  induction queries generalizing memo with
  | nil => exact .nil
  | cons node rest induction =>
    obtain ⟨afterValid, isRight⟩ := effectiveRights_spec budget valid node
    exact .cons isRight (induction afterValid)

theorem answers_answered (valid : memo.Valid reads principals)
    (chains : ∀ node ∈ queries, ∃ chain, Chain reads.inheritsFrom node chain ∧
      2 * chain.length ≤ budget) : List.Forall₂ (fun node answer => ∃ rights, answer = .ok rights ∧
      reads.HasRights principals node rights) queries
        (answers reads principals budget memo queries) := by
  induction queries generalizing memo with
  | nil => exact .nil
  | cons node rest induction =>
    obtain ⟨chain, isChain, enough⟩ := chains node List.mem_cons_self
    obtain ⟨rights, answered⟩ := effectiveRights_ok isChain enough
    obtain ⟨afterValid, isRight⟩ := effectiveRights_spec budget valid node
    exact .cons ⟨rights, answered, isRight rights answered⟩
      (induction afterValid fun other isOther => chains other (List.mem_cons_of_mem _ isOther))

end EffectiveRightsMemo

/-! ## Stored rows -/

namespace FamilyRows

variable (rows : FamilyRows)

def accessWalkBudget : Nat := 2 * (rows.direntryChildBinds.length + rows.tombstones.length + 1)

theorem mem_of_currentParentBinding
    (bound : (rows.readsAt seq floor).currentParentBindingForChild node = some binding) :
    node ∈ rows.direntryChildBinds.map (·.childInodeId) := by
  rw [MetadataVisibilityReads.currentParentBindingForChild] at bound
  split at bound
  · cases bound
  · rename_i notRoot
    have latest := (Option.filter_eq_some_iff.mp bound).1
    change rows.latestParentBindingForChild seq node = some binding at latest
    rw [latestParentBindingForChild, if_neg notRoot] at latest
    have isRow := (maxByKey_isNewest latest).mem
    simp only [childRows, List.mem_filter, decide_eq_true_eq] at isRow
    exact List.mem_map.mpr ⟨binding, isRow.1, isRow.2.1⟩

theorem mem_of_hidingSubtreeTombstone
    (found : rows.hidingSubtreeTombstone seq node = some tombstone) :
    node ∈ rows.tombstones.map (·.rootInodeId) := by
  have newest := (Option.filter_eq_some_iff.mp found).1
  have isRow := (maxByKey_isNewest newest).mem
  simp only [tombstoneRows, List.mem_filter, decide_eq_true_eq] at isRow
  exact List.mem_map.mpr ⟨tombstone, isRow.1, isRow.2.1⟩

theorem inheritance_mem (pointer : (rows.readsAt seq floor).inheritsFrom node = some above) :
    node ∈ rows.direntryChildBinds.map (·.childInodeId) ++ rows.tombstones.map (·.rootInodeId) := by
  rw [List.mem_append]
  by_cases stops : (MetadataVisibilityReads.hasBoundary
      ((rows.readsAt seq floor).findAccessRow node) || node = rootInodeId) = true
  · rw [MetadataVisibilityReads.inheritsFrom_eq_none stops] at pointer
    cases pointer
  rcases MetadataVisibilityReads.inheritsFrom_cases (Bool.eq_false_iff.mpr stops) with
    ⟨binding, bound, _⟩ | ⟨_, ⟨tombstone, _, _, found, _⟩ | ⟨nothing, _⟩⟩
  · exact .inl (rows.mem_of_currentParentBinding bound)
  · exact .inr (rows.mem_of_hidingSubtreeTombstone found)
  · rw [nothing] at pointer
    cases pointer

theorem inheritance_length_le (isChain : Chain (rows.readsAt seq floor).inheritsFrom node chain) :
    2 * chain.length ≤ rows.accessWalkBudget := by
  have short := isChain.length_le fun _ _ => rows.inheritance_mem
  rw [List.length_append, List.length_map, List.length_map] at short
  rw [accessWalkBudget]
  omega

end FamilyRows

/-- Queries through one memo get the rights of the whole inheritance chain of their inodes. -/
theorem memoized_rights_equal_direct (rows : FamilyRows) (seq floor : ChangeSeq)
    (principals : PrincipalSet) (queries : List InodeId) :
    List.Forall₂ (fun inodeId answer => ∀ rights, answer = .ok rights →
        (rows.readsAt seq floor).HasRights principals inodeId rights) queries
      (EffectiveRightsMemo.answers (rows.readsAt seq floor) principals rows.accessWalkBudget {}
        queries) ∧
    (Acyclic (rows.readsAt seq floor).inheritsFrom →
      List.Forall₂ (fun inodeId answer => ∃ rights, answer = .ok rights ∧
          (rows.readsAt seq floor).HasRights principals inodeId rights) queries
        (EffectiveRightsMemo.answers (rows.readsAt seq floor) principals rows.accessWalkBudget {}
          queries)) := by
  have valid : EffectiveRightsMemo.Valid (rows.readsAt seq floor) principals {} :=
    ⟨(fun administrator known => nomatch known), (fun inodeId rights known => nomatch known)⟩
  refine ⟨EffectiveRightsMemo.answers_spec _ valid queries, fun acyclic => ?_⟩
  apply EffectiveRightsMemo.answers_answered valid
  intro inodeId _
  obtain ⟨chain, isChain⟩ := acyclic inodeId
  exact ⟨chain, isChain, rows.inheritance_length_le isChain⟩

namespace SampleAccess

def edge (childInodeId parentInodeId : InodeId) (committedSeq : ChangeSeq)
    (state : DirentryBindingState) : DirentryBindingRecord where
  parentInodeId
  nameKey := toString childInodeId
  childInodeId
  childKind := .directory
  childCreatedBy := "actor"
  childCreatedAtMs := 1
  committedSeq
  commitId := "commit"
  deltaIndex := childInodeId
  committedBy := "actor"
  committedAtMs := 1
  bindPosition := ⟨1, childInodeId⟩
  state

def bound (childInodeId parentInodeId : InodeId) : DirentryBindingRecord :=
  edge childInodeId parentInodeId 1 (.bound (toString childInodeId) none)

def deletion (rootInodeId parentInodeId : InodeId) (committedSeq : ChangeSeq) :
    SubtreeTombstoneRecord where
  rootInodeId
  committedSeq
  deltaIndex := rootInodeId
  commitId := "commit"
  action := .set .directory
    { parentInodeId, nameKey := toString rootInodeId, displayName := toString rootInodeId }
  committedBy := "actor"
  committedAtMs := 1

def row (inodeId : InodeId) (boundary : Bool) (grants : AccessGrants) : AccessRevisionRecord where
  inodeId
  accessRevisionNo := 1
  committedSeq := 1
  commitId := "commit"
  deltaIndex := 10
  committedBy := "actor"
  committedAtMs := 1
  boundary
  grants

/-- Directory 2 is a boundary. Directories 4 and 5 of directory 1 are deleted, 5 at the retention
floor and 4 above it. -/
def rows : FamilyRows :=
  let edges := [bound 1 0, bound 2 1, bound 3 2, bound 4 1, bound 5 1, edge 5 1 2 .unbound,
    edge 4 1 3 .unbound]
  { direntryBinds := edges
    direntryChildBinds := edges
    tombstones := [deletion 5 1 2, deletion 4 1 3]
    access := [row 0 false [("reader", 1)], row 1 false [("reader", 4)],
      row 2 true [("reader", 2)], row 5 false [("reader", 8)]] }

def reads : MetadataVisibilityReads := rows.readsAt 3 2

theorem acyclic : Acyclic reads.inheritsFrom := by
  -- An inode inherits from a smaller one.
  have smaller : ∀ node above, reads.inheritsFrom node = some above → above < node := by
    intro node above pointer
    have listed : ∀ node ∈ rows.direntryChildBinds.map (·.childInodeId) ++
        rows.tombstones.map (·.rootInodeId), ∀ above ∈ reads.inheritsFrom node, above < node := by
      decide +kernel
    exact listed node (rows.inheritance_mem pointer) above pointer
  intro node
  induction node using Nat.strong_induction_on with
  | _ node induction =>
    cases pointer : reads.inheritsFrom node with
    | none => exact ⟨[node], .last pointer⟩
    | some above =>
      obtain ⟨chain, isChain⟩ := induction above (smaller node above pointer)
      exact ⟨node :: chain, .step pointer isChain⟩

end SampleAccess

open SampleAccess in
theorem memoized_rights_equal_direct_sample :
    EffectiveRightsMemo.answers reads ["reader"] rows.accessWalkBudget {} [0, 1, 2, 3, 4, 5, 6] =
      [.ok ⟨1⟩, .ok ⟨5⟩, .ok ⟨2⟩, .ok ⟨2⟩, .ok ⟨5⟩, .ok ⟨8⟩, .ok ⟨0⟩] ∧
    List.Forall₂ (fun inodeId answer => ∃ rights, answer = .ok rights ∧
        reads.HasRights ["reader"] inodeId rights) [0, 1, 2, 3, 4, 5, 6]
      (EffectiveRightsMemo.answers reads ["reader"] rows.accessWalkBudget {}
        [0, 1, 2, 3, 4, 5, 6]) :=
  ⟨by decide +kernel, (memoized_rights_equal_direct _ _ _ _ _).2 acyclic⟩

end LoonFs
