import Mathlib.Algebra.BigOperators.Group.Multiset.Basic
import LoonFs.Foundation.Paths
import LoonFs.MetadataRows

/-! # Claims of maintenance runs -/

namespace LoonFs.Maintenance

open Foundation Function Multiset

inductive Claim where
  | claimed
  | retentionAdvanceLeft
deriving DecidableEq

inductive Overlap where
  | skip
  | leaveRetentionAdvance
deriving DecidableEq

abbrev Claims := NamespaceId → Option Claim

/-- Whether the run has the namespace now, and the claims map after it asked. -/
def claim (claims : Claims) (namespaceId : NamespaceId) (overlap : Overlap) : Bool × Claims :=
  match claims namespaceId with
  | some _ => (false,
      if overlap = .leaveRetentionAdvance then
        update claims namespaceId (some .retentionAdvanceLeft)
      else claims)
  | none => (true, update claims namespaceId (some .claimed))

/-- Whether a sweep left its advance, and the claims map after the check. The source expects
the namespace in the map. -/
def releaseUnlessRetentionDue (claims : Claims) (namespaceId : NamespaceId) :
    Option (Bool × Claims) :=
  (claims namespaceId).map fun
    | .retentionAdvanceLeft => (true, update claims namespaceId (some .claimed))
    | .claimed => (false, update claims namespaceId none)

inductive Call where
  | maintainMetadata
  | maintainIndex
  | advanceRetention
  | gc
  | closeSession
deriving DecidableEq

inductive Due where
  | collection
  | index
  | close

def sweepNamespace (grep collects : Bool) : List Call :=
  .maintainMetadata :: (if grep then [.maintainIndex] else []) ++
    .advanceRetention :: if collects then [.gc] else []

/-- The session's metadata step if it is due, then its first other due step. -/
def runSessionSteps (metadataDue : Bool) (due : Option Due) (gone : Bool) : List Call :=
  (if metadataDue then [.maintainMetadata] else []) ++
    match due with
    | none => []
    | some .close => [.closeSession]
    | some .collection => .gc :: if gone then [.closeSession] else []
    | some .index => .maintainIndex :: if gone then [.closeSession] else []

/-- A run that was given a namespace; `left` are the calls that it still makes. -/
structure Run where
  namespaceId : NamespaceId
  claimed : Bool := true
  slot : Bool := false
  left : Option (List Call)
deriving DecidableEq

structure Scheduler where
  claims : Claims
  permits : Nat
  stopped : Bool
  runs : Multiset Run

inductive Event where
  | claims (namespaceId : NamespaceId) (overlap : Overlap)
  | leavesAdvance (namespaceId : NamespaceId)
  | advances (namespaceId : NamespaceId)
  | releases (namespaceId : NamespaceId)
  | drops (namespaceId : NamespaceId)
  /-- A failed assertion ends the run. -/
  | panics (namespaceId : NamespaceId)
  | stops
  | silent
deriving DecidableEq

/-- A sweep reached the namespace. -/
def Event.reaches (namespaceId : NamespaceId) (event : Event) : Bool :=
  event = .claims namespaceId .leaveRetentionAdvance ∨ event = .leavesAdvance namespaceId

/-- One step of any run. A call can fail or panic: the run goes on with its next call. -/
inductive Step : Scheduler → Event → Scheduler → Prop
  | claim (calls : overlap = .skip ∧ (∃ metadataDue due gone,
          left = runSessionSteps metadataDue due gone) ∨
        overlap = .leaveRetentionAdvance ∧ ∃ grep collects, left = sweepNamespace grep collects)
      (taken : claim claims namespaceId overlap = (true, after)) :
      Step ⟨claims, permits, stopped, runs⟩ (.claims namespaceId overlap)
        ⟨after, permits, stopped, { namespaceId, left := some left } ::ₘ runs⟩
  | overlap (overlap : Overlap) (refused : claim claims namespaceId overlap = (false, after))
      (shows : event = if overlap = .skip then .silent else .leavesAdvance namespaceId) :
      Step ⟨claims, permits, stopped, runs⟩ event ⟨after, permits, stopped, runs⟩
  | acquire (waits : run.slot = false) (active : run.left.isSome) :
      Step ⟨claims, permits + 1, false, run ::ₘ others⟩ .silent
        ⟨claims, permits, false, { run with slot := true } ::ₘ others⟩
  | call (starts : run.left = some (call :: rest)) (hasSlot : run.slot)
      (shows : event = if call = .advanceRetention ∧ stopped = false then
        .advances run.namespaceId else .silent) :
      Step ⟨claims, permits, stopped, run ::ₘ others⟩ event
        ⟨claims, permits, stopped, { run with left := some rest } ::ₘ others⟩
  | retentionDue (finished : run.left = some []) (hasSlot : run.slot)
      (due : releaseUnlessRetentionDue claims run.namespaceId = some (true, after)) :
      Step ⟨claims, permits, stopped, run ::ₘ others⟩ .silent
        ⟨after, permits, stopped,
          { run with left := some [.advanceRetention] } ::ₘ others⟩
  | release (finished : run.left = some []) (hasSlot : run.slot)
      (free : releaseUnlessRetentionDue claims run.namespaceId = some (false, after)) :
      Step ⟨claims, permits, stopped, run ::ₘ others⟩ (.releases run.namespaceId)
        ⟨after, permits, stopped, { run with claimed := false, left := none } ::ₘ others⟩
  | panic (finished : run.left = some []) (hasSlot : run.slot)
      (missing : releaseUnlessRetentionDue claims run.namespaceId = none) :
      Step ⟨claims, permits, stopped, run ::ₘ others⟩ (.panics run.namespaceId)
        ⟨claims, permits, stopped, { run with left := none } ::ₘ others⟩
  | cancel (active : run.left.isSome) :
      Step ⟨claims, permits, stopped, run ::ₘ others⟩ (.drops run.namespaceId)
        ⟨claims, permits, stopped, { run with left := none } ::ₘ others⟩
  | dropClaim (ended : run.left = none) (claimed : run.claimed) :
      Step ⟨claims, permits, stopped, run ::ₘ others⟩ (.drops run.namespaceId)
        ⟨update claims run.namespaceId none, permits, stopped,
          { run with claimed := false } ::ₘ others⟩
  | dropPermit (ended : run.left = none) (hasSlot : run.slot) :
      Step ⟨claims, permits, stopped, run ::ₘ others⟩ .silent
        ⟨claims, permits + 1, stopped, { run with slot := false } ::ₘ others⟩
  | stop : Step ⟨claims, permits, stopped, runs⟩ .stops ⟨claims, permits, true, runs⟩

def Scheduler.start (maxConcurrentMaintenance : Nat) : Scheduler :=
  ⟨fun _ => none, maxConcurrentMaintenance, false, 0⟩

def Run.holds (namespaceId : NamespaceId) (run : Run) : Bool :=
  run.claimed ∧ run.namespaceId = namespaceId

structure Scheduler.Valid (maxConcurrentMaintenance : Nat) (scheduler : Scheduler) : Prop where
  claims : ∀ namespaceId, scheduler.runs.countP (·.holds namespaceId) =
    (scheduler.claims namespaceId).isSome.toNat
  permits : scheduler.permits + scheduler.runs.countP (·.slot) = maxConcurrentMaintenance
  active : ∀ run ∈ scheduler.runs, run.left.isSome → run.claimed

section

variable {claims after : Claims}

theorem claim_taken (taken : claim claims space overlap = (true, after)) :
    claims space = none ∧ after = update claims space (some .claimed) := by
  rw [claim] at taken
  split at taken <;> cases taken
  next free => exact ⟨free, rfl⟩

theorem claim_refused (refused : claim claims space overlap = (false, after)) :
    (claims space).isSome ∧ after = if overlap = .leaveRetentionAdvance then
      update claims space (some .retentionAdvanceLeft) else claims := by
  rw [claim] at refused
  split at refused <;> cases refused
  next found => exact ⟨by rw [found]; rfl, rfl⟩

theorem releaseUnlessRetentionDue_due
    (due : releaseUnlessRetentionDue claims space = some (true, after)) :
    claims space = some .retentionAdvanceLeft ∧ after = update claims space (some .claimed) := by
  rcases Option.map_eq_some_iff.mp due with ⟨_ | _, found, isAfter⟩ <;> cases isAfter
  exact ⟨found, rfl⟩

theorem releaseUnlessRetentionDue_free
    (free : releaseUnlessRetentionDue claims space = some (false, after)) :
    claims space = some .claimed ∧ after = update claims space none := by
  rcases Option.map_eq_some_iff.mp free with ⟨_ | _, found, isAfter⟩ <;> cases isAfter
  exact ⟨found, rfl⟩

end

theorem claim_found {claims : Claims} {run : Run}
    (valid : Scheduler.Valid maximum ⟨claims, permits, stopped, run ::ₘ others⟩)
    (active : run.left.isSome) : ∃ claim, claims run.namespaceId = some claim := by
  have claimed := valid.active run (mem_cons_self run others) active
  have counted := valid.claims run.namespaceId
  rw [countP_cons_of_pos _ (by simp [Run.holds, claimed])] at counted
  rw [← Option.isSome_iff_exists]
  by_contra missing
  rw [Bool.not_eq_true] at missing
  rw [missing] at counted
  cases counted

/-- A run that has not ended finds its claim. -/
theorem release_found {claims : Claims} {run : Run}
    (valid : Scheduler.Valid maximum ⟨claims, permits, stopped, run ::ₘ others⟩)
    (finished : run.left = some []) : releaseUnlessRetentionDue claims run.namespaceId ≠ none := by
  rcases claim_found valid (by simp [finished]) with ⟨claim, found⟩
  simp [releaseUnlessRetentionDue, found]

theorem valid_change {claims after : Claims} {run changed : Run}
    (valid : Scheduler.Valid maximum ⟨claims, permits, stopped, run ::ₘ others⟩)
    (held : ∀ space, (after space).isSome.toNat + (run.holds space).toNat =
      (claims space).isSome.toNat + (changed.holds space).toNat)
    (slots : left + changed.slot.toNat = permits + run.slot.toNat)
    (stays : (run.left.isSome → run.claimed) → changed.left.isSome → changed.claimed) :
    Scheduler.Valid maximum ⟨after, left, stopped, changed ::ₘ others⟩ := by
  have one (value : Bool) : (if value then 1 else 0) = value.toNat := by cases value <;> rfl
  refine ⟨fun space => ?_, ?_, forall_mem_cons.mpr ⟨?_, ?_⟩⟩
  · have counted := valid.claims space
    have same := held space
    rw [countP_cons, one] at counted ⊢
    dsimp only at counted ⊢
    omega
  · have counted := valid.permits
    rw [countP_cons, one] at counted ⊢
    dsimp only at counted ⊢
    omega
  · exact stays (valid.active run (mem_cons_self run others))
  · exact fun other mem => valid.active other (mem_cons_of_mem mem)

private theorem toNat_eq (flag : Bool) : flag.toNat = if flag then 1 else 0 := by
  cases flag <;> rfl

theorem Step.valid {scheduler next : Scheduler} (step : Step scheduler event next)
    (valid : scheduler.Valid maximum) : next.Valid maximum := by
  cases step with
  | claim calls taken =>
    rcases claim_taken taken with ⟨free, rfl⟩
    refine ⟨fun other => ?_, by simpa using valid.permits, by simpa using valid.active⟩
    have counted := valid.claims other
    simp only [countP_cons]
    grind [Run.holds, update, toNat_eq]
  | overlap mode refused shows =>
    rcases claim_refused refused with ⟨found, rfl⟩
    refine ⟨fun other => ?_, valid.permits, valid.active⟩
    have counted := valid.claims other
    grind [update]
  | acquire waits isActive => exact valid_change valid (fun _ => rfl) (by simp [waits]) id
  | call starts hasSlot shows =>
    exact valid_change valid (fun _ => rfl) rfl fun claimed _ => claimed (by simp [starts])
  | retentionDue finished hasSlot due =>
    rcases releaseUnlessRetentionDue_due due with ⟨left, rfl⟩
    refine valid_change valid (fun other => ?_) rfl fun claimed _ => claimed (by simp [finished])
    grind [Run.holds, update]
  | release finished hasSlot free =>
    rcases releaseUnlessRetentionDue_free free with ⟨isClaimed, rfl⟩
    have claimed := valid.active _ (mem_cons_self _ _) (by simp [finished])
    refine valid_change valid (fun other => ?_) rfl fun _ isActive => by cases isActive
    have counted := valid.claims other
    simp only [countP_cons] at counted
    grind [Run.holds, update, toNat_eq]
  | panic finished _ missing => exact absurd missing (release_found valid finished)
  | cancel => exact valid_change valid (fun _ => rfl) rfl fun _ isActive => by cases isActive
  | dropClaim ended claimed =>
    refine valid_change valid (fun other => ?_) rfl fun _ isActive => by simp [ended] at isActive
    have counted := valid.claims other
    simp only [countP_cons] at counted
    grind [Run.holds, update, toNat_eq]
  | dropPermit ended hasSlot => exact valid_change valid (fun _ => rfl) (by simp [hasSlot]) id
  | stop => exact ⟨valid.claims, valid.permits, valid.active⟩

def Run.owed (namespaceId : NamespaceId) (run : Run) : Nat :=
  if run.holds namespaceId then (run.left.getD []).count .advanceRetention else 0

/-- The advances that the run with the claim still makes before it can release it. -/
def Scheduler.owed (namespaceId : NamespaceId) (scheduler : Scheduler) : Nat :=
  (if scheduler.claims namespaceId = some .retentionAdvanceLeft then 1 else 0) +
    (scheduler.runs.map (·.owed namespaceId)).sum

private theorem owed_cons {claims : Claims} {run : Run} :
    Scheduler.owed space ⟨claims, permits, stopped, run ::ₘ others⟩ =
      (if claims space = some .retentionAdvanceLeft then 1 else 0) +
        (run.owed space + (others.map (·.owed space)).sum) := by
  simp [Scheduler.owed]

theorem Step.owed {scheduler next : Scheduler} (step : Step scheduler event next)
    (valid : scheduler.Valid maximum) (space : NamespaceId) :
    next.owed space + (if event = .advances space then 1 else 0) ≤
        scheduler.owed space + (if event.reaches space then 1 else 0) ∧
      (scheduler.stopped = false → event ≠ .releases space → event ≠ .drops space →
        scheduler.owed space ≤ next.owed space + (if event = .advances space then 1 else 0) ∧
          (event.reaches space → 0 < next.owed space)) := by
  cases step with
  | @claim overlap left _ _ _ _ _ _ calls taken =>
    rcases claim_taken taken with ⟨free, rfl⟩
    have counted : left.count .advanceRetention = if overlap = .skip then 0 else 1 := by
      rcases calls with ⟨rfl, metadataDue, due, gone, rfl⟩ | ⟨rfl, grep, collects, rfl⟩
      · cases metadataDue <;> cases gone <;> rcases due with _ | _ | _ | _ <;> rfl
      · cases grep <;> cases collects <;> rfl
    rw [owed_cons]
    cases overlap <;> grind [Scheduler.owed, Run.owed, Run.holds, Event.reaches, update]
  | overlap mode refused shows =>
    rcases claim_refused refused with ⟨found, rfl⟩
    cases mode <;> grind [Scheduler.owed, Event.reaches, update]
  | acquire | dropPermit | stop => simp [Scheduler.owed, Run.owed, Run.holds, Event.reaches]
  | call starts hasSlot shows =>
    have claimed := valid.active _ (mem_cons_self _ _) (by simp [starts])
    rw [owed_cons, owed_cons]
    grind [Run.owed, Run.holds, Event.reaches]
  | retentionDue finished hasSlot due =>
    rcases releaseUnlessRetentionDue_due due with ⟨left, rfl⟩
    have claimed := valid.active _ (mem_cons_self _ _) (by simp [finished])
    rw [owed_cons, owed_cons]
    grind [Run.owed, Run.holds, Event.reaches, update]
  | release finished hasSlot free =>
    rcases releaseUnlessRetentionDue_free free with ⟨isClaimed, rfl⟩
    rw [owed_cons, owed_cons]
    grind [Run.owed, Run.holds, Event.reaches, update]
  | panic finished _ missing => exact absurd missing (release_found valid finished)
  | cancel | dropClaim =>
    rw [owed_cons, owed_cons]
    grind [Run.owed, Run.holds, Event.reaches, update]

theorem sum_owed {runs : Multiset Run} (free : runs.countP (·.holds space) = 0) :
    (runs.map (·.owed space)).sum = 0 := by
  refine sum_eq_zero fun owed mem => ?_
  rcases mem_map.mp mem with ⟨run, found, rfl⟩
  exact if_neg (countP_eq_zero.mp free run found)

theorem Step.releases_owed {scheduler next : Scheduler}
    (step : Step scheduler (.releases space) next) (valid : scheduler.Valid maximum) :
    scheduler.owed space = 0 := by
  generalize isEvent : Event.releases space = event at step
  cases step with
  | @release _ _ _ _ run _ finished hasSlot free =>
    cases isEvent
    have isClaimed := (releaseUnlessRetentionDue_free free).1
    have claimed := valid.active run (mem_cons_self _ _) (by simp [finished])
    have counted := valid.claims run.namespaceId
    rw [countP_cons_of_pos _ (by simp [Run.holds, claimed])] at counted
    have alone := Nat.le_zero.mp (Nat.le_of_succ_le_succ (counted.trans_le (Bool.toNat_le _)))
    simp [owed_cons, isClaimed, sum_owed alone, Run.owed.eq_1 _ run, finished]
  | _ => grind

theorem Step.claims_owed {scheduler next : Scheduler}
    (step : Step scheduler (.claims space mode) next) (valid : scheduler.Valid maximum) :
    scheduler.owed space = 0 := by
  generalize isEvent : Event.claims space mode = event at step
  cases step with
  | claim calls taken =>
    cases isEvent
    have free := (claim_taken taken).1
    have counted := valid.claims space
    simp only [free] at counted
    simp [Scheduler.owed, free, sum_owed counted]
  | _ => grind

theorem Step.stopped {scheduler next : Scheduler} (step : Step scheduler event next)
    (goesOn : event ≠ .stops) : next.stopped = scheduler.stopped := by
  cases step with
  | stop => exact absurd rfl goesOn
  | _ => rfl

section

variable {scheduler last : Scheduler} (valid : scheduler.Valid maximum)
include valid

theorem advances_le (path : Path Step scheduler events last) (space : NamespaceId) :
    events.count (.advances space) + last.owed space ≤
      scheduler.owed space + events.countP (·.reaches space) := by
  induction path with
  | nil => simp
  | cons step _ induction =>
    have moved := (step.owed valid space).1
    have rest := induction (step.valid valid)
    simp only [List.count_cons, List.countP_cons, beq_iff_eq]
    omega

theorem owed_pos (path : Path Step scheduler events last) (running : scheduler.stopped = false)
    (owes : 0 < scheduler.owed namespaceId) (goesOn : .stops ∉ events)
    (claimed : .releases namespaceId ∉ events ∧ .drops namespaceId ∉ events)
    (noAdvance : .advances namespaceId ∉ events) : 0 < last.owed namespaceId := by
  induction path with
  | nil => exact owes
  | cons step _ induction =>
    simp only [List.mem_cons, not_or] at goesOn claimed noAdvance
    have moved := (step.owed valid namespaceId).2 running (Ne.symm claimed.1.1)
      (Ne.symm claimed.2.1)
    rw [if_neg (Ne.symm noAdvance.1)] at moved
    exact induction (step.valid valid) ((step.stopped (Ne.symm goesOn.1)).trans running)
      (owes.trans_le moved.1) goesOn.2 ⟨claimed.1.2, claimed.2.2⟩ noAdvance.2

end

theorem exists_release {claims : Claims} {run : Run}
    (valid : Scheduler.Valid maximum ⟨claims, permits, stopped, run ::ₘ others⟩)
    (calls : run.left = some left) (hasSlot : run.slot) :
    ∃ during next, Path Step ⟨claims, permits, stopped, run ::ₘ others⟩
        (during ++ [.releases run.namespaceId]) next ∧
      ∀ event ∈ during, event = .silent ∨ event = .advances run.namespaceId := by
  induction left generalizing run with
  | cons call rest induction =>
    have step : Step ⟨claims, permits, stopped, run ::ₘ others⟩ _ _ := .call calls hasSlot rfl
    rcases induction (step.valid valid) rfl hasSlot with ⟨during, next, path, own⟩
    refine ⟨_ :: during, next, .cons step path, ?_⟩
    grind
  | nil =>
    rcases claim_found valid (by simp [calls]) with ⟨_ | _, found⟩
    case claimed =>
      exact ⟨[], _, .cons (.release calls hasSlot (by rw [releaseUnlessRetentionDue, found]; rfl))
        .nil, nofun⟩
    case retentionAdvanceLeft =>
      refine ⟨[_, _], _,
        .cons (.retentionDue calls hasSlot (by rw [releaseUnlessRetentionDue, found]; rfl)) <|
        .cons (.call rfl hasSlot rfl) <|
        .cons (.release rfl hasSlot (by rw [releaseUnlessRetentionDue, update_self]; rfl)) .nil, ?_⟩
      grind

theorem start_valid : (Scheduler.start maximum).Valid maximum :=
  ⟨fun _ => rfl, rfl, fun _ mem => absurd mem (notMem_zero _)⟩

theorem path_valid (path : Path Step (.start maximum) events scheduler) : scheduler.Valid maximum :=
  path.invariant (fun _ _ _ valid step => step.valid valid) start_valid

/-- The claim that a release expects in the map is there. -/
theorem panics_not_mem (path : Path Step (.start maximum) events scheduler)
    (namespaceId : NamespaceId) : .panics namespaceId ∉ events := by
  intro panics
  rcases List.append_of_mem panics with ⟨before, later, rfl⟩
  rcases Path.append_iff.mp path with ⟨found, path, rest⟩
  have valid := path_valid path
  cases rest with
  | cons step _ =>
    generalize isEvent : Event.panics namespaceId = event at step
    cases step with
    | panic finished _ missing => exact release_found valid finished missing
    | _ => grind

theorem path_running (path : Path Step scheduler events last) (goesOn : .stops ∉ events) :
    last.stopped = scheduler.stopped := by
  induction path with
  | nil => rfl
  | cons step _ induction =>
    simp only [List.mem_cons, not_or] at goesOn
    exact (induction goesOn.2).trans (step.stopped (Ne.symm goesOn.1))

theorem maintenance_runs_exclusive (maxConcurrentMaintenance : Nat) (events : List Event)
    (scheduler : Scheduler)
    (path : Path Step (.start maxConcurrentMaintenance) events scheduler) :
    (∀ namespaceId, scheduler.runs.countP (·.holds namespaceId) ≤ 1 ∧
      ((scheduler.claims namespaceId).isSome ↔ ∃ run ∈ scheduler.runs, run.holds namespaceId)) ∧
    scheduler.runs.countP (·.slot) ≤ maxConcurrentMaintenance ∧
    (∀ namespaceId before reached during later,
      events = before ++ reached :: (during ++ .releases namespaceId :: later) →
      reached.reaches namespaceId → .stops ∉ before ++ during →
      .releases namespaceId ∉ during → .drops namespaceId ∉ during →
      .advances namespaceId ∈ during) ∧
    (∀ run ∈ scheduler.runs, run.left.isSome → run.slot → ∃ during next,
      Path Step scheduler (during ++ [.releases run.namespaceId]) next ∧
      ∀ event ∈ during, event = .silent ∨ event = .advances run.namespaceId) ∧
    (∀ namespaceId overlap before during,
      events = before ++ .claims namespaceId overlap :: during →
      during.count (.advances namespaceId) ≤ during.countP (·.reaches namespaceId) + 1) := by
  have valid := path_valid path
  refine ⟨fun namespaceId => ?_, ?_, ?_, ?_, ?_⟩
  · have counted := valid.claims namespaceId
    refine ⟨counted ▸ Bool.toNat_le _, ?_⟩
    rw [← countP_pos, counted]
    cases (scheduler.claims namespaceId).isSome <;> simp
  · exact valid.permits ▸ Nat.le_add_left _ _
  · rintro namespaceId before reached during later rfl reaches goesOn released dropped
    rw [List.mem_append, not_or] at goesOn
    rcases Path.append_iff.mp path with ⟨found, path, rest⟩
    cases rest with
    | cons step rest =>
      rcases Path.append_iff.mp rest with ⟨held, during, ending⟩
      have valid := path_valid path
      have running := path_running path goesOn.1
      have kept : reached ≠ .stops ∧ reached ≠ .releases namespaceId ∧
          reached ≠ .drops namespaceId := by
        grind [Event.reaches]
      have owes := ((step.owed valid namespaceId).2 running kept.2.1 kept.2.2).2 reaches
      by_contra noAdvance
      have stillOwes := owed_pos (step.valid valid) during ((step.stopped kept.1).trans running)
        owes goesOn.2 ⟨released, dropped⟩ noAdvance
      cases ending with
      | cons release _ =>
        have heldValid := during.invariant (fun _ _ _ valid step => step.valid valid)
          (step.valid valid)
        exact stillOwes.ne' (release.releases_owed heldValid)
  · intro run member active hasSlot
    rcases Option.isSome_iff_exists.mp active with ⟨left, calls⟩
    rcases exists_cons_of_mem member with ⟨others, isRuns⟩
    rcases scheduler with ⟨claims, permits, stopped, runs⟩
    cases isRuns
    exact exists_release valid calls hasSlot
  · rintro namespaceId overlap before during rfl
    rcases Path.append_iff.mp path with ⟨found, path, rest⟩
    cases rest with
    | cons step rest =>
      have valid := path_valid path
      have bounded := advances_le (step.valid valid) rest namespaceId
      have started := (step.owed valid namespaceId).1
      have none : found.owed namespaceId = 0 := step.claims_owed valid
      grind

/-- A sweep leaves its advance to a session's run, which makes it before the release. -/
theorem maintenance_runs_exclusive_handover :
    ∃ scheduler, Path Step (.start 1) ([.claims "n" .skip, .silent] ++
        .leavesAdvance "n" :: ([.silent, .silent, .advances "n"] ++ [.releases "n"])) scheduler ∧
      scheduler.runs.countP (·.slot) ≤ 1 ∧
      Event.advances "n" ∈ [Event.silent, .silent, .advances "n"] := by
  have path : ∃ scheduler, Path Step (.start 1) ([.claims "n" .skip, .silent] ++
      .leavesAdvance "n" :: ([.silent, .silent, .advances "n"] ++ [.releases "n"])) scheduler := by
    apply Exists.intro
    apply Path.cons (.claim (.inl ⟨rfl, true, none, false, rfl⟩) rfl)
    apply Path.cons (.acquire rfl rfl)
    apply Path.cons (.overlap .leaveRetentionAdvance rfl rfl)
    apply Path.cons (.call rfl rfl rfl)
    apply Path.cons (.retentionDue rfl rfl rfl)
    apply Path.cons (.call rfl rfl rfl)
    exact .cons (.release rfl rfl rfl) .nil
  rcases path with ⟨scheduler, path⟩
  have laws := maintenance_runs_exclusive 1 _ scheduler path
  refine ⟨scheduler, path, laws.2.1, ?_⟩
  exact laws.2.2.1 "n" _ _ _ [] rfl (by decide) (by decide) (by decide) (by decide)

end LoonFs.Maintenance
