import LoonFs.Diff.Pages
import LoonFs.Wal.ObjectRules
import Mathlib.Algebra.BigOperators.Group.List.Basic
import Mathlib.Data.List.SplitBy

/-! # Activity counters -/

namespace LoonFs

open List hiding after tail

/-- How far the revisions of a commit have counted each chain that it has pieces of. -/
abbrev CountedEnds := ContentId → Option Nat

def noteStart (ends : CountedEnds) (entry : WalInlineContent) : CountedEnds :=
  Function.update ends entry.contentId
    (some (min ((ends entry.contentId).getD entry.offset) entry.offset))

def countedEnds (pieces : List WalInlineContent) : CountedEnds :=
  pieces.foldl noteStart fun _ => none

def countRevision (ends : CountedEnds) (contentRef : ContentRef) : Nat × CountedEnds :=
  match ends contentRef.contentId with
  | some finish =>
    if contentRef.sizeBytes > finish then
      (contentRef.sizeBytes - finish,
        Function.update ends contentRef.contentId (some contentRef.sizeBytes))
    else (contentRef.sizeBytes, ends)
  | none => (contentRef.sizeBytes, ends)

def revisionRefs (deltas : List WalCommitDelta) : List ContentRef :=
  deltas.filterMap fun delta =>
    match delta.delta with
    | .appendFileRevision _ _ _ _ _ _ _ _ _ contentRef _ _ => some contentRef
    | _ => none

def countedFrom (ends : CountedEnds) : List ContentRef → List (ContentId × Nat)
  | [] => []
  | contentRef :: contentRefs =>
    (contentRef.contentId, (countRevision ends contentRef).1) ::
      countedFrom (countRevision ends contentRef).2 contentRefs

def endsAfter (ends : CountedEnds) : List ContentRef → CountedEnds
  | [] => ends
  | contentRef :: contentRefs => endsAfter (countRevision ends contentRef).2 contentRefs

def increments (ends : CountedEnds) : List (List WalCommitDelta) → List ManifestActivity
  | [] => []
  | group :: groups =>
    { mutations := 1 } ::
      ((countedFrom ends (revisionRefs group)).map fun counted =>
        { contentBytes := counted.2, fileRevisions := 1 }) ++
      increments (endsAfter ends (revisionRefs group)) groups

def addAll (activity : ManifestActivity) : List (Option ManifestActivity) → Option ManifestActivity
  | [] => some activity
  | next :: rest => do addAll (← activity.checkedAdd (← next)) rest

def committedActivity (record : WalRecord) : Option ManifestActivity :=
  addAll {} ((increments (countedEnds record.inlineContent)
    (semanticOperationGroups record.commit.deltas)).map some)

/-! ## Tails and folds -/

/-- One WAL object of the tail, without its rows and content. -/
structure TailChunk where
  firstSeq : ChangeSeq
  activity : ManifestActivity

def TailChunk.fromRecords (records : List WalRecord) : Option TailChunk := do
  let activity ← addAll {} (records.map committedActivity)
  return ⟨(records.head?.map (·.commit.committedSeq)).getD 0, activity⟩

structure ProjectedWalTail where
  chunks : List TailChunk
  activity : ManifestActivity

namespace ProjectedWalTail

def pushChunks (chunks : List TailChunk) : Option ProjectedWalTail := do
  let activity ← addAll {} (chunks.map fun chunk => some chunk.activity)
  return ⟨chunks, activity⟩

def pushObjects (objects : List (List WalRecord)) : Option ProjectedWalTail := do
  pushChunks (← (objects.filter (!·.isEmpty)).mapM TailChunk.fromRecords)

/-- The tail above a manifest that folded this one through the commit at `seq`. -/
def afterSeq (tail : ProjectedWalTail) (seq headSeq : ChangeSeq) : Option ProjectedWalTail := do
  let after ← pushChunks (tail.chunks.filter fun chunk => chunk.firstSeq > seq)
  let endsAChunk :=
    match after.chunks.head? with
    | some first => decide (nextPublicOrdinal seq = some first.firstSeq)
    | none => decide (seq = headSeq)
  if endsAChunk then some after else none

end ProjectedWalTail

def foldedActivity (activity : ManifestActivity) (folds : List (List (List WalRecord))) :
    Option ManifestActivity :=
  addAll activity (folds.map fun objects =>
    (ProjectedWalTail.pushObjects objects).map ProjectedWalTail.activity)

/-! ## Sums without a bound -/

namespace ManifestActivity

instance : Add ManifestActivity where
  add left right :=
    { contentBytes := left.contentBytes + right.contentBytes
      fileRevisions := left.fileRevisions + right.fileRevisions
      mutations := left.mutations + right.mutations }

instance : Zero ManifestActivity := ⟨{}⟩

theorem add_eq (left right : ManifestActivity) : left + right =
    { contentBytes := left.contentBytes + right.contentBytes
      fileRevisions := left.fileRevisions + right.fileRevisions
      mutations := left.mutations + right.mutations } := rfl

instance : AddCommMonoid ManifestActivity where
  add_assoc left middle right := by simp [add_eq, Nat.add_assoc]
  zero_add right := by
    change (⟨0 + _, 0 + _, 0 + _⟩ : ManifestActivity) = right
    simp
  add_zero left := rfl
  add_comm left right := by simp [add_eq, Nat.add_comm]
  nsmul := nsmulRec

/-- Every counter is within the public bound. -/
def Fits (activity : ManifestActivity) : Prop :=
  activity.contentBytes ≤ maxPublicInteger ∧ activity.fileRevisions ≤ maxPublicInteger ∧
    activity.mutations ≤ maxPublicInteger

instance (activity : ManifestActivity) : Decidable activity.Fits :=
  inferInstanceAs (Decidable (_ ∧ _ ∧ _))

def checked (activity : ManifestActivity) : Option ManifestActivity :=
  if activity.Fits then some activity else none

theorem checkedAdd_eq (left right : ManifestActivity) :
    left.checkedAdd right = (left + right).checked := by
  simp only [checkedAdd, activityCounterAdd, checked, Fits, add_eq]
  by_cases content : left.contentBytes + right.contentBytes ≤ maxPublicInteger
  · by_cases revisions : left.fileRevisions + right.fileRevisions ≤ maxPublicInteger
    · by_cases mutations : left.mutations + right.mutations ≤ maxPublicInteger <;>
        simp [content, revisions, mutations]
    · simp [content, revisions]
  · simp [content]

theorem Fits.of_add {left right : ManifestActivity} (both : (left + right).Fits) : left.Fits :=
  ⟨Nat.le_of_add_right_le both.1, Nat.le_of_add_right_le both.2.1, Nat.le_of_add_right_le both.2.2⟩

theorem checked_bind {left right : ManifestActivity}
    {next : ManifestActivity → Option ManifestActivity}
    (total : left.Fits → next left = (left + right).checked) :
    left.checked.bind next = (left + right).checked := by
  by_cases fits : left.Fits
  · rw [← total fits, checked, if_pos fits, Option.bind_some]
  · have exceeds : ¬(left + right).Fits := fun both => fits both.of_add
    simp [checked, fits, exceeds]

theorem checkedAdd_checked (left right : ManifestActivity) :
    right.checked.bind left.checkedAdd = (left + right).checked := by
  rw [add_comm]
  exact checked_bind fun _ => by rw [checkedAdd_eq, add_comm]

end ManifestActivity

open ManifestActivity

theorem addAll_eq {Step : Type} {next : Step → Option ManifestActivity}
    {total : Step → ManifestActivity}
    (adds : ∀ step activity, (next step).bind activity.checkedAdd = (activity + total step).checked)
    (steps : List Step) (fits : activity.Fits) :
    addAll activity (steps.map next) = (activity + (steps.map total).sum).checked := by
  induction steps generalizing activity with
  | nil => simp [addAll, checked, fits]
  | cons step steps induction =>
    have unfolded : addAll activity ((step :: steps).map next) =
        ((next step).bind activity.checkedAdd).bind fun sum => addAll sum (steps.map next) :=
      (Option.bind_assoc ..).symm
    rw [unfolded, adds, map_cons, sum_cons, ← add_assoc]
    exact checked_bind fun within => induction within

theorem addAll_some (steps : List ManifestActivity) :
    addAll {} (steps.map some) = steps.sum.checked := by
  have adds : ∀ step sum : ManifestActivity, (some step).bind sum.checkedAdd =
      (sum + id step).checked := fun step sum => checkedAdd_eq sum step
  rw [addAll_eq adds steps (by decide), map_id]
  exact congrArg checked (zero_add _)

theorem addAll_checked {Step : Type} (total : Step → ManifestActivity) (steps : List Step)
    {activity : ManifestActivity} (fits : activity.Fits) :
    addAll activity (steps.map fun step => (total step).checked) =
      (activity + (steps.map total).sum).checked :=
  addAll_eq (fun step sum => checkedAdd_checked sum (total step)) steps fits

namespace WalRecord

def countedRevisions (record : WalRecord) : List (ContentId × Nat) :=
  countedFrom (countedEnds record.inlineContent) (revisionRefs record.commit.deltas)

def activity (record : WalRecord) : ManifestActivity where
  contentBytes := (record.countedRevisions.map Prod.snd).sum
  fileRevisions := record.countedRevisions.length
  mutations := (semanticOperationGroups record.commit.deltas).length

def totalActivity (records : List WalRecord) : ManifestActivity := (records.map activity).sum

def chainBytes (contentId : ContentId) (record : WalRecord) : Nat :=
  ((record.countedRevisions.filter (·.1 = contentId)).map Prod.snd).sum

theorem countedFrom_append (ends : CountedEnds) (first later : List ContentRef) :
    countedFrom ends (first ++ later) =
      countedFrom ends first ++ countedFrom (endsAfter ends first) later := by
  induction first generalizing ends with
  | nil => rfl
  | cons contentRef first induction => simp [countedFrom, endsAfter, induction]

theorem sum_revisions (counted : List (ContentId × Nat)) :
    (counted.map fun revision => (⟨revision.2, 1, 0⟩ : ManifestActivity)).sum =
      ⟨(counted.map Prod.snd).sum, counted.length, 0⟩ := by
  induction counted with
  | nil => rfl
  | cons revision counted induction => simp [induction, add_eq, Nat.add_comm]

theorem sum_increments (ends : CountedEnds) (groups : List (List WalCommitDelta)) :
    (increments ends groups).sum =
      ⟨((countedFrom ends (revisionRefs groups.flatten)).map Prod.snd).sum,
        (countedFrom ends (revisionRefs groups.flatten)).length, groups.length⟩ := by
  induction groups generalizing ends with
  | nil => rfl
  | cons group groups induction =>
    have refs : revisionRefs (group :: groups).flatten =
        revisionRefs group ++ revisionRefs groups.flatten := by simp [revisionRefs]
    rw [refs, countedFrom_append, increments, sum_append, sum_cons, sum_revisions, induction]
    simp [add_eq, Nat.add_comm]

theorem committedActivity_eq (record : WalRecord) :
    committedActivity record = record.activity.checked := by
  have groups : (semanticOperationGroups record.commit.deltas).flatten = record.commit.deltas :=
    flatten_splitBy _ _
  rw [committedActivity, addAll_some, sum_increments, groups]
  rfl

theorem fromRecords_activity (records : List WalRecord) :
    (TailChunk.fromRecords records).map TailChunk.activity = (totalActivity records).checked := by
  have counted :
      addAll {} (records.map committedActivity) = (0 + totalActivity records).checked := by
    rw [funext committedActivity_eq]
    exact addAll_checked activity records (by decide)
  rw [TailChunk.fromRecords, counted, zero_add]
  cases (totalActivity records).checked <;> rfl

end WalRecord

namespace ProjectedWalTail

open WalRecord

theorem mapM_fromRecords (objects : List (List WalRecord)) (sum : ManifestActivity) :
    ((objects.mapM TailChunk.fromRecords).bind fun chunks =>
      addAll sum (chunks.map fun chunk => some chunk.activity)) =
      addAll sum (objects.map fun records =>
        (TailChunk.fromRecords records).map TailChunk.activity) := by
  induction objects generalizing sum with
  | nil => rfl
  | cons records objects induction =>
    cases built : TailChunk.fromRecords records with
    | none => simp [mapM_cons, addAll, built]
    | some chunk =>
      cases added : sum.checkedAdd chunk.activity with
      | none => cases rest : objects.mapM TailChunk.fromRecords <;>
          simp [mapM_cons, addAll, built, added, rest]
      | some next =>
        have rest := induction next
        simp [mapM_cons, addAll, built, added, ← rest, Option.bind_assoc]

theorem pushObjects_activity (objects : List (List WalRecord)) :
    (pushObjects objects).map activity = (totalActivity objects.flatten).checked := by
  have pushed : (pushObjects objects).map activity =
      ((objects.filter (!·.isEmpty)).mapM TailChunk.fromRecords).bind fun chunks =>
        addAll {} (chunks.map fun chunk => some chunk.activity) := by
    simp [pushObjects, pushChunks, Option.map_bind]
  have flat : ((objects.filter (!·.isEmpty)).map totalActivity).sum =
      totalActivity objects.flatten := by
    rw [← flatten_filter_not_isEmpty, totalActivity, map_flatten, sum_flatten, map_map]
    rfl
  rw [pushed, mapM_fromRecords, funext fromRecords_activity, addAll_checked _ _ (by decide), flat]
  exact congrArg checked (zero_add _)

theorem pushChunks_eq_some {chunks : List TailChunk} :
    pushChunks chunks = some tail ↔ (chunks.map TailChunk.activity).sum.Fits ∧
      tail = ⟨chunks, (chunks.map TailChunk.activity).sum⟩ := by
  have isSum := addAll_some (chunks.map TailChunk.activity)
  rw [map_map] at isSum
  change ((addAll {} (chunks.map (some ∘ TailChunk.activity))).bind fun activity =>
    some ⟨chunks, activity⟩) = some tail ↔ _
  rw [isSum, checked]
  split
  case isTrue fits => simp [fits, eq_comm]
  case isFalse exceeds => simp [exceeds]

theorem pushChunks_after {tail : ProjectedWalTail} {chunks : List TailChunk}
    (pushed : pushChunks chunks = some tail) (seq : ChangeSeq) :
    ∃ after, pushChunks (tail.chunks.filter fun chunk => chunk.firstSeq > seq) = some after ∧
      ((tail.chunks.filter fun chunk => chunk.firstSeq ≤ seq).map TailChunk.activity).sum +
        after.activity = tail.activity := by
  rcases pushChunks_eq_some.mp pushed with ⟨fits, rfl⟩
  have later : (fun chunk : TailChunk => !decide (chunk.firstSeq ≤ seq)) =
      fun chunk => decide (chunk.firstSeq > seq) := by
    funext chunk
    rw [← decide_not]
    exact decide_eq_decide.mpr Nat.not_le
  have parts := filter_append_perm (fun chunk : TailChunk => chunk.firstSeq ≤ seq) chunks
  have total := (parts.map TailChunk.activity).sum_eq
  rw [later, map_append, sum_append] at total
  rw [← total, add_comm] at fits
  exact ⟨_, pushChunks_eq_some.mpr ⟨fits.of_add, rfl⟩, total⟩

end ProjectedWalTail

open WalRecord

theorem foldedActivity_eq {activity : ManifestActivity} (fits : activity.Fits)
    (folds : List (List (List WalRecord))) :
    foldedActivity activity folds = (activity + totalActivity folds.flatten.flatten).checked := by
  have flat : (folds.map fun objects => totalActivity objects.flatten).sum =
      totalActivity folds.flatten.flatten := by
    simp [totalActivity, map_flatten, sum_flatten, Function.comp_def]
  rw [foldedActivity, funext ProjectedWalTail.pushObjects_activity, addAll_checked _ _ fits, flat]

/-! ## The bytes of a chain -/

def WalRecord.chainSizes (contentId : ContentId) (record : WalRecord) : List Nat :=
  ((revisionRefs record.commit.deltas).filter (·.contentId = contentId)).map ContentRef.sizeBytes

/-- What revisions do to a chain, in order: the first creates it, a longer one appends to it,
and any other refers to it once more. -/
inductive Revises : Option Nat → List Nat → Option Nat → Nat → Prop
  | done : Revises size [] size 0
  | create : Revises (some size) sizes finish copied → Revises none (size :: sizes) finish copied
  | append : start < size → Revises (some size) sizes finish copied →
      Revises (some start) (size :: sizes) finish copied
  | refer : size ≤ start → Revises (some start) sizes finish copied →
      Revises (some start) (size :: sizes) finish (size + copied)

/-- Where the pieces of a commit begin: at the end of the chain so far, at zero with a create,
or at the end of a create whose bytes were uploaded. -/
inductive PiecesFrom : Option Nat → List Nat → Nat → Prop
  | append : PiecesFrom (some start) sizes start
  | create : PiecesFrom none sizes 0
  | upload : PiecesFrom none (size :: sizes) size

structure ExtendsChain (contentId : ContentId) (start finish : Option Nat) (copied : Nat)
    (record : WalRecord) : Prop where
  revises : Revises start (record.chainSizes contentId) finish copied
  pieces : ∃ first, PiecesFrom start (record.chainSizes contentId) first ∧
    (∀ entry ∈ record.inlineContent, entry.contentId = contentId → first ≤ entry.offset) ∧
    ((∃ size ∈ record.chainSizes contentId, first < size) →
      ∃ entry ∈ record.inlineContent, entry.contentId = contentId ∧ entry.offset = first)

/-- Commits that build a chain, each from the size that the commits before it left. -/
inductive BuildsChain (contentId : ContentId) :
    Option Nat → List WalRecord → Option Nat → Nat → Prop
  | done : BuildsChain contentId size [] size 0
  | commit : ExtendsChain contentId start middle copied record →
      BuildsChain contentId middle records finish later →
      BuildsChain contentId start (record :: records) finish (copied + later)

section

theorem noteStart_same (ends : CountedEnds) {entry : WalInlineContent}
    (same : entry.contentId = contentId) : noteStart ends entry contentId =
      some (min ((ends contentId).getD entry.offset) entry.offset) := by
  subst same
  exact Function.update_self ..

theorem noteStart_other (ends : CountedEnds) {entry : WalInlineContent}
    (other : entry.contentId ≠ contentId) : noteStart ends entry contentId = ends contentId :=
  Function.update_of_ne other.symm ..

theorem le_foldl_noteStart (pieces : List WalInlineContent) (ends : CountedEnds)
    (atLeast : ∀ finish ∈ ends contentId, start ≤ finish)
    (startsFrom : ∀ entry ∈ pieces, entry.contentId = contentId → start ≤ entry.offset) :
    ∀ finish ∈ pieces.foldl noteStart ends contentId, start ≤ finish := by
  induction pieces generalizing ends with
  | nil => exact atLeast
  | cons entry pieces induction =>
    rcases forall_mem_cons.mp startsFrom with ⟨fromEntry, startsFrom⟩
    refine induction _ ?_ startsFrom
    by_cases same : entry.contentId = contentId
    · rw [noteStart_same ends same]
      cases isEnd : ends contentId with
      | none => simpa using fromEntry same
      | some finish => simpa using ⟨atLeast finish isEnd, fromEntry same⟩
    · rwa [noteStart_other ends same]

theorem foldl_noteStart_le (pieces : List WalInlineContent) (ends : CountedEnds)
    (startsAt : (∃ finish ∈ ends contentId, finish ≤ start) ∨
      ∃ entry ∈ pieces, entry.contentId = contentId ∧ entry.offset = start) :
    ∃ finish ∈ pieces.foldl noteStart ends contentId, finish ≤ start := by
  induction pieces generalizing ends with
  | nil => simpa using startsAt
  | cons entry pieces induction =>
    apply induction _
    rcases startsAt with ⟨finish, isEnd, below⟩ | ⟨later, mem, sameId, atStart⟩
    · refine .inl ?_
      by_cases same : entry.contentId = contentId
      · exact ⟨_, noteStart_same ends same, by rw [isEnd, Option.getD_some]; omega⟩
      · exact ⟨finish, (noteStart_other ends same).trans isEnd, below⟩
    · rcases mem_cons.mp mem with rfl | mem
      · exact .inl ⟨_, noteStart_same ends sameId, by omega⟩
      · exact .inr ⟨later, mem, sameId, atStart⟩

theorem countRevision_full (ends : CountedEnds) {contentRef : ContentRef}
    (within : ∀ finish ∈ ends contentRef.contentId, contentRef.sizeBytes ≤ finish) :
    countRevision ends contentRef = (contentRef.sizeBytes, ends) := by
  rw [countRevision]
  cases isEnd : ends contentRef.contentId with
  | none => rfl
  | some finish => exact if_neg (Nat.not_lt.mpr (within finish isEnd))

theorem countRevision_longer {contentRef : ContentRef}
    (isEnd : ends contentRef.contentId = some finish) (longer : finish < contentRef.sizeBytes) :
    countRevision ends contentRef = (contentRef.sizeBytes - finish,
      Function.update ends contentRef.contentId (some contentRef.sizeBytes)) := by
  simp [countRevision, isEnd, longer]

theorem countRevision_other {contentRef : ContentRef} (other : contentRef.contentId ≠ contentId) :
    (countRevision ends contentRef).2 contentId = ends contentId := by
  rw [countRevision]
  split <;> try split
  all_goals simp [Function.update_of_ne (Ne.symm other)]

/-- A revision takes the counted end to its own size if that is more, and never back. -/
theorem countRevision_end {contentRef : ContentRef} :
    ∀ finish ∈ (countRevision ends contentRef).2 contentRef.contentId,
      contentRef.sizeBytes ≤ finish ∧ ∃ before ∈ ends contentRef.contentId, before ≤ finish := by
  cases isEnd : ends contentRef.contentId with
  | none => simp [countRevision, isEnd]
  | some before =>
    rcases Nat.lt_or_ge before contentRef.sizeBytes with longer | within
    · simp [countRevision_longer isEnd longer, longer.le]
    · simp [countRevision, isEnd, Nat.not_lt.mpr within, within]

theorem le_endsAfter (contentRefs : List ContentRef)
    (reached : (∀ finish ∈ ends contentId, size ≤ finish) ∨
      ∃ earlier ∈ contentRefs, earlier.contentId = contentId ∧ size ≤ earlier.sizeBytes) :
    ∀ finish ∈ endsAfter ends contentRefs contentId, size ≤ finish := by
  induction contentRefs generalizing ends with
  | nil => simpa [endsAfter] using reached
  | cons contentRef contentRefs induction =>
    apply induction
    by_cases same : contentRef.contentId = contentId
    · subst same
      rcases reached with atEnd | ⟨earlier, mem, isSame, below⟩
      · refine .inl fun finish isEnd => ?_
        rcases (countRevision_end finish isEnd).2 with ⟨before, wasEnd, grows⟩
        exact (atEnd before wasEnd).trans grows
      · rcases mem_cons.mp mem with rfl | mem
        · exact .inl fun finish isEnd => below.trans (countRevision_end finish isEnd).1
        · exact .inr ⟨earlier, mem, isSame, below⟩
    · rw [countRevision_other same]
      simpa [same] using reached

theorem getElem?_countedFrom (before : List ContentRef)
    (full : ∀ finish ∈ endsAfter ends before contentRef.contentId, contentRef.sizeBytes ≤ finish) :
    (countedFrom ends (before ++ contentRef :: after))[before.length]? =
      some (contentRef.contentId, contentRef.sizeBytes) := by
  induction before generalizing ends with
  | nil => simp [countedFrom, countRevision_full ends full]
  | cons first before induction => simpa [countedFrom] using induction full

/-- The counted end of a chain of size `start`, as far as the revisions still to come reach. -/
def CountedTo (ends : CountedEnds) (contentId : ContentId) (start : Nat) (sizes : List Nat) :
    Prop :=
  (∀ finish ∈ ends contentId, start ≤ finish) ∧
    ((∃ size ∈ sizes, start < size) → ends contentId = some start)

theorem countedFrom_chain (contentRefs : List ContentRef) (ends : CountedEnds)
    (revises : Revises (some start)
      ((contentRefs.filter (·.contentId = contentId)).map ContentRef.sizeBytes) finish copied)
    (countedTo : CountedTo ends contentId start
      ((contentRefs.filter (·.contentId = contentId)).map ContentRef.sizeBytes)) :
    start + (((countedFrom ends contentRefs).filter (·.1 = contentId)).map Prod.snd).sum =
      finish.getD 0 + copied := by
  induction contentRefs generalizing ends start copied with
  | nil =>
    cases revises
    rfl
  | cons contentRef contentRefs induction =>
    by_cases same : contentRef.contentId = contentId
    · subst same
      simp only [filter_cons, decide_true, if_true, map_cons] at revises countedTo
      rcases revises with _ | _ | ⟨longer, revises⟩ | ⟨within, revises⟩
      · have isEnd := countedTo.2 ⟨_, mem_cons_self, longer⟩
        have rest := induction (Function.update ends contentRef.contentId
          (some contentRef.sizeBytes)) revises (by simp [CountedTo])
        simp [countedFrom, countRevision_longer isEnd longer]
        omega
      · have counted := countRevision_full ends fun finish isEnd =>
          within.trans (countedTo.1 finish isEnd)
        have rest := induction ends revises ⟨countedTo.1, fun ⟨size, mem, longer⟩ =>
          countedTo.2 ⟨size, mem_cons_of_mem _ mem, longer⟩⟩
        simp [countedFrom, counted]
        omega
    · rw [filter_cons_of_neg (by simpa using same)] at revises countedTo
      have rest := induction (countRevision ends contentRef).2 revises
        (by rwa [CountedTo, countRevision_other same])
      simpa [countedFrom, same] using rest

/-- Seen from where its pieces begin, a commit that creates a chain is one that extends it. -/
theorem PiecesFrom.revises (from_ : PiecesFrom start sizes first)
    (revises : Revises start sizes finish copied) : ∃ finish' counted,
      Revises (some first) sizes finish' counted ∧
        start.getD 0 + finish'.getD 0 + counted = first + finish.getD 0 + copied := by
  cases from_ with
  | append => exact ⟨_, _, revises, rfl⟩
  | create =>
    rcases revises with _ | @⟨size, _, _, _, revises⟩
    · exact ⟨_, _, .done, rfl⟩
    · rcases Nat.eq_zero_or_pos size with rfl | longer
      · exact ⟨_, _, .refer le_rfl revises, by simp⟩
      · exact ⟨_, _, .append longer revises, rfl⟩
  | upload =>
    rcases revises with _ | ⟨revises⟩
    exact ⟨_, _, .refer le_rfl revises, by simp; omega⟩

theorem ExtendsChain.chainBytes_eq (extends_ : ExtendsChain contentId start finish copied record) :
    start.getD 0 + chainBytes contentId record = finish.getD 0 + copied := by
  rcases extends_.pieces with ⟨first, from_, startsFrom, startsAt⟩
  rcases from_.revises extends_.revises with ⟨_, counted, revises, shifted⟩
  have atLeast := le_foldl_noteStart record.inlineContent (fun _ => none) (by simp) startsFrom
  have isEnd : (∃ size ∈ record.chainSizes contentId, first < size) →
      countedEnds record.inlineContent contentId = some first := by
    intro grows
    rcases foldl_noteStart_le _ (fun _ => none) (.inr (startsAt grows)) with
      ⟨finish, isEnd, below⟩
    exact isEnd.trans (congrArg some (below.antisymm (atLeast finish isEnd)))
  have sums : first + chainBytes contentId record = _ :=
    countedFrom_chain _ _ revises ⟨atLeast, isEnd⟩
  omega

theorem BuildsChain.sum_chainBytes (builds : BuildsChain contentId start records finish copied) :
    start.getD 0 + (records.map (chainBytes contentId)).sum = finish.getD 0 + copied := by
  induction builds with
  | done => rfl
  | commit extends_ _ induction =>
    have first := extends_.chainBytes_eq
    rw [map_cons, sum_cons]
    omega

end

/-- However commits are batched, the counters are the sums over the commits, or the addition
is refused. The revisions that build a chain count what they add to it, and one that refers to
content without new pieces counts its size. -/
theorem activity_telescopes :
    (∀ record, committedActivity record = record.activity.checked) ∧
    (∀ activity folds, activity.Fits →
      foldedActivity activity folds =
        (activity + totalActivity folds.flatten.flatten).checked) ∧
    (∀ objects tail, ProjectedWalTail.pushObjects objects = some tail →
      tail.activity = totalActivity objects.flatten ∧
      ∀ seq, ∃ after,
        ProjectedWalTail.pushChunks (tail.chunks.filter fun chunk => chunk.firstSeq > seq) =
          some after ∧
        ((tail.chunks.filter fun chunk => chunk.firstSeq ≤ seq).map TailChunk.activity).sum +
          after.activity = tail.activity ∧
        ∀ headSeq cut, tail.afterSeq seq headSeq = some cut → cut = after) ∧
    (∀ contentId start records finish copied,
      BuildsChain contentId start records finish copied →
      start.getD 0 + (records.map (chainBytes contentId)).sum = finish.getD 0 + copied) ∧
    ∀ (record : WalRecord) before contentRef after,
      revisionRefs record.commit.deltas = before ++ contentRef :: after →
      (∀ entry ∈ record.inlineContent, entry.contentId = contentRef.contentId →
        contentRef.sizeBytes ≤ entry.offset) ∨
      (∃ earlier ∈ before, earlier.contentId = contentRef.contentId ∧
        contentRef.sizeBytes ≤ earlier.sizeBytes) →
      record.countedRevisions[before.length]? =
        some (contentRef.contentId, contentRef.sizeBytes) := by
  refine ⟨committedActivity_eq, fun _ folds fits => foldedActivity_eq fits folds, ?_,
    fun _ _ _ _ _ builds => builds.sum_chainBytes, ?_⟩
  · intro objects tail pushed
    have total := ProjectedWalTail.pushObjects_activity objects
    rw [pushed] at total
    rcases Option.ite_none_right_eq_some.mp total.symm with ⟨_, isTotal⟩
    rcases Option.bind_eq_some_iff.mp pushed with ⟨chunks, _, pushed⟩
    refine ⟨(Option.some.inj isTotal).symm, fun seq => ?_⟩
    rcases ProjectedWalTail.pushChunks_after pushed seq with ⟨after, isAfter, sums⟩
    refine ⟨after, isAfter, sums, fun headSeq cut isCut => ?_⟩
    rcases Option.bind_eq_some_iff.mp isCut with ⟨kept, isKept, ended⟩
    rcases Option.ite_none_right_eq_some.mp ended with ⟨_, ⟨⟩⟩
    exact Option.some.inj (isKept.symm.trans isAfter)
  · intro record before contentRef after isRefs noNewPieces
    rw [countedRevisions, isRefs]
    exact getElem?_countedFrom before (le_endsAfter before
      (noNewPieces.imp_left (le_foldl_noteStart _ _ (by simp))))

namespace Sample

/-- An uploaded create of three bytes and an append to it. -/
def createCommit : WalRecord :=
  ⟨{ walCommit with deltas := [3, 5].map (appendTo "con_1" · none) }, [⟨"con_1", 3, [1, 2]⟩]⟩

/-- A copy, two appends and a copy of what they made. -/
def copyCommit : WalRecord :=
  ⟨{ walCommit with deltas := [5, 6, 8, 8].map (appendTo "con_1" · none) },
    [⟨"con_1", 6, [4, 5]⟩, ⟨"con_1", 5, [3]⟩]⟩

end Sample

/-- The eight bytes of the chain count once, and the copies of five and eight in full. -/
theorem activity_telescopes_sample :
    BuildsChain "con_1" none [Sample.createCommit, Sample.copyCommit] (some 8) (0 + (13 + 0)) ∧
      ([Sample.createCommit, Sample.copyCommit].map (chainBytes "con_1")).sum = 8 + 13 ∧
      Sample.copyCommit.countedRevisions[3]? = some ("con_1", 8) := by
  have creates : ExtendsChain "con_1" none (some 5) 0 Sample.createCommit :=
    ⟨.create (.append (by decide) .done), 3, .upload, by decide, fun _ => by decide⟩
  have copies : ExtendsChain "con_1" (some 5) (some 8) 13 Sample.copyCommit :=
    ⟨.refer le_rfl
      (.append (by decide) (.append (by decide) (.refer le_rfl .done))), 5, .append,
      by decide, fun _ => by decide⟩
  have builds := BuildsChain.commit creates (.commit copies .done)
  refine ⟨builds, ?_, ?_⟩
  · simpa using activity_telescopes.2.2.2.1 _ _ _ _ _ builds
  · exact activity_telescopes.2.2.2.2 Sample.copyCommit
      (revisionRefs ([5, 6, 8].map (Sample.appendTo "con_1" · none))) _ [] rfl (.inr (by decide))

end LoonFs
