import LoonFs.Foundation.Paths
import LoonFs.Types.EffectiveLimit
import Mathlib.Algebra.Group.Nat.Defs
import Mathlib.Data.List.Flatten

/-! # Pagers over a listing that is served in pages -/

namespace LoonFs.Types

open List Foundation

structure PageRequest (Cursor : Type) where
  limit : EffectiveLimit
  cursor : Option Cursor

structure Page (Item Cursor : Type) where
  items : List Item
  nextCursor : Option Cursor

inductive PagerState (Cursor : Type)
  | notStarted
  | more (cursor : Cursor)
  | done

/-- A pager; the state of its loader travels with it. -/
structure Pager (Loader Item Cursor : Type) where
  loader : Loader
  state : PagerState Cursor
  pending : Option (Page Item Cursor)
  pageLimit : EffectiveLimit
  unloadedItems : Nat

/-- What a call gave its caller; a failed one may have dropped items. -/
inductive PagerCall (Item : Type)
  | returned (items : List Item)
  | failed (dropped : List Item)
  | ended

def PagerCall.returnedItems : PagerCall Item → List Item
  | .returned items => items
  | _ => []

/-- The items that the call took from the listing. -/
def PagerCall.takenItems : PagerCall Item → List Item
  | .returned items | .failed items => items
  | .ended => []

namespace Pager

variable {Loader Item Cursor Error : Type}

/-- A pager as `new`, `cursor`, `page_limit` and `max_items` build it. -/
def new (loader : Loader) (cursor : Option Cursor) (pageLimit : EffectiveLimit) (maxItems : Nat) :
    Pager Loader Item Cursor where
  loader
  state := match cursor with
    | some cursor => .more cursor
    | none => .notStarted
  pending := none
  pageLimit
  unloadedItems := maxItems

section

variable (load : Loader → PageRequest Cursor → Except Error (Page Item Cursor) × Loader)
  (pager : Pager Loader Item Cursor)

/-- The load of one page, which moves the pager only when it succeeds. -/
def loadPage (cursor : Option Cursor) :
    Option (Except Error (Page Item Cursor)) × Pager Loader Item Cursor :=
  let limit := min (min pager.unloadedItems (2 ^ 32 - 1)) pager.pageLimit.value
  if positive : 0 < limit then
    match load pager.loader ⟨⟨limit, positive⟩, cursor⟩ with
    | (.ok page, loader) =>
      (some (.ok page), { pager with
        loader
        unloadedItems := pager.unloadedItems - page.items.length
        state := match page.nextCursor with
          | some cursor => .more cursor
          | none => .done })
    | (.error error, loader) => (some (.error error), { pager with loader })
  else (none, pager)

def next : Option (Except Error (Page Item Cursor)) × Pager Loader Item Cursor :=
  match pager.pending with
  | some page => (some (.ok page), { pager with pending := none })
  | none =>
    match pager.state with
    | .notStarted => pager.loadPage load none
    | .more cursor => pager.loadPage load (some cursor)
    | .done => (none, pager)

/-- The loop of `collect_up_to`, with the failure that ended it and the items it had then. -/
def collectLoop (maxItems : Nat) : Nat → List Item → Pager Loader Item Cursor →
    Option ((Option Error × List Item) × Pager Loader Item Cursor)
  | 0, _, _ => none
  | fuel + 1, items, pager =>
    if items.length < maxItems then
      match pager.next load with
      | (none, pager) => some ((none, items), pager)
      | (some (.error error), pager) => some ((some error, items), pager)
      | (some (.ok page), pager) =>
        let take := min (maxItems - items.length) page.items.length
        if take < page.items.length then
          some ((none, items ++ page.items.take take),
            { pager with pending := some { page with items := page.items.drop take } })
        else collectLoop maxItems fuel (items ++ page.items) pager
    else some ((none, items), pager)

/-- A failed load returns the error, and the items taken before it are dropped. -/
def collectUpTo (fuel maxItems : Nat) :
    Option (Except Error (List Item) × Pager Loader Item Cursor) :=
  (collectLoop load maxItems fuel [] pager).map fun
    | ((some error, _), pager) => (.error error, pager)
    | ((none, items), pager) => (.ok items, pager)

inductive Step : Pager Loader Item Cursor → PagerCall Item → Pager Loader Item Cursor → Prop
  | page (page : Page Item Cursor) : current.next load = (some (.ok page), moved) →
      Step current (.returned page.items) moved
  | pageFailed : current.next load = (some (.error error), moved) → Step current (.failed []) moved
  | ended : current.next load = (none, moved) → Step current .ended moved
  | collected (fuel maxItems : Nat) : current.collectUpTo load fuel maxItems =
      some (.ok items, moved) → Step current (.returned items) moved
  | collectFailed (fuel maxItems : Nat) : current.collectUpTo load fuel maxItems =
      some (.error error, moved) → collectLoop load maxItems fuel [] current =
      some ((some error, dropped), moved) → Step current (.failed dropped) moved

/-- With no page pending, the next load fails, or it returns no items and the loads after it
fail first. -/
inductive FailsFirst : Pager Loader Item Cursor → Prop
  | fails : current.pending = none → current.next load = (some (.error error), moved) →
      FailsFirst current
  | empty : current.pending = none → current.next load = (some (.ok page), moved) →
      page.items = [] → FailsFirst moved → FailsFirst current

/-- A call whose failure, if it fails, is met before any item. -/
def CleanStep (current : Pager Loader Item Cursor) (call : PagerCall Item)
    (moved : Pager Loader Item Cursor) : Prop :=
  Step load current call moved ∧ ∀ dropped, call = .failed dropped → FailsFirst load current

variable (after : Option Cursor → List Item)

/-- A page of the items after the request's cursor, with a cursor while items remain. -/
structure Served (request : PageRequest Cursor) (page : Page Item Cursor) : Prop where
  atMost : page.items.length ≤ request.limit.value
  last : page.nextCursor = none → after request.cursor = page.items
  more : page.nextCursor = some cursor →
    after request.cursor = page.items ++ after (some cursor) ∧ after (some cursor) ≠ []

def ServesPages : Prop :=
  ∀ loader request page moved, load loader request = (.ok page, moved) → Served after request page

def unloaded : List Item :=
  match pager.state with
  | .notStarted => (after none).take pager.unloadedItems
  | .more cursor => (after (some cursor)).take pager.unloadedItems
  | .done => []

/-- What the pager has still to give: the rest of a page, then what is not loaded. -/
def undelivered : List Item := pager.pending.elim [] Page.items ++ pager.unloaded after

end

def pageItems : Option (Except Error (Page Item Cursor)) → List Item
  | some (.ok page) => page.items
  | _ => []

variable {load : Loader → PageRequest Cursor → Except Error (Page Item Cursor) × Loader}
  {after : Option Cursor → List Item} {pager moved : Pager Loader Item Cursor}
  (serves : ServesPages load after)

include serves

theorem loadPage_spec (isAt : pager.unloaded after = (after cursor).take pager.unloadedItems)
    (loaded : pager.loadPage load cursor = (answer, moved)) : moved.pending = pager.pending ∧
      pager.unloaded after = pageItems answer ++ moved.unloaded after ∧
      (answer = none → moved.unloaded after = []) := by
  rw [loadPage] at loaded
  split at loaded
  next positive =>
    split at loaded
    next page loader answered =>
      rcases serves _ _ _ _ answered with ⟨atMost, last, more⟩
      dsimp only at atMost last more
      have fits : page.items.length ≤ pager.unloadedItems := by omega
      cases loaded
      refine ⟨rfl, isAt.trans ?_, nofun⟩
      cases isNext : page.nextCursor with
      | none => simp only [pageItems, unloaded, last isNext, append_nil, take_of_length_le fits]
      | some cursor =>
        simp only [pageItems, unloaded, (more isNext).1, take_append, take_of_length_le fits]
    next error loader answered =>
      cases loaded
      exact ⟨rfl, rfl, nofun⟩
  next zero =>
    have isZero : pager.unloadedItems = 0 := by have := pager.pageLimit.positive; omega
    cases loaded
    exact ⟨rfl, rfl, fun _ => by rw [isAt, isZero, take_zero]⟩

/-- An answer takes its items off the front of what the pager has still to give. -/
theorem next_spec (answered : pager.next load = (answer, moved)) : moved.pending = none ∧
      pager.undelivered after = pageItems answer ++ moved.undelivered after ∧
      (answer = none → moved.undelivered after = []) := by
  rw [next] at answered
  cases isPending : pager.pending with
  | some page =>
    rw [isPending] at answered
    cases answered
    exact ⟨rfl, by rw [undelivered, isPending]; rfl, nofun⟩
  | none =>
    have loads {cursor} (isAt : pager.unloaded after = (after cursor).take pager.unloadedItems)
        (loaded : pager.loadPage load cursor = (answer, moved)) := loadPage_spec serves isAt loaded
    simp only [isPending] at answered loads
    simp only [undelivered, isPending, Option.elim_none, nil_append]
    cases isState : pager.state with
    | notStarted =>
      rw [isState] at answered
      have spec := loads (by rw [unloaded, isState]) answered
      simpa only [spec.1, Option.elim_none, nil_append, true_and] using spec.2
    | more cursor =>
      rw [isState] at answered
      have spec := loads (by rw [unloaded, isState]) answered
      simpa only [spec.1, Option.elim_none, nil_append, true_and] using spec.2
    | done =>
      rw [isState] at answered
      cases answered
      simp [isPending, unloaded, isState, pageItems]

theorem collectLoop_spec
    (collected : collectLoop load maxItems fuel items pager = some ((stopped, result), moved)) :
    ∃ taken, result = items ++ taken ∧
      pager.undelivered after = taken ++ moved.undelivered after := by
  induction fuel generalizing items pager with
  | zero => cases collected
  | succ fuel induction =>
    rw [collectLoop] at collected
    split at collected
    next short =>
      split at collected
      next answered =>
        cases collected
        exact ⟨[], (append_nil _).symm, (next_spec serves answered).2.1⟩
      next answered =>
        cases collected
        exact ⟨[], (append_nil _).symm, (next_spec serves answered).2.1⟩
      next page _ answered =>
        have spec := next_spec serves answered
        dsimp only at collected
        split at collected
        next less =>
          cases collected
          refine ⟨_, rfl, spec.2.1.trans ?_⟩
          simp only [pageItems, undelivered, spec.1, Option.elim_none, nil_append, Option.elim_some]
          rw [← append_assoc, take_append_drop]
          rfl
        next whole =>
          rcases induction collected with ⟨taken, rfl, split⟩
          exact ⟨page.items ++ taken, append_assoc .., by
            rw [spec.2.1, split, append_assoc]; rfl⟩
    next full =>
      cases collected
      exact ⟨[], (append_nil _).symm, rfl⟩

theorem Step.undelivered (step : Step load pager call moved) :
    pager.undelivered after = call.takenItems ++ moved.undelivered after ∧
      (call = .ended → moved.undelivered after = []) := by
  cases step with
  | page _ answered => exact ⟨(next_spec serves answered).2.1, nofun⟩
  | pageFailed answered => exact ⟨(next_spec serves answered).2.1, nofun⟩
  | ended answered => exact (next_spec serves answered).2.imp_right fun ends _ => ends rfl
  | collected _ _ collected =>
    rw [collectUpTo, Option.map_eq_some_iff] at collected
    rcases collected with ⟨⟨⟨_ | _, result⟩, last⟩, collected, same⟩
    · cases same
      rcases collectLoop_spec serves collected with ⟨taken, rfl, split⟩
      exact ⟨split, nofun⟩
    · cases same
  | collectFailed _ _ _ collected =>
    rcases collectLoop_spec serves collected with ⟨taken, rfl, split⟩
    exact ⟨split, nofun⟩

/-- The items that a run took, returned or dropped, leave the rest of the listing. -/
theorem undelivered_run (run : Path (Step load) pager calls moved) :
    pager.undelivered after = calls.flatMap PagerCall.takenItems ++ moved.undelivered after := by
  induction run with
  | nil => rfl
  | cons step _ induction =>
    rw [(step.undelivered serves).1, induction, flatMap_cons, append_assoc]

theorem undelivered_of_ended (run : Path (Step load) pager calls moved) (ended : .ended ∈ calls) :
    moved.undelivered after = [] := by
  induction run with
  | nil => cases ended
  | cons step run induction =>
    rcases mem_cons.mp ended with rfl | later
    · have rest := (step.undelivered serves).2 rfl
      rw [undelivered_run serves run, append_eq_nil_iff] at rest
      exact rest.2
    · exact induction later

omit serves in
theorem FailsFirst.dropped_eq_nil (fails : FailsFirst load pager)
    (collected : collectLoop load maxItems fuel [] pager = some ((some error, dropped), moved)) :
    dropped = [] := by
  induction fails generalizing fuel with
  | fails _ answered =>
    cases fuel with
    | zero => cases collected
    | succ fuel =>
      rw [collectLoop, answered] at collected
      split at collected <;> cases collected
      rfl
  | empty _ answered isEmpty _ induction =>
    cases fuel with
    | zero => cases collected
    | succ fuel =>
      rw [collectLoop, answered] at collected
      split at collected
      · simp only [isEmpty, length_nil, Nat.min_zero, Nat.lt_irrefl, if_false,
          append_nil] at collected
        exact induction collected
      · cases collected

omit serves in
theorem CleanStep.returnedItems_eq (step : CleanStep load pager call moved) :
    call.returnedItems = call.takenItems := by
  rcases step with ⟨step, clean⟩
  cases step with
  | collectFailed _ _ _ collected => exact ((clean _ rfl).dropped_eq_nil collected).symm
  | _ => rfl

omit serves in
theorem steps_of_clean (run : Path (CleanStep load) pager calls moved) :
    Path (Step load) pager calls moved ∧
      calls.flatMap PagerCall.returnedItems = calls.flatMap PagerCall.takenItems := by
  induction run with
  | nil => exact ⟨.nil, rfl⟩
  | cons step _ induction =>
    refine ⟨.cons step.1 induction.1, ?_⟩
    rw [flatMap_cons, flatMap_cons, induction.2, step.returnedItems_eq]

/-- A pager whose failing collections load no item before the failure returns the listing in
order, and all of it once it ends. -/
theorem returns_listing {start : Loader}
    (run : Path (CleanStep load) (.new start cursor limit maxItems) calls moved) :
    calls.flatMap PagerCall.returnedItems <+: (after cursor).take maxItems ∧
      (.ended ∈ calls → calls.flatMap PagerCall.returnedItems = (after cursor).take maxItems) := by
  have whole : (new start cursor limit maxItems).undelivered after =
      (after cursor).take maxItems := by cases cursor <;> rfl
  rcases steps_of_clean run with ⟨run, same⟩
  have split := undelivered_run serves run
  rw [whole, ← same] at split
  exact ⟨⟨_, split.symm⟩, fun ended => by
    rw [split, undelivered_of_ended serves run ended, append_nil]⟩

/-- Also with failures, what a pager returns is in the listing's order and comes once: the calls
take the listing apart, and a caller misses only what a failed collection had in hand. -/
theorem takes_listing_apart {start : Loader}
    (run : Path (Step load) (.new start cursor limit maxItems) calls moved) :
    calls.flatMap PagerCall.takenItems ++ moved.undelivered after = (after cursor).take maxItems ∧
      calls.flatMap PagerCall.returnedItems <+ (after cursor).take maxItems ∧
      (.ended ∈ calls → calls.flatMap PagerCall.takenItems = (after cursor).take maxItems) := by
  have whole : (new start cursor limit maxItems).undelivered after =
      (after cursor).take maxItems := by cases cursor <;> rfl
  have split := undelivered_run serves run
  rw [whole] at split
  refine ⟨split.symm, ?_, fun ended => ?_⟩
  · rw [split]
    refine (Sublist.flatMap_right calls fun call _ => ?_).trans (sublist_append_left _ _)
    cases call with
    | failed dropped => exact nil_sublist dropped
    | _ => exact .refl _
  · rw [split, undelivered_of_ended serves run ended, append_nil]

omit serves

/-- A listing of two pages, the second of which fails to load at first. -/
def flakyLoad (loads : Nat) (request : PageRequest Unit) : Except Unit (Page Nat Unit) × Nat :=
  match request.cursor with
  | none => (.ok ⟨[1], some ()⟩, loads + 1)
  | some () => if loads = 1 then (.error (), 2) else (.ok ⟨[2], none⟩, loads + 1)

def flakyListing : Option Unit → List Nat
  | none => [1, 2]
  | some () => [2]

theorem flakyLoad_serves : ServesPages flakyLoad flakyListing := by
  rintro loads ⟨limit, _ | _⟩ page moved loaded
  · cases loaded
    exact ⟨limit.positive, nofun, fun _ => ⟨rfl, cons_ne_nil _ _⟩⟩
  · simp only [flakyLoad] at loaded
    split at loaded
    · cases loaded
    · cases loaded
      exact ⟨limit.positive, fun _ => rfl, nofun⟩

/-- The collection fails at its first load, and the next one goes on from there. -/
theorem returns_listing_after_failure :
    (∃ moved, Path (CleanStep flakyLoad) (.new 0 none ⟨1, by decide⟩ 5)
      [.returned [1], .failed [], .returned [2], .ended] moved) ∧
    [1, 2] = (flakyListing none).take 5 := by
  have run : ∃ moved, Path (CleanStep flakyLoad) (.new 0 none ⟨1, by decide⟩ 5)
      [.returned [1], .failed [], .returned [2], .ended] moved := by
    refine ⟨⟨3, .done, none, ⟨1, by decide⟩, 3⟩, .cons ⟨.page ⟨[1], some ()⟩ rfl, nofun⟩
      (.cons ⟨.collectFailed 3 2 rfl rfl, fun _ _ => .fails rfl rfl⟩
        (.cons ⟨.collected 3 2 rfl, nofun⟩ (.cons ⟨.ended rfl, nofun⟩ .nil)))⟩
  exact ⟨run, (returns_listing flakyLoad_serves run.choose_spec).2 (by simp)⟩

/-- A collection that fails at its second page drops the first one, and the next call skips it. -/
theorem collectUpTo_drops_page : ∃ calls moved, ServesPages flakyLoad flakyListing ∧
    Path (Step flakyLoad) (.new 0 none ⟨1, by decide⟩ 2) calls moved ∧
      calls.flatMap PagerCall.returnedItems = [2] ∧
      ¬calls.flatMap PagerCall.returnedItems <+: (flakyListing none).take 2 := by
  refine ⟨[.failed [1], .returned [2]], _, flakyLoad_serves,
    .cons (.collectFailed 3 2 rfl rfl) (.cons (.page ⟨[2], none⟩ rfl) .nil), rfl, ?_⟩
  decide

theorem takes_listing_apart_after_drop : ∃ moved,
    Path (Step flakyLoad) (.new 0 none ⟨1, by decide⟩ 2) [.failed [1], .returned [2]] moved ∧
      [1] ++ [2] ++ moved.undelivered flakyListing = (flakyListing none).take 2 := by
  have run : ∃ moved, Path (Step flakyLoad) (.new 0 none ⟨1, by decide⟩ 2)
      [.failed [1], .returned [2]] moved :=
    ⟨_, .cons (.collectFailed 3 2 rfl rfl) (.cons (.page ⟨[2], none⟩ rfl) .nil)⟩
  exact run.imp fun moved run => ⟨run, (takes_listing_apart flakyLoad_serves run).1⟩

end LoonFs.Types.Pager
