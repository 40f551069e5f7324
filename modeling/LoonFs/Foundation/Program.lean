import Mathlib.Logic.Function.Basic
import Mathlib.Logic.Relation

/-! # Programs that share a world

A program asks a world that it shares with others, one request after another.
-/

namespace LoonFs.Foundation

inductive Program (Error Request : Type) (Answer : Request → Type) (Result : Type)
  | done (result : Result)
  | fail (error : Error)
  | ask (request : Request) (next : Answer request → Program Error Request Answer Result)

variable {Error Request : Type} {Answer : Request → Type} {Result Other : Type}

namespace Program

def bind (program : Program Error Request Answer Result)
    (next : Result → Program Error Request Answer Other) :
    Program Error Request Answer Other :=
  match program with
  | .done result => next result
  | .fail error => .fail error
  | .ask request rest => .ask request fun answer => (rest answer).bind next

instance : Monad (Program Error Request Answer) where
  pure := .done
  bind := bind

def attempt (program : Program Error Request Answer Result) :
    Program Error Request Answer (Except Error Result) :=
  match program with
  | .done result => .done (.ok result)
  | .fail error => .done (.error error)
  | .ask request rest => .ask request fun answer => (rest answer).attempt

end Program

/-! ## Contracts -/

structure Machine (Process World Request : Type) (Answer : Request → Type) where
  serves : Process → World → (request : Request) → Answer request → World → Prop

variable {Process World : Type}

structure Contract (Process World : Type) where
  valid : World → Prop
  /-- What a process relies on the others to do between two of its requests. -/
  rely : Process → World → World → Prop
  refl : ∀ process world, rely process world world
  trans : ∀ {process first second third}, rely process first second →
    rely process second third → rely process first third

/-- The program keeps the contract whatever the others do, and ends as `post` says. -/
def Meets (machine : Machine Process World Request Answer) (contract : Contract Process World)
    (process : Process) (post : World → Except Error Result → Prop) :
    World → Program Error Request Answer Result → Prop
  | world, .done result => post world (.ok result)
  | world, .fail error => post world (.error error)
  | world, .ask request next =>
    ∀ before answer after, contract.rely process world before → contract.valid before →
      machine.serves process before request answer after →
      contract.valid after ∧ (∀ other, other ≠ process → contract.rely other before after) ∧
        Meets machine contract process post after (next answer)

namespace Meets

variable {machine : Machine Process World Request Answer} {contract : Contract Process World}
  {post : World → Except Error Result → Prop}

theorem conseq {weaker : World → Except Error Result → Prop}
    (meets : Meets machine contract process post world program)
    (implies : ∀ world outcome, post world outcome → weaker world outcome) :
    Meets machine contract process weaker world program := by
  induction program generalizing world with
  | done result => exact implies _ _ meets
  | fail error => exact implies _ _ meets
  | ask request next induction =>
    intro before answer after relied valid served
    rcases meets before answer after relied valid served with ⟨kept, guaranteed, rest⟩
    exact ⟨kept, guaranteed, induction answer rest⟩

variable {next : Result → Program Error Request Answer Other}

theorem bind {post : World → Except Error Other → Prop}
    (meets : Meets machine contract process (fun world outcome =>
      match outcome with
      | .ok result => Meets machine contract process post world (next result)
      | .error error => post world (.error error)) world program) :
    Meets machine contract process post world (program >>= next) := by
  change Meets machine contract process post world (program.bind next)
  induction program generalizing world with
  | done result => exact meets
  | fail error => exact meets
  | ask request rest induction =>
    intro before answer after relied valid served
    rcases meets before answer after relied valid served with ⟨kept, guaranteed, further⟩
    exact ⟨kept, guaranteed, induction answer further⟩

theorem andThen {middle : World → Except Error Result → Prop}
    {post : World → Except Error Other → Prop}
    (meets : Meets machine contract process middle world program)
    (goesOn : ∀ world result, middle world (.ok result) →
      Meets machine contract process post world (next result))
    (fails : ∀ world error, middle world (.error error) → post world (.error error)) :
    Meets machine contract process post world (program >>= next) := by
  apply bind
  apply meets.conseq
  intro world outcome holds
  cases outcome with
  | ok result => exact goesOn world result holds
  | error error => exact fails world error holds

theorem attempt (meets : Meets machine contract process post world program) :
    Meets machine contract process
      (fun world outcome => ∃ result, outcome = .ok result ∧ post world result) world
      program.attempt := by
  induction program generalizing world with
  | done result => exact ⟨_, rfl, meets⟩
  | fail error => exact ⟨_, rfl, meets⟩
  | ask request next induction =>
    intro before answer after relied valid served
    rcases meets before answer after relied valid served with ⟨kept, guaranteed, rest⟩
    exact ⟨kept, guaranteed, induction answer rest⟩

theorem later (meets : Meets machine contract process post world program)
    (stable : ∀ before after outcome, post before outcome → contract.rely process before after →
      post after outcome) (relied : contract.rely process world after) :
    Meets machine contract process post after program := by
  cases program with
  | done result => exact stable _ _ _ meets relied
  | fail error => exact stable _ _ _ meets relied
  | ask request next =>
    intro before answer final further valid served
    exact meets before answer final (contract.trans relied further) valid served

end Meets

/-! ## Running together -/

structure Config (Process World Error Request : Type) (Answer : Request → Type)
    (Result : Type) where
  world : World
  programs : Process → Program Error Request Answer Result

variable [DecidableEq Process]

inductive Machine.Step (machine : Machine Process World Request Answer) :
    Config Process World Error Request Answer Result →
    Config Process World Error Request Answer Result → Prop
  | serve {config process request next answer after} :
      config.programs process = .ask request next →
      machine.serves process config.world request answer after →
      machine.Step config ⟨after, Function.update config.programs process (next answer)⟩

def Machine.Runs (machine : Machine Process World Request Answer)
    (start config : Config Process World Error Request Answer Result) : Prop :=
  Relation.ReflTransGen machine.Step start config

theorem Machine.Runs.serve {machine : Machine Process World Request Answer}
    (runs : machine.Runs start config) (process : Process)
    {next : Answer request → Program Error Request Answer Result}
    (asked : config.programs process = .ask request next)
    (served : machine.serves process config.world request answer after) :
    machine.Runs start ⟨after, Function.update config.programs process (next answer)⟩ :=
  Relation.ReflTransGen.tail runs (.serve asked served)

namespace Meets

variable {machine : Machine Process World Request Answer} {contract : Contract Process World}
  {post : Process → World → Except Error Result → Prop}

theorem step (step : machine.Step config after) (valid : contract.valid config.world)
    (meets : ∀ process, Meets machine contract process (post process) config.world
      (config.programs process))
    (stable : ∀ process before after outcome, post process before outcome →
      contract.rely process before after → post process after outcome) :
    contract.valid after.world ∧ ∀ process,
      Meets machine contract process (post process) after.world (after.programs process) := by
  cases step with
  | @serve active request next answer final asked served =>
    have active_meets := meets active
    rw [asked] at active_meets
    rcases active_meets config.world answer final (contract.refl _ _) valid served with
      ⟨kept, guaranteed, rest⟩
    refine ⟨kept, fun process => ?_⟩
    by_cases same : process = active
    · subst same
      simpa using rest
    · simpa [Function.update_of_ne same] using
        (meets process).later (stable process) (guaranteed process same)

theorem runs (runs : machine.Runs start config) (valid : contract.valid start.world)
    (meets : ∀ process, Meets machine contract process (post process) start.world (start.programs
      process)) (stable : ∀ process before after outcome, post process before outcome →
      contract.rely process before after → post process after outcome) :
    contract.valid config.world ∧ ∀ process,
      Meets machine contract process (post process) config.world (config.programs process) := by
  induction runs with
  | refl => exact ⟨valid, meets⟩
  | tail _ last induction => exact step last induction.1 induction.2 stable

end Meets

end LoonFs.Foundation
