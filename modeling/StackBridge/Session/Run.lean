import StackBridge.Session.Snapshot
import StackBridge.Session.Step

/-!
Running programs. Each operation is reported when it has completed, the ones
inside it before it. A failure is reported by every operation that it leaves;
a block ends there, and only the program's own list goes on.

Blocks run blocks, so running takes fuel: a unit for each level. `Program.run`
says so when it was too little, and never answers anything else instead.
-/

namespace StackBridge

-- =============================================================== reports

/-- A failure in a report. -/
def Outcome.ofFailure (h : Heap) (f : Failure) : Outcome :=
  let value :=
    match f with
    | .machine v _ => some (v.word h)
    | _ => none
  .failure f.kind (if f.isWorded then some (f.message (Value.shown h)) else none) value f.cause

/-- How many slots a report shows. -/
def shownSlots : Nat := 6

/-- The topmost slots of the running frame in words. -/
def Machine.slotWords (m : Machine) (h : Heap) : List String :=
  let slots := m.frameSlots
  (slots.drop (slots.length - shownSlots)).map (Value.word h)

namespace Session

/-- Reports an operation on the machine that is current now. -/
def reportOperation (name : String) (outcome : Outcome) : Action Unit := do
  let s ← get
  let m := s.machine s.current
  report (.operation name outcome m.depth? (m.slotWords s.heap))

-- =============================================================== running

/-- Performs an operation on the current machine and reports it. -/
def step (ctx : Context) (run : BlockId → Action Unit) (fuel : Nat) (op : Op) : Action Unit := do
  let k := (← get).current
  let attempt : Action View := do view (← perform ctx run fuel k op)
  let answer ← handling attempt fun f => do
    reportOperation op.name (.ofFailure (← get).heap f)
    fail f
  reportOperation op.name (.answer answer)

/-- Performs operations one after the other. -/
def steps (ctx : Context) (run : BlockId → Action Unit) (fuel : Nat) : List Op → Action Unit
  | [] => return
  | op :: ops => do
    step ctx run fuel op
    steps ctx run fuel ops

/-- Runs a block. -/
def runBlock (ctx : Context) : Nat → BlockId → Action Unit
  | 0, _ => throw .exhausted
  | fuel + 1, b => steps ctx (runBlock ctx fuel) fuel (ctx.program.block b)

/-- Performs operations one after the other, whether or not they fail. -/
def stepsRegardless (ctx : Context) (fuel : Nat) : List Op → Action Unit
  | [] => return
  | op :: ops => do
    handling (step ctx (runBlock ctx fuel) fuel op) fun _ => return
    stepsRegardless ctx fuel ops

/-- Makes a machine on a registry of its own. -/
def addMachine (s : Session) : Session :=
  let (registry, heap) := s.heap.newTable .empty
  { s with heap, machines := s.machines.push (.fresh registry) }

/-- A session before its first operation. -/
def start (machines : Nat) (checks : Bool) : Session :=
  let empty : Session := ⟨.empty, #[], 0, #[], 0, [], checks, .utf8, [], []⟩
  (List.range machines).foldl (fun s _ => s.addMachine) empty

/-- The last machine comes on top of the ones before it. -/
theorem start_succ (n : Nat) (checks : Bool) : start (n + 1) checks = (start n checks).addMachine := by
  unfold start
  rw [List.range_succ, List.foldl_append]
  rfl

end Session

-- ============================================================ transcripts

/-- What is to be seen of a session: its report from the first entry on, and
its machines as they are at the end. -/
structure Transcript where
  reports : List Report
  machines : List Snapshot

def Session.transcript (s : Session) : Transcript :=
  ⟨s.reports.reverse, s.machines.toList.map (Snapshot.ofMachine s.heap)⟩

namespace Program

/-- Defines a program's classes and performs its operations. -/
def execute (p : Program) (fuel : Nat) : Session.Action Unit := do
  let classes ← Session.evalClasses p p.classes []
  Session.stepsRegardless ⟨classes, p⟩ fuel (p.block p.main)

/-- The transcript of a program within some fuel. -/
def runWithin (p : Program) (fuel : Nat) : Except Stop Transcript :=
  match p.execute fuel (Session.start p.machines p.checks) with
  | .ok _ s => .ok s.transcript
  | .error e _ => .error e

/-- More levels than any program of practical size runs through. -/
def standardFuel : Nat := 100000

/-- The transcript of a program. -/
def run (p : Program) : Except Stop Transcript := p.runWithin standardFuel

end Program

end StackBridge
