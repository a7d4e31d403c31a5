import StackBridge.Machine.Rendering
import StackBridge.Machine.Fields
import StackBridge.Host.Display
import StackBridge.Session.Notation
import StackBridge.Session.Program

/-!
The state of a session: the machines and their heap, the wrappers that host
values refer to, the types described so far, the configuration, the stored
host values and the report.

A `Session.Action` answers or stops. It stops with a failure, which the
program can meet, or because the fuel of the evaluation is used up, which it
cannot; either way the state is what it was at that moment.
-/

namespace StackBridge

-- =============================================================== wrappers

/-- What a wrapper holds on to: a registry entry, nil, or nothing any more. -/
inductive Anchor where
  | released
  | nil
  | entry (r : Int)
deriving DecidableEq, Repr, Inhabited

/-- The reference number of an anchor. -/
def Anchor.number : Anchor → Int
  | .released => -2
  | .nil => Vm.nilRef
  | .entry r => r

/-- The anchor of a reference that a machine has handed out. -/
def Anchor.ofRef (r : Int) : Anchor := if r = Vm.nilRef then .nil else .entry r

/-- A host value's hold on a machine value. -/
structure Wrapper where
  machine : MachineId
  anchor : Anchor
deriving Repr, Inhabited

-- ================================================================ session

structure Session where
  heap : Heap
  machines : Array Machine
  current : MachineId
  wrappers : Array Wrapper
  /-- How many host values have been told apart by number. -/
  individuals : Nat
  /-- The types that have been described, or are being described. -/
  described : List TypeExpr
  /-- Whether pushes and reads check the depth of the stack. -/
  checks : Bool
  /-- The encoding of texts in strings. -/
  encoding : Encoding
  /-- Stored host values, the latest first. -/
  bindings : List (String × HostValue)
  /-- The report, the latest entry first. -/
  reports : List Report
deriving Inhabited

/-- What does not change while a session runs. -/
structure Context where
  classes : Classes
  program : Program

/-- Why an action stops short. -/
inductive Stop where
  | failed (f : Failure)
  | exhausted
deriving Inhabited

namespace Session

/-- A step of a session. -/
abbrev Action := EStateM Stop Session

def machine (s : Session) (k : MachineId) : Machine := s.machines.getD k (.fresh 0)

/-- A machine with the heap. -/
def vm (s : Session) (k : MachineId) : Vm := ⟨s.heap, s.machine k⟩

/-- Puts a machine and the heap back. -/
def withVm (s : Session) (k : MachineId) (vm : Vm) : Session :=
  { s with heap := vm.heap, machines := s.machines.setIfInBounds k vm.machine }

def wrapper (s : Session) (id : Nat) : Wrapper := s.wrappers.getD id ⟨0, .released⟩

/-- The value that a wrapper holds on to. -/
def wrapped? (s : Session) (id : Nat) : Option Value :=
  let w := s.wrapper id
  match w.anchor with
  | .released => none
  | .nil => some .nil
  | .entry r => some ((s.heap.table (s.machine w.machine).registry).get (.int r))

/-- A wrapper on display: the category of its value, which must have one. -/
def wrapperText (s : Session) (id : Nat) : Except HostFault String :=
  match s.wrapped? id with
  | none => .ok "LuaObject(<released>)"
  | some v =>
    match v.category? with
    | some c => .ok ("LuaObject(" ++ c.label ++ ")")
    | none => .error (.cannotLive v.strayName)

/-- What displaying host values needs to know. -/
def legend (s : Session) (cs : Classes) : Legend := cs.legend s.wrapperText

-- ================================================================ actions

def fail {α : Type} (f : Failure) : Action α := throw (.failed f)

/-- The answer of a host conversion, or its fault as a failure. -/
def ofHost {α : Type} (r : Except HostFault α) : Action α :=
  match r with
  | .ok a => return a
  | .error f => fail (.ofHost f)

/-- Runs an action on a machine. -/
def onMachine {α : Type} (k : MachineId) (action : Vm.Action α) : Action α := fun s =>
  match action (s.vm k) with
  | .ok a vm => .ok a (s.withVm k vm)
  | .error f vm => .error (.failed f) (s.withVm k vm)

/-- Runs an action and then another one, which runs whether or not the first
one stops. If both stop the second one's failure stands, except that nothing
hides that the fuel is used up. -/
def ensuring {α : Type} (action : Action α) (cleanup : Action Unit) : Action α := fun s =>
  match action s with
  | .ok a s' =>
    match cleanup s' with
    | .ok _ s'' => .ok a s''
    | .error e s'' => .error e s''
  | .error e s' =>
    match cleanup s' with
    | .ok _ s'' => .error e s''
    | .error e' s'' => .error (match e with | .exhausted => .exhausted | .failed _ => e') s''

/-- Runs an action, and another one only when the first one stops. -/
def onStop {α : Type} (action : Action α) (cleanup : Action Unit) : Action α := fun s =>
  match action s with
  | .ok a s' => .ok a s'
  | .error e s' =>
    match cleanup s' with
    | .ok _ s'' => .error e s''
    | .error e' s'' => .error (match e with | .exhausted => .exhausted | .failed _ => e') s''

/-- Runs an action and hands its failure, if any, to a handler. -/
def handling {α : Type} (action : Action α) (handler : Failure → Action α) : Action α := fun s =>
  match action s with
  | .ok a s' => .ok a s'
  | .error (.failed f) s' => handler f s'
  | .error .exhausted s' => .error .exhausted s'

def report (r : Report) : Action Unit := modify fun s => { s with reports := r :: s.reports }

-- ============================================================ environment

def isClosed (k : MachineId) : Action Bool := do return ((← get).machine k).closed

def getTop (k : MachineId) : Action Int := onMachine k Vm.getTop

def push (k : MachineId) (v : Value) : Action Unit := onMachine k (Vm.push v)

/-- The stored value of a name. -/
def stored? (s : Session) (name : String) : Option HostValue :=
  (s.bindings.find? (·.1 == name)).map (·.2)

def setVariable (name : String) (v : HostValue) : Action Unit :=
  modify fun s => { s with bindings := (name, v) :: s.bindings }

/-- Stores a value under a name if there is one. -/
def storeAs (name : Option String) (v : HostValue) : Action Unit :=
  match name with
  | some n => setVariable n v
  | none => return

/-- A host value as it is now. -/
def view (v : HostValue) : Action View := do ofHost (View.ofValue (← get).wrapperText v)

-- ============================================================ individuals

/-- A number that no host value has yet. -/
def nextIndividual : Action Nat := do
  let s ← get
  set { s with individuals := s.individuals + 1 }
  return s.individuals + 1

/-- A float that has just come up; a NaN is told apart from all others. -/
def individualFloat (x : Double) : Action Double := do
  if x.isNaN && x.tag == 0 then return { x with tag := ← nextIndividual } else return x

/-- A host value that has just come up. -/
def individual (v : HostValue) : Action HostValue := do
  match v with
  | .float k x => return .float k (← individualFloat x)
  | .function 0 spec defaults => return .function (← nextIndividual) spec defaults
  | .sealed 0 s => return .sealed (← nextIndividual) s
  | v => return v

/-- A text in the encoding of the session. -/
def encodeText (text : String) : Action Bytes := do
  match (← get).encoding.encode text with
  | .ok b => return b
  | .error f => fail (.host (.unencodable f))

/-- A string's text in the encoding of the session. -/
def decodeText (b : Bytes) : Action String := do
  match (← get).encoding.decode b with
  | .ok t => return t
  | .error f => fail (.host (.undecodable f))

end Session

end StackBridge
