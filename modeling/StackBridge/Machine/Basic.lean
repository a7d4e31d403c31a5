import StackBridge.Failure
import StackBridge.Host.Signature

/-!
The heap and the machines on it. A machine is a stack of slots cut into call
frames, a registry table, and for each table the references that have been
given back. All machines of a session share one heap, so an identity means
the same object on every machine.

A `Vm` is one machine together with the heap; an `Action` on it answers or
fails, and a failure keeps what was done before it.
-/

namespace StackBridge

abbrev BlockId := Nat
abbrev MachineId := Nat

-- ================================================================== heap

/-- What a function does: run a block of the program, or call a host
callable through a signature. -/
inductive Code where
  | block (id : BlockId) (results : Option Int)
  | host (callee : HostValue) (signature : Signature)
deriving Inhabited

structure FunctionObject where
  name : Option String
  code : Code
deriving Inhabited

/-- A host value on the machine, and how it was displayed when it came. -/
structure Guest where
  value : HostValue
  shown : String
deriving Inhabited

/-- The objects that values refer to. -/
structure Heap where
  tables : Array Table
  functions : Array FunctionObject
  userdata : Array HostValue
  guests : Array Guest
deriving Inhabited

namespace Heap

def empty : Heap := ⟨#[], #[], #[], #[]⟩

def table (h : Heap) (id : TableId) : Table := h.tables.getD id .empty

def function? (h : Heap) (id : FunctionId) : Option FunctionObject := h.functions[id]?

def payload (h : Heap) (id : UserdataId) : HostValue := h.userdata.getD id .none

def guest? (h : Heap) (id : GuestId) : Option Guest := h.guests[id]?

/-- The host value that a guest is. -/
def hostValue? (h : Heap) : Value → Option HostValue
  | .guest id _ => (h.guest? id).map (·.value)
  | _ => none

def setTable (h : Heap) (id : TableId) (t : Table) : Heap :=
  { h with tables := h.tables.setIfInBounds id t }

def newTable (h : Heap) (t : Table) : TableId × Heap :=
  (h.tables.size, { h with tables := h.tables.push t })

def newFunction (h : Heap) (f : FunctionObject) : FunctionId × Heap :=
  (h.functions.size, { h with functions := h.functions.push f })

def newUserdata (h : Heap) (payload : HostValue) : UserdataId × Heap :=
  (h.userdata.size, { h with userdata := h.userdata.push payload })

def newGuest (h : Heap) (g : Guest) : GuestId × Heap :=
  (h.guests.size, { h with guests := h.guests.push g })

end Heap

-- =============================================================== machines

/-- A machine. `slots` lists the stack from the bottom; `frames` holds the
bases of the active frames, the running function's first. -/
structure Machine where
  slots : List Value
  frames : List Nat
  registry : TableId
  /-- The references given back, by table, last one first. -/
  freeRefs : List (TableId × List Int)
  closed : Bool
deriving Inhabited

namespace Machine

/-- A machine with nothing on its stack, on a registry of its own. -/
def fresh (registry : TableId) : Machine := ⟨[], [0], registry, [], false⟩

/-- The references of a table that have been given back. -/
def free (m : Machine) (t : TableId) : List Int := ((m.freeRefs.find? (·.1 == t)).map (·.2)).getD []

/-- Replaces the references of a table that have been given back. -/
def setFree (m : Machine) (t : TableId) (refs : List Int) : Machine :=
  { m with freeRefs := (t, refs) :: m.freeRefs.filter (·.1 != t) }

/-- The slots of the running frame. -/
def frameSlots (m : Machine) : List Value :=
  match m.frames with
  | [] => []
  | base :: _ => m.slots.drop base

/-- How many slots the running frame has; none if no frame is left. -/
def depth? (m : Machine) : Option Int :=
  m.frames.head?.map fun base => (m.slots.length : Int) - (base : Int)

end Machine

/-- One machine and the heap. -/
structure Vm where
  heap : Heap
  machine : Machine
deriving Inhabited

namespace Vm

/-- A step of a machine. -/
abbrev Action := EStateM Failure Vm

def fail {α : Type} (m : Misuse) : Action α := throw (.misuse m)

def getMachine : Action Machine := do return (← get).machine

def getHeap : Action Heap := do return (← get).heap

def modifyMachine (f : Machine → Machine) : Action Unit :=
  modify fun vm => { vm with machine := f vm.machine }

/-- The category of a value; a stray has none. -/
def categoryOf (v : Value) : Action Category :=
  match v.category? with
  | some c => return c
  | none => fail (.cannotLive v.strayName)

/-- The base of the running frame. -/
def base : Action Nat := do
  match (← get).machine.frames with
  | [] => throw (.host .noFrame)
  | b :: _ => return b

/-- Puts a value on top of the stack. -/
def push (v : Value) : Action Unit :=
  modifyMachine fun m => { m with slots := m.slots ++ [v] }

end Vm

end StackBridge
