import StackBridge.Machine.Stack

/-!
Operations on the tables in slots: fields, traversal, and references.

A reference is a positive integer key under which a table keeps a value. A
reference that is given back is the next one to be handed out again; with
none given back it is the successor of the table's border.
-/

namespace StackBridge

namespace Vm

/-- Stores into a table of the heap. -/
def store (id : TableId) (k v : Value) : Action Unit := do
  let heap ← getHeap
  match (heap.table id).set k v with
  | .error f => fail (.key f)
  | .ok t => modify fun vm => { vm with heap := vm.heap.setTable id t }

/-- Pushes the value under a key, and answers its category. -/
def fetch (id : TableId) (k : Value) : Action Category := do
  let _ ← categoryOf k
  let v := ((← getHeap).table id).get k
  push v
  categoryOf v

/-- Replaces the key on top by its value in the table at an index. -/
def rawGet (index : Int) : Action Category := do
  let id ← tableAt index
  fetch id (← take)

/-- Pushes the value under a key of the table at an index. -/
def getKey (index : Int) (k : Value) : Action Category := do
  fetch (← tableAt index) k

/-- Stores the top under the key below it, and pops both. -/
def rawSet (index : Int) : Action Unit := do
  let id ← tableAt index
  let v ← take
  let k ← take
  store id k v

/-- Stores the top under a key, and pops it. -/
def setKey (index : Int) (k : Value) : Action Unit := do
  let id ← tableAt index
  store id k (← take)

/-- Replaces the key on top by the next entry of the table at an index;
after the last entry nothing is pushed. -/
def next (index : Int) : Action Bool := do
  let id ← tableAt index
  let k ← take
  match ((← getHeap).table id).next k with
  | .error (.key f) => fail (.key f)
  | .error .noPosition => fail .invalidNextKey
  | .ok none => return false
  | .ok (some (key, v)) =>
    push key.value
    push v
    return true

-- ============================================================== references

/-- The reference that stands for nil. -/
def nilRef : Int := -1

/-- Pops a value, keeps it in the table at an index, and answers its
reference. -/
def ref (index : Int) : Action Int := do
  let id ← tableAt (← absIndex index)
  let v ← take
  if v = .nil then return nilRef
  else
    match (← getMachine).free id with
    | r :: rest =>
      modifyMachine (·.setFree id rest)
      store id (.int r) v
      return r
    | [] =>
      let r : Int := (((← getHeap).table id).length : Int) + 1
      store id (.int r) v
      return r

/-- Gives a reference back; the negative ones stand for no entry. -/
def unref (index : Int) (r : Int) : Action Unit := do
  if r < 0 then return
  else
    let id ← tableAt index
    store id (.int r) .nil
    modifyMachine fun m => m.setFree id (r :: m.free id)

-- ======================================================== errors and closing

/-- Raises a text as a machine error; the stack stays as it is. -/
def raiseText {α : Type} (message : String) : Action α :=
  throw (.machine (.str (utf8 message)) none)

/-- Raises the value on top as a machine error. -/
def raiseTop {α : Type} : Action α := do
  throw (.machine (← take) none)

/-- Empties the machine: one frame, no slots, a new registry. -/
def close : Action Unit := do
  let (id, heap) := (← getHeap).newTable .empty
  set (⟨heap, { Machine.fresh id with closed := true }⟩ : Vm)

end Vm

end StackBridge
