import StackBridge.Session.State

/-!
Wrappers: a host value's hold on a machine value of any category. The value
is kept in the registry of its machine under a reference of its own, until
the wrapper is released.
-/

namespace StackBridge

namespace Bridge

open Session

/-- Wraps the value at an index. -/
def wrap (k : MachineId) (index : Int) : Action Nat := do
  onMachine k (Vm.pushCopy index)
  let r ← onMachine k (Vm.ref registryIndex)
  let s ← get
  set { s with wrappers := s.wrappers.push ⟨k, .ofRef r⟩ }
  return s.wrappers.size

/-- Pushes the value of a wrapper onto the stack of its machine. -/
def pushWrapped (id : Nat) : Action Unit := do
  let w := (← get).wrapper id
  match w.anchor with
  | .released => fail (.misuse .released)
  | .nil => push w.machine .nil
  | .entry r =>
    let _ ← onMachine w.machine (Vm.getKey registryIndex (.int r))

/-- Gives the reference of a wrapper back; doing so again does nothing. -/
def release (id : Nat) : Action Unit := do
  let w := (← get).wrapper id
  if w.anchor = .released then return
  if !(← isClosed w.machine) then
    onMachine w.machine (Vm.unref registryIndex w.anchor.number)
  modify fun s => { s with wrappers := s.wrappers.setIfInBounds id { w with anchor := .released } }

/-- The category of the value of a wrapper. -/
def wrappedCategory (id : Nat) : Action Category := do
  let w := (← get).wrapper id
  pushWrapped id
  ensuring (onMachine w.machine (Vm.categoryAt (-1))) (onMachine w.machine (Vm.pop 1))

/-- Whether two wrappers hold equal values of the same machine. -/
def sameWrapped (id other : Nat) : Action Bool := do
  let w := (← get).wrapper id
  if ((← get).wrapper other).machine ≠ w.machine then return false
  pushWrapped id
  pushWrapped other
  ensuring (onMachine w.machine (Vm.rawEqual (-1) (-2))) (onMachine w.machine (Vm.pop 2))

end Bridge

end StackBridge
