import StackBridge.Session.State

/-!
Blocks that watch the depth of a stack. A guard demands an exact change of
depth when the block succeeds and no change when it fails; restoring drops
what a failing block has left behind. Neither looks at a closed machine.
-/

namespace StackBridge

namespace Bridge

open Session

/-- The failure of a guard, with the stack as it is. -/
def imbalance (k : MachineId) (what : String) (raised : Option ErrorKind)
    (actual expected : Int) : Action Failure := do
  let rendering ← onMachine k (Vm.renderStack .standard)
  return .imbalance ⟨what, raised, actual, expected, rendering⟩

/-- Demands that a block changes the depth by `delta`, or not at all when it
fails. -/
def guarded {α : Type} (k : MachineId) (delta : Int) (what : String) (block : Action α) :
    Action α := do
  let top ← getTop k
  let check (expected : Int) (raised : Option ErrorKind) : Action Unit := do
    if ← isClosed k then return
    let actual ← getTop k
    if actual ≠ expected then fail (← imbalance k what raised actual expected)
  let a ← handling block fun f => do
    check top (some f.kind)
    fail f
  check (top + delta) none
  return a

/-- Guards a block if the session checks the stack. -/
def guardedIfChecking {α : Type} (k : MachineId) (delta : Int) (what : String)
    (block : Action α) : Action α := do
  if (← get).checks then guarded k delta what block else block

/-- Drops what a failing block has left above the depth at which it began. -/
def restoringTop {α : Type} (k : MachineId) (block : Action α) : Action α := do
  let top ← getTop k
  onStop block do
    if !(← isClosed k) then
      if top < (← getTop k) then onMachine k (Vm.setTop top)

end Bridge

end StackBridge
