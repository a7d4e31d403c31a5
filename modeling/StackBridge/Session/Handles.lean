import StackBridge.Bridge.Call

/-!
Operations on stored wrappers and bound functions. A value of any other class
lacks the members that these operations use.
-/

namespace StackBridge

namespace Session

open Bridge

/-- The stored value of a name that must have one. -/
def stored (name : String) : Action HostValue := do
  match (← get).stored? name with
  | some v => return v
  | none => fail (.host (.unknownVariable name))

/-- The failure of a value without a member. -/
def lacking {α : Type} (v : HostValue) (member : String) : Action α :=
  fail (.host (.noAttribute v.memberOwner member))

/-- Pushes the value of a stored wrapper onto the stack of its machine. -/
def pushStored (v : HostValue) : Action Unit :=
  match v with
  | .wrapper id _ => pushWrapped id
  | v => lacking v "push"

/-- Reads the value of a stored wrapper as a type. -/
def convertStored (ctx : Context) (run : BlockId → Action Unit) (fuel : Nat) (v : HostValue)
    (t : TypeExpr) : Action HostValue := do
  match v with
  | .wrapper id _ =>
    let k := ((← get).wrapper id).machine
    pushWrapped id
    popValue ctx run fuel k .standard t
  | v => lacking v "to"

/-- Releases a stored wrapper, or the one of a bound function. A view of bytes
can be released too. -/
def releaseStored (v : HostValue) : Action Unit :=
  match v with
  | .wrapper id _ | .bound id _ _ => release id
  | .bytes .view _ => return
  | v => lacking v "release"

/-- The category of a stored wrapper's value, by name and by label, and its
reference. -/
def describeStored (v : HostValue) : Action HostValue := do
  match v with
  | .wrapper id _ =>
    let c ← wrappedCategory id
    return .list [.str c.name, .str c.label, .int ((← get).wrapper id).anchor.number]
  | v => lacking v "category"

/-- Makes the function at an index a bound function. -/
def bind (k : MachineId) (index : Int) (params : Option (List TypeExpr)) (returns : TypeExpr) :
    Action HostValue := do
  return .bound (← wrap k index) params returns

/-- Calls a stored value. -/
def callStored (ctx : Context) (run : BlockId → Action Unit) (fuel : Nat) (v : HostValue)
    (args : List HostValue) : Action HostValue :=
  match v with
  | .bound id params returns => callBound ctx run fuel id params returns args
  | v => callHost ctx run v args

end Session

end StackBridge
