import StackBridge.Bridge.Wrapper
import StackBridge.Host.Member

/-!
Members of host values in a session: a wrapper tells the category and the
reference of its value, a bound function what it was made of, and all other
values have what `Classes.member` says.
-/

namespace StackBridge

namespace Bridge

open Session

/-- The class of categories as host values. -/
def categoryClass : String := "Category"

/-- A member of a wrapper. -/
def wrapperMember (v : HostValue) (id : Nat) (name : String) : Action (Option HostValue) := do
  match name with
  | "category" => return some (.integer (.enum categoryClass) (← wrappedCategory id).code)
  | "type_name" => return some (.str (← wrappedCategory id).label)
  | "ref" => return some (.int ((← get).wrapper id).anchor.number)
  | "state" => return some (.sealed 0 .machine)
  | name => return if v.hostClass.methods.contains name then some (.method v name) else none

/-- A member of a bound function. -/
def boundMember? (id : Nat) (params : Option (List TypeExpr)) (returns : TypeExpr) :
    String → Option HostValue
  | "function" => some (.wrapper id false)
  | "params" =>
    match params with
    | none => some .none
    | some ts => some (.sequence .tuple (HostValue.ofTypes ts))
  | "returns" => some (HostValue.ofType returns)
  | _ => none

/-- A member that only wrappers or only bound functions have. -/
def specialMember? (v : HostValue) (name : String) : Action (Option HostValue) :=
  match v with
  | .wrapper id _ => wrapperMember v id name
  | .bound id params returns => return boundMember? id params returns name
  | _ => return none

/-- A member of a value. -/
def memberOf (ctx : Context) (v : HostValue) (name : String) : Action HostValue := do
  match ← specialMember? v name with
  | some x => return x
  | none => individual (← ofHost (ctx.classes.member v name))

end Bridge

end StackBridge
