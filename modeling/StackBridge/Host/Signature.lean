import StackBridge.Host.Hint

/-!
Signatures of host callables: how each argument is read and how the result
is pushed. A signature declared by the type a callable is pushed as wins over
the callable's own.
-/

namespace StackBridge

/-- A parameter as the bridge reads it. A variadic one takes all remaining
arguments. -/
structure Param where
  type : TypeExpr
  default : Option HostValue
  variadic : Bool

structure Signature where
  params : List Param
  returns : TypeExpr

namespace Signature

/-- Any arguments, any result. -/
def anyArguments (returns : TypeExpr) : Signature := ⟨[⟨.any, none, true⟩], returns⟩

/-- Whether results are discarded. -/
def returnsNothing (s : Signature) : Bool := s.returns = .none || s.returns = .cls .none

/-- The signature that the arguments of a callable type declare. -/
def ofCallableArgs : List TypeExpr → Option Signature
  | [.ellipsis, returns] => some (.anyArguments returns)
  | [.params ps, returns] | [.group ps, returns] =>
    some ⟨ps.map fun a => ⟨a, none, false⟩, returns⟩
  | _ => none

end Signature

namespace FunctionSpec

/-- Pairs the declared parameters with the values of their defaults. -/
def withDefaults : List ParamSpec → List HostValue → List (ParamSpec × Option HostValue)
  | [], _ => []
  | p :: ps, ds =>
    if p.hasDefault then (p, ds.head?) :: withDefaults ps ds.tail
    else (p, none) :: withDefaults ps ds

/-- Whether a fault in a hint leaves its function without any. -/
def forgivesHint (f : HostFault) : Bool := f.kind = .name || f.kind = .type

/-- A type as a hint, if there is one. -/
def hintOf (cs : Classes) : Option TypeExpr → Except HostFault (Option TypeExpr)
  | none => .ok none
  | some t => (cs.hint t).map some

/-- The parameter types of a function as hints, in order, and the result's
last. If one of them names nothing or is no type there are none, and a
callable object shows none. -/
def hints (cs : Classes) (spec : FunctionSpec) :
    Except HostFault (List (Option TypeExpr) × Option TypeExpr) :=
  let absent := (spec.params.map fun _ => none, none)
  let resolved : Except HostFault (List (Option TypeExpr) × Option TypeExpr) := do
    let params ← spec.params.mapM fun p => hintOf cs p.type
    return (params, ← hintOf cs spec.returns)
  if spec.object then .ok absent
  else
    match resolved with
    | .ok r => .ok r
    | .error f => if forgivesHint f then .ok absent else .error f

/-- The positional and variadic parameters with their hints. -/
def signature (cs : Classes) (spec : FunctionSpec) (defaults : List HostValue) :
    Except HostFault Signature :=
  (spec.hints cs).map fun (hints, returns) =>
    let params := ((withDefaults spec.params defaults).zip hints).filterMap fun ((p, d), h) =>
      match p.kind with
      | .positional => some ⟨h.getD .any, d, false⟩
      | .variadic => some ⟨h.getD .any, d, true⟩
      | .keywordOnly | .variadicKeyword => none
    ⟨params, returns.getD .any⟩

end FunctionSpec

namespace HostValue

/-- The signature that a callable shows of itself. What shows none takes any
arguments. -/
def signature (cs : Classes) : HostValue → Except HostFault Signature
  | .function _ spec defaults => spec.signature cs defaults
  | .builtin .len | .builtin .abs | .builtin .repr => .ok ⟨[⟨.any, none, false⟩], .any⟩
  | .integer .callable _ | .sequence .callableList _ => .ok ⟨[], .any⟩
  | _ => .ok (.anyArguments .any)

/-- The name of a callable, or of its class. -/
def callableName : HostValue → String
  | .function _ spec _ =>
    if spec.object then "CallObj" else if spec.name = "" then "function" else spec.name
  | .builtin b => b.name
  | .method _ name => name
  | .type t => t.refusalName
  | v => v.hostClass.name

end HostValue

end StackBridge
