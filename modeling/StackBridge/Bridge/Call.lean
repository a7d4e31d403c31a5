import StackBridge.Bridge.Equality
import StackBridge.Bridge.Native
import StackBridge.Bridge.Read
import StackBridge.Host.Builtin
import StackBridge.Machine.Frames

/-!
Calls in both directions. A machine function runs in a frame of its own. If
it was made of a host callable it reads its arguments by the signature, calls
the host, and pushes the result; a failure of the host becomes a machine
error that names it. A bound function goes the other way: it pushes a machine
function and the arguments, calls, and pops the result.

`run` runs a block of the program, which may call again; `fuel` is what is
left for it and for reading.
-/

namespace StackBridge

namespace HostValue

def isNone : HostValue → Bool
  | .none => true
  | _ => false

/-- The sum of integers; other values, truth values included, have none. -/
def sumOfIntegers? : List HostValue → Option Int
  | [] => some 0
  | .integer .plain n :: vs => (sumOfIntegers? vs).map (n + ·)
  | _ => Option.none

end HostValue

namespace FunctionSpec

/-- How many positional parameters a function has. -/
def positionalCount (spec : FunctionSpec) : Nat :=
  (spec.params.filter (·.kind = .positional)).length

/-- The defaults of parameters up to the first without one. -/
def leadingDefaults : List (ParamSpec × Option HostValue) → List HostValue
  | (_, some d) :: ps => d :: leadingDefaults ps
  | _ => []

/-- The arguments of a call with the defaults of the positional parameters
that have got none. -/
def completeArguments (spec : FunctionSpec) (defaults args : List HostValue) : List HostValue :=
  let params := (withDefaults spec.params defaults).filter (·.1.kind = .positional)
  args ++ leadingDefaults (params.drop args.length)

/-- Whether a function takes a count of arguments. -/
def takes (spec : FunctionSpec) (count : Nat) : Bool :=
  let variadic := spec.params.any (·.kind = .variadic)
  decide (spec.positionalCount ≤ count) && (variadic || decide (count ≤ spec.positionalCount))

end FunctionSpec

namespace Bridge

open Session

-- ======================================================== host functions

/-- The failure that a host function raises. -/
def raised (kind : ErrorKind) (message : HostText) : Failure :=
  match kind with
  | .misuse => .misuse (.stated message)
  | kind => .stated kind message

/-- The wording of a machine error with a host value: the text of a byte
string, the display of anything else. -/
def errorText (legend : Legend) (v : HostValue) : Except HostFault String :=
  match v with
  | .bytes .array _ | .bytes .view _ => v.display legend
  | .bytes _ b => .ok (String.ofList (Utf8.decodeLenient b))
  | v => v.display legend

/-- A host value as it gets onto a machine: as the machine value that it is,
or as a guest, which has its wording from that moment. -/
def admitted (ctx : Context) (k : MachineId) (v : HostValue) : Action Value := do
  match v.native?, v.isPlain with
  | some value, true => return value
  | _, _ =>
    let shown ← ofHost (errorText ((← get).legend ctx.classes) v)
    onMachine k (Vm.newGuestValue ⟨v, shown⟩ v.role)

/-- What a host function answers. -/
def finish (ctx : Context) (args : List HostValue) : Finish → Action HostValue
  | .raise kind message => fail (raised kind message)
  | .raiseValue e => do
    let v ← eval ctx e
    let value ← admitted ctx (← get).current v
    fail (.machine value none)
  | .argument i =>
    match args[i]? with
    | some v => return v
    | none => fail (.host .noSuchItem)
  | .arguments => return .list args
  | .sum =>
    match HostValue.sumOfIntegers? args with
    | some n => return .int n
    | none => fail (.stated .type "sum of non-integers")
  | .value e => eval ctx e

/-- Runs the body of a host function of the program. -/
def runBody (ctx : Context) (run : BlockId → Action Unit) (spec : FunctionSpec)
    (args : List HostValue) : Action HostValue := do
  let body := ctx.program.body spec.body
  match body.block with
  | some b => run b
  | none => pure ()
  finish ctx args body.finish

/-- Calls a host function of the program. -/
def callFunction (ctx : Context) (run : BlockId → Action Unit) (spec : FunctionSpec)
    (defaults args : List HostValue) : Action HostValue := do
  report (.entry spec.name (← args.mapM view))
  let args := spec.completeArguments defaults args
  if !spec.takes args.length then
    fail (.stated .type ("takes " ++ toString spec.positionalCount ++ " arguments, got "
      ++ toString args.length))
  runBody ctx run spec args

/-- Calls a built-in function. -/
def callBuiltin (ctx : Context) (b : Builtin) (args : List HostValue) : Action HostValue := do
  match ← ofHost (b.apply ((← get).legend ctx.classes) args) with
  | .value v => individual v
  | .greatest vs => greatest ctx.classes vs

/-- Calls a method of a value. Those of wrappers act on them; of the others
only the views of a dictionary are known. -/
def callMethod (owner : HostValue) (name : String) (args : List HostValue) : Action HostValue := do
  match owner, name, args with
  | .wrapper id _, "push", [] => do
    pushWrapped id
    return .none
  | .wrapper id _, "release", [] | .bound id _ _, "release", [] => do
    release id
    return .none
  | .mapping kind _, name, [] =>
    let family := if kind = .ordered then "odict_" else "dict_"
    if ["keys", "values", "items"].contains name then
      individual (.sealed 0 (.builtin (family ++ name)))
    else fail (.host (.notCallable owner.faultName))
  | v, _, _ => fail (.host (.notCallable v.faultName))

/-- Calls a host value. The callable instances of plain subclasses answer
nothing. -/
def callHost (ctx : Context) (run : BlockId → Action Unit) (callee : HostValue)
    (args : List HostValue) : Action HostValue := do
  match callee with
  | .function _ spec defaults => callFunction ctx run spec defaults args
  | .builtin b => callBuiltin ctx b args
  | .method owner name => callMethod owner name args
  | .integer .callable _ | .sequence .callableList _ =>
    if args.isEmpty then return .none
    else
      fail (.host (.tooManyArguments (callee.hostClass.name ++ ".__call__") 1 1
        (args.length + 1)))
  | v => fail (.host (.notCallable v.faultName))

-- ==================================================== functions of a machine

/-- Reads the slots from an index on, a count of them. -/
def readRest (readAt : Int → Action HostValue) (first : Int) : Nat → Action (List HostValue)
  | 0 => return []
  | count + 1 => do
    let v ← readAt first
    let vs ← readRest readAt (first + 1) count
    return v :: vs

/-- Reads the arguments in a frame of a depth. A parameter with a default
that finds nil or nothing takes the default. -/
def readArguments (readAt : TypeExpr → Int → Action HostValue) (k : MachineId) (depth : Int) :
    Int → List Param → Action (List HostValue)
  | _, [] => return []
  | i, p :: ps => do
    if p.variadic then readRest (readAt p.type) i (depth + 1 - i).toNat
    else
      let v ←
        match p.default with
        | none => readAt p.type i
        | some d => do
          let c ← onMachine k (Vm.categoryAt i)
          if c = .absent ∨ c = .nil then pure d else readAt p.type i
      let vs ← readArguments readAt k depth (i + 1) ps
      return v :: vs

/-- Calls a host value with the arguments in the running frame, and answers
how many results it pushed. -/
def callThrough (ctx : Context) (run : BlockId → Action Unit) (fuel : Nat) (k : MachineId)
    (name : String) (callee : HostValue) (signature : Signature) : Action Int := do
  let depth ← getTop k
  let readAt (t : TypeExpr) (i : Int) : Action HostValue :=
    readValue ctx run fuel k (.badArgument i (some name)) i t
  let args ← readArguments readAt k depth 1 signature.params
  let result ← callHost ctx run callee args
  if signature.returnsNothing || (signature.returns = .any && result.isNone) then return 0
  pushValue ctx k result (if signature.returns = .any then .none else signature.returns)
  return 1

/-- A failure as it leaves a function that was made of a host callable.
Machine errors and imbalances pass; any other becomes a machine error that
names it, unless its wording cannot be encoded. -/
def escaping (f : Failure) : Failure :=
  if f.kind = .machine ∨ f.kind = .imbalance then f
  else
    match (HostText.ofString (f.kind.label ++ ": ") ++ f.text).encode with
    | .ok b => .machine (.str b) (some f.kind)
    | .error loose => .host (.looseSurrogates loose)

/-- Makes a machine the current one while an action runs. -/
def withCurrent {α : Type} (k : MachineId) (action : Action α) : Action α := do
  let previous := (← get).current
  modify fun s => { s with current := k }
  ensuring action (modify fun s => { s with current := previous })

/-- Runs a function in the running frame; the answer is how many results it
claims. -/
def invoke (ctx : Context) (run : BlockId → Action Unit) (fuel : Nat) (k : MachineId)
    (f : FunctionObject) : Action Int := do
  match f.code with
  | .block b results =>
    withCurrent k (run b)
    return results.getD 0
  | .host callee signature =>
    handling (callThrough ctx run fuel k (f.name.getD "") callee signature) fun e =>
      fail (escaping e)

/-- Calls the function below a count of arguments, and leaves a wanted count
of results. -/
def call (ctx : Context) (run : BlockId → Action Unit) (fuel : Nat) (k : MachineId)
    (args wanted : Int) : Action Unit := do
  let position ← onMachine k (Vm.calleePosition args)
  let vm := (← get).vm k
  match vm.machine.slots[position]?.getD .nil with
  | .function id =>
    onMachine k (Vm.enterFrame (position + 1))
    let run : Action (List Value) := do
      let count ← invoke ctx run fuel k ((vm.heap.function? id).getD default)
      onMachine k (Vm.results count)
    let values ← ensuring run (onMachine k Vm.leaveFrame)
    onMachine k (Vm.replaceFrom position (Vm.adjustResults wanted values))
  | v =>
    onMachine k do
      Vm.raiseText ("attempt to call a " ++ (← Vm.categoryOf v).label ++ " value")

/-- What a protected call answers when it succeeds. -/
def statusOk : Int := 0

/-- What a protected call answers when a machine error was raised. -/
def statusError : Int := 2

/-- A call that a machine error does not leave: function and arguments give
way to the raised value. -/
def protectedCall (ctx : Context) (run : BlockId → Action Unit) (fuel : Nat) (k : MachineId)
    (args wanted : Int) : Action Int := do
  let m := (← get).machine k
  let position := (m.slots.length : Int) - args - 1
  let attempt : Action Int := do
    call ctx run fuel k args wanted
    return statusOk
  handling attempt fun f => do
    match f with
    | .machine v _ =>
      onMachine k (Vm.recover m.frames.length position v)
      return statusError
    | f => fail f

-- ======================================================== bound functions

/-- Pushes arguments, each as its type; a missing type goes by the value. -/
def pushArguments (ctx : Context) (k : MachineId) : List HostValue → List TypeExpr → Action Unit
  | [], _ => return
  | v :: vs, ts => do
    pushValue ctx k v (ts.headD .none)
    pushArguments ctx k vs ts.tail

/-- Calls a bound function: the wrapped function on its own machine. A result
type that is the class of `none` discards the results. -/
def callBound (ctx : Context) (run : BlockId → Action Unit) (fuel : Nat) (id : Nat)
    (params : Option (List TypeExpr)) (returns : TypeExpr) (args : List HostValue) :
    Action HostValue := do
  let k := ((← get).wrapper id).machine
  let types := params.getD []
  if params.isSome && args.length != types.length then
    fail (.refusal (.wrongArgumentCount types.length args.length))
  let discards := returns = .none ∨ returns = .cls .none
  restoringTop k do
    pushWrapped id
    pushArguments ctx k args types
    call ctx run fuel k args.length (if discards then 0 else 1)
    if discards then return .none else popValue ctx run fuel k .standard returns

end Bridge

end StackBridge
