import StackBridge.Session.Handles
import StackBridge.Session.Inspection
import StackBridge.Session.Slots

/-!
What each operation does. Operands are evaluated first, from left to right,
and then the operation acts on a machine.

`run` runs a block of the program; `fuel` bounds what reading may use.
-/

namespace StackBridge

namespace Session

open Bridge

/-- Runs an action that has no answer. -/
def silently (action : Action Unit) : Action HostValue := do
  action
  return .none

/-- Keeps what an action reports out of the report. -/
def unreported {α : Type} (action : Action α) : Action α := do
  let before := (← get).reports
  ensuring action (modify fun s => { s with reports := before })

/-- Runs an action and stores its answer. -/
def storing (name : Option String) (action : Action HostValue) : Action HostValue := do
  let v ← action
  storeAs name v
  return v

/-- The category with a number. -/
def categoryOf (number : Int) : Action Category :=
  match Category.ofCode? number with
  | some c => return c
  | none => fail (.host (.notAMember (toString number) "Category"))

/-- A type as classified: its category by name, number and label. -/
def classify (ctx : Context) (t : TypeExpr) : Action HostValue := do
  let host ← describe ctx (← prepare ctx t) "conversion"
  let c := host.category
  return .list [.str c.name, .int c.code, .str c.label]

/-- A type as described: its display, shape and category, how many arguments
it has, and that describing it again changes nothing. -/
def describeFully (ctx : Context) (t : TypeExpr) (operation : String) : Action HostValue := do
  let host ← describe ctx (← prepare ctx t) operation
  return .list [.str host.display, .str host.shape.name, .str host.category.name,
    .int host.args.length, .bool true]

/-- Performs one operation on machine `k`. -/
def perform (ctx : Context) (run : BlockId → Action Unit) (fuel : Nat) (k : MachineId) :
    Op → Action HostValue
  -- slots
  | .getTop => do return .int (← getTop k)
  | .setTop i => silently (onMachine k (Vm.setTop i))
  | .pop n => silently (onMachine k (Vm.pop n))
  | .absIndex i => do return .int (← onMachine k (Vm.absIndex i))
  | .checkStack n => do return .bool (← onMachine k (Vm.checkStack n))
  | .pushValue i => silently (onMachine k (Vm.pushCopy i))
  | .pushNil => silently (push k .nil)
  | .plainPush kind e => do
    let v ← eval ctx e
    pushPlain k v kind
  | .query q i => answerQuery k i q
  | .typeName tag => do return .str (← ofHost (nameOfTag tag))
  | .rawEqual i j => do return .bool (← onMachine k (Vm.rawEqual i j))
  -- tables and references
  | .createTable | .newTable => silently (onMachine k Vm.pushTable)
  | .newUserdata e => silently do
    let v ← eval ctx e
    onMachine k (Vm.pushUserdata v)
  | .rawGet i => do return tagValue (← onMachine k (Vm.rawGet i))
  | .rawGetI i n => do return tagValue (← onMachine k (Vm.getKey i (.int n)))
  | .rawSet i => silently (onMachine k (Vm.rawSet i))
  | .rawSetI i n => silently (onMachine k (Vm.setKey i (.int n)))
  | .getField i name => do
    let key ← ofHost (fieldKey (← eval ctx name))
    return tagValue (← onMachine k (Vm.getKey i key))
  | .setField i name => silently do
    let key ← ofHost (fieldKey (← eval ctx name))
    onMachine k (Vm.setKey i key)
  | .next i => do return .bool (← onMachine k (Vm.next i))
  | .items i => entryTexts k i
  | .drain i => drain k i
  | .ref i => do return .int (← onMachine k (Vm.ref i))
  | .unref i r => silently (onMachine k (Vm.unref i r))
  -- calls and errors
  | .pushFunction name block results =>
    silently (onMachine k (Vm.pushFunction ⟨name, .block block results⟩))
  | .call args results => silently (call ctx run fuel k args results)
  | .pcall args results => do return .int (← protectedCall ctx run fuel k args results)
  | .error => onMachine k Vm.raiseTop
  | .raiseError message => onMachine k (Vm.raiseText message)
  -- machines
  | .close => silently (onMachine k Vm.close)
  | .describeState => describeMachine k
  | .use number => silently (use number)
  | .batch block => silently (unreported (run block))
  | .withState block => silently (ensuring (run block) (onMachine k Vm.close))
  -- the bridge
  | .push e t => silently do
    let v ← eval ctx e
    let t ← prepare ctx t
    pushValue ctx k v t
  | .get i t handler store => storing store do
    let t ← prepare ctx t
    readValue ctx run fuel k handler i t
  | .popValue t handler store => storing store do
    let t ← prepare ctx t
    popValue ctx run fuel k handler t
  | .define name e => storing (some name) (eval ctx e)
  | .mismatch handler actual expected => do
    let actual ← categoryOf actual
    let expected ← categoryOf expected
    handle ctx run k handler actual expected
  | .classify t => classify ctx t
  | .describe t operation => describeFully ctx t operation
  | .guard delta what block =>
    silently (guarded k delta (what.getD "stack operation") (run block))
  | .restoreTop block => do
    let top ← getTop k
    restoringTop k (run block)
    return .int top
  -- wrappers
  | .wrapperNew i name => storing (some name) do
    return .wrapper (← wrap k i) false
  | .wrapperPush name => silently do pushStored (← stored name)
  | .wrapperTo name t store => storing store do
    let v ← stored name
    let t ← prepare ctx t
    convertStored ctx run fuel v t
  | .wrapperRelease name | .boundRelease name => silently do releaseStored (← stored name)
  | .wrapperInfo name => do describeStored (← stored name)
  | .wrapperEq name other => do
    let v ← stored name
    let w ← eval ctx other
    equality ctx.classes v w
  | .boundNew i params returns name => storing (some name) do
    let params ← params.mapM (prepareAll ctx)
    let returns ← prepare ctx returns
    bind k i params returns
  | .boundCall name args store => storing store do
    let v ← stored name
    let args ← evalList ctx args
    callStored ctx run fuel v args
  -- inspection
  | .renderStack options => do return .str (← onMachine k (Vm.renderStack options))
  | .renderSlot i options => do return .str (← onMachine k (Vm.renderSlot options i))
  | .numberToBytes e => do return .bytes .plain (← ofHost (numberBytes (← eval ctx e)))
  | .bytesToNumber e => do ofHost (bytesNumber (← eval ctx e))
  | .wrapInteger e => do ofHost (wrapped (← eval ctx e))
  | .rawEquals a b => do
    let v ← eval ctx a
    let w ← eval ctx b
    return .bool ((← nativeValue v).rawEqual (← nativeValue w))
  | .tagOf e => do return tagValue (← onMachine k (Vm.categoryOf (← nativeValue (← eval ctx e))))
  | .cString e encoding => do ofHost (terminatedString (← eval ctx e) encoding)
  | .nilProps e => do return nilFacts (← eval ctx e)
  | .machineError e => do
    let v ← eval ctx e
    let text ← ofHost (errorText ((← get).legend ctx.classes) v)
    return .list [.str text, .str text]
  -- configuration
  | .setEncoding name => do
    let e ← ofHost (encodingNamed (name.getD "utf-8"))
    setEncoding e
    return .str e.name
  | .setChecks e => do
    let b := (← eval ctx e).truth
    setChecks b
    return .bool b
  | .config => configuration
  | .flagFromEnv raw default => do flagOr raw (← eval ctx default)
  | .encodingFromEnv raw default => do encodingOr raw (← eval ctx default)
  | .reloadFromEnv checks encoding => do
    reload checks encoding
    configuration

end Session

end StackBridge
