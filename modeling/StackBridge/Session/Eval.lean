import StackBridge.Bridge.Describe

/-!
Evaluating the expressions of a program to host values.
-/

namespace StackBridge

namespace Session

open Bridge

/-- A value made an instance of a class. -/
def instanceOf (legend : Legend) (c : HostClass) (v : HostValue) : Except HostFault HostValue :=
  match c with
  | .boolean sized => .ok (.boolean sized v.truth)
  | .integer (.sized w) =>
    v.toInteger.bind fun n =>
      if w.fits n then .ok (.integer (.sized w) n) else .error (.widthExceeded n w)
  | .integer k => v.toInteger.map (.integer k)
  | .float .single => v.toFloat.map fun x => .float .single x.toSingle
  | .float k => v.toFloat.map fun x => .float k x.untagged
  | .text k => (v.plainText legend).map (.text k)
  | .bytes k => v.toBytes.map (.bytes k)
  | .sequence k => v.items.map (.sequence k)
  | .mapping k => v.entries.map (.mapping k)
  | c => .error (.noInstances c.name)

/-- A function's declaration with the types in it prepared. -/
def prepareSpec (ctx : Context) (spec : FunctionSpec) : Action FunctionSpec := do
  let params ← spec.params.mapM fun p => do return { p with type := ← prepareOption ctx p.type }
  return { spec with params, returns := ← prepareOption ctx spec.returns }

mutual

/-- The value of an expression. Evaluating it again makes another individual. -/
def eval (ctx : Context) : Expr → Action HostValue
  | .var name => do
    match (← get).stored? name with
    | some v => return v
    | none => fail (.host (.unknownVariable name))
  | .value (.integer (.enum c) n) => ofHost (ctx.classes.ofInteger (.integer (.enum c)) n)
  | .value v => individual v
  | .sequence k items => do return .sequence k (← evalList ctx items)
  | .mapping k entries => do return .mapping k (← ofHost (Dict.ofList (← evalEntries ctx entries)))
  | .record name args => do ofHost (ctx.classes.buildPositional name (← evalList ctx args))
  | .instanceOf c e => do
    let v ← eval ctx e
    individual (← ofHost (instanceOf ((← get).legend ctx.classes) c v))
  | .function spec defaults => do
    let spec ← prepareSpec ctx spec
    individual (.function 0 spec (← evalList ctx defaults))

def evalList (ctx : Context) : List Expr → Action (List HostValue)
  | [] => return []
  | e :: es => do
    let v ← eval ctx e
    let vs ← evalList ctx es
    return v :: vs

def evalEntries (ctx : Context) : List (Expr × Expr) → Action (List (HostValue × HostValue))
  | [] => return []
  | (k, v) :: es => do
    let k' ← eval ctx k
    let v' ← eval ctx v
    let es' ← evalEntries ctx es
    return (k', v') :: es'

end

-- ============================================================ definitions

/-- The value of a field's default. -/
def evalDefault (ctx : Context) : DefaultExpr → Action FieldDefault
  | .required => return .required
  | .emptyList => return .emptyList
  | .value e => do return .value (← eval ctx e)

/-- The class that a definition defines. -/
def evalClass (ctx : Context) : ClassExpr → Action Definition
  | .enum name members => return .enum name members
  | .record name tuple fields => do
    let fields ← fields.mapM fun f => do
      let type ← prepareOption ctx f.type
      let default ← evalDefault ctx f.default
      return (⟨f.name, type, default, f.init⟩ : FieldSpec)
    return .record name tuple fields

/-- Defines classes one after the other; each sees the ones before it. -/
def evalClasses (program : Program) : List ClassExpr → Classes → Action Classes
  | [], classes => return classes
  | c :: cs, classes => do
    let d ← evalClass ⟨classes, program⟩ c
    evalClasses program cs (classes ++ [d])

end Session

end StackBridge
