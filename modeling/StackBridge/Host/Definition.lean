import StackBridge.Host.Dict
import StackBridge.Host.Display

/-!
The classes that a session defines, enumerations and records, and building
an instance of one.
-/

namespace StackBridge

/-- What a field is without an argument. -/
inductive FieldDefault where
  | required
  | value (v : HostValue)
  /-- A new empty list for each instance. -/
  | emptyList

structure FieldSpec where
  name : String
  type : Option TypeExpr
  default : FieldDefault
  /-- Whether the field is an argument of the constructor. -/
  init : Bool

namespace FieldSpec

def defaultValue? (f : FieldSpec) : Option HostValue :=
  match f.default with
  | .required => none
  | .value v => some v
  | .emptyList => some (.list [])

def hasDefault (f : FieldSpec) : Bool := f.defaultValue?.isSome

end FieldSpec

/-- A defined class. -/
inductive Definition where
  | enum (name : String) (members : List (String × Int))
  | record (name : String) (tuple : Bool) (fields : List FieldSpec)

def Definition.name : Definition → String
  | .enum n _ => n
  | .record n _ _ => n

/-- The defined classes of a session. -/
abbrev Classes := List Definition

namespace Classes

def find? (cs : Classes) (name : String) : Option Definition :=
  List.find? (fun d : Definition => d.name == name) cs

/-- The fields of a record class; none are known of any other. -/
def fields (cs : Classes) (name : String) : List FieldSpec :=
  match cs.find? name with
  | some (.record _ _ fs) => fs
  | _ => []

/-- Whether a record class's instances are tuples of their fields. -/
def isTuple (cs : Classes) (name : String) : Bool :=
  match cs.find? name with
  | some (.record _ t _) => t
  | _ => false

def members (cs : Classes) (name : String) : List (String × Int) :=
  match cs.find? name with
  | some (.enum _ ms) => ms
  | _ => []

/-- The member of an enumeration with a number. -/
def memberName (cs : Classes) (name : String) (n : Int) : Option String :=
  ((cs.members name).find? (·.2 == n)).map (·.1)

/-- What displaying values takes from the classes; `wrapper` displays
wrappers. -/
def legend (cs : Classes) (wrapper : Nat → Except HostFault String) : Legend :=
  ⟨cs.memberName, fun name => (cs.fields name).map (·.name), wrapper⟩

/-- The class that a name means to the session. -/
def class? (cs : Classes) (name : String) : Option HostClass :=
  match cs.find? name with
  | some (.enum n _) => some (.integer (.enum n))
  | some (.record n _ _) => some (.record n)
  | none => none

end Classes

-- ============================================================= instances

namespace Classes

/-- An integer as an instance of an integer class. -/
def ofInteger (cs : Classes) (c : HostClass) (n : Int) : Except HostFault HostValue :=
  match c with
  | .integer (.enum e) =>
    if (cs.memberName e n).isSome then .ok (.integer (.enum e) n)
    else .error (.notAMember (toString n) e)
  | .integer (.sized w) =>
    if w.fits n then .ok (.integer (.sized w) n) else .error (.widthExceeded n w)
  | .integer k => .ok (.integer k n)
  | .abstractEnum => .error (.notAMember (toString n) c.name)
  | c => .error (.noInstances c.name)

end Classes

namespace HostClass

/-- A float as an instance of a float class; of the plain one it is the float
itself. -/
def ofFloat (c : HostClass) (x : Double) : Except HostFault HostValue :=
  match c with
  | .float .plain => .ok (.float .plain x)
  | .float .single => .ok (.float .single x.toSingle)
  | .float k => .ok (.float k x.untagged)
  | .fraction =>
    if x.isNaN then .error .nanToRatio
    else if x.isInfinite then .error .infinityToRatio
    else let (n, d) := x.toFraction; .ok (.fraction n d)
  | c => .error (.noInstances c.name)

end HostClass

namespace Classes

/-- The fields that a record instance gets from named arguments; a field that
is neither given nor has a default is left out. -/
def fieldValues (given : List (String × HostValue)) :
    List FieldSpec → List (String × HostValue)
  | [] => []
  | f :: fs =>
    let argument := if f.init then (given.find? (·.1 == f.name)).map (·.2) else none
    match argument <|> f.defaultValue? with
    | some v => (f.name, v) :: fieldValues given fs
    | none => fieldValues given fs

/-- The constructor of a record class by name. -/
def constructorName (cs : Classes) (name : String) : String :=
  name ++ (if cs.isTuple name then ".__new__" else ".__init__")

/-- The fields that the constructor of a record class takes. -/
def parameters (cs : Classes) (name : String) : List FieldSpec :=
  (cs.fields name).filter (·.init)

/-- A record instance from named arguments. -/
def build (cs : Classes) (name : String) (given : List (String × HostValue)) :
    Except HostFault HostValue :=
  let isMissing (f : FieldSpec) : Bool := !f.hasDefault && given.all (·.1 != f.name)
  match (cs.parameters name).filter isMissing with
  | [] => .ok (.record name (cs.isTuple name) (fieldValues given (cs.fields name)))
  | missing => .error (.missingArguments (cs.constructorName name) (missing.map (·.name)))

/-- A record instance from positional arguments. The instance itself counts
as an argument. -/
def buildPositional (cs : Classes) (name : String) (args : List HostValue) :
    Except HostFault HostValue :=
  let params := cs.parameters name
  if params.length < args.length then
    let least := (params.filter (!·.hasDefault)).length + 1
    .error (.tooManyArguments (cs.constructorName name) least (params.length + 1)
      (args.length + 1))
  else cs.build name ((params.map (·.name)).zip args)

end Classes

end StackBridge
