import StackBridge.Host.TypeExpr
import StackBridge.Double.Single

/-!
Host values, grouped by what they are made of; within a group a kind tells
the class. Wrappers and bound functions are known by number: what they refer
to is kept by the session. Functions and the values of which nothing is known
but their class are numbered too, because each of them equals only itself.
-/

namespace StackBridge

-- ============================================================= functions

inductive ParamKind where
  | positional
  | variadic
  | keywordOnly
  | variadicKeyword
deriving DecidableEq, Repr

/-- A declared parameter. The default's value is kept with the function. -/
structure ParamSpec where
  name : String
  type : Option TypeExpr
  hasDefault : Bool
  kind : ParamKind
deriving Repr

/-- A declared host function; `body` is its place in the program. A
function `object` is a callable instance, without a name and with no
types to be seen. -/
structure FunctionSpec where
  name : String
  params : List ParamSpec
  returns : Option TypeExpr
  object : Bool
  body : Nat
deriving Repr, Inhabited

/-- The host's built-in functions. -/
inductive Builtin where
  | len
  | max
  | abs
  | int
  | str
  | repr
deriving DecidableEq, Repr

namespace Builtin

def name : Builtin → String
  | .len => "len"
  | .max => "max"
  | .abs => "abs"
  | .int => "int"
  | .str => "str"
  | .repr => "repr"

/-- Two of them are classes. -/
def isClass : Builtin → Bool
  | .int | .str => true
  | _ => false

end Builtin

/-- Values of unsupported classes; nothing is known of them but their class. -/
inductive SealedValue where
  | object
  | complex
  | decimal
  | set
  | custom
  | array
  | machine
  /-- An instance of the built-in class of a name. -/
  | builtin (className : String)
deriving DecidableEq, Repr

def SealedValue.sealedClass : SealedValue → SealedClass
  | .object => .object
  | .complex => .complex
  | .decimal => .decimal
  | .set => .set
  | .custom => .custom
  | .array => .array
  | .machine => .machine
  | .builtin n => .builtin n

-- ================================================================ values

/-- A host value. -/
inductive HostValue where
  | none
  | nil
  | boolean (sized : Bool) (b : Bool)
  | integer (kind : IntegerKind) (n : Int)
  | float (kind : FloatKind) (x : Double)
  | fraction (numerator : Int) (denominator : Nat)
  | text (kind : TextKind) (s : String)
  | bytes (kind : BytesKind) (b : Bytes)
  | range (start stop : Int)
  | sequence (kind : SequenceKind) (items : List HostValue)
  | mapping (kind : MappingKind) (entries : List (HostValue × HostValue))
  /-- An instance of a defined class; `tuple` for the ones that are tuples
  of their fields. -/
  | record (name : String) (tuple : Bool) (fields : List (String × HostValue))
  | function (id : Nat) (spec : FunctionSpec) (defaults : List HostValue)
  | builtin (b : Builtin)
  /-- A function that belongs to a value. -/
  | method (owner : HostValue) (name : String)
  /-- A type in the place of a value. -/
  | type (t : TypeExpr)
  | wrapper (id : Nat) (custom : Bool)
  /-- A machine function made callable: the wrapper of the function, the
  declared parameter types and the result type. -/
  | bound (id : Nat) (params : Option (List TypeExpr)) (returns : TypeExpr)
  | sealed (id : Nat) (v : SealedValue)
deriving Inhabited

namespace HostValue

/-- A truth value of the plain class. -/
abbrev bool (b : Bool) : HostValue := .boolean false b

/-- An integer of the plain class. -/
abbrev int (n : Int) : HostValue := .integer .plain n

/-- A text of the plain class. -/
abbrev str (s : String) : HostValue := .text .plain s

/-- A list of the plain class. -/
abbrev list (items : List HostValue) : HostValue := .sequence .list items

/-- The quotient of two integers in lowest terms. -/
def ratio (n d : Int) : HostValue :=
  let g : Int := Int.gcd n d
  .fraction (d.sign * (n / g)) (d.natAbs / g.toNat)

/-- The class of a value. What stands in the place of a type is of a class of
its own unless it is a class; a described type is an instance of its shape. -/
def hostClass : HostValue → HostClass
  | .none => .none
  | .nil => .nilMarker
  | .boolean sized _ => .boolean sized
  | .integer k _ => .integer k
  | .float k _ => .float k
  | .fraction _ _ => .fraction
  | .text k _ => .text k
  | .bytes k _ => .bytes k
  | .range _ _ => .range
  | .sequence k _ => .sequence k
  | .mapping k _ => .mapping k
  | .record n _ _ => .record n
  | .function _ spec _ => if spec.object then .callableObject else .function
  | .builtin b => if b.isClass then .metatype else .builtin
  | .method (.wrapper _ _) _ | .method (.bound _ _ _) _ => .method
  | .method _ _ => .builtin
  | .type .ellipsis => .sealed (.builtin "ellipsis")
  | .type (.union true _) => .sealed (.builtin "UnionType")
  | .type (.forward _) => .sealed (.builtin "ForwardRef")
  | .type (.described _) => .sealed (.builtin "Shape")
  | .type _ => .metatype
  | .wrapper _ custom => .wrapper custom
  | .bound _ _ _ => .bound
  | .sealed _ v => .sealed v.sealedClass

mutual

/-- A type as a value: what is written in the place of a type stands for
itself. -/
def ofType : TypeExpr → HostValue
  | .none => .none
  | .text s => .str s
  | .group as | .params as => .list (ofTypes as)
  | t => .type t

def ofTypes : List TypeExpr → List HostValue
  | [] => []
  | a :: as => ofType a :: ofTypes as

end

mutual

/-- How deeply a value nests. -/
def depth : HostValue → Nat
  | .sequence _ items => depthList items + 1
  | .mapping _ entries => depthEntries entries + 1
  | .record _ _ fields => depthFields fields + 1
  | _ => 0

def depthList : List HostValue → Nat
  | [] => 0
  | v :: vs => max (depth v) (depthList vs)

def depthEntries : List (HostValue × HostValue) → Nat
  | [] => 0
  | (k, v) :: es => max (max (depth k) (depth v)) (depthEntries es)

def depthFields : List (String × HostValue) → Nat
  | [] => 0
  | (_, v) :: fs => max (depth v) (depthFields fs)

end

/-- The field of a record. -/
def field? : HostValue → String → Option HostValue
  | .record _ _ fields, name => (fields.find? (·.1 == name)).map (·.2)
  | _, _ => Option.none

end HostValue

end StackBridge
