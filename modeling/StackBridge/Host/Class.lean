import StackBridge.Category
import StackBridge.Power

/-!
The classes of host values and the shape each converts by. A class's shape
decides how its values are pushed and read, and the shape's category is the
one a slot must have; classes without a shape are not supported.
-/

namespace StackBridge

-- ================================================================ shapes

/-- How values of a host type cross the bridge. -/
inductive Shape where
  | dynamic
  | absent
  | boolean
  | integer
  | float
  | textPointer
  | buffer
  | mapping
  | record
  | sequence
  | callable
deriving DecidableEq, Repr

namespace Shape

def name : Shape → String
  | .dynamic => "dynamic"
  | .absent => "absent"
  | .boolean => "boolean"
  | .integer => "integer"
  | .float => "float"
  | .textPointer => "text-pointer"
  | .buffer => "buffer"
  | .mapping => "mapping"
  | .record => "record"
  | .sequence => "sequence"
  | .callable => "callable"

/-- The category of the slots that values of a shape occupy. -/
def category : Shape → Category
  | .dynamic => .dynamic
  | .absent => .nil
  | .boolean => .boolean
  | .integer | .float => .number
  | .textPointer | .buffer => .string
  | .mapping | .record | .sequence => .table
  | .callable => .function

end Shape

-- =========================================================== value classes

/-- The integer types of a fixed width. -/
inductive IntWidth where
  | int8 | int16 | int32 | int64 | uint8 | uint16 | uint32 | uint64
deriving DecidableEq, Repr

namespace IntWidth

def name : IntWidth → String
  | .int8 => "int8" | .int16 => "int16" | .int32 => "int32" | .int64 => "int64"
  | .uint8 => "uint8" | .uint16 => "uint16" | .uint32 => "uint32" | .uint64 => "uint64"

def bits : IntWidth → Nat
  | .int8 | .uint8 => 8
  | .int16 | .uint16 => 16
  | .int32 | .uint32 => 32
  | .int64 | .uint64 => 64

def signed : IntWidth → Bool
  | .int8 | .int16 | .int32 | .int64 => true
  | _ => false

/-- Whether an integer fits the width. -/
def fits (w : IntWidth) (n : Int) : Bool :=
  if w.signed then decide (-(twoPow (w.bits - 1) : Int) ≤ n ∧ n < (twoPow (w.bits - 1) : Int))
  else decide (0 ≤ n ∧ n < (twoPow w.bits : Int))

def all : List IntWidth := [.int8, .int16, .int32, .int64, .uint8, .uint16, .uint32, .uint64]

end IntWidth

/-- The classes of integers. `custom` and `callable` are plain subclasses, the
second one with instances that can be called. -/
inductive IntegerKind where
  | plain
  | custom
  | callable
  | enum (name : String)
  | sized (width : IntWidth)
deriving DecidableEq, Repr

inductive FloatKind where
  | plain
  | custom
  | single
  | double
deriving DecidableEq, Repr

inductive TextKind where
  | plain
  | custom
deriving DecidableEq, Repr

/-- The classes of byte strings; `terminated` ends at its first zero byte. -/
inductive BytesKind where
  | plain
  | custom
  | array
  | view
  | terminated
deriving DecidableEq, Repr

inductive SequenceKind where
  | list
  | customList
  | callableList
  | tuple
  | customTuple
  | deque
deriving DecidableEq, Repr

inductive MappingKind where
  | plain
  | custom
  | ordered
deriving DecidableEq, Repr

/-- Classes whose values do not cross the bridge. -/
inductive SealedClass where
  | complex
  | decimal
  | set
  | frozenSet
  | object
  | number
  | enum
  | iterable
  | machine
  | custom
  /-- Arrays of sized numbers. -/
  | array
  /-- A built-in class that nothing else is known of. -/
  | builtin (name : String)
deriving DecidableEq, Repr

/-- A host class. The `abstract` ones have no instances of their own. -/
inductive HostClass where
  | wrapper (custom : Bool)
  | nilMarker
  | none
  | boolean (sized : Bool)
  | integer (kind : IntegerKind)
  | abstractInteger
  | abstractEnum
  | float (kind : FloatKind)
  | abstractReal
  | fraction
  | text (kind : TextKind)
  | bytes (kind : BytesKind)
  | mapping (kind : MappingKind)
  | abstractMapping
  | mappingRecord
  | record (name : String)
  | callableRecord
  | sequence (kind : SequenceKind)
  | range
  | abstractSequence
  | abstractCallable
  | function
  | builtin
  | method
  | bound
  | metatype
  | staticMethod
  | callableObject
  | sealed (kind : SealedClass)
deriving DecidableEq, Repr

namespace HostClass

/-- The shape of a class; none when it is not supported. Truth values come
before integers and records before sequences, although they are those too. -/
def shape? : HostClass → Option Shape
  | .wrapper _ => some .dynamic
  | .nilMarker | .none => some .absent
  | .boolean _ => some .boolean
  | .integer _ | .abstractInteger | .abstractEnum => some .integer
  | .float _ | .abstractReal | .fraction => some .float
  | .bytes .terminated => some .textPointer
  | .text _ | .bytes _ => some .buffer
  | .mapping _ | .abstractMapping | .mappingRecord => some .mapping
  | .record _ | .callableRecord => some .record
  | .sequence _ | .range | .abstractSequence => some .sequence
  | .abstractCallable | .function | .builtin | .method | .bound | .metatype | .staticMethod
  | .callableObject =>
    some .callable
  | .sealed _ => Option.none

-- ================================================================== names

/-- The home of a class's name; empty for the names that need none. -/
def home : HostClass → String
  | .wrapper false => "luastack.objects"
  | .nilMarker => "luastack.types.nil"
  | .boolean true | .integer (.sized _) | .float .single | .float .double | .sealed .array =>
    "numpy"
  | .wrapper true | .integer .custom | .integer .callable | .integer (.enum _) | .float .custom
  | .text .custom | .bytes .custom | .mapping .custom | .mappingRecord | .record _
  | .callableRecord | .sequence .customList | .sequence .callableList | .sequence .customTuple
  | .callableObject | .sealed .custom => "rec"
  | .abstractInteger | .abstractReal | .sealed .number => "numbers"
  | .abstractEnum | .sealed .enum => "enum"
  | .fraction => "fractions"
  | .bytes .terminated => "luastack.types.cstring"
  | .mapping .ordered | .sequence .deque => "collections"
  | .abstractMapping | .abstractSequence | .abstractCallable | .sealed .iterable =>
    "collections.abc"
  | .bound => "luastack.conversions.functions"
  | .sealed .decimal => "decimal"
  | .sealed .machine => "luastack.vm.state"
  | _ => ""

def name : HostClass → String
  | .wrapper false => "LuaObject"
  | .wrapper true => "MyObj"
  | .nilMarker => "NilType"
  | .none => "NoneType"
  | .boolean _ => "bool"
  | .integer .plain => "int"
  | .integer .custom => "MyInt"
  | .integer .callable => "CallInt"
  | .integer (.enum n) => n
  | .integer (.sized w) => w.name
  | .abstractInteger => "Integral"
  | .abstractEnum => "IntEnum"
  | .float .plain => "float"
  | .float .custom => "MyFloat"
  | .float .single => "float32"
  | .float .double => "float64"
  | .abstractReal => "Real"
  | .fraction => "Fraction"
  | .text .plain => "str"
  | .text .custom => "MyStr"
  | .bytes .plain => "bytes"
  | .bytes .custom => "MyBytes"
  | .bytes .array => "bytearray"
  | .bytes .view => "memoryview"
  | .bytes .terminated => "CString"
  | .mapping .plain => "dict"
  | .mapping .custom => "MyDict"
  | .mapping .ordered => "OrderedDict"
  | .abstractMapping => "Mapping"
  | .mappingRecord => "MapRec"
  | .record n => n
  | .callableRecord => "CallRec"
  | .sequence .list => "list"
  | .sequence .customList => "MyList"
  | .sequence .callableList => "CallList"
  | .sequence .tuple => "tuple"
  | .sequence .customTuple => "MyTuple"
  | .sequence .deque => "deque"
  | .range => "range"
  | .abstractSequence => "Sequence"
  | .abstractCallable => "Callable"
  | .function => "function"
  | .builtin => "builtin_function_or_method"
  | .method => "method"
  | .bound => "BoundFunction"
  | .metatype => "type"
  | .staticMethod => "staticmethod"
  | .callableObject => "CallObj"
  | .sealed .complex => "complex"
  | .sealed .decimal => "Decimal"
  | .sealed .set => "set"
  | .sealed .frozenSet => "frozenset"
  | .sealed .object => "object"
  | .sealed .number => "Number"
  | .sealed .enum => "Enum"
  | .sealed .iterable => "Iterable"
  | .sealed .machine => "LuaState"
  | .sealed .custom => "Opaque"
  | .sealed .array => "ndarray"
  | .sealed (.builtin n) => n

/-- The name with its home in front. -/
def path (c : HostClass) : String := if c.home = "" then c.name else c.home ++ "." ++ c.name

/-- The name in conversion faults: classes of the host's own libraries show
their home there. -/
def faultName : HostClass → String
  | c@(.boolean true) | c@(.integer (.sized _)) | c@(.float .single) | c@(.float .double)
  | c@(.mapping .ordered) | c@(.sequence .deque) | c@(.sealed .decimal) | c@(.sealed .array) =>
    c.path
  | c => c.name

/-- Whether a class is displayed as an enumeration. -/
def isEnum : HostClass → Bool
  | .integer (.enum _) | .abstractEnum | .sealed .enum => true
  | _ => false

/-- A class on display. -/
def display (c : HostClass) : String :=
  if c.isEnum then "<enum '" ++ c.name ++ "'>" else "<class '" ++ c.path ++ "'>"

-- =========================================================== the atoms

/-- The classes that types can name directly, besides the defined ones. -/
def atoms : List (String × HostClass) :=
  [("LuaObject", .wrapper false), ("MyObj", .wrapper true), ("Nil", .nilMarker),
   ("NoneType", .none), ("bool", .boolean false), ("np.bool", .boolean true),
   ("int", .integer .plain), ("MyInt", .integer .custom), ("CallInt", .integer .callable),
   ("Integral", .abstractInteger), ("IntEnum", .abstractEnum), ("float", .float .plain),
   ("MyFloat", .float .custom), ("Real", .abstractReal), ("Fraction", .fraction),
   ("np.float32", .float .single), ("np.float64", .float .double), ("CString", .bytes .terminated),
   ("str", .text .plain), ("MyStr", .text .custom), ("bytes", .bytes .plain),
   ("MyBytes", .bytes .custom), ("bytearray", .bytes .array), ("memoryview", .bytes .view),
   ("dict", .mapping .plain), ("MyDict", .mapping .custom), ("OrderedDict", .mapping .ordered),
   ("Mapping", .abstractMapping), ("MapRec", .mappingRecord), ("CallRec", .callableRecord),
   ("list", .sequence .list), ("MyList", .sequence .customList),
   ("CallList", .sequence .callableList), ("tuple", .sequence .tuple),
   ("MyTuple", .sequence .customTuple), ("range", .range), ("deque", .sequence .deque),
   ("Sequence", .abstractSequence), ("abc.Callable", .abstractCallable), ("function", .function),
   ("builtin", .builtin), ("BoundFunction", .bound), ("type", .metatype),
   ("CallObj", .callableObject), ("complex", .sealed .complex), ("Decimal", .sealed .decimal),
   ("set", .sealed .set), ("frozenset", .sealed .frozenSet), ("object", .sealed .object),
   ("Number", .sealed .number), ("Enum", .sealed .enum), ("Iterable", .sealed .iterable),
   ("LuaState", .sealed .machine), ("Opaque", .sealed .custom)]
  ++ IntWidth.all.map fun w => ("np." ++ w.name, .integer (.sized w))

/-- The class that an atom names. -/
def ofAtom? (s : String) : Option HostClass := (atoms.find? (·.1 == s)).map (·.2)

end HostClass

end StackBridge
