import StackBridge.Host.Definition

/-!
Members of host values: the fields of records, the parts of numbers, the
properties of byte views, ranges and queues, and methods. A method is known
by name; it belongs to a value and can be passed on. The members of wrappers
and of bound functions depend on the session and are not here.
-/

namespace StackBridge

-- =============================================================== methods

namespace HostClass

def integerMethods : List String :=
  ["as_integer_ratio", "bit_count", "bit_length", "conjugate", "from_bytes", "to_bytes"]

def floatMethods : List String := ["as_integer_ratio", "conjugate", "fromhex", "hex", "is_integer"]

def fractionMethods : List String :=
  ["as_integer_ratio", "conjugate", "from_decimal", "from_float", "limit_denominator"]

def decimalMethods : List String :=
  ["adjusted", "as_integer_ratio", "as_tuple", "canonical", "compare", "compare_signal",
   "compare_total", "compare_total_mag", "conjugate", "copy_abs", "copy_negate", "copy_sign",
   "exp", "fma", "from_float", "is_canonical", "is_finite", "is_infinite", "is_nan", "is_normal",
   "is_qnan", "is_signed", "is_snan", "is_subnormal", "is_zero", "ln", "log10", "logb",
   "logical_and", "logical_invert", "logical_or", "logical_xor", "max", "max_mag", "min",
   "min_mag", "next_minus", "next_plus", "next_toward", "normalize", "number_class", "quantize",
   "radix", "remainder_near", "rotate", "same_quantum", "scaleb", "shift", "sqrt",
   "to_eng_string", "to_integral", "to_integral_exact", "to_integral_value"]

/-- The methods that texts and byte strings share. -/
def stringMethods : List String :=
  ["capitalize", "center", "count", "endswith", "expandtabs", "find", "index", "isalnum", "isalpha",
   "isascii", "isdigit", "islower", "isspace", "istitle", "isupper", "join", "ljust", "lower",
   "lstrip", "maketrans", "partition", "removeprefix", "removesuffix", "replace", "rfind",
   "rindex", "rjust", "rpartition", "rsplit", "rstrip", "split", "splitlines", "startswith",
   "strip", "swapcase", "title", "translate", "upper", "zfill"]

def textMethods : List String :=
  ["casefold", "encode", "format", "format_map", "isdecimal", "isidentifier", "isnumeric",
   "isprintable"] ++ stringMethods

def bytesMethods : List String := ["decode", "fromhex", "hex"] ++ stringMethods

def listMethods : List String :=
  ["append", "clear", "copy", "count", "extend", "index", "insert", "pop", "remove", "reverse",
   "sort"]

def arrayMethods : List String :=
  ["append", "clear", "copy", "extend", "insert", "pop", "remove", "reverse"] ++ bytesMethods

def viewMethods : List String := ["cast", "hex", "release", "tobytes", "tolist", "toreadonly"]

def dequeMethods : List String :=
  ["append", "appendleft", "clear", "copy", "count", "extend", "extendleft", "index", "insert",
   "pop", "popleft", "remove", "reverse", "rotate"]

def dictMethods : List String :=
  ["clear", "copy", "fromkeys", "get", "items", "keys", "pop", "popitem", "setdefault", "update",
   "values"]

def setMethods : List String :=
  ["add", "clear", "copy", "difference", "difference_update", "discard", "intersection",
   "intersection_update", "isdisjoint", "issubset", "issuperset", "pop", "remove",
   "symmetric_difference", "symmetric_difference_update", "union", "update"]

/-- The methods of the sized numbers, which they share with arrays. -/
def sizedMethods : List String :=
  ["all", "any", "argmax", "argmin", "argsort", "astype", "byteswap", "choose", "clip", "compress",
   "conj", "conjugate", "copy", "cumprod", "cumsum", "diagonal", "dump", "dumps", "fill",
   "flatten", "getfield", "item", "max", "mean", "min", "nonzero", "prod", "put", "ravel",
   "repeat", "reshape", "resize", "round", "searchsorted", "setfield", "setflags", "sort",
   "squeeze", "std", "sum", "swapaxes", "take", "tobytes", "tofile", "tolist", "trace",
   "transpose", "var", "view"]

/-- The methods of a class. -/
def methods : HostClass → List String
  | .boolean true => sizedMethods
  | .integer (.sized _) => ["bit_count", "is_integer"] ++ sizedMethods
  | .float .single => ["as_integer_ratio", "is_integer"] ++ sizedMethods
  | .float .double => floatMethods ++ sizedMethods
  | .boolean false | .integer _ => integerMethods
  | .float _ => floatMethods
  | .fraction => fractionMethods
  | .text _ => textMethods
  | .bytes .array => arrayMethods
  | .bytes .view => viewMethods
  | .bytes .terminated => "terminated" :: bytesMethods
  | .bytes _ => bytesMethods
  | .sequence .list | .sequence .customList | .sequence .callableList => listMethods
  | .sequence .tuple | .sequence .customTuple | .range => ["count", "index"]
  | .sequence .deque => dequeMethods
  | .mapping .ordered => "move_to_end" :: dictMethods
  | .mapping _ => dictMethods
  | .sealed .set => setMethods
  | .sealed .complex => ["conjugate"]
  | .sealed .decimal => decimalMethods
  | .wrapper _ => ["push", "release", "to"]
  | .bound => ["release"]
  | _ => []

/-- The members of the values of a class that are no methods. -/
def properties : HostClass → List String
  | .boolean _ | .integer _ => ["denominator", "imag", "numerator", "real"]
  | .float _ | .sealed .complex | .sealed .decimal => ["imag", "real"]
  | .fraction => ["denominator", "imag", "numerator", "real"]
  | .bytes .view =>
    ["c_contiguous", "contiguous", "f_contiguous", "format", "itemsize", "nbytes", "ndim", "obj",
     "readonly", "shape", "strides", "suboffsets"]
  | .sequence .deque => ["maxlen"]
  | .range => ["start", "step", "stop"]
  | _ => []

end HostClass

-- ============================================================ properties

namespace HostValue

/-- How many bytes the stored form of a sized number takes. -/
def storedSize : HostValue → Nat
  | .integer (.sized w) _ => w.bits / 8
  | .float .single _ => 4
  | .float _ _ => 8
  | _ => 1

/-- What a sized number shares with arrays: it is one without dimensions. -/
def sizedProperty? (v : HostValue) : String → Option HostValue
  | "size" => some (.int 1)
  | "ndim" => some (.int 0)
  | "itemsize" | "nbytes" => some (.int v.storedSize)
  | "shape" | "strides" => some (.sequence .tuple [])
  | "base" => some .none
  | "T" => some v
  | _ => Option.none

/-- The parts of a number. -/
def numberPart? : HostValue → String → Option HostValue
  | .boolean false b, name => integerPart? (if b then 1 else 0) name
  | .boolean true b, name =>
    match name with
    | "real" => some (.boolean true b)
    | "imag" => some (.boolean true false)
    | _ => Option.none
  | .integer (.sized w) n, name =>
    match name with
    | "real" | "numerator" => some (.integer (.sized w) n)
    | "imag" => some (.integer (.sized w) 0)
    | "denominator" => some (.int 1)
    | _ => Option.none
  | .integer _ n, name => integerPart? n name
  | .float k x, name =>
    let kind : FloatKind := if k = .custom then .plain else k
    match name with
    | "real" => some (.float kind (if k = .plain then x else x.untagged))
    | "imag" => some (.float kind Double.zero)
    | _ => Option.none
  | .fraction n d, name =>
    match name with
    | "real" => some (.fraction n d)
    | "imag" => some (.int 0)
    | "numerator" => some (.int n)
    | "denominator" => some (.int d)
    | _ => Option.none
  | .sealed _ .complex, name =>
    match name with
    | "real" => some (.float .plain Double.zero)
    | "imag" => some (.float .plain (Double.ofInt 1))
    | _ => Option.none
  | .sealed id .decimal, name =>
    if name = "real" ∨ name = "imag" then some (.sealed id .decimal) else Option.none
  | _, _ => Option.none
where
  integerPart? (n : Int) : String → Option HostValue
    | "real" | "numerator" => some (.int n)
    | "imag" => some (.int 0)
    | "denominator" => some (.int 1)
    | _ => Option.none

/-- A property of a view of bytes: one dimension, one byte an item. -/
def viewProperty? (b : Bytes) : String → Option HostValue
  | "nbytes" => some (.int b.length)
  | "itemsize" | "ndim" => some (.int 1)
  | "readonly" | "c_contiguous" | "f_contiguous" | "contiguous" => some (.bool true)
  | "format" => some (.str "B")
  | "shape" => some (.sequence .tuple [.int b.length])
  | "strides" => some (.sequence .tuple [.int 1])
  | "suboffsets" => some (.sequence .tuple [])
  | "obj" => some (.bytes .plain b)
  | _ => Option.none

/-- The members of a value that its class does not tell. -/
def property? (v : HostValue) (name : String) : Option HostValue :=
  match v with
  | .bytes .view b => viewProperty? b name
  | .range a b =>
    match name with
    | "start" => some (.int a)
    | "stop" => some (.int b)
    | "step" => some (.int 1)
    | _ => Option.none
  | .sequence .deque _ => if name = "maxlen" then some .none else Option.none
  | v =>
    match v.numberPart? name with
    | some x => some x
    | Option.none => if v.isSized then v.sizedProperty? name else Option.none

/-- The class whose methods a value has; classes have those of their
instances. -/
def methodClass : HostValue → HostClass
  | .builtin .int => .integer .plain
  | .builtin .str => .text .plain
  | .type (.cls c) | .type (.generic c _) => c
  | v => v.hostClass

/-- What stands for a property in the class that has it. -/
def descriptor : HostValue := .sealed 0 (.builtin "getset_descriptor")

def isClass : HostValue → Bool
  | .builtin .int | .builtin .str | .type (.cls _) | .type (.generic _ _) => true
  | _ => false

end HostValue

-- =============================================================== members

namespace Classes

/-- The methods of the classes that are tuples of their fields. -/
def tupleMethods : List String := ["_asdict", "_make", "_replace", "count", "index"]

/-- The member of an enumeration with a name. -/
def enumerated? (cs : Classes) (c name : String) : Option HostValue :=
  ((cs.members c).find? (·.1 == name)).map fun m => .integer (.enum c) m.2

/-- A member of an enumeration's member: its name, its number, or another
member. -/
def enumMember? (cs : Classes) (c : String) (n : Int) : String → Option HostValue
  | "name" | "_name_" => (cs.memberName c n).map .str
  | "value" | "_value_" => some (.int n)
  | other => cs.enumerated? c other

/-- A member that a defined class gives its instances. -/
def definedMember? (cs : Classes) (v : HostValue) (name : String) : Option HostValue :=
  match v with
  | .integer (.enum c) n => cs.enumMember? c n name
  | .type (.cls (.integer (.enum c))) => cs.enumerated? c name
  | .type (.cls (.record c)) =>
    ((cs.fields c).find? (·.name == name)).bind fun f =>
      match f.default with
      | .value d => some d
      | _ => none
  | .record c true fields =>
    match name with
    | "_fields" => some (.sequence .tuple ((cs.fields c).map fun f => .str f.name))
    | _ =>
      if tupleMethods.contains name && (fields.all (·.1 != name)) then some (.method v name)
      else none
  | _ => none

/-- A member of a value. -/
def member (cs : Classes) (v : HostValue) (name : String) : Except HostFault HostValue :=
  match v.field? name, cs.definedMember? v name with
  | some x, _ => .ok x
  | _, some x => .ok x
  | none, none =>
    if v.methodClass.methods.contains name then .ok (.method v name)
    else if name = "__class__" then .ok (.type (.cls v.hostClass))
    else if v.isClass && v.methodClass.properties.contains name then .ok HostValue.descriptor
    else
      match v.property? name with
      | some x => .ok x
      | none => .error (.noAttribute v.memberOwner name)

end Classes

end StackBridge
