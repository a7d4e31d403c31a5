import StackBridge.Host.Choice
import StackBridge.Host.Dict
import StackBridge.Host.Member
import StackBridge.Host.TypeText.Term

/-!
What type texts mean. Names stand for the classes of the session and for
what is built in; a text is evaluated like any expression, and its value is
the type. A value that is no type stays one that no conversion accepts, and a
tuple is refused at once.
-/

namespace StackBridge

namespace TypeText

-- ========================================================= what is built in

/-- The built-in classes that conversions know, or that have a name of their
own elsewhere. -/
def coreClasses : List (String × HostClass) :=
  [("bool", .boolean false), ("bytearray", .bytes .array), ("bytes", .bytes .plain),
   ("complex", .sealed .complex), ("dict", .mapping .plain), ("float", .float .plain),
   ("frozenset", .sealed .frozenSet), ("int", .integer .plain), ("list", .sequence .list),
   ("memoryview", .bytes .view), ("object", .sealed .object), ("range", .range),
   ("set", .sealed .set), ("staticmethod", .staticMethod), ("str", .text .plain),
   ("tuple", .sequence .tuple), ("type", .metatype),
   ("EnvironmentError", .sealed (.builtin "OSError")), ("IOError", .sealed (.builtin "OSError"))]

/-- The built-in classes that conversions do not know. -/
def otherClasses : List String :=
  ["ArithmeticError", "AssertionError", "AttributeError", "BaseException", "BaseExceptionGroup",
   "BlockingIOError", "BrokenPipeError", "BufferError", "BytesWarning", "ChildProcessError",
   "ConnectionAbortedError", "ConnectionError", "ConnectionRefusedError", "ConnectionResetError",
   "DeprecationWarning", "EOFError", "EncodingWarning", "Exception", "ExceptionGroup",
   "FileExistsError", "FileNotFoundError", "FloatingPointError", "FutureWarning",
   "GeneratorExit", "ImportError", "ImportWarning", "IndentationError", "IndexError",
   "InterruptedError", "IsADirectoryError", "KeyError", "KeyboardInterrupt", "LookupError",
   "MemoryError", "ModuleNotFoundError", "NameError", "NotADirectoryError",
   "NotImplementedError", "OSError", "OverflowError", "PendingDeprecationWarning",
   "PermissionError", "ProcessLookupError", "RecursionError", "ReferenceError",
   "ResourceWarning", "RuntimeError", "RuntimeWarning", "StopAsyncIteration", "StopIteration",
   "SyntaxError", "SyntaxWarning", "SystemError", "SystemExit", "TabError", "TimeoutError",
   "TypeError", "UnboundLocalError", "UnicodeDecodeError", "UnicodeEncodeError", "UnicodeError",
   "UnicodeTranslateError", "UnicodeWarning", "UserWarning", "ValueError", "Warning",
   "ZeroDivisionError", "classmethod", "enumerate", "filter", "map", "property", "reversed",
   "slice", "super", "zip"]

def functionNames : List String :=
  ["__build_class__", "__import__", "abs", "aiter", "all", "anext", "any", "ascii", "bin",
   "breakpoint", "callable", "chr", "compile", "delattr", "dir", "divmod", "eval", "exec",
   "format", "getattr", "globals", "hasattr", "hash", "hex", "id", "input", "isinstance",
   "issubclass", "iter", "len", "locals", "max", "min", "next", "oct", "open", "ord", "pow",
   "print", "repr", "round", "setattr", "sorted", "sum", "vars"]

/-- The value of a name that is built in. -/
def builtinValue? (n : String) : Option HostValue :=
  match coreClasses.find? (·.1 == n) with
  | some (_, c) => some (.type (.cls c))
  | none =>
    if otherClasses.contains n then some (.type (.cls (.sealed (.builtin n))))
    else if functionNames.contains n then
      some (.type (.constant n ("<built-in function " ++ n ++ ">")))
    else
      match n with
      | "Ellipsis" => some (.type .ellipsis)
      | "NotImplemented" => some (.type (.constant n n))
      | "__debug__" => some (.bool true)
      | _ => none

/-- The value of a name: a class of the session before what is built in. -/
def nameValue (cs : Classes) (n : String) : Except HostFault HostValue :=
  match (cs.class? n).map (fun c => HostValue.type (.cls c)) <|> builtinValue? n with
  | some v => .ok v
  | none => .error (.unresolvedName n)

-- ======================================================= values as types

mutual

/-- A value in the place of a type. -/
def asType (cs : Classes) : HostValue → TypeExpr
  | .none => .none
  | .type t => t
  | .text _ s => .text s
  | .sequence _ vs => .group (asTypes cs vs)
  | v =>
    let shown := ((v.display (cs.legend fun _ => .ok "")).toOption).getD ""
    match v with
    | .method owner name => .constant (owner.hostClass.name ++ "." ++ name) shown
    | _ => .constant shown shown

def asTypes (cs : Classes) : List HostValue → List TypeExpr
  | [] => []
  | v :: vs => asType cs v :: asTypes cs vs

end

/-- The types in an argument list: those of a tuple, or the only one. -/
def argumentTypes (cs : Classes) : HostValue → List TypeExpr
  | .sequence .tuple vs => asTypes cs vs
  | v => [asType cs v]

-- ============================================================ operations

/-- A value of which nothing matters but its display. -/
def constantOf (shown : String) : HostValue := .type (.constant shown shown)

/-- Whether a class takes arguments in brackets. -/
def takesArguments (cs : Classes) : HostClass → Bool
  | .sequence .list | .sequence .tuple | .mapping .plain | .sealed .set | .sealed .frozenSet
  | .metatype => true
  | .sealed (.builtin n) => ["enumerate", "BaseExceptionGroup", "ExceptionGroup"].contains n
  | .record n => cs.isTuple n
  | _ => false

/-- The item at a position; negative ones count from the end. -/
def itemAt? (vs : List HostValue) (i : Int) : Option HostValue :=
  let position := if i < 0 then (vs.length : Int) + i else i
  if position < 0 then none else vs[position.toNat]?

/-- A value with an index in brackets. -/
def indexed (cs : Classes) (v i : HostValue) : Except HostFault HostValue :=
  match v with
  | .type (.cls (.integer (.enum c))) =>
    match i with
    | .text _ s =>
      match cs.enumerated? c s with
      | some m => .ok m
      | none => .error (.noMember s)
    | i =>
      match i.unhashable? with
      | some t => .error (.unhashable t)
      | none => .error (.noMember c)
  | .type (.cls c) =>
    if takesArguments cs c then .ok (.type (.generic c (argumentTypes cs i)))
    else .error (.badType ("type '" ++ c.path ++ "' is not subscriptable"))
  | .type (.generic c as) =>
    .error (.badType ((TypeExpr.generic c as).display ++ " is not a generic class"))
  | .sequence _ vs =>
    match i.index? with
    | some n =>
      match itemAt? vs n with
      | some x => .ok x
      | none => .error .noSuchItem
    | none => .error (.badType "indices must be integers or slices")
  | v => .error (.badType ("'" ++ v.faultName ++ "' object is not subscriptable"))

/-- A member of a value. The names of a class are texts, and what a class
gives its instances goes by the names of both. -/
def memberOf (cs : Classes) (v : HostValue) (name : String) : Except HostFault HostValue :=
  match v with
  | .type (.cls c) => inClass c
  | .type (.generic c _) => if name = "__origin__" then .ok (.type (.cls c)) else inClass c
  | v => cs.member v name
where
  /-- The class that a class has its members from. -/
  giver : HostClass → String
    | .boolean false | .integer _ => "int"
    | c => c.name
  inClass (c : HostClass) : Except HostFault HostValue :=
    match name with
    | "__name__" | "__qualname__" => .ok (.str c.name)
    | _ =>
      (cs.member (.type (.cls c)) name).map fun x =>
        match x with
        | .method _ _ | .sealed _ _ => constantOf (giver c ++ "." ++ name)
        | x => x

/-- The integer that two integers make. -/
def integerOperation? (op : String) (a b : Int) : Option Int :=
  match op with
  | "+" => some (a + b)
  | "-" => some (a - b)
  | "*" => some (a * b)
  | "//" => if b = 0 then none else some (Int.fdiv a b)
  | "%" => if b = 0 then none else some (Int.fmod a b)
  | "|" => if a < 0 ∨ b < 0 then none else some (Nat.lor a.toNat b.toNat)
  | "&" => if a < 0 ∨ b < 0 then none else some (Nat.land a.toNat b.toNat)
  | "^" => if a < 0 ∨ b < 0 then none else some (Nat.xor a.toNat b.toNat)
  | _ => none

/-- Two values with an operator between them. -/
def operated (cs : Classes) (op : String) (a b : HostValue) : Except HostFault HostValue :=
  let refused : Except HostFault HostValue :=
    .error (.badType ("unsupported operand type(s) for " ++ op ++ ": '" ++ a.faultName ++ "' and '"
      ++ b.faultName ++ "'"))
  match a.index?, b.index? with
  | some m, some n =>
    match integerOperation? op m n, a, b with
    | some r, .boolean _ _, .boolean _ _ =>
      .ok (if ["|", "&", "^"].contains op then .bool (r != 0) else .int r)
    | some r, _, _ => .ok (.int r)
    | none, _, _ => refused
  | _, _ =>
    match op, a, b with
    | "|", a, b =>
      match (asType cs a).barChoice? (asType cs b) with
      | some t => .ok (.type t)
      | none => refused
    | "+", .text _ s, .text _ t => .ok (.str (s ++ t))
    | "+", .bytes .plain s, .bytes .plain t => .ok (.bytes .plain (s ++ t))
    | "+", .sequence .list s, .sequence .list t => .ok (.list (s ++ t))
    | "+", .sequence .tuple s, .sequence .tuple t => .ok (.sequence .tuple (s ++ t))
    | _, _, _ => refused

/-- A value with an operator in front of it. -/
def signed (op : String) (v : HostValue) : Except HostFault HostValue :=
  match op, v.index?, v with
  | "-", some n, _ => .ok (.int (-n))
  | "+", some n, _ => .ok (.int n)
  | "~", some n, _ => .ok (.int (-n - 1))
  | "-", _, .float _ x => .ok (.float .plain (Double.ofMagnitude (!x.negative) x.magnitude))
  | "+", _, .float _ x => .ok (.float .plain x)
  | _, _, v =>
    .error (.badType ("bad operand type for unary " ++ op ++ ": '" ++ v.faultName ++ "'"))

/-- Whether a comparison holds. -/
def holds (c : Comparison) (a b : HostValue) : Except HostFault Bool :=
  let ordered (mark : String) (less : Quantity → Quantity → Bool) : Except HostFault Bool :=
    match a.quantity?, b.quantity? with
    | some p, some q => .ok (less p q)
    | _, _ => .error (.notOrdered mark a.faultName b.faultName)
  let among : Except HostFault Bool :=
    match b with
    | .sequence _ vs => .ok (vs.any a.sameKey)
    | b => .error (.notIterable b.faultName)
  match c with
  | .equal | .identical => .ok (a.sameKey b)
  | .unequal | .distinct => .ok (!a.sameKey b)
  | .less => ordered "<" fun p q => p.less q
  | .greater => ordered ">" fun p q => q.less p
  | .atMost => ordered "<=" fun p q => p.less q || p.same q
  | .atLeast => ordered ">=" fun p q => q.less p || p.same q
  | .within => among
  | .outside => among.map (!·)

/-- What a class answers that is called without arguments. -/
def emptyOf? : HostClass → Option HostValue
  | .boolean false => some (.bool false)
  | .integer .plain => some (.int 0)
  | .float .plain => some (.float .plain Double.zero)
  | .text .plain => some (.str "")
  | .bytes .plain => some (.bytes .plain [])
  | .bytes .array => some (.bytes .array [])
  | .sealed .complex => some (constantOf "0j")
  | .sequence .list => some (.list [])
  | .sequence .tuple => some (.sequence .tuple [])
  | .mapping .plain => some (.mapping .plain [])
  | .sealed .set => some (constantOf "set()")
  | .sealed .frozenSet => some (constantOf "frozenset()")
  | _ => none

/-- A value called with arguments. A class of classes answers the class of its
argument; other calls are not made. -/
def called (v : HostValue) (args : List HostValue) : Except HostFault HostValue :=
  match v, args with
  | .type (.cls .metatype), [x] => .ok (.type (.cls x.hostClass))
  | .type (.cls c), [] | .type (.generic c _), [] =>
    match emptyOf? c with
    | some x => .ok x
    | none => .error (.noInstances c.name)
  | v, _ => .error (.notCallable v.faultName)

-- ============================================================ evaluation

mutual

/-- The value of a term. -/
def evaluate (cs : Classes) : Term → Except HostFault HostValue
  | .literal v => .ok v
  | .name n => nameValue cs n
  | .list ts => (evaluateAll cs ts).map .list
  | .tuple ts => (evaluateAll cs ts).map (.sequence .tuple)
  | .braces ks vs => do
    let keys ← evaluateAll cs ks
    let values ← evaluateAll cs vs
    if values.isEmpty && !keys.isEmpty then
      let members ← Dict.ofList (keys.map (·, .none))
      let parts ← members.mapM fun e => e.1.display (cs.legend fun _ => .ok "")
      return constantOf ("\x7b" ++ ", ".intercalate parts ++ "\x7d")
    else return .mapping .plain (← Dict.ofList (keys.zip values))
  | .slice ts => do
    let parts ← (← evaluateAll cs ts).mapM (·.display (cs.legend fun _ => .ok ""))
    return constantOf ("slice(" ++ ", ".intercalate parts ++ ")")
  | .member t n => do memberOf cs (← evaluate cs t) n
  | .index t i => do
    let v ← evaluate cs t
    indexed cs v (← evaluate cs i)
  | .call t args => do
    let v ← evaluate cs t
    called v (← evaluateAll cs args)
  | .unary op t => do signed op (← evaluate cs t)
  | .binary op a b => do
    let v ← evaluate cs a
    operated cs op v (← evaluate cs b)
  | .compare a rest => do
    let v ← evaluate cs a
    return .bool (← evaluateChain cs v rest)
  | .not t => do return .bool !(← evaluate cs t).truth
  | .both a b => do
    let v ← evaluate cs a
    if v.truth then evaluate cs b else return v
  | .either a b => do
    let v ← evaluate cs a
    if v.truth then return v else evaluate cs b
  | .choice c a b => do
    if (← evaluate cs c).truth then evaluate cs a else evaluate cs b
  | .lambda => .ok (.type (.constant "<lambda>" "<function <lambda> at 0x?>"))

def evaluateAll (cs : Classes) : List Term → Except HostFault (List HostValue)
  | [] => .ok []
  | t :: ts => do
    let v ← evaluate cs t
    let vs ← evaluateAll cs ts
    return v :: vs

/-- Whether each of several comparisons in a row holds. -/
def evaluateChain (cs : Classes) (v : HostValue) :
    List (Comparison × Term) → Except HostFault Bool
  | [] => .ok true
  | (c, t) :: rest => do
    let w ← evaluate cs t
    if ← holds c v w then evaluateChain cs w rest else return false

end

/-- Whether a text is an expression. -/
def isExpression (s : String) : Bool := (term? s).isSome

/-- The type that a text stands for, the texts in it as they are. -/
def meaning (cs : Classes) (s : String) : Except HostFault TypeExpr :=
  match term? s with
  | none => .error (.badTypeText s)
  | some t =>
    match evaluate cs t with
    | .error f => .error f
    | .ok (.sequence .tuple _) =>
      .error (.badType "Forward references must evaluate to types.")
    | .ok v => .ok (asType cs v).signaturePart

end TypeText

end StackBridge
